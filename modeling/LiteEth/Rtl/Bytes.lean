/-
Natural numbers as bytes, bit by bit: `int.to_bytes` and `int.from_bytes` in both orders, and the sum of numbers that
share no bit.
-/
import Mathlib.Data.List.GetD
import Mathlib.Tactic

namespace LiteEth.Rtl

/-! ## Bytes -/

/-- The `n` low bytes of a number, the lowest first. -/
def littleBytes (v n : ℕ) : List (BitVec 8) := (List.range n).map fun i => BitVec.ofNat 8 (v >>> (8 * i))

/-- The number of the bytes, the lowest first. -/
def ofLittle : List (BitVec 8) → ℕ
  | [] => 0
  | b :: bs => 2 ^ 8 * ofLittle bs + b.toNat

/-- Bit `k` of a list of bytes is bit `k % 8` of byte `k / 8`. -/
theorem testBit_ofLittle (bs : List (BitVec 8)) (k : ℕ) :
    (ofLittle bs).testBit k = (bs.getD (k / 8) 0).getLsbD (k % 8) := by
  induction bs generalizing k with
  | nil => simp [ofLittle]
  | cons b bs ih =>
    rw [ofLittle, Nat.testBit_two_pow_mul_add _ b.isLt]
    by_cases low : k < 8
    · rw [if_pos low, Nat.div_eq_of_lt low, Nat.mod_eq_of_lt low]
      rfl
    · have index : k / 8 = (k - 8) / 8 + 1 := by omega
      have bit : k % 8 = (k - 8) % 8 := by omega
      rw [if_neg low, ih, index, bit, List.getD_cons_succ]

@[simp]
theorem length_littleBytes (v n : ℕ) : (littleBytes v n).length = n := by simp [littleBytes]

theorem getLsbD_littleBytes {v n i : ℕ} (inside : i < n) {k : ℕ} (bit : k < 8) :
    ((littleBytes v n).getD i 0).getLsbD k = v.testBit (8 * i + k) := by
  have entry : (littleBytes v n).getD i 0 = BitVec.ofNat 8 (v >>> (8 * i)) := by
    rw [List.getD_eq_getElem _ _ (by simpa using inside)]
    simp [littleBytes]
  rw [entry, BitVec.getLsbD_ofNat, Nat.testBit_shiftRight, decide_eq_true bit, Bool.true_and]

/-- The bytes of a number the other way round. -/
theorem testBit_swapped (v n k : ℕ) : (ofLittle (littleBytes v n).reverse).testBit k =
    (decide (k < 8 * n) && v.testBit (8 * (n - 1 - k / 8) + k % 8)) := by
  rw [testBit_ofLittle]
  by_cases inside : k < 8 * n
  · rw [List.getD_reverse _ (by rw [length_littleBytes]; omega), length_littleBytes,
      getLsbD_littleBytes (by omega) (Nat.mod_lt _ (by decide)), decide_eq_true inside, Bool.true_and]
  · rw [List.getD_eq_default _ _ (by rw [List.length_reverse, length_littleBytes]; omega)]
    simp [inside]

theorem ofLittle_littleBytes {v n : ℕ} (fits : v < 2 ^ (8 * n)) : ofLittle (littleBytes v n) = v := by
  refine Nat.eq_of_testBit_eq fun k => ?_
  rw [testBit_ofLittle]
  by_cases inside : k < 8 * n
  · rw [getLsbD_littleBytes (by omega) (Nat.mod_lt _ (by decide)), Nat.div_add_mod]
  · rw [List.getD_eq_default _ _ (by rw [length_littleBytes]; omega),
      Nat.testBit_lt_two_pow (lt_of_lt_of_le fits (Nat.pow_le_pow_right (by decide) (by omega)))]
    simp

/-- A shift register of bytes. -/
theorem foldl_bytes (bs : List (BitVec 8)) : bs.foldl (fun a x => a * 256 + x.toNat) 0 = ofLittle bs.reverse := by
  induction bs using List.reverseRecOn with
  | nil => rfl
  | append_singleton bs b ih =>
    rw [List.foldl_append, ih, List.reverse_concat, ofLittle, Nat.mul_comm]
    rfl

/-! ## Sums -/

/-- Two numbers that share no bit are added by joining their bits. -/
theorem testBit_add_of_disjoint {a b : ℕ} (disjoint : ∀ k, a.testBit k = true → b.testBit k = false) (k : ℕ) :
    (a + b).testBit k = (a.testBit k || b.testBit k) := by
  have fits : a + b < 2 ^ (a + b) := Nat.lt_two_pow_self
  have zero : BitVec.ofNat (a + b) a &&& BitVec.ofNat (a + b) b = 0#(a + b) := by
    refine BitVec.eq_of_getLsbD_eq fun i hi => ?_
    rw [BitVec.getLsbD_and, BitVec.getLsbD_ofNat, BitVec.getLsbD_ofNat, BitVec.getLsbD_zero]
    cases set : a.testBit i with
    | false => simp
    | true => simp [disjoint i set]
  have sum := congrArg BitVec.toNat (BitVec.add_eq_or_of_and_eq_zero _ _ zero)
  rw [BitVec.toNat_add, BitVec.toNat_or, BitVec.toNat_ofNat, BitVec.toNat_ofNat,
    Nat.mod_eq_of_lt (show a < 2 ^ (a + b) by omega), Nat.mod_eq_of_lt (show b < 2 ^ (a + b) by omega),
    Nat.mod_eq_of_lt fits] at sum
  rw [sum, Nat.testBit_or]

/-- A number of `len` bits at bit `start`. -/
structure Placed where
  start : ℕ
  len : ℕ
  number : ℕ

namespace Placed

/-- The bits it takes. -/
def Takes (p : Placed) (k : ℕ) : Prop := p.start ≤ k ∧ k < p.start + p.len

/-- Its share of the sum. -/
def term (p : Placed) : ℕ := p.number <<< p.start

theorem testBit_term {p : Placed} (small : p.number < 2 ^ p.len) {k : ℕ} (outside : ¬ p.Takes k) :
    p.term.testBit k = false := by
  rw [term, Nat.testBit_shiftLeft]
  by_cases above : p.start ≤ k
  · have beyond : p.len ≤ k - p.start := by
      have : ¬ k < p.start + p.len := fun lt => outside ⟨above, lt⟩
      omega
    rw [Nat.testBit_lt_two_pow (lt_of_lt_of_le small (Nat.pow_le_pow_right (by decide) beyond)), Bool.and_false]
  · simp [above]

/-- No bit is taken by two of them. -/
def Disjoint (p q : Placed) : Prop := ∀ k, p.Takes k → ¬ q.Takes k

instance : Std.Symm Disjoint := ⟨fun _ _ apart k hq hp => apart k hp hq⟩

/-- The numbers fit their places, and the places are apart. -/
structure Apart (ps : List Placed) : Prop where
  small : ∀ p ∈ ps, p.number < 2 ^ p.len
  disjoint : ps.Pairwise Disjoint

variable {ps : List Placed}

theorem Apart.tail {p : Placed} (h : Apart (p :: ps)) : Apart ps :=
  ⟨fun q hq => h.small q (List.mem_cons_of_mem p hq), (List.pairwise_cons.1 h.disjoint).2⟩

/-- A bit of the sum is a bit of one of them. -/
theorem testBit_sum_eq_any (h : Apart ps) (k : ℕ) :
    (ps.map term).sum.testBit k = ps.any fun p => p.term.testBit k := by
  induction ps generalizing k with
  | nil => exact Nat.zero_testBit k
  | cons p ps ih =>
    have apart := (List.pairwise_cons.1 h.disjoint).1
    rw [List.map_cons, List.sum_cons, List.any_cons, ← ih h.tail]
    refine testBit_add_of_disjoint (fun i set => ?_) k
    have takes : p.Takes i := by
      by_contra outside
      rw [testBit_term (h.small p List.mem_cons_self) outside] at set
      cases set
    rw [ih h.tail, List.any_eq_false]
    intro q hq
    rw [testBit_term (h.small q (List.mem_cons_of_mem p hq)) (apart q hq i takes)]
    exact Bool.false_ne_true

/-- A bit that none of them takes is not in the sum. -/
theorem testBit_sum_eq_false (h : Apart ps) {k : ℕ} (outside : ∀ p ∈ ps, ¬ p.Takes k) :
    (ps.map term).sum.testBit k = false := by
  rw [testBit_sum_eq_any h, List.any_eq_false]
  intro p hp
  rw [testBit_term (h.small p hp) (outside p hp)]
  exact Bool.false_ne_true

/-- Each of them stands in the sum as it is. -/
theorem testBit_sum (h : Apart ps) {p : Placed} (member : p ∈ ps) {k : ℕ} (inside : k < p.len) :
    (ps.map term).sum.testBit (p.start + k) = p.number.testBit k := by
  have own : p.term.testBit (p.start + k) = p.number.testBit k := by
    rw [term, Nat.testBit_shiftLeft, decide_eq_true (Nat.le_add_right _ _), Nat.add_sub_cancel_left, Bool.true_and]
  have takes : p.Takes (p.start + k) := ⟨Nat.le_add_right _ _, Nat.add_lt_add_left inside _⟩
  have apart := h.disjoint.forall
  rw [testBit_sum_eq_any h]
  cases set : p.number.testBit k with
  | true => exact List.any_eq_true.2 ⟨p, member, own.trans set⟩
  | false =>
    refine List.any_eq_false.2 fun q hq => ?_
    -- the others take other bits
    have clear : q.term.testBit (p.start + k) = false := by
      by_cases same : q = p
      · rw [same, own, set]
      · exact testBit_term (h.small q hq) fun both => apart hq member same _ both takes
    rw [clear]
    exact Bool.false_ne_true

end Placed

end LiteEth.Rtl
