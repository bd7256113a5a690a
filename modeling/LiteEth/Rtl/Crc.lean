/-
Reflected cyclic redundancy checks. The register moves right and the polynomial is added whenever a
one leaves it, so a step is linear, and invertible when the polynomial has its top bit. Data is
added at the low end: a word of data before the steps for its bits is the same as one bit before each
step, and consecutive words that fit the register are the same as their concatenation.
-/
import Mathlib.Tactic

namespace LiteEth.Rtl.Crc

variable {w : ℕ} (poly : BitVec w)

/-! ## The register -/

/-- One step of the register. -/
def shift (c : BitVec w) : BitVec w := (c >>> 1) ^^^ (if c.getLsbD 0 then poly else 0)

/-- `n` steps of the register. -/
def shifts : ℕ → BitVec w → BitVec w
  | 0, c => c
  | n + 1, c => shift poly (shifts n c)

theorem getLsbD_shift (c : BitVec w) (i : ℕ) :
    (shift poly c).getLsbD i = (c.getLsbD (i + 1) ^^ (c.getLsbD 0 && poly.getLsbD i)) := by
  unfold shift
  rw [BitVec.getLsbD_xor, BitVec.getLsbD_ushiftRight, Nat.add_comm 1 i]
  cases c.getLsbD 0 <;> simp

theorem shifts_add (m n : ℕ) (c : BitVec w) : shifts poly (m + n) c = shifts poly n (shifts poly m c) := by
  induction n with
  | zero => rfl
  | succ n ih => rw [Nat.add_succ, shifts, shifts, ih]

theorem shift_xor (a b : BitVec w) : shift poly (a ^^^ b) = shift poly a ^^^ shift poly b := by
  apply BitVec.eq_of_getLsbD_eq
  intro i _
  simp only [getLsbD_shift, BitVec.getLsbD_xor]
  cases a.getLsbD 0 <;> cases b.getLsbD 0 <;> cases poly.getLsbD i <;> cases a.getLsbD (i + 1) <;> simp

theorem shifts_xor (n : ℕ) (a b : BitVec w) :
    shifts poly n (a ^^^ b) = shifts poly n a ^^^ shifts poly n b := by
  induction n with
  | zero => rfl
  | succ n ih => simp only [shifts, ih, shift_xor]

variable {poly}

/-- The bit that left the register is the top bit of what it leaves behind. -/
theorem shift_injective (hp : poly.getLsbD (w - 1) = true) : Function.Injective (shift poly) := by
  intro a b hab
  have hbit : ∀ i, (a.getLsbD (i + 1) ^^ (a.getLsbD 0 && poly.getLsbD i)) =
      (b.getLsbD (i + 1) ^^ (b.getLsbD 0 && poly.getLsbD i)) := fun i => by
    rw [← getLsbD_shift, ← getLsbD_shift, hab]
  have h0 : a.getLsbD 0 = b.getLsbD 0 := by
    have := hbit (w - 1)
    rw [hp, BitVec.getLsbD_of_ge a (w - 1 + 1) (by omega), BitVec.getLsbD_of_ge b (w - 1 + 1) (by omega)] at this
    simpa using this
  apply BitVec.eq_of_getLsbD_eq
  intro i _
  cases i with
  | zero => exact h0
  | succ i =>
    have := hbit i
    rw [h0] at this
    exact Bool.xor_left_inj.1 this

theorem shifts_injective (hp : poly.getLsbD (w - 1) = true) (n : ℕ) : Function.Injective (shifts poly n) := by
  induction n with
  | zero => exact Function.injective_id
  | succ n ih => exact (shift_injective hp).comp ih

/-- A register whose low `k` bits are clear only moves down. -/
theorem shifts_clear (c : BitVec w) : ∀ k, (∀ i < k, c.getLsbD i = false) → shifts poly k c = c >>> k
  | 0, _ => by simp [shifts]
  | k + 1, h => by
    have ih := shifts_clear c k fun i hi => h i (by omega)
    have hbit : (c >>> k).getLsbD 0 = false := by
      rw [BitVec.getLsbD_ushiftRight]; exact h k (by omega)
    rw [shifts, ih, shift, hbit, BitVec.shiftRight_add]
    simp

/-- Bits moved up come down again, unless they left the register. -/
theorem shifts_shiftLeft (c : BitVec w) (k : ℕ) (hc : ∀ i, w ≤ i + k → c.getLsbD i = false) :
    shifts poly k (c <<< k) = c := by
  rw [shifts_clear _ k (fun i hi => by rw [BitVec.getLsbD_shiftLeft]; simp [hi])]
  apply BitVec.eq_of_getLsbD_eq
  intro i hi
  rw [BitVec.getLsbD_ushiftRight, BitVec.getLsbD_shiftLeft]
  by_cases h : w ≤ i + k
  · rw [hc i h]; simp; omega
  · have h1 : k + i < w := by omega
    have h2 : ¬ k + i < k := by omega
    simp [h1, h2]

/-! ## Data -/

variable (poly)

/-- The register after a word of data. -/
def feed {n : ℕ} (c : BitVec w) (d : BitVec n) : BitVec w := shifts poly n (c ^^^ d.setWidth w)

/-- The register after one bit of data. -/
def feedBit (c : BitVec w) (b : Bool) : BitVec w := feed poly c (BitVec.ofBool b)

variable {poly}

theorem setWidth_append {m n : ℕ} (d : BitVec m) (d' : BitVec n) :
    (d' ++ d).setWidth w = d.setWidth w ^^^ (d'.setWidth w <<< m) := by
  apply BitVec.eq_of_getLsbD_eq
  intro i hi
  rw [BitVec.getLsbD_setWidth, BitVec.getLsbD_append, BitVec.getLsbD_xor, BitVec.getLsbD_setWidth,
    BitVec.getLsbD_shiftLeft, BitVec.getLsbD_setWidth]
  by_cases h : i < m
  · simp [h, hi]
  · have h1 : i - m < w := by omega
    simp [h, hi, h1, BitVec.getLsbD_of_ge d i (by omega)]

/-- Two words, one after the other, are their concatenation, the first one low. -/
theorem feed_append {m n : ℕ} (hw : m + n ≤ w) (c : BitVec w) (d : BitVec m) (d' : BitVec n) :
    feed poly (feed poly c d) d' = feed poly c (d' ++ d) := by
  have hd : shifts poly m (d'.setWidth w <<< m) = d'.setWidth w := by
    apply shifts_shiftLeft
    intro i hi
    rw [BitVec.getLsbD_setWidth, BitVec.getLsbD_of_ge d' i (by omega)]; simp
  unfold feed
  rw [setWidth_append, Nat.add_comm n m, shifts_add, ← BitVec.xor_assoc, shifts_xor poly m _ (_ <<< _), hd]

/-- A word is its bits, the low one first. -/
theorem feed_bits {n : ℕ} (hw : n ≤ w) (c : BitVec w) (d : BitVec n) :
    (List.range n).foldl (fun c i => feedBit poly c (d.getLsbD i)) c = feed poly c d := by
  -- bit by bit from the lowest: after k bits, the lower k bits are fed
  have h : ∀ k ≤ n, (List.range k).foldl (fun c i => feedBit poly c (d.getLsbD i)) c = feed poly c (d.setWidth k) := by
    intro k hk
    induction k with
    | zero =>
      have h0 : (d.setWidth 0).setWidth w = 0 := by
        apply BitVec.eq_of_getLsbD_eq
        intro i _
        rw [BitVec.getLsbD_setWidth, BitVec.getLsbD_of_ge (d.setWidth 0) i (Nat.zero_le _)]; simp
      rw [List.range_zero, List.foldl_nil, feed, shifts, h0]
      exact (BitVec.xor_zero).symm
    | succ k ih =>
      have happ : feed poly c (BitVec.ofBool (d.getLsbD k) ++ d.setWidth k) = feed poly c (d.setWidth (k + 1)) := by
        -- one bit in front of k bits makes the lower k + 1 bits
        have hbits : (BitVec.ofBool (d.getLsbD k) ++ d.setWidth k).setWidth w = (d.setWidth (k + 1)).setWidth w := by
          apply BitVec.eq_of_getLsbD_eq
          intro i _
          simp only [BitVec.getLsbD_setWidth, BitVec.getLsbD_append, BitVec.getLsbD_ofBool]
          rcases Nat.lt_trichotomy i k with h | h | h
          · simp [h, Nat.lt_succ_of_lt h]
          · simp [h]
          · have h1 : ¬ i < k := by omega
            have h2 : ¬ i < k + 1 := by omega
            have h3 : ¬ i - k = 0 := by omega
            simp [h1, h2, h3]
        unfold feed
        rw [hbits, Nat.add_comm 1 k]
      rw [List.range_succ, List.foldl_append, ih (by omega), List.foldl_cons, List.foldl_nil, feedBit,
        feed_append (by omega), happ]
  simpa using h n le_rfl

/-- The register after a word of its own width tells the word. -/
theorem feed_eq_iff (hp : poly.getLsbD (w - 1) = true) (c d r : BitVec w) :
    feed poly c d = shifts poly w r ↔ d = c ^^^ r := by
  unfold feed
  rw [(shifts_injective hp w).eq_iff, BitVec.setWidth_eq]
  constructor
  · rintro rfl
    rw [← BitVec.xor_assoc, BitVec.xor_self, BitVec.zero_xor]
  · rintro rfl
    rw [← BitVec.xor_assoc, BitVec.xor_self, BitVec.zero_xor]

end LiteEth.Rtl.Crc
