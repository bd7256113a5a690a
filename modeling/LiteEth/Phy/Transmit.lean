/-
The transmitters of the PHYs, `phy/mii.py` and `phy/rmii.py`: bytes go to the pads in parts, the lowest one first, while
`tx_en` is high. What is offered to one is a list of offers, each of which stands at the sink until it is taken or, if it
is none, for one cycle.
-/
import LiteEth.Rtl.StrideSplitter

namespace LiteEth.Phy

open LiteEth.Rtl

/-- The pads of a line in a cycle: `tx_en` or `rx_dv`, and the data. -/
structure Pads (w : ℕ) where
  en : Bool
  data : BitVec w
  deriving DecidableEq

/-- `sink.valid` and `sink.data`. -/
structure Offer where
  valid : Bool
  data : BitVec 8
  deriving DecidableEq

/-- Nothing is offered. -/
def Offer.none : Offer := ⟨false, 0⟩

/-- A transmitter: its registers, the pads they drive, and its side of the handshake. -/
structure Transmitter (w : ℕ) where
  State : Type
  reset : State
  pads : State → Pads w
  /-- `sink.ready`. -/
  ready : State → Bool
  next : State → Offer → State

namespace Transmitter

variable {w : ℕ} (T : Transmitter w)

/-- The offers that are still to be made after a cycle. -/
def left (s : T.State) : List Offer → List Offer
  | [] => []
  | o :: q => if o.valid && !T.ready s then o :: q else q

/-- The registers and the offers after `n` cycles. -/
def after : ℕ → T.State → List Offer → T.State × List Offer
  | 0, s, q => (s, q)
  | n + 1, s, q => after n (T.next s (q.headD .none)) (T.left s q)

/-- The pads in each of `n` cycles. -/
def line : ℕ → T.State → List Offer → List (Pads w)
  | 0, _, _ => []
  | n + 1, s, q => T.pads s :: line n (T.next s (q.headD .none)) (T.left s q)

/-- The pads after each of them. -/
def sent : ℕ → T.State → List Offer → List (Pads w)
  | 0, _, _ => []
  | n + 1, s, q => T.pads (T.next s (q.headD .none)) :: sent n (T.next s (q.headD .none)) (T.left s q)

@[simp] theorem after_succ (n : ℕ) (s : T.State) (q : List Offer) :
    T.after (n + 1) s q = T.after n (T.next s (q.headD .none)) (T.left s q) := rfl

@[simp] theorem line_succ (n : ℕ) (s : T.State) (q : List Offer) :
    T.line (n + 1) s q = T.pads s :: T.line n (T.next s (q.headD .none)) (T.left s q) := rfl

@[simp] theorem sent_succ (n : ℕ) (s : T.State) (q : List Offer) : T.sent (n + 1) s q =
    T.pads (T.next s (q.headD .none)) :: T.sent n (T.next s (q.headD .none)) (T.left s q) := rfl

theorem after_add (m n : ℕ) (s : T.State) (q : List Offer) :
    T.after (m + n) s q = T.after n (T.after m s q).1 (T.after m s q).2 := by
  induction m generalizing s q with
  | zero => rw [Nat.zero_add]; rfl
  | succ m ih => rw [Nat.succ_add]; exact ih _ _

theorem sent_add (m n : ℕ) (s : T.State) (q : List Offer) :
    T.sent (m + n) s q = T.sent m s q ++ T.sent n (T.after m s q).1 (T.after m s q).2 := by
  induction m generalizing s q with
  | zero => rw [Nat.zero_add]; rfl
  | succ m ih =>
    rw [Nat.succ_add]
    exact congrArg (_ :: ·) (ih _ _)

theorem line_concat (n : ℕ) (s : T.State) (q : List Offer) :
    T.line (n + 1) s q = T.line n s q ++ [T.pads (T.after n s q).1] := by
  induction n generalizing s q with
  | zero => rfl
  | succ n ih => exact congrArg (T.pads s :: ·) (ih _ _)

/-- The pads are those after the cycle before. -/
theorem line_sent (n : ℕ) (s : T.State) (q : List Offer) : T.line (n + 1) s q = T.pads s :: T.sent n s q := by
  induction n generalizing s q with
  | zero => rfl
  | succ n ih => exact congrArg (T.pads s :: ·) (ih _ _)

/-- A transmitter takes each offer in the cycles for which the pads are `wire o`, from registers of a kind to registers
of that kind. -/
structure Carries (Q : T.State → Prop) (wire : Offer → List (Pads w)) : Prop where
  carry : ∀ s o q, Q s → ∃ s', Q s' ∧ T.after (wire o).length s (o :: q) = (s', q) ∧
    T.sent (wire o).length s (o :: q) = wire o

variable {T} in
/-- So it does with the offers one after the other. -/
theorem Carries.run {Q : T.State → Prop} {wire : Offer → List (Pads w)} (h : T.Carries Q wire) (q r : List Offer) :
    ∀ s, Q s → ∃ s', Q s' ∧ T.after (q.flatMap wire).length s (q ++ r) = (s', r) ∧
      T.sent (q.flatMap wire).length s (q ++ r) = q.flatMap wire := by
  induction q with
  | nil => exact fun s hs => ⟨s, hs, rfl, rfl⟩
  | cons o q ih =>
    intro s hs
    obtain ⟨s', hs', hafter, hsent⟩ := h.carry s o (q ++ r) hs
    obtain ⟨s'', hs'', hafter', hsent'⟩ := ih s' hs'
    rw [List.flatMap_cons, List.length_append, List.cons_append]
    refine ⟨s'', hs'', ?_, ?_⟩
    · rw [after_add, hafter]
      exact hafter'
    · rw [sent_add, hafter, hsent, hsent']

end Transmitter

/-! ## Transmitters with a converter -/

/-- The pads for an offer, in parts. -/
def parts (w ratio : ℕ) (o : Offer) : List (Pads w) :=
  if o.valid then (split w ratio o.data).map (⟨true, ·⟩) else [⟨false, o.data.extractLsb' 0 w⟩]

section Stride

variable {w ratio : ℕ} (hw : ratio * w = 8) (S : StrideSplitter w ratio)

/-- The converter, whose source is always ready, and the pads. -/
structure StrideTX.State where
  converter : S.State
  pads : Pads w

/-- `LiteEthPHYMIITX` and `LiteEthPHYRMIITX`. -/
abbrev strideTX : Transmitter w where
  State := StrideTX.State S
  reset := ⟨S.reset, ⟨false, 0⟩⟩
  pads s := s.pads
  ready s := S.sinkReady s.converter true
  next s o := ⟨S.step s.converter o.valid true, ⟨o.valid, S.data s.converter (o.data.cast hw.symm)⟩⟩

variable {S}

/-- Between words. -/
def StrideTX.Aligned (s : StrideTX.State S) : Prop := S.count s.converter = 0

theorem extract_cast (d : BitVec 8) (i n : ℕ) : (d.cast hw.symm).extractLsb' i n = d.extractLsb' i n :=
  BitVec.eq_of_toNat_eq (by simp)

/-- The parts of a byte from the `k`-th on are sent, with the byte at the sink until the last one. -/
theorem strideTX_parts (b : BitVec 8) (q : List Offer) (m : ℕ) : ∀ (s : StrideTX.State S) (k : ℕ), S.count s.converter = k →
    k + m + 1 = ratio → ∃ s', StrideTX.Aligned s' ∧ (strideTX hw S).after (m + 1) s (⟨true, b⟩ :: q) = (s', q) ∧
      (strideTX hw S).sent (m + 1) s (⟨true, b⟩ :: q) =
        (List.range' k (m + 1)).map fun j => ⟨true, b.extractLsb' (j * w) w⟩ := by
  -- induction on the parts that are left
  induction m with
  | zero =>
    intro s k hk hm
    have hlast : S.count s.converter + 1 = ratio := by omega
    have hready : (strideTX hw S).ready s = true := by
      show S.sinkReady _ _ = true
      rw [S.sinkReady_eq, hlast]
      simp
    refine ⟨(strideTX hw S).next s ⟨true, b⟩, ?_, ?_, ?_⟩
    · show S.count (S.step _ _ _) = 0
      rw [S.count_step _ _ _ (by omega), if_pos hlast]
      rfl
    · rw [Transmitter.after_succ, Transmitter.left, hready]
      rfl
    · rw [Transmitter.sent_succ, List.range'_one, List.map_singleton]
      show [(⟨true, S.data s.converter (b.cast hw.symm)⟩ : Pads w)] = _
      rw [S.data_eq, hk, extract_cast hw]
  | succ m ih =>
    intro s k hk hm
    have hmore : S.count s.converter + 1 ≠ ratio := by omega
    have hready : (strideTX hw S).ready s = false := by
      show S.sinkReady _ _ = false
      rw [S.sinkReady_eq, decide_eq_false hmore, Bool.false_and]
    have hcount : S.count ((strideTX hw S).next s ⟨true, b⟩).converter = k + 1 := by
      show S.count (S.step _ _ _) = k + 1
      rw [S.count_step _ _ _ (by omega), if_neg hmore, hk]
      rfl
    obtain ⟨s', hs', hafter, hsent⟩ := ih _ (k + 1) hcount (by omega)
    have hleft : (strideTX hw S).left s (⟨true, b⟩ :: q) = ⟨true, b⟩ :: q := by
      rw [Transmitter.left, hready]
      rfl
    refine ⟨s', hs', ?_, ?_⟩
    · rw [Transmitter.after_succ, hleft]
      exact hafter
    · rw [Transmitter.sent_succ, hleft, List.range'_succ, List.map_cons]
      refine congrArg₂ List.cons ?_ hsent
      show (⟨true, S.data s.converter (b.cast hw.symm)⟩ : Pads w) = _
      rw [S.data_eq, hk, extract_cast hw]

/-- Each byte is sent in its parts, and nothing for one cycle. -/
theorem strideTX_carries : (strideTX hw S).Carries StrideTX.Aligned (parts w ratio) := by
  have hpos : 0 < ratio := Nat.pos_of_ne_zero fun h => by rw [h, Nat.zero_mul] at hw; cases hw
  refine ⟨fun s o q hs => ?_⟩
  obtain ⟨v, b⟩ := o
  cases v with
  | true =>
    have hlen : (parts w ratio ⟨true, b⟩).length = ratio - 1 + 1 := by
      simp only [parts, if_true, split, List.length_map, List.length_range]
      omega
    obtain ⟨s', hs', hafter, hsent⟩ := strideTX_parts hw b q (ratio - 1) s 0 hs (by omega)
    rw [hlen]
    refine ⟨s', hs', hafter, hsent.trans ?_⟩
    rw [parts, if_pos rfl, split, List.map_map, List.range_eq_range', show ratio - 1 + 1 = ratio by omega]
    rfl
  | false =>
    refine ⟨(strideTX hw S).next s ⟨false, b⟩, ?_, rfl, ?_⟩
    · show S.count (S.step _ _ _) = 0
      rw [S.count_step _ _ _ (by rw [hs]; exact hpos)]
      exact hs
    · show [(⟨false, S.data s.converter (b.cast hw.symm)⟩ : Pads w)] = _
      rw [S.data_eq, hs, extract_cast hw, Nat.zero_mul]
      rfl

end Stride

end LiteEth.Phy
