/-
Packetizers and depacketizers, by what their users rely on. A packetizer sends the header its
fields encode, sampled with its first beat, and then the beats of its sink. A depacketizer shifts
the first beats of a packet into a register, whose content its decoded fields are, and passes the
others on. `Packetizer.words` and `Depacketizer.words` are the ones for headers of a whole number
of words.
-/
import Mathlib.Tactic

namespace LiteEth.Rtl

/-- A beat of a packet stream. -/
structure Beat (dw : ℕ) where
  data : BitVec dw
  lastBe : BitVec (dw / 8)
  error : BitVec (dw / 8)
  last : Bool
  deriving DecidableEq

/-- A valid beat that is the last of its packet. -/
def isLast {dw : ℕ} (b : Option (Beat dw)) : Bool := b.any (·.last)

theorem isSome_of_isLast {dw : ℕ} {b : Option (Beat dw)} (h : isLast b = true) : b.isSome = true := by
  cases b with
  | none => cases h
  | some x => rfl

/-- A packetizer of headers `H`. Its functions take the header fields and the beat at its sink (if
valid), and `source.ready`. -/
structure Packetizer (H : Type) (dw : ℕ) where
  State : Type
  reset : State
  /-- The header of the packet that is being sent. -/
  header : State → Option H
  source : State → H → Option (Beat dw) → Option (Beat dw)
  sinkReady : State → H → Option (Beat dw) → Bool → Bool
  step : State → H → Option (Beat dw) → Bool → State
  header_reset : header reset = none
  /-- A packet at the sink starts with a beat of its header. -/
  source_idle : ∀ s h b, header s = none → (source s h b).isSome = b.isSome ∧ isLast (source s h b) = false
  sinkReady_idle : ∀ s h b r, header s = none → sinkReady s h (some b) r = false
  header_step : ∀ s h b r, header (step s h b r) =
    if (source s h b).isSome && r then (if isLast (source s h b) then none else some ((header s).getD h))
    else header s

/-- A depacketizer of headers `H`. Its functions take the beat at its sink (if valid) and
`source.ready`. -/
structure Depacketizer (H : Type) (dw : ℕ) where
  State : Type
  reset : State
  /-- The decoded fields of the shift register. -/
  header : State → H
  /-- Beats of a header are awaited. -/
  inHeader : State → Bool
  source : State → Option (Beat dw) → Option (Beat dw)
  sinkReady : State → Option (Beat dw) → Bool → Bool
  step : State → Option (Beat dw) → Bool → State
  inHeader_reset : inHeader reset = true
  source_inHeader : ∀ s b, inHeader s = true → source s b = none
  /-- Only the beats of a header are shifted in. -/
  header_step : ∀ s b r, inHeader s = false ∨ b = none → header (step s b r) = header s
  /-- The next header is awaited once the last beat is taken. -/
  inHeader_step : ∀ s b r, inHeader s = false → inHeader (step s b r) = (isLast (source s b) && r)

/-! ## Headers of a whole number of words -/

variable {H : Type} {dw : ℕ}

/-- A beat of a header. -/
def Beat.ofWord (w : BitVec dw) : Beat dw := { data := w, lastBe := 0, error := 0, last := false }

/-- The packetizer of headers of `n` words; its register is the header that is being sent with the
number of its words still to come. -/
def Packetizer.words (n : ℕ) (word : H → ℕ → BitVec dw) : Packetizer H dw where
  State := Option (H × ℕ)
  reset := none
  header s := s.map Prod.fst
  source s h b := match s with
    | none => b.map fun _ => .ofWord (word h 0)
    | some (h', k + 1) => some (.ofWord (word h' (n - (k + 1))))
    | some (_, 0) => b
  sinkReady s _ b r := match s with
    | none => b.isNone
    | some (_, _ + 1) => false
    | some (_, 0) => b.isSome && r
  step s h b r := match s with
    | none => if b.isSome && r then some (h, n - 1) else none
    | some (h', k + 1) => if r then some (h', k) else s
    | some (_, 0) => if isLast b && r then none else s
  header_reset := rfl
  source_idle s h b hs := by
    cases s with
    | none => cases b <;> simp [isLast, Beat.ofWord]
    | some x => cases hs
  sinkReady_idle s h b r hs := by
    cases s with
    | none => rfl
    | some x => cases hs
  header_step s h b r := by
    rcases s with _ | ⟨h', _ | k⟩
    · cases b <;> cases r <;> simp [isLast, Beat.ofWord]
    · rcases b with _ | ⟨_, _, _, l⟩
      · simp [isLast]
      · cases l <;> cases r <;> simp [isLast]
    · cases r <;> simp [isLast, Beat.ofWord]

/-- The depacketizer of headers of `n` words; its registers are the last `n` header words and the
number of those of the current packet. -/
def Depacketizer.words (n : ℕ) (hn : 0 < n) (fields : List (BitVec dw) → H) : Depacketizer H dw where
  State := List (BitVec dw) × ℕ
  reset := (List.replicate n 0, 0)
  header s := fields s.1
  inHeader s := decide (s.2 < n)
  source s b := if s.2 < n then none else b
  sinkReady s b r := if s.2 < n then true else b.isSome && r
  step s b r :=
    if s.2 < n then b.elim s fun x => (s.1.tail ++ [x.data], s.2 + 1)
    else if isLast b && r then (s.1, 0) else s
  inHeader_reset := by simpa using hn
  source_inHeader s b hs := if_pos (by simpa using hs)
  header_step s b r hs := by
    by_cases h : s.2 < n
    · obtain hs | rfl := hs
      · simp [h] at hs
      · simp [h]
    · by_cases hl : isLast b && r <;> simp [h, hl]
  inHeader_step s b r hs := by
    have h : ¬ s.2 < n := by simpa using hs
    by_cases hl : isLast b && r
    · simp [h, hl, hn]
    · simp [h, hl]

end LiteEth.Rtl
