/-
Converters from narrow words to wide ones, by what their users rely on: the parts of a word are packed, the first one
lowest, and the word is at the source in the cycle after its last part; a part that is the last of its packet ends its
word early. `StrideConverter.packing` is the converter whose registers are the list of the parts and the word at the
source.
-/
import Mathlib.Tactic

namespace LiteEth.Rtl

/-- The word of some parts, the first one lowest. -/
def pack {w : ℕ} (n : ℕ) (ds : List (BitVec w)) : BitVec n :=
  BitVec.ofNat n (ds.foldr (fun d v => d.toNat + 2 ^ w * v) 0)

/-- A converter of `ratio` parts of `w` bits to a word. -/
structure StrideConverter (w ratio : ℕ) where
  State : Type
  reset : State
  /-- The word at the source, if valid, and whether it is the last of its packet. -/
  source : State → Option (BitVec (ratio * w) × Bool)
  /-- The registers after a clock edge, given the part at the sink (if valid) and `source.ready`. -/
  step : State → Option (BitVec w × Bool) → Bool → State
  parts : State → List (BitVec w)
  source_reset : source reset = none
  parts_reset : parts reset = []
  /-- Nothing is loaded while a word waits at the source. -/
  step_wait : ∀ c d x, source c = some x → source (step c d false) = some x ∧ parts (step c d false) = parts c
  step_none : ∀ c r, parts (step c none r) = parts c ∧ source (step c none r) = if r then none else source c
  step_part : ∀ c d r, source c = none ∨ r = true → (parts c).length + 1 < ratio →
    parts (step c (some (d, false)) r) = parts c ++ [d] ∧ source (step c (some (d, false)) r) = none
  step_word : ∀ c d l r, source c = none ∨ r = true → (parts c).length + 1 = ratio →
    parts (step c (some (d, l)) r) = [] ∧ source (step c (some (d, l)) r) = some (pack _ (parts c ++ [d]), l)
  step_last : ∀ c d r, source c = none ∨ r = true →
    parts (step c (some (d, true)) r) = [] ∧ ∃ word, source (step c (some (d, true)) r) = some (word, true)

namespace StrideConverter

/-- The converter kept as the parts of its word and the word at its source. -/
def packing (w ratio : ℕ) : StrideConverter w ratio where
  State := List (BitVec w) × Option (BitVec (ratio * w) × Bool)
  reset := ([], none)
  source c := c.2
  -- a word is held until it is taken; parts gather while there is none
  step c d r :=
    if c.2.isNone || r then
      match d with
      | none => (c.1, none)
      | some (d, l) =>
        if c.1.length + 1 = ratio || l then ([], some (pack _ (c.1 ++ [d]), l)) else (c.1 ++ [d], none)
    else c
  parts c := c.1
  source_reset := rfl
  parts_reset := rfl
  step_wait c d x h := by simp [h]
  step_none c r := by
    obtain ⟨ds, o⟩ := c
    cases o <;> cases r <;> simp
  step_part c d r h hlt := by
    have hload : (c.2.isNone || r) = true := by simpa using h
    have hne : c.1.length + 1 ≠ ratio := by omega
    simp [hload, hne]
  step_word c d l r h heq := by
    have hload : (c.2.isNone || r) = true := by simpa using h
    simp [hload, heq]
  step_last c d r h := by
    have hload : (c.2.isNone || r) = true := by simpa using h
    simp [hload]

end StrideConverter

end LiteEth.Rtl
