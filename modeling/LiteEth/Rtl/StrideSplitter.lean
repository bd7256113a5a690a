/-
Converters from wide words to narrow parts, by what their users rely on: while a word is at the sink its parts are at the
source, the lowest one first, and the word is taken with the last of them. `StrideSplitter.counting` is the converter
whose register counts the parts.
-/
import LiteEth.Rtl.StrideConverter
import Mathlib.Tactic

namespace LiteEth.Rtl

/-- The parts of a word, the lowest one first. -/
def split (w ratio : ℕ) {n : ℕ} (d : BitVec n) : List (BitVec w) := (List.range ratio).map fun k => d.extractLsb' (k * w) w

theorem foldr_parts (w d k m : ℕ) : (List.range' k m).foldr (fun j v => (d >>> (j * w)) % 2 ^ w + 2 ^ w * v) 0 =
    (d >>> (k * w)) % 2 ^ (m * w) := by
  induction m generalizing k with
  | zero => simp [Nat.mod_one]
  | succ m ih =>
    have hnext : d >>> ((k + 1) * w) = d >>> (k * w) / 2 ^ w := by
      rw [Nat.succ_mul, Nat.shiftRight_add, Nat.shiftRight_eq_div_pow (d >>> (k * w))]
    rw [List.range'_succ, List.foldr_cons, ih, hnext, Nat.succ_mul, Nat.add_comm (m * w), Nat.pow_add, Nat.mod_mul]

/-- The parts of a word make it up. -/
theorem pack_split (w ratio : ℕ) {n : ℕ} (hn : n = ratio * w) (d : BitVec n) : pack n (split w ratio d) = d := by
  refine BitVec.eq_of_toNat_eq ?_
  have hfold := foldr_parts w d.toNat 0 ratio
  rw [Nat.zero_mul, Nat.shiftRight_zero, ← hn, Nat.mod_eq_of_lt d.isLt] at hfold
  rw [pack, split, List.foldr_map, List.range_eq_range', BitVec.toNat_ofNat]
  simp only [BitVec.extractLsb'_toNat]
  rw [hfold, Nat.mod_eq_of_lt d.isLt]

/-- A converter of a word to `ratio` parts of `w` bits. Its source is valid when its sink is. -/
structure StrideSplitter (w ratio : ℕ) where
  State : Type
  reset : State
  /-- `source.data`, given `sink.data`. -/
  data : State → BitVec (ratio * w) → BitVec w
  /-- `sink.ready`, given `source.ready`. -/
  sinkReady : State → Bool → Bool
  /-- The registers after a clock edge, given `source.valid` and `source.ready`. -/
  step : State → Bool → Bool → State
  count : State → ℕ
  count_reset : count reset = 0
  data_eq : ∀ c d, data c d = d.extractLsb' (count c * w) w
  sinkReady_eq : ∀ c r, sinkReady c r = (decide (count c + 1 = ratio) && r)
  /-- A part that is taken is counted. -/
  count_step : ∀ c v r, count c < ratio →
    count (step c v r) = if v && r then if count c + 1 = ratio then 0 else count c + 1 else count c

namespace StrideSplitter

/-- The converter kept as the number of parts that are gone. -/
def counting (w ratio : ℕ) : StrideSplitter w ratio where
  State := ℕ
  reset := 0
  data c d := d.extractLsb' (c * w) w
  sinkReady c r := c + 1 == ratio && r
  step c v r := if v && r then if c + 1 = ratio then 0 else c + 1 else c
  count c := c
  count_reset := rfl
  data_eq _ _ := rfl
  sinkReady_eq _ _ := rfl
  count_step _ _ _ _ := rfl

end StrideSplitter

end LiteEth.Rtl
