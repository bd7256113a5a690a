/-
Ring buffers of `n` positions: the positions taken between a read pointer and a write pointer,
oldest first. The write pointer is not among them as long as one position is free.
-/
import Mathlib.Data.Nat.ModEq
import Mathlib.Data.List.Range

namespace LiteEth.Rtl.Ring

/-- The `len` positions from read pointer `r` on. -/
def slots (n r len : Nat) : List Nat := (List.range len).map fun j => (r + j) % n

@[simp] theorem slots_zero (n r : Nat) : slots n r 0 = [] := rfl

/-- Taking the position at the write pointer. -/
theorem slots_push (n r len : Nat) : slots n r len ++ [(r + len) % n] = slots n r (len + 1) := by
  simp [slots, List.range_succ]

/-- Giving back the position at the read pointer. -/
theorem slots_tail (n r len : Nat) : (slots n r len).tail = slots n (r + 1) (len - 1) := by
  cases len with
  | zero => rfl
  | succ len =>
    simp only [slots, List.range_succ_eq_map, List.map_cons, List.tail_cons, List.map_map, Nat.add_sub_cancel]
    refine List.map_congr_left fun j _ => ?_
    simp only [Function.comp, Nat.succ_eq_add_one]
    congr 1; omega

/-- Two offsets below `n` from one pointer name different positions. -/
theorem offset_inj {n r i j : Nat} (hi : i < n) (hj : j < n) (h : (r + i) % n = (r + j) % n) : i = j := by
  have h' : i ≡ j [MOD n] := Nat.ModEq.add_left_cancel' r h
  exact Nat.ModEq.eq_of_lt_of_lt h' hi hj

/-- With a free position, the write pointer is not among the taken ones. -/
theorem write_not_mem {n r len : Nat} (h : len < n) : (r + len) % n ∉ slots n r len := by
  intro hm
  obtain ⟨j, hj, he⟩ := List.mem_map.1 hm
  rw [List.mem_range] at hj
  have := offset_inj (by omega) h he
  omega

end LiteEth.Rtl.Ring
