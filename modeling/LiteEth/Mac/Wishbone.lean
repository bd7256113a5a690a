/-
`mac/wishbone.py`: how `LiteEthMACWishboneInterface` tells from an address which slot is meant. Its windows are those that
`mac/__init__.py` advertises in `slot_size` and that `gen.py` makes room for.
-/
import LiteEth.Common

namespace LiteEth.Mac.Wishbone

/-! ## Sizes -/

/-- `slot_size`, in bytes. -/
def slotSize : ℕ := 2 ^ bitsFor ethMtu

/-- `buffer_depth` of `common.py`. -/
def bufferDepth : ℕ := 2 ^ log2Int ethMtu

/-- `mac_memsize` of `gen.py`. -/
def macMemsize (nrxslots ntxslots : ℕ) : ℕ := (nrxslots + ntxslots) * bufferDepth

/-- `sram_depth`, in words. -/
def sramDepth (dw : ℕ) : ℕ := ethMtu / (dw / 8)

/-- `log2_int(n)`, which raises an error if `n` is not a power of two. -/
def log2IntPow2 (n : ℕ) : Option ℕ := if n = 0 ∨ 2 ^ log2Int n = n then some (log2Int n) else none

theorem log2IntPow2_two_pow (k : ℕ) : log2IntPow2 (2 ^ k) = some k := by
  unfold log2IntPow2
  rw [log2Int_two_pow]
  exact if_pos (.inr rfl)

/-- What is advertised is what there is room for. -/
theorem slotSize_eq : slotSize = bufferDepth := by decide

/-- A slot takes the addresses of its window, in words. -/
theorem window_eq : 2 ^ log2Int (sramDepth 32) = slotSize / 4 := by decide

/-! ## The decoder -/

/-- A slave of the interface: the memory of a slot. -/
inductive Slave
  | rx (slot : ℕ)
  | tx (slot : ℕ)
  deriving DecidableEq, Repr

/-- `wb_slaves`, in order, with `decoderoffset` and `decoderbits`. -/
structure Decoder where
  decoderoffset : ℕ
  decoderbits : ℕ
  slaves : List Slave

/-- The decoder of `LiteEthMACWishboneInterface`. -/
def wishboneInterface (dw nrxslots ntxslots : ℕ) : Option Decoder := do
  let rxDecoderbits ← log2IntPow2 nrxslots
  let txDecoderbits ← log2IntPow2 ntxslots
  return {
    decoderoffset := log2Int (sramDepth dw)
    decoderbits := max rxDecoderbits txDecoderbits + 1
    slaves := (List.range nrxslots).map .rx ++ (List.range ntxslots).map .tx }

theorem wishboneInterface_two_pow (i j : ℕ) :
    wishboneInterface 32 (2 ^ i) (2 ^ j) = some ⟨log2Int (sramDepth 32), max i j + 1,
      (List.range (2 ^ i)).map .rx ++ (List.range (2 ^ j)).map .tx⟩ := by
  unfold wishboneInterface
  rw [log2IntPow2_two_pow, log2IntPow2_two_pow]
  rfl

namespace Decoder

variable (d : Decoder) {w : ℕ} (a : BitVec w)

/-- `slave_filter` of the `v`-th slave. A slice beyond the address has fewer bits. -/
def slaveFilter (v : ℕ) : Bool := (a.extractLsb' d.decoderoffset d.decoderbits).toNat == v

/-- The slaves selected at the address. -/
def selected : List Slave := (d.slaves.zipIdx.filter fun x => d.slaveFilter a x.2).map Prod.fst

end Decoder

/-- The slot of the `k`-th window. -/
def slotAt (nrxslots k : ℕ) : Slave := if k < nrxslots then .rx k else .tx (k - nrxslots)

/-- Of a list with its indices, what is at one of them. -/
theorem map_filter_zipIdx {α : Type} (l : List α) (k v : ℕ) :
    ((l.zipIdx k).filter fun x => v == x.2).map Prod.fst = if k ≤ v then l[v - k]?.toList else [] := by
  induction l generalizing k with
  | nil => simp
  | cons a l ih =>
    have ih' := ih (k + 1)
    rw [List.zipIdx_cons, List.filter_cons]
    rcases lt_trichotomy k v with hlt | rfl | hlt
    · have hne : (v == k) = false := beq_false_of_ne hlt.ne'
      obtain ⟨m, hm⟩ : ∃ m, v - k = m + 1 := ⟨v - k - 1, by omega⟩
      have hm' : v - (k + 1) = m := by omega
      rw [if_pos (Nat.succ_le_of_lt hlt), hm'] at ih'
      simp only [hne, Bool.false_eq_true, if_false]
      rw [ih', if_pos hlt.le, hm, List.getElem?_cons_succ]
    · rw [if_neg (Nat.not_succ_le_self k)] at ih'
      simp only [beq_self_eq_true, if_true]
      rw [List.map_cons, ih', if_pos le_rfl, Nat.sub_self, List.getElem?_cons_zero]
      rfl
    · have hne : (v == k) = false := beq_false_of_ne hlt.ne
      rw [if_neg (by omega)] at ih'
      simp only [hne, Bool.false_eq_true, if_false]
      rw [ih', if_neg (not_le.2 hlt)]

theorem slaves_getElem? {nrxslots ntxslots k : ℕ} (hk : k < nrxslots + ntxslots) :
    ((List.range nrxslots).map Slave.rx ++ (List.range ntxslots).map .tx)[k]? = some (slotAt nrxslots k) := by
  unfold slotAt
  split_ifs with hrx
  · rw [List.getElem?_append_left (by rwa [List.length_map, List.length_range]), List.getElem?_map,
      List.getElem?_range hrx]
    rfl
  · have hlen : ((List.range nrxslots).map Slave.rx).length = nrxslots := by
      rw [List.length_map, List.length_range]
    rw [List.getElem?_append_right (hlen.trans_le (not_lt.1 hrx)), hlen, List.getElem?_map,
      List.getElem?_range (by omega)]
    rfl

/-- The slices of an address below the end of the slots tell them apart. -/
theorem index_lt {i j n : ℕ} (hn : n < 2 ^ i + 2 ^ j) : n < 2 ^ (max i j + 1) := by
  have hi : 2 ^ i ≤ 2 ^ max i j := Nat.pow_le_pow_right Nat.two_pos (le_max_left i j)
  have hj : 2 ^ j ≤ 2 ^ max i j := Nat.pow_le_pow_right Nat.two_pos (le_max_right i j)
  rw [pow_succ]
  omega

/-- For slots in powers of two, an address in the `k`-th window of `slot_size` bytes selects the `k`-th slot and no
other, and the windows are those of `buffer_depth` bytes that the region is made of. -/
theorem slots_decoded (i j : ℕ) :
    slotSize = bufferDepth ∧ macMemsize (2 ^ i) (2 ^ j) = (2 ^ i + 2 ^ j) * slotSize ∧
      ∃ d, wishboneInterface 32 (2 ^ i) (2 ^ j) = some d ∧
        ∀ (w : ℕ) (a : BitVec w), a.toNat < (2 ^ i + 2 ^ j) * (slotSize / 4) →
          d.selected a = [slotAt (2 ^ i) (a.toNat / (slotSize / 4))] := by
  refine ⟨slotSize_eq, congrArg (_ * ·) slotSize_eq.symm, _, wishboneInterface_two_pow i j, fun w a ha => ?_⟩
  have hpos : 0 < slotSize / 4 := by decide
  have hk : a.toNat / (slotSize / 4) < 2 ^ i + 2 ^ j := (Nat.div_lt_iff_lt_mul hpos).2 ha
  have hslice : (a.extractLsb' (log2Int (sramDepth 32)) (max i j + 1)).toNat = a.toNat / (slotSize / 4) := by
    rw [BitVec.extractLsb'_toNat, Nat.shiftRight_eq_div_pow, window_eq]
    exact Nat.mod_eq_of_lt (index_lt hk)
  unfold Decoder.selected Decoder.slaveFilter
  rw [hslice, map_filter_zipIdx, if_pos (Nat.zero_le _), Nat.sub_zero, slaves_getElem? hk]
  rfl

end LiteEth.Mac.Wishbone
