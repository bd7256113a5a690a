/-
The constants of `common.py` and the integer helpers of the HDL that the modules size their
signals with.
-/
import Mathlib.Tactic

namespace LiteEth

/-- Python's `int.bit_length`. -/
def bitLength (n : Nat) : Nat := if n = 0 then 0 else n.log2 + 1

/-- `log2_int(n, need_pow2=False)`: the least `r` with `n ≤ 2 ^ r`. -/
def log2Int (n : Nat) : Nat := if n = 0 then 0 else bitLength (n - 1)

/-- `bits_for(n)`: the bits of a signal that holds `0 … n`. -/
def bitsFor (n : Nat) : Nat := max (bitLength n) 1

theorem lt_two_pow_bitLength (n : Nat) : n < 2 ^ bitLength n := by
  unfold bitLength
  split
  · omega
  · exact Nat.lt_log2_self

theorem lt_two_pow_bitsFor (n : Nat) : n < 2 ^ bitsFor n :=
  lt_of_lt_of_le (lt_two_pow_bitLength n) (Nat.pow_le_pow_right (by decide) (Nat.le_max_left _ _))

/-- On a power of two `log2_int` is the exact logarithm. -/
theorem log2Int_two_pow (k : Nat) : log2Int (2 ^ k) = k := by
  unfold log2Int bitLength
  rw [if_neg (by positivity)]
  cases k with
  | zero => rfl
  | succ k =>
    have hpos : 0 < 2 ^ k := by positivity
    have hne : 2 ^ (k + 1) - 1 ≠ 0 := by rw [pow_succ]; omega
    rw [if_neg hne, Nat.succ_inj, Nat.log2_eq_iff hne, pow_succ]
    omega

/-! ## Ethernet constants -/

/-- `eth_mtu`: the longest packet, in bytes. -/
def ethMtu : Nat := 1530

/-- `eth_min_len`: the shortest payload that is sent, in bytes. -/
def ethMinLen : Nat := 46

/-- `eth_interpacket_gap`, in bytes. -/
def ethInterpacketGap : Nat := 12

/-- `eth_preamble`, the lowest byte first. -/
def ethPreamble : BitVec 64 := 0xd555555555555555

/-- `endianness`: which end of a word holds the first byte. -/
inductive Endianness
  | big
  | little
  deriving DecidableEq, Repr

end LiteEth
