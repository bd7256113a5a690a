/-
The bits of an unbounded integer in two's complement: what a shift does to them, that they determine the integer, and
the integers that fit a number of bits.
-/
import Mathlib.Data.Int.Bitwise
import Mathlib.Tactic

namespace Int

theorem testBit_natCast (n k : ℕ) : (n : ℤ).testBit k = n.testBit k := rfl

theorem testBit_negSucc (n k : ℕ) : (-[n+1]).testBit k = !n.testBit k := rfl

/-- High bits of a nonnegative number are clear and those of a negative number are set. -/
theorem testBit_sign (m : ℤ) : ∃ b, ∀ k ≥ b, m.testBit k = decide (m < 0) := by
  obtain n | n := m
  · refine ⟨n, fun k hk => ?_⟩
    have nonneg : ¬ Int.ofNat n < 0 := Int.not_lt.2 (Int.natCast_nonneg n)
    rw [decide_eq_false nonneg]
    exact Nat.testBit_lt_two_pow (lt_of_le_of_lt hk Nat.lt_two_pow_self)
  · refine ⟨n, fun k hk => ?_⟩
    rw [decide_eq_true (Int.negSucc_lt_zero n), testBit_negSucc,
      Nat.testBit_lt_two_pow (lt_of_le_of_lt hk Nat.lt_two_pow_self), Bool.not_false]

theorem eq_of_testBit_eq {m n : ℤ} (h : ∀ k, m.testBit k = n.testBit k) : m = n := by
  obtain ⟨a, ha⟩ := m.testBit_sign
  obtain ⟨b, hb⟩ := n.testBit_sign
  -- far enough up both show their sign
  have sign : (m < 0) ↔ (n < 0) := by
    have := h (max a b)
    rwa [ha _ (le_max_left a b), hb _ (le_max_right a b), decide_eq_decide] at this
  obtain m | m := m <;> obtain n | n := n
  · exact congrArg Int.ofNat (Nat.eq_of_testBit_eq h)
  · exact absurd (sign.2 (Int.negSucc_lt_zero n)) (Int.not_lt.2 (Int.natCast_nonneg m))
  · exact absurd (sign.1 (Int.negSucc_lt_zero m)) (Int.not_lt.2 (Int.natCast_nonneg n))
  · refine congrArg Int.negSucc (Nat.eq_of_testBit_eq fun k => ?_)
    simpa [testBit_negSucc] using h k

@[simp]
theorem testBit_shiftRight (m : ℤ) (s k : ℕ) : (m >>> s).testBit k = m.testBit (s + k) := by
  obtain m | m := m
  · exact Nat.testBit_shiftRight m
  · rw [negSucc_shiftRight, testBit_negSucc, testBit_negSucc, Nat.testBit_shiftRight]

@[simp]
theorem testBit_shiftLeft (m : ℤ) (s k : ℕ) : (m <<< s).testBit k = (decide (s ≤ k) && m.testBit (k - s)) := by
  obtain m | m := m
  · exact Nat.testBit_shiftLeft m
  · show (!(((m + 1) <<< s) - 1).testBit k) = (decide (s ≤ k) && !m.testBit (k - s))
    have split : ((m + 1) <<< s) - 1 = 2 ^ s * m + (2 ^ s - 1) := by
      have := Nat.two_pow_pos s
      rw [Nat.shiftLeft_eq, Nat.mul_comm, Nat.mul_succ]
      omega
    rw [split, Nat.testBit_two_pow_mul_add _ (Nat.sub_lt (Nat.two_pow_pos s) Nat.one_pos)]
    by_cases below : k < s
    · simp [below]
    · simp [below, Nat.le_of_not_lt below]

/-- `width` ones. -/
@[simp]
theorem testBit_two_pow_sub_one (width k : ℕ) : (2 ^ width - 1 : ℤ).testBit k = decide (k < width) := by
  have cast : (2 ^ width - 1 : ℤ) = ((2 ^ width - 1 : ℕ) : ℤ) := by
    push_cast [Nat.one_le_two_pow]
    rfl
  rw [cast, testBit_natCast, Nat.testBit_two_pow_sub_one]

@[simp]
theorem testBit_zero (k : ℕ) : (0 : ℤ).testBit k = false := Nat.zero_testBit k

theorem testBit_one (k : ℕ) : (1 : ℤ).testBit k = decide (k = 0) := by
  simpa using testBit_two_pow_sub_one 1 k

/-- The low bits of an integer as a machine word. -/
theorem getLsbD_ofInt (n : ℕ) (m : ℤ) (k : ℕ) : (BitVec.ofInt n m).getLsbD k = (decide (k < n) && m.testBit k) := by
  obtain m | m := m
  · simp [testBit_natCast, BitVec.getLsbD_ofNat]
  · rw [BitVec.ofInt_negSucc_eq_not_ofNat, BitVec.getLsbD_not, BitVec.getLsbD_ofNat, testBit_negSucc]
    by_cases hk : k < n <;> simp [hk]

/-- The integers of `width` bits. -/
theorem testBit_eq_false_iff (m : ℤ) (width : ℕ) :
    (∀ k ≥ width, m.testBit k = false) ↔ 0 ≤ m ∧ m < 2 ^ width := by
  constructor
  · intro high
    obtain ⟨b, sign⟩ := m.testBit_sign
    have nonneg : 0 ≤ m := by
      have := (sign (max b width) (le_max_left b width)).symm.trans (high _ (le_max_right b width))
      simpa using this
    obtain ⟨n, rfl⟩ := Int.eq_ofNat_of_zero_le nonneg
    refine ⟨nonneg, ?_⟩
    exact_mod_cast Nat.lt_pow_two_of_testBit n fun k hk => high k hk
  · rintro ⟨nonneg, lt⟩ k hk
    obtain ⟨n, rfl⟩ := Int.eq_ofNat_of_zero_le nonneg
    have lt : n < 2 ^ width := by exact_mod_cast lt
    exact Nat.testBit_lt_two_pow (lt_of_lt_of_le lt (Nat.pow_le_pow_right Nat.two_pos hk))

/-- Masking keeps exactly the integers that fit. -/
theorem land_two_pow_sub_one_eq_iff (m : ℤ) (width : ℕ) :
    m.land (2 ^ width - 1) = m ↔ 0 ≤ m ∧ m < 2 ^ width := by
  rw [← testBit_eq_false_iff]
  constructor
  · intro fits k hk
    rw [← fits, testBit_land, testBit_two_pow_sub_one]
    simp [Nat.not_lt_of_le hk]
  · intro high
    refine eq_of_testBit_eq fun k => ?_
    rw [testBit_land, testBit_two_pow_sub_one]
    by_cases low : k < width
    · simp [low]
    · simp [high k (Nat.le_of_not_lt low)]

end Int
