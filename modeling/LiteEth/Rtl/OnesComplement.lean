/-
Ones'-complement sums: words of `w` bits are added with the carry out of the top bit added back in.
The sum of a list depends only on the ordinary sum modulo `2 ^ w - 1` and on whether it is zero, and
exchanging the halves of every word exchanges the halves of the sum.
-/
import Mathlib.Tactic

namespace LiteEth.Rtl.OnesComplement

/-- The end-around carry: what is above `w` bits is added to what is below. -/
def fold (w s : ℕ) : ℕ := s % 2 ^ w + s / 2 ^ w

/-- The sum with the carry added again. -/
def add (w a b : ℕ) : ℕ := fold w (a + b)

/-- The ones'-complement sum of a list of words. -/
def sum (w : ℕ) (l : List ℕ) : ℕ := l.foldl (add w) 0

@[simp] theorem sum_nil (w : ℕ) : sum w [] = 0 := rfl

theorem sum_concat (w : ℕ) (l : List ℕ) (x : ℕ) : sum w (l ++ [x]) = add w (sum w l) x := by
  simp [sum]

variable {w : ℕ}

/-- A word that stands for the natural number `n`: congruent to it, and zero only for zero. -/
structure Stands (w n y : ℕ) : Prop where
  lt : y < 2 ^ w
  modEq : y ≡ n [MOD 2 ^ w - 1]
  zero : y = 0 ↔ n = 0

theorem two_pow_modEq_one (w : ℕ) : 2 ^ w ≡ 1 [MOD 2 ^ w - 1] := by
  have h : 1 ≤ 2 ^ w := Nat.one_le_two_pow
  exact ((Nat.modEq_iff_dvd' h).2 dvd_rfl).symm

theorem fold_modEq (w s : ℕ) : fold w s ≡ s [MOD 2 ^ w - 1] := by
  calc fold w s = s % 2 ^ w + 1 * (s / 2 ^ w) := by rw [fold, one_mul]
    _ ≡ s % 2 ^ w + 2 ^ w * (s / 2 ^ w) [MOD 2 ^ w - 1] :=
        Nat.ModEq.add_left _ ((two_pow_modEq_one w).symm.mul_right _)
    _ = s := Nat.mod_add_div s _

theorem fold_eq_zero {s : ℕ} : fold w s = 0 ↔ s = 0 := by
  constructor
  · intro h
    rw [fold, Nat.add_eq_zero_iff] at h
    have := Nat.mod_add_div s (2 ^ w)
    rw [h.1, h.2] at this
    omega
  · rintro rfl
    simp [fold]

/-- The sum of two words and its carry fit a word. -/
theorem fold_lt {s : ℕ} (h : s ≤ 2 * (2 ^ w - 1)) : fold w s < 2 ^ w := by
  have hpos : 0 < 2 ^ w := by positivity
  have hdiv := Nat.mod_add_div s (2 ^ w)
  have hmod := Nat.mod_lt s hpos
  rw [fold]
  have hle : s / 2 ^ w ≤ 1 := by
    rw [← Nat.lt_succ_iff, Nat.div_lt_iff_lt_mul hpos]
    omega
  rcases Nat.le_one_iff_eq_zero_or_eq_one.1 hle with h0 | h1
  · omega
  · rw [h1] at hdiv ⊢
    omega

/-- A number is stood for by one word only. -/
theorem Stands.unique {n y z : ℕ} (hy : Stands w n y) (hz : Stands w n z) : y = z := by
  have hmod : y ≡ z [MOD 2 ^ w - 1] := hy.modEq.trans hz.modEq.symm
  have hylt := hy.lt
  have hzlt := hz.lt
  by_cases hn : n = 0
  · rw [hy.zero.2 hn, hz.zero.2 hn]
  · -- neither is zero, so both are less than a modulus apart
    have hy0 : y ≠ 0 := fun h => hn (hy.zero.1 h)
    have hz0 : z ≠ 0 := fun h => hn (hz.zero.1 h)
    have hdvd := (Nat.modEq_iff_dvd.1 hmod)
    have habs : |(z : ℤ) - y| < ((2 ^ w - 1 : ℕ) : ℤ) := by
      rw [abs_lt]
      constructor <;> omega
    have := Int.eq_zero_of_abs_lt_dvd hdvd habs
    omega

theorem Stands.add {n m y z : ℕ} (hy : Stands w n y) (hz : Stands w m z) : Stands w (n + m) (add w y z) := by
  refine ⟨fold_lt ?_, (fold_modEq w _).trans (hy.modEq.add hz.modEq), ?_⟩
  · have := hy.lt
    have := hz.lt
    omega
  · rw [OnesComplement.add, fold_eq_zero, Nat.add_eq_zero_iff, Nat.add_eq_zero_iff, hy.zero, hz.zero]

/-- All ones is the word for the other multiples of the modulus. -/
theorem Stands.all_ones {n y : ℕ} (hy : Stands w n y) (hn : n ≡ 0 [MOD 2 ^ w - 1]) (h0 : n ≠ 0) : y = 2 ^ w - 1 := by
  have hy0 : y ≠ 0 := fun h => h0 (hy.zero.1 h)
  have hlt := hy.lt
  obtain ⟨k, hk⟩ := (Nat.modEq_zero_iff_dvd).1 (hy.modEq.trans hn)
  have hk0 : k ≠ 0 := by
    rintro rfl
    exact hy0 hk
  have hge : 2 ^ w - 1 ≤ y := by
    rw [hk]
    exact Nat.le_mul_of_pos_right _ (by omega)
  omega

theorem stands_self {y : ℕ} (h : y < 2 ^ w) : Stands w y y := ⟨h, Nat.ModEq.refl _, Iff.rfl⟩

theorem stands_zero (w : ℕ) : Stands w 0 0 := stands_self (by positivity)

/-- The sum of a list of words stands for their ordinary sum. -/
theorem stands_sum {l : List ℕ} (h : ∀ x ∈ l, x < 2 ^ w) : Stands w l.sum (sum w l) := by
  induction l using List.reverseRecOn with
  | nil => exact stands_zero w
  | append_singleton l x ih =>
    rw [sum_concat, List.sum_append, List.sum_singleton]
    exact (ih fun y hy => h y (List.mem_append_left _ hy)).add
      (stands_self (h x (List.mem_append_right _ (List.mem_singleton.2 rfl))))

theorem sum_lt {l : List ℕ} (h : ∀ x ∈ l, x < 2 ^ w) : sum w l < 2 ^ w := (stands_sum h).lt

/-- Words with the complement of their sum sum up to all ones. -/
theorem sum_check {l l' : List ℕ} (h : ∀ x ∈ l, x < 2 ^ w) (h' : ∀ x ∈ l', x < 2 ^ w)
    (hl : l'.sum = l.sum + (2 ^ w - 1 - sum w l)) : sum w l' = 2 ^ w - 1 := by
  have hs := stands_sum h
  have hlt := hs.lt
  by_cases h0 : l'.sum = 0
  · rw [(stands_sum h').zero.2 h0, eq_comm]
    have hsum := hs.zero.2 (by omega)
    omega
  refine (stands_sum h').all_ones ?_ h0
  rw [hl]
  calc l.sum + (2 ^ w - 1 - sum w l) ≡ sum w l + (2 ^ w - 1 - sum w l) [MOD 2 ^ w - 1] := hs.modEq.symm.add_right _
    _ = 2 ^ w - 1 := by omega
    _ ≡ 0 [MOD 2 ^ w - 1] := (Nat.modEq_zero_iff_dvd).2 dvd_rfl

/-- The sum is all ones for the multiples of the modulus, but for zero. -/
theorem sum_eq_all_ones_iff (hw : 0 < w) {l : List ℕ} (h : ∀ x ∈ l, x < 2 ^ w) :
    sum w l = 2 ^ w - 1 ↔ l.sum ≡ 0 [MOD 2 ^ w - 1] ∧ l.sum ≠ 0 := by
  have hs := stands_sum h
  have hone : 1 < 2 ^ w := Nat.one_lt_two_pow (by omega)
  constructor
  · intro hsum
    refine ⟨hs.modEq.symm.trans ?_, fun h0 => ?_⟩
    · rw [hsum]
      exact (Nat.modEq_zero_iff_dvd).2 dvd_rfl
    · rw [← hs.zero, hsum] at h0
      omega
  · rintro ⟨hmod, h0⟩
    exact hs.all_ones hmod h0

/-! ## The words of a string -/

/-- Two bytes a word, the high one first; a zero is put after an odd last byte. -/
def words : List (BitVec 8) → List ℕ
  | b₀ :: b₁ :: bs => (b₀.toNat * 2 ^ 8 + b₁.toNat) :: words bs
  | [b] => [b.toNat * 2 ^ 8]
  | [] => []

theorem words_lt : ∀ (bs : List (BitVec 8)), ∀ x ∈ words bs, x < 2 ^ 16
  | b₀ :: b₁ :: bs, x, hx => by
    have h0 := b₀.isLt
    have h1 := b₁.isLt
    rcases List.mem_cons.1 hx with rfl | hx
    · omega
    · exact words_lt bs x hx
  | [b], x, hx => by
    have h := b.isLt
    rw [List.mem_singleton.1 hx]
    omega

/-! ## Exchanging the halves of a word -/

/-- A word of `2 * k` bits with its halves exchanged. -/
def swap (k x : ℕ) : ℕ := x / 2 ^ k + x % 2 ^ k * 2 ^ k

variable {k : ℕ}

theorem swap_lt {x : ℕ} (h : x < 2 ^ (2 * k)) : swap k x < 2 ^ (2 * k) := by
  have hpos : 0 < 2 ^ k := by positivity
  rw [two_mul, pow_add] at *
  have hhi : x / 2 ^ k < 2 ^ k := Nat.div_lt_of_lt_mul h
  have hlo := Nat.mod_lt x hpos
  calc swap k x < 2 ^ k + x % 2 ^ k * 2 ^ k := by rw [swap]; omega
    _ = (x % 2 ^ k + 1) * 2 ^ k := by ring
    _ ≤ 2 ^ k * 2 ^ k := Nat.mul_le_mul_right _ hlo

/-- Exchanging the halves multiplies by `2 ^ k`. -/
theorem swap_modEq (k x : ℕ) : swap k x ≡ 2 ^ k * x [MOD 2 ^ (2 * k) - 1] := by
  calc swap k x = 1 * (x / 2 ^ k) + x % 2 ^ k * 2 ^ k := by rw [swap, one_mul]
    _ ≡ 2 ^ (2 * k) * (x / 2 ^ k) + x % 2 ^ k * 2 ^ k [MOD 2 ^ (2 * k) - 1] :=
        ((two_pow_modEq_one _).symm.mul_right _).add_right _
    _ = 2 ^ k * (x % 2 ^ k + 2 ^ k * (x / 2 ^ k)) := by rw [two_mul, pow_add]; ring
    _ = 2 ^ k * x := by rw [Nat.mod_add_div]

theorem swap_eq_zero {x : ℕ} : swap k x = 0 ↔ x = 0 := by
  constructor
  · intro h
    have hpos : 0 < 2 ^ k := by positivity
    rw [swap, Nat.add_eq_zero_iff, Nat.mul_eq_zero] at h
    have := Nat.mod_add_div x (2 ^ k)
    rcases h.2 with h2 | h2
    · rw [h.1, h2] at this; omega
    · omega
  · rintro rfl
    simp [swap]

theorem swap_swap {x : ℕ} (h : x < 2 ^ (2 * k)) : swap k (swap k x) = x := by
  have hpos : 0 < 2 ^ k := by positivity
  rw [two_mul, pow_add] at h
  have hhi : x / 2 ^ k < 2 ^ k := Nat.div_lt_of_lt_mul h
  have hdiv : swap k x / 2 ^ k = x % 2 ^ k := by
    rw [swap, Nat.add_mul_div_right _ _ hpos, Nat.div_eq_of_lt hhi, zero_add]
  have hmod : swap k x % 2 ^ k = x / 2 ^ k := by
    rw [swap, Nat.add_mul_mod_self_right, Nat.mod_eq_of_lt hhi]
  rw [swap, hdiv, hmod, mul_comm, Nat.mod_add_div]

theorem stands_swap {n y : ℕ} (h : Stands (2 * k) n y) : Stands (2 * k) (2 ^ k * n) (swap k y) := by
  refine ⟨swap_lt h.lt, (swap_modEq k y).trans (h.modEq.mul_left _), ?_⟩
  rw [swap_eq_zero, h.zero, Nat.mul_eq_zero]
  exact ⟨.inr, fun h => h.resolve_left (by positivity)⟩

theorem swap_add {x y : ℕ} (hx : x < 2 ^ (2 * k)) (hy : y < 2 ^ (2 * k)) :
    swap k (add (2 * k) x y) = add (2 * k) (swap k x) (swap k y) := by
  have h := stands_swap ((stands_self hx).add (stands_self hy))
  have h' := (stands_swap (stands_self hx)).add (stands_swap (stands_self hy))
  rw [mul_add] at h
  exact h.unique h'

/-- The sum of the words with their halves exchanged is the sum with its halves exchanged. -/
theorem sum_map_swap {l : List ℕ} (h : ∀ x ∈ l, x < 2 ^ (2 * k)) :
    sum (2 * k) (l.map (swap k)) = swap k (sum (2 * k) l) := by
  induction l using List.reverseRecOn with
  | nil => simp [swap]
  | append_singleton l x ih =>
    have hl : ∀ y ∈ l, y < 2 ^ (2 * k) := fun y hy => h y (List.mem_append_left _ hy)
    have hx : x < 2 ^ (2 * k) := h x (List.mem_append_right _ (List.mem_singleton.2 rfl))
    rw [List.map_append, List.map_singleton, sum_concat, sum_concat, ih hl, swap_add (sum_lt hl) hx]

end LiteEth.Rtl.OnesComplement
