/-
The code groups of the transmit path on their even positions. `parity` toggles in every cycle, and each state but those
of the data and of the first `/R/` is entered with one value of it only, whatever the lengths of the frames and the
cycles of a byte.
-/
import LiteEth.Phy.Pcs

namespace LiteEth.Phy.Pcs.Tx

open LiteEth.Rtl

/-- The transmit path, with the `sgmii_speed` of each cycle. -/
def transmitPath : Machine (BitVec 2 × In) State where
  reset := .init
  step s i := s.next i.1 i.2

/-- The codes of the cycles with inputs `is`, from `s`. -/
def codes (s : State) (is : List (BitVec 2 × In)) : List Symbol := transmitPath.log (fun s i => [s.symbol i.2]) s is

/-! ## Ordered sets -/

/-- The comma `/K28.5/`. -/
def comma : Symbol := ⟨true, K 28 5⟩

/-- `/S/`. -/
def startOfPacket : Symbol := ⟨true, K 27 7⟩

/-- `/I1/` and `/I2/`. -/
def IsIdle (c : List Symbol) : Prop := ∃ d, (d = D 5 6 ∨ d = D 16 2) ∧ c = [comma, ⟨false, d⟩]

/-- `/C1/` and `/C2/` with the register `r`. -/
def IsConfig (r : BitVec 16) (c : List Symbol) : Prop :=
  ∃ d, (d = D 21 5 ∨ d = D 2 2) ∧ c = [comma, ⟨false, d⟩, ⟨false, r.extractLsb' 0 8⟩, ⟨false, r.extractLsb' 8 8⟩]

/-! ## The parity of a state -/

/-- The parity that a state is entered with, if it is always the same. -/
def Fsm.parity : Fsm → Option Bool
  | .start | .configRegLsb => some false
  | .configD | .configRegMsb | .idle | .carrierExtend2 => some true
  | .data | .carrierExtend1 => none

/-- After `n` cycles. -/
structure Aligned (s : State) (n : ℕ) : Prop where
  parity : s.parity = n.bodd
  state : ∀ b, s.fsm.parity = some b → s.parity = b

theorem Aligned.next {s : State} {n : ℕ} (h : Aligned s n) (speed : BitVec 2) (i : In) :
    Aligned (s.next speed i) (n + 1) := by
  have hparity : (s.next speed i).parity = !s.parity := rfl
  constructor
  · rw [hparity, h.parity, Nat.bodd_succ]
  · intro b hb
    have hstate := h.state
    rw [hparity]
    unfold State.next at hb
    cases hf : s.fsm with
    | start =>
      rw [hf] at hb hstate
      rw [hstate _ rfl]
      dsimp only at hb
      split_ifs at hb <;> cases hb <;> rfl
    | configD | configRegLsb | configRegMsb | idle | carrierExtend2 =>
      rw [hf] at hb hstate
      rw [hstate _ rfl]
      cases hb
      rfl
    | data =>
      rw [hf] at hb
      dsimp only at hb
      split_ifs at hb <;> cases hb
    | carrierExtend1 =>
      -- the second `/R/` is sent if the first one is on an even position
      rw [hf] at hb
      dsimp only at hb
      cases hp : s.parity with
      | true =>
        rw [hp] at hb
        cases hb
        rfl
      | false =>
        rw [hp] at hb
        cases hb
        rfl

theorem aligned (is : List (BitVec 2 × In)) : Aligned (transmitPath.run is) is.length := by
  induction is using List.reverseRecOn with
  | nil =>
    constructor
    · rfl
    · rintro b ⟨⟩
      rfl
  | append_singleton is i ih =>
    rw [Machine.run, Machine.runFrom_concat, List.length_append]
    exact ih.next i.1 i.2

theorem Aligned.even {s : State} {n : ℕ} (h : Aligned s n) (hf : s.fsm = .start) : s.parity = false ∧ Even n := by
  have hparity : s.parity = false := h.state false (by rw [hf]; rfl)
  refine ⟨hparity, ?_⟩
  rw [Nat.even_iff, Nat.mod_two_of_bodd, ← h.parity, hparity]
  rfl

/-! ## What is sent -/

/-- Commas and `/S/` are sent in `START` only. -/
theorem start_of_symbol {s : State} {i : In} (h : s.symbol i = comma ∨ s.symbol i = startOfPacket) :
    s.fsm = .start := by
  have hdata : ∀ d : BitVec 8, (⟨false, d⟩ : Symbol) ≠ comma ∧ (⟨false, d⟩ : Symbol) ≠ startOfPacket := fun d =>
    ⟨fun h => Bool.noConfusion (congrArg Symbol.k h), fun h => Bool.noConfusion (congrArg Symbol.k h)⟩
  have hcontrol : (⟨true, K 29 7⟩ : Symbol) ≠ comma ∧ (⟨true, K 29 7⟩ : Symbol) ≠ startOfPacket ∧
      (⟨true, K 23 7⟩ : Symbol) ≠ comma ∧ (⟨true, K 23 7⟩ : Symbol) ≠ startOfPacket := by decide
  obtain ⟨hT, hT', hR, hR'⟩ := hcontrol
  unfold State.symbol at h
  cases hf : s.fsm with
  | start => rfl
  | data =>
    rw [hf] at h
    dsimp only at h
    split_ifs at h
    · exact absurd h (not_or.2 (hdata _))
    · exact absurd h (not_or.2 ⟨hT, hT'⟩)
  | carrierExtend1 | carrierExtend2 =>
    rw [hf] at h
    exact absurd h (not_or.2 ⟨hR, hR'⟩)
  | configD | configRegLsb | configRegMsb | idle =>
    rw [hf] at h
    exact absurd h (not_or.2 (hdata _))

/-- A comma is the first code of a set; the next one starts after it. -/
theorem ordered_set {s : State} {i : BitVec 2 × In} (h : s.symbol i.2 = comma) :
    if i.2.configStb then
      ∀ j k l, IsConfig i.2.configReg (codes s [i, j, k, l]) ∧ (transmitPath.runFrom s [i, j, k, l]).fsm = .start
    else ∀ j, IsIdle (codes s [i, j]) ∧ (transmitPath.runFrom s [i, j]).fsm = .start := by
  have hf := start_of_symbol (.inl h)
  have hne : startOfPacket ≠ comma := by decide
  -- a comma is sent from start alone, by configuration or by idle
  obtain ⟨fsm, parity, cType, buffer, timer⟩ := s
  obtain rfl : fsm = .start := hf
  obtain ⟨speed, configStb, configReg, txStb, txData, disparity⟩ := i
  cases configStb with
  | true =>
    intro j k l
    refine ⟨⟨if cType then D 2 2 else D 21 5, ?_, rfl⟩, rfl⟩
    cases cType with
    | true => exact .inr rfl
    | false => exact .inl rfl
  | false =>
    intro j
    cases txStb with
    | true => exact absurd h hne
    | false =>
      refine ⟨⟨if j.2.disparity then D 5 6 else D 16 2, ?_, rfl⟩, rfl⟩
      cases j.2.disparity with
      | true => exact .inl rfl
      | false => exact .inr rfl

/-- In every cycle of a run, `START` has parity zero, and a comma, with the set that it begins, or `/S/` is on an even
position. -/
theorem code_groups_aligned (is : List (BitVec 2 × In)) (i : BitVec 2 × In) :
    ((transmitPath.run is).fsm = .start → (transmitPath.run is).parity = false) ∧
      ((transmitPath.run is).symbol i.2 = comma ∨ (transmitPath.run is).symbol i.2 = startOfPacket →
        Even is.length) ∧
      ((transmitPath.run is).symbol i.2 = comma →
        if i.2.configStb then ∀ j k l, IsConfig i.2.configReg (codes (transmitPath.run is) [i, j, k, l]) ∧
          (transmitPath.run (is ++ [i, j, k, l])).fsm = .start
        else ∀ j, IsIdle (codes (transmitPath.run is) [i, j]) ∧ (transmitPath.run (is ++ [i, j])).fsm = .start) := by
  refine ⟨fun hf => ((aligned is).even hf).1, fun h => ((aligned is).even (start_of_symbol h)).2, fun h => ?_⟩
  have hset := ordered_set h
  unfold Machine.run at hset ⊢
  simp only [Machine.runFrom_append]
  exact hset

end LiteEth.Phy.Pcs.Tx
