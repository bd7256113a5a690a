/-
Pulse synchronizers between two clock domains, by what their users rely on: no pulse comes out that has not gone in. How
long it takes is open, and pulses that are too close to each other may be lost.
-/
import Mathlib.Tactic

namespace LiteEth.Rtl

/-- In a step the clock of the input has an edge, with `i`, or the clock of the output has one, or both. -/
structure PulseSynchronizer where
  State : Type
  reset : State
  /-- The output, a pulse in each cycle of its clock in which it is asserted. -/
  o : State → Bool
  step : State → Option Bool → Bool → State
  /-- A bound for the pulses that may still come out. -/
  pending : State → ℕ
  pending_reset : pending reset = 0
  pending_step : ∀ s i edge, pending (step s i edge) + (edge && o s).toNat ≤ pending s + (i.getD false).toNat

namespace PulseSynchronizer

variable (P : PulseSynchronizer)

/-- An output that is asserted has a pulse to give. -/
theorem pending_pos {s : P.State} (h : P.o s = true) : 0 < P.pending s := by
  have := P.pending_step s none true
  rw [h] at this
  simp at this
  omega

/-- The input toggles a register, which is followed through two more in the domain of the output; the output compares the
last of them with its own delay. -/
structure Toggle where
  toggleI : Bool
  sync : Bool
  toggleO : Bool
  toggleOr : Bool

/-- The changes that are still on their way. -/
def Toggle.changes (s : Toggle) : ℕ :=
  (s.toggleI ^^ s.sync).toNat + (s.sync ^^ s.toggleO).toNat + (s.toggleO ^^ s.toggleOr).toNat

/-- An edge of either clock or of both. -/
def Toggle.step (s : Toggle) (i : Option Bool) (edge : Bool) : Toggle :=
  let toggleI := s.toggleI ^^ i.getD false
  if edge then ⟨toggleI, s.toggleI, s.sync, s.toggleO⟩ else ⟨toggleI, s.sync, s.toggleO, s.toggleOr⟩

theorem Toggle.changes_step (s : Toggle) (i : Option Bool) (edge : Bool) :
    (s.step i edge).changes + (edge && (s.toggleO ^^ s.toggleOr)).toNat ≤ s.changes + (i.getD false).toNat := by
  obtain ⟨a, b, c, d⟩ := s
  unfold step changes
  generalize i.getD false = pulse
  cases edge <;> cases pulse <;> cases a <;> cases b <;> cases c <;> cases d <;> decide

/-- The registers after reset. -/
def Toggle.init : Toggle := ⟨false, false, false, false⟩

theorem Toggle.changes_init : Toggle.init.changes = 0 := rfl

/-- The synchronizer with its registers. -/
def toggle : PulseSynchronizer where
  State := Toggle
  reset := Toggle.init
  o s := s.toggleO ^^ s.toggleOr
  step := Toggle.step
  pending := Toggle.changes
  pending_reset := Toggle.changes_init
  pending_step := Toggle.changes_step

end PulseSynchronizer

end LiteEth.Rtl
