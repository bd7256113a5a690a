/-
Wait timers, by what their users rely on: a timer counts down from its period while `wait` is
asserted, is reloaded when it is not, and is done at zero.
-/
import Mathlib.Data.Nat.Notation

namespace LiteEth.Rtl

/-- A timer of period `t`: its registers, its output, and what a clock edge does to the count. -/
structure WaitTimer (t : ℕ) where
  State : Type
  reset : State
  done : State → Bool
  /-- The registers after a clock edge, given `wait`. -/
  step : State → Bool → State
  count : State → ℕ
  count_reset : count reset = t
  done_iff : ∀ s, done s = true ↔ count s = 0
  count_step : ∀ s wait, count (step s wait) = if wait then count s - 1 else t

/-- The timer whose register is the count. -/
def WaitTimer.down (t : ℕ) : WaitTimer t where
  State := ℕ
  reset := t
  done s := decide (s = 0)
  step s wait := if wait then s - 1 else t
  count s := s
  count_reset := rfl
  done_iff s := by simp
  count_step s wait := rfl

end LiteEth.Rtl
