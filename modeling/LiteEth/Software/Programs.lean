/-
Programs with a state and exceptions, over two states: they are related if, from related states, they return or raise the
same and leave related states. Sequencing keeps it, so a program is related to itself once its basic operations are.
-/
import Mathlib.Tactic

namespace LiteEth.Software

variable {ε σ τ α β : Type}

section Run

variable {x : EStateM ε σ α} {f : α → EStateM ε σ β} {s s' : σ}

theorem run_bind_ok {a : α} (h : x.run s = .ok a s') : (x >>= f).run s = (f a).run s' := by
  show EStateM.bind x f s = _
  unfold EStateM.bind
  rw [show x s = _ from h]
  rfl

theorem run_bind_error {e : ε} (h : x.run s = .error e s') : (x >>= f).run s = .error e s' := by
  show EStateM.bind x f s = _
  unfold EStateM.bind
  rw [show x s = _ from h]

end Run

/-- The same value or exception, and related states. -/
inductive Outcome (rel : σ → τ → Prop) : EStateM.Result ε σ α → EStateM.Result ε τ α → Prop
  | ok (a : α) {s : σ} {t : τ} (states : rel s t) : Outcome rel (.ok a s) (.ok a t)
  | error (e : ε) {s : σ} {t : τ} (states : rel s t) : Outcome rel (.error e s) (.error e t)

namespace Outcome

variable {rel : σ → τ → Prop} {x : EStateM.Result ε σ α} {t : τ}

theorem of_ok {a : α} (h : Outcome rel x (.ok a t)) : ∃ s, x = .ok a s ∧ rel s t := by
  cases h with
  | ok _ states => exact ⟨_, rfl, states⟩

theorem of_error {e : ε} (h : Outcome rel x (.error e t)) : ∃ s, x = .error e s ∧ rel s t := by
  cases h with
  | error _ states => exact ⟨_, rfl, states⟩

end Outcome

/-- Two programs that return or raise the same from related states, and leave related states. -/
def Related (rel : σ → τ → Prop) (x : EStateM ε σ α) (y : EStateM ε τ α) : Prop :=
  ∀ s t, rel s t → Outcome rel (x.run s) (y.run t)

namespace Related

variable {rel : σ → τ → Prop}

theorem pure (a : α) : Related rel (Pure.pure a : EStateM ε σ α) (Pure.pure a) := fun _ _ h => .ok a h

theorem throw (e : ε) : Related rel (MonadExcept.throw e : EStateM ε σ α) (MonadExcept.throw e) :=
  fun _ _ h => .error e h

theorem bind {x : EStateM ε σ α} {y : EStateM ε τ α} {f : α → EStateM ε σ β} {g : α → EStateM ε τ β}
    (first : Related rel x y) (rest : ∀ a, Related rel (f a) (g a)) : Related rel (x >>= f) (y >>= g) := by
  intro s t h
  have := first s t h
  show Outcome rel (EStateM.bind x f s) (EStateM.bind y g t)
  unfold EStateM.bind
  change Outcome rel (x s) (y t) at this
  -- the first programs end alike, by value or by error
  cases hx : x s with
  | ok a s' =>
    rw [hx] at this
    cases hy : y t with
    | ok b t' =>
      rw [hy] at this
      cases this with
      | ok _ states => exact rest a s' t' states
    | error e t' =>
      rw [hy] at this
      cases this
  | error e s' =>
    rw [hx] at this
    cases hy : y t with
    | ok b t' =>
      rw [hy] at this
      cases this
    | error e' t' =>
      rw [hy] at this
      cases this with
      | error _ states => exact .error e states

/-- An operation on the state that does not raise. -/
theorem modifyGet {f : σ → α × σ} {g : τ → α × τ} (h : ∀ s t, rel s t → (f s).1 = (g t).1 ∧ rel (f s).2 (g t).2) :
    Related rel (MonadStateOf.modifyGet f : EStateM ε σ α) (MonadStateOf.modifyGet g) := by
  intro s t states
  obtain ⟨values, states'⟩ := h s t states
  show Outcome rel (EStateM.modifyGet f s) (EStateM.modifyGet g t)
  unfold EStateM.modifyGet
  rw [← Prod.mk.eta (p := f s), ← Prod.mk.eta (p := g t), values]
  exact .ok _ states'

end Related

end LiteEth.Software
