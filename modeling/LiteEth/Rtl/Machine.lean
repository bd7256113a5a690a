/-
Clocked machines and their runs. A machine is a reset value of its registers and the value they
take at the next clock edge, given the inputs of the cycle; a run is the list of the inputs of
its cycles, from any register value. The rules here are the inductions every module uses: an
invariant under a condition that each cycle of the run meets, and the same for an invariant that
also speaks about the events logged so far.
-/
import Mathlib.Data.List.Basic

namespace LiteEth.Rtl

/-- A clocked machine over inputs `ι` and registers `σ`. -/
structure Machine (ι σ : Type) where
  reset : σ
  step : σ → ι → σ

namespace Machine

variable {ι σ ε : Type} (M : Machine ι σ)

/-- The registers after the cycles with inputs `is`, from `s`. -/
def runFrom (s : σ) (is : List ι) : σ := is.foldl M.step s

/-- The registers after the cycles with inputs `is`, from reset. -/
def run (is : List ι) : σ := M.runFrom M.reset is

/-- `C` holds of the registers and the inputs in each cycle of the run. -/
def Along (C : σ → ι → Prop) : σ → List ι → Prop
  | _, [] => True
  | s, i :: is => C s i ∧ Along C (M.step s i) is

/-- The events `f` reports in each cycle of the run, in order. -/
def log (f : σ → ι → List ε) : σ → List ι → List ε
  | _, [] => []
  | s, i :: is => f s i ++ log f (M.step s i) is

@[simp] theorem runFrom_nil (s : σ) : M.runFrom s [] = s := rfl

@[simp] theorem runFrom_cons (s : σ) (i : ι) (is : List ι) :
    M.runFrom s (i :: is) = M.runFrom (M.step s i) is := rfl

theorem runFrom_append (s : σ) (is js : List ι) :
    M.runFrom s (is ++ js) = M.runFrom (M.runFrom s is) js := List.foldl_append

theorem runFrom_concat (s : σ) (is : List ι) (i : ι) :
    M.runFrom s (is ++ [i]) = M.step (M.runFrom s is) i := M.runFrom_append s is [i]

@[simp] theorem along_nil (C : σ → ι → Prop) (s : σ) : M.Along C s [] := trivial

@[simp] theorem along_cons (C : σ → ι → Prop) (s : σ) (i : ι) (is : List ι) :
    M.Along C s (i :: is) ↔ C s i ∧ M.Along C (M.step s i) is := Iff.rfl

instance instDecidableAlong (C : σ → ι → Prop) [∀ s i, Decidable (C s i)] :
    ∀ (s : σ) (is : List ι), Decidable (M.Along C s is)
  | _, [] => isTrue trivial
  | s, i :: is =>
    have := instDecidableAlong C (M.step s i) is
    decidable_of_iff (C s i ∧ M.Along C (M.step s i) is) Iff.rfl

theorem along_append (C : σ → ι → Prop) :
    ∀ (is js : List ι) (s : σ), M.Along C s (is ++ js) ↔ M.Along C s is ∧ M.Along C (M.runFrom s is) js
  | [], _, _ => by simp
  | i :: is, js, s => by
    simp only [List.cons_append, along_cons, runFrom_cons, along_append C is js, and_assoc]

theorem along_trivial (is : List ι) (s : σ) : M.Along (fun _ _ => True) s is := by
  induction is generalizing s with
  | nil => trivial
  | cons i is ih => exact ⟨trivial, ih _⟩

theorem along_and (C D : σ → ι → Prop) {is : List ι} {s : σ} :
    M.Along (fun s i => C s i ∧ D s i) s is ↔ M.Along C s is ∧ M.Along D s is := by
  induction is generalizing s with
  | nil => simp
  | cons i is ih => rw [along_cons, along_cons, along_cons, ih, and_and_and_comm]

theorem Along.imp {C D : σ → ι → Prop} (hCD : ∀ s i, C s i → D s i) :
    ∀ {is : List ι} {s : σ}, M.Along C s is → M.Along D s is
  | [], _, _ => trivial
  | _ :: _, _, ⟨h, hs⟩ => ⟨hCD _ _ h, Along.imp hCD hs⟩

@[simp] theorem log_nil (f : σ → ι → List ε) (s : σ) : M.log f s [] = [] := rfl

@[simp] theorem log_cons (f : σ → ι → List ε) (s : σ) (i : ι) (is : List ι) :
    M.log f s (i :: is) = f s i ++ M.log f (M.step s i) is := rfl

theorem log_append (f : σ → ι → List ε) :
    ∀ (is js : List ι) (s : σ), M.log f s (is ++ js) = M.log f s is ++ M.log f (M.runFrom s is) js
  | [], _, _ => rfl
  | i :: is, js, s => by
    simp only [List.cons_append, log_cons, runFrom_cons, log_append f is js, List.append_assoc]

theorem log_concat (f : σ → ι → List ε) (s : σ) (is : List ι) (i : ι) :
    M.log f s (is ++ [i]) = M.log f s is ++ f (M.runFrom s is) i := by
  rw [log_append, log_cons, log_nil, List.append_nil]

/-! ## Invariants -/

/-- An invariant that each cycle meeting `C` preserves holds after a run whose cycles all meet
`C`. -/
theorem runFrom_inv {P : σ → Prop} {C : σ → ι → Prop} (hstep : ∀ s i, P s → C s i → P (M.step s i))
    (is : List ι) (s : σ) (hs : P s) (hc : M.Along C s is) : P (M.runFrom s is) := by
  induction is generalizing s with
  | nil => exact hs
  | cons i is ih => exact ih _ (hstep s i hs hc.1) hc.2

/-- An invariant of the registers and of two logs. -/
theorem runFrom_logs_inv {δ : Type} {R : σ → List ε → List δ → Prop} {f : σ → ι → List ε} {g : σ → ι → List δ}
    (hstep : ∀ s i l m, R s l m → R (M.step s i) (l ++ f s i) (m ++ g s i))
    (is : List ι) (s : σ) (l : List ε) (m : List δ) (hs : R s l m) :
    R (M.runFrom s is) (l ++ M.log f s is) (m ++ M.log g s is) := by
  induction is generalizing s l m with
  | nil => simpa using hs
  | cons i is ih =>
    rw [log_cons, log_cons, ← List.append_assoc, ← List.append_assoc]
    exact ih _ _ _ (hstep s i l m hs)

/-- What holds in each cycle from registers satisfying an invariant holds along the run. -/
theorem along_of_inv {P : σ → Prop} {C D : σ → ι → Prop} (hstep : ∀ s i, P s → C s i → P (M.step s i))
    (hD : ∀ s i, P s → C s i → D s i) (is : List ι) (s : σ) (hs : P s) (hc : M.Along C s is) :
    M.Along D s is := by
  induction is generalizing s with
  | nil => trivial
  | cons i is ih => exact ⟨hD s i hs hc.1, ih _ (hstep s i hs hc.1) hc.2⟩

/-- Two conditions on the cycles of a run are the same if they are in each cycle from registers that
satisfy an invariant, which the cycles meeting them preserve. -/
theorem along_iff {P : σ → Prop} {K C D : σ → ι → Prop}
    (hstep : ∀ s i, P s → K s i → C s i → P (M.step s i)) (hDC : ∀ s i, P s → K s i → (D s i ↔ C s i))
    (is : List ι) (s : σ) (hs : P s) (hk : M.Along K s is) : M.Along D s is ↔ M.Along C s is := by
  induction is generalizing s with
  | nil => exact Iff.rfl
  | cons i is ih =>
    rw [along_cons, along_cons, hDC s i hs hk.1]
    exact and_congr_right fun hc => ih _ (hstep s i hs hk.1 hc) hk.2

end Machine

end LiteEth.Rtl
