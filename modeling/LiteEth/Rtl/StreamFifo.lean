/-
Buffers between stages: clock domain crossings, pipeline registers and FIFOs, by what the stages
around them rely on. A buffer gives the beats it took, in order; in a helpful environment it does
not keep one for ever. `Fifo.pipeValid` is the single register that takes a beat whenever it is
empty or its own beat is taken.
-/
import LiteEth.Rtl.StreamSim

namespace LiteEth.Rtl

/-- A lossless buffer in an environment `ε`, with its outputs registered. Its functions take
`source.ready`. -/
structure Fifo {ε : Type} (H : ε → Prop) (α : Type) where
  State : Type
  reset : State
  source : State → ε → Option α
  ready : State → ε → Bool → Bool
  step : State → ε → Option α → Bool → State
  contents : State → List α
  contents_reset : contents reset = []
  source_eq : ∀ s e x, source s e = some x → ∃ xs, contents s = x :: xs
  contents_step : ∀ s e a r, contents (step s e a r) =
    (if r && (source s e).isSome then (contents s).tail else contents s) ++ (if ready s e r then a.toList else [])
  stable : ∀ s e a x, source s e = some x → ∀ e', source (step s e a false) e' = some x
  /-- A bound for the cycles until a beat is shown or taken. -/
  rank : State → ℕ
  rank_step : ∀ s e a r, H e → source s e = none → (a = none ∨ ready s e r = false) →
    rank (step s e a r) ≤ rank s ∧ (contents s ≠ [] ∨ a ≠ none → rank (step s e a r) < rank s)

namespace Fifo

variable {ε α : Type} {H : ε → Prop} (F : Fifo H α)

/-- A buffer as a stage. -/
abbrev stage : Stage ε α α where
  State := F.State
  reset := F.reset
  source s e _ := F.source s e
  ready s e _ r := F.ready s e r
  step := F.step

/-- Nothing is changed. -/
abbrev same (α : Type) : Transducer α α where
  State := Unit
  init := ()
  next _ _ := ()
  out _ a := [a]
  ok _ _ := True

theorem same_outs (q : (same α).State) (as : List α) : (same α).outs q as = as := by
  induction as with
  | nil => rfl
  | cons a as ih => rw [Transducer.outs_cons, ih]; rfl

theorem same_oks (q : (same α).State) (as : List α) : (same α).Oks q as := by
  induction as with
  | nil => trivial
  | cons a as ih => exact ⟨trivial, ih⟩

theorem same_makes (as : List α) : (same α).Makes as as := ⟨same_oks _ _, rfl, same_outs _ _⟩

/-- The beats in a buffer after a cycle, and the one given. -/
theorem contents_next (s : F.State) (e : ε) (a : Option α) (r : Bool) :
    F.contents s ++ (if F.ready s e r then a.toList else []) =
      (if r then F.source s e else none).toList ++ F.contents (F.step s e a r) := by
  rw [F.contents_step]
  cases hx : F.source s e with
  | none => cases r <;> simp
  | some x =>
    obtain ⟨xs, hxs⟩ := F.source_eq s e x hx
    cases r <;> simp [hxs]

/-- A buffer passes its beats on. -/
def passes : Stage.Lazy H F.stage (same α) where
  W := ℕ
  linear := inferInstance
  wf := wellFoundedLT_nat
  Rel s _ p w := p = F.contents s ∧ w = F.rank s
  reset := ⟨_, F.contents_reset.symm, rfl⟩
  cycle := by
    rintro s q p w ⟨rfl, rfl⟩ e b r -
    refine ⟨_, _, ?_, ⟨rfl, rfl⟩, ?_⟩
    · rw [same_outs, ← F.contents_next s e b r]
      congr 1
      show (if F.ready s e r then b else none).toList = _
      cases F.ready s e r <;> rfl
    · intro hH hready hsrc
      -- it shows a beat, or comes nearer to it by its rank
      by_cases hx : F.source s e = none
      · have hready' : b = none ∨ F.ready s e r = false := by
          by_contra hc
          rw [not_or, Bool.not_eq_false] at hc
          exact hc.1 (hready hc.2)
        obtain ⟨h1, h2⟩ := F.rank_step s e b r hH hx hready'
        by_cases hrest : F.contents s ≠ [] ∨ b ≠ none
        · exact .inr (.inr (h2 hrest))
        · rw [not_or, not_not, not_not] at hrest
          exact .inl ⟨hrest.2, hrest.1, h1⟩
      · exact .inr (.inl hx)
  stable := by
    rintro s q p w - e b - x hx e' b' -
    exact F.stable s e b x hx e'

end Fifo

/-- A connection. -/
abbrev Stage.wire {ε α : Type} : Stage ε α α where
  State := Unit
  reset := ()
  source _ _ a := a
  ready _ _ _ r := r
  step _ _ _ _ := ()

/-- A connection changes nothing. -/
def Stage.wire_passes {ε : Type} (H : ε → Prop) (α : Type) : Stage.Lazy H (Stage.wire (ε := ε)) (Fifo.same α) where
  W := ℕ
  linear := inferInstance
  wf := wellFoundedLT_nat
  Rel _ _ p w := p = [] ∧ w = 0
  reset := ⟨0, rfl, rfl⟩
  cycle := by
    rintro s q p w ⟨rfl, rfl⟩ e b r -
    refine ⟨[], 0, ?_, ⟨rfl, rfl⟩, fun _ hready hsource => ?_⟩
    · rw [Fifo.same_outs, List.nil_append, List.append_nil]
    · cases b with
      | none => exact .inl ⟨rfl, rfl, le_rfl⟩
      | some b => exact .inr (.inl (Option.some_ne_none b))
  stable := by
    rintro s q p w - e b - x hx e' b' hb
    obtain rfl : b = some x := hx
    exact hb rfl (Option.some_ne_none x)

/-- A connection with `g` at its source gives it of its beats. -/
def Stage.wire_maps {ε α β : Type} (H : ε → Prop) (g : α → β) :
    Stage.Lazy H ((Stage.wire (ε := ε)).mapped g) ((Fifo.same α).mapped g) where
  W := ℕ
  linear := inferInstance
  wf := wellFoundedLT_nat
  Rel _ _ p w := p = [] ∧ w = 0
  reset := ⟨0, rfl, rfl⟩
  cycle := by
    rintro s q p w ⟨rfl, rfl⟩ e b r -
    refine ⟨[], 0, ?_, ⟨rfl, rfl⟩, fun _ hready hsource => ?_⟩
    · rw [Transducer.mapped_outs, Fifo.same_outs, List.nil_append, List.append_nil]
      cases r <;> cases b <;> rfl
    · cases b with
      | none => exact .inl ⟨rfl, rfl, le_rfl⟩
      | some b => exact .inr (.inl (Option.some_ne_none (g b)))
  stable := by
    rintro s q p w - e b - x hx e' b' hb
    cases b with
    | none => cases hx
    | some b =>
      rw [hb rfl (Option.some_ne_none b)]
      exact hx

namespace Fifo

variable {ε α : Type} {H : ε → Prop}

/-- The pipeline register. -/
def pipeValid (H : ε → Prop) (α : Type) : Fifo H α where
  State := Option α
  reset := none
  source s _ := s
  ready s _ r := s.isNone || r
  step s _ a r := if s.isNone || r then a else s
  contents s := s.toList
  contents_reset := rfl
  source_eq s e x h := ⟨[], by rw [h]; rfl⟩
  contents_step s e a r := by cases s <;> cases r <;> simp
  stable s e a x h e' := by rw [h]; rfl
  rank s := 0
  rank_step s e a r _ h ha := by
    rw [h] at ha
    rw [h]
    rcases ha with ha | ha
    · simp [ha]
    · simp at ha

/-- A FIFO of `depth` beats with an output register, `SyncFIFO(depth=depth, buffered=True)`. -/
def buffered (H : ε → Prop) (α : Type) (depth : ℕ) (hdepth : 0 < depth) : Fifo H α where
  State := Option α × List α
  reset := (none, [])
  source s _ := s.1
  ready s _ _ := decide (s.2.length < depth)
  step s _ a r :=
    (if s.1.isNone || r then s.2.head? else s.1,
      (if s.1.isNone || r then s.2.tail else s.2) ++ if s.2.length < depth then a.toList else [])
  contents s := s.1.toList ++ s.2
  contents_reset := rfl
  source_eq := by
    rintro ⟨x, l⟩ e y rfl
    exact ⟨l, rfl⟩
  contents_step := by
    rintro ⟨x, l⟩ e a r
    cases x <;> cases r <;> cases l <;> simp
  stable := by
    rintro ⟨x, l⟩ e a y rfl e'
    rfl
  -- one cycle from the queue into the register
  rank s := if s.1.isNone && !s.2.isEmpty then 1 else 0
  rank_step := by
    rintro ⟨x, l⟩ e a r _ rfl ha
    cases l with
    | nil =>
      have ha' : a = none := by simpa [hdepth] using ha
      simp [ha']
    | cons y l => simp

/-- When it is empty it takes a beat. -/
theorem buffered_ready {depth : ℕ} {hdepth : 0 < depth} (s : (buffered H α depth hdepth).State) (e : ε) (r : Bool)
    (h : (buffered H α depth hdepth).contents s = []) : (buffered H α depth hdepth).ready s e r = true := by
  obtain ⟨x, l⟩ := s
  obtain rfl : l = [] := (List.append_eq_nil_iff.1 h).2
  exact decide_eq_true hdepth

end Fifo

end LiteEth.Rtl
