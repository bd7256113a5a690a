/-
Clock domain crossings, by what their users rely on: the beats that are taken in the one clock domain come out in the
other, in order. How many edges of the clocks that takes is open; a beat is not kept back for ever, and an empty crossing
does not refuse one for ever. Two clocks with edges again and again make what waits for either of them happen.
-/
import Mathlib.Tactic

namespace LiteEth.Rtl

/-- A lossless crossing. In a step its sink's clock has an edge, with the beat at the sink, or its source's clock has one,
with `source.ready`, or both. -/
structure ClockDomainCrossing (α : Type) where
  State : Type
  reset : State
  /-- `sink.ready`. -/
  ready : State → Bool
  source : State → Option α
  step : State → Option (Option α) → Option Bool → State
  contents : State → List α
  contents_reset : contents reset = []
  source_eq : ∀ s x, source s = some x → ∃ xs, contents s = x :: xs
  contents_step : ∀ s a r, contents (step s a r) =
    (if r.getD false && (source s).isSome then (contents s).tail else contents s) ++
      (if ready s then a.join.toList else [])
  stable : ∀ s a r x, source s = some x → r ≠ some true → source (step s a r) = some x
  /-- A bound for the edges of the source's clock until a beat is shown. -/
  lag : State → ℕ
  lag_step : ∀ s a r, contents s ≠ [] → source s = none → lag (step s a r) ≤ lag s ∧ (r ≠ none → lag (step s a r) < lag s)
  /-- A bound for the edges of the sink's clock until an empty crossing is ready. -/
  room : State → ℕ
  room_step : ∀ s a r, contents s = [] → ready s = false →
    room (step s a r) ≤ room s ∧ (a ≠ none → room (step s a r) < room s)
  ready_step : ∀ s a r, contents s = [] → ready s = true → a.join = none → ready (step s a r) = true

namespace ClockDomainCrossing

variable {α : Type} (X : ClockDomainCrossing α)

/-- The beat taken in a step. -/
def takes (s : X.State) (a : Option (Option α)) : Option α := if X.ready s then a.join else none

/-- The beat given in a step. -/
def gives (s : X.State) (r : Option Bool) : Option α := if r.getD false then X.source s else none

theorem contents_next (s : X.State) (a : Option (Option α)) (r : Option Bool) :
    X.contents s ++ (X.takes s a).toList = (X.gives s r).toList ++ X.contents (X.step s a r) := by
  rw [X.contents_step]
  unfold takes gives
  have htakes : (if X.ready s then a.join else none).toList = if X.ready s then a.join.toList else [] := by
    cases X.ready s <;> rfl
  rw [htakes]
  cases hx : X.source s with
  | none => cases r.getD false <;> simp
  | some x =>
    obtain ⟨xs, hxs⟩ := X.source_eq s x hx
    cases r.getD false <;> simp [hxs]

theorem contents_of_gives {s : X.State} {r : Option Bool} {x : α} (h : X.gives s r = some x) :
    ∃ xs, X.contents s = x :: xs := by
  unfold gives at h
  split_ifs at h
  exact X.source_eq s x h

/-- What waits at the source, for an edge of its clock. -/
def waits (s : X.State) : ℕ := if (X.source s).isSome then 0 else X.lag s + 1

/-- What waits at the sink of an empty crossing, for an edge of its clock. -/
def refuses (s : X.State) : ℕ := if X.ready s then 0 else X.room s + 1

/-- While nothing is given, a beat comes nearer to the source. -/
theorem waits_step {s : X.State} (h : X.contents s ≠ []) (a : Option (Option α)) {r : Option Bool}
    (hr : X.gives s r = none) : X.waits (X.step s a r) ≤ X.waits s ∧
      (X.source s = none → r ≠ none → X.waits (X.step s a r) < X.waits s) := by
  unfold waits
  cases hx : X.source s with
  | some x =>
    have hr' : r ≠ some true := by
      rintro rfl
      unfold gives at hr
      rw [hx] at hr
      cases hr
    rw [X.stable s a r x hx hr']
    exact ⟨le_rfl, nofun⟩
  | none =>
    obtain ⟨h1, h2⟩ := X.lag_step s a r h hx
    rw [Option.isSome_none, if_neg Bool.false_ne_true]
    split_ifs
    · exact ⟨Nat.zero_le _, fun _ _ => Nat.succ_pos _⟩
    · exact ⟨Nat.succ_le_succ h1, fun _ hc => Nat.succ_lt_succ (h2 hc)⟩

/-- While nothing is taken, an empty crossing comes nearer to being ready. -/
theorem refuses_step {s : X.State} (h : X.contents s = []) {a : Option (Option α)} (r : Option Bool)
    (ha : X.takes s a = none) : X.refuses (X.step s a r) ≤ X.refuses s ∧
      (X.ready s = false → a ≠ none → X.refuses (X.step s a r) < X.refuses s) := by
  unfold refuses
  cases hx : X.ready s with
  | true =>
    unfold takes at ha
    rw [hx, if_pos rfl] at ha
    rw [X.ready_step s a r h hx ha]
    exact ⟨le_rfl, nofun⟩
  | false =>
    obtain ⟨h1, h2⟩ := X.room_step s a r h hx
    rw [if_neg Bool.false_ne_true]
    split_ifs
    · exact ⟨Nat.zero_le _, fun _ _ => Nat.succ_pos _⟩
    · exact ⟨Nat.succ_le_succ h1, fun _ hne => Nat.succ_lt_succ (h2 hne)⟩

/-- A crossing of `depth` beats that shows them at once. -/
def queue (α : Type) (depth : ℕ) (hdepth : 0 < depth) : ClockDomainCrossing α where
  State := List α
  reset := []
  ready s := decide (s.length < depth)
  source s := s.head?
  step s a r := (if r.getD false && s.head?.isSome then s.tail else s) ++ if s.length < depth then a.join.toList else []
  contents := id
  contents_reset := rfl
  source_eq s x h := ⟨s.tail, by cases s <;> cases h; rfl⟩
  contents_step s a r := by simp
  stable s a r x h hr := by
    have hr' : r.getD false = false := by
      rcases r with _ | _ | _
      · rfl
      · rfl
      · exact absurd rfl hr
    cases s with
    | nil => cases h
    | cons y s =>
      rw [hr']
      exact h
  lag _ := 0
  lag_step s a r h hx := absurd (List.head?_eq_none_iff.1 hx) h
  room _ := 0
  room_step s a r h hx := by
    subst h
    exact absurd hx (by simp [hdepth])
  ready_step s a r h _ ha := by
    subst h
    rw [ha]
    simpa using hdepth

end ClockDomainCrossing

/-! ## Fair clocks -/

/-- What holds until `Q` does, with a rank that does not grow, and sinks with every edge of a clock that ticks again and
again, leads to `Q`. -/
theorem leads_to {W : Type} [LinearOrder W] [WellFoundedLT W] {tick Q : ℕ → Prop} (hfair : ∀ n, ∃ m ≥ n, tick m)
    {P : ℕ → W → Prop} (hstep : ∀ n w, P n w → Q (n + 1) ∨ ∃ w' ≤ w, P (n + 1) w' ∧ (tick n → w' < w)) {n : ℕ} {w : W}
    (h : P n w) : ∃ m > n, Q m := by
  induction w using WellFoundedLT.induction generalizing n with
  | ind w ih =>
    obtain ⟨m, hm, htick⟩ := hfair n
    -- by induction on the steps until the next edge
    induction hk : m - n generalizing n w with
    | zero =>
      obtain rfl : m = n := by omega
      rcases hstep m w h with hQ | ⟨w', -, hP, hlt⟩
      · exact ⟨m + 1, Nat.lt_succ_self m, hQ⟩
      · obtain ⟨m', hm', hQ⟩ := ih w' (hlt htick) hP
        exact ⟨m', by omega, hQ⟩
    | succ k ihk =>
      rcases hstep n w h with hQ | ⟨w', hle, hP, -⟩
      · exact ⟨n + 1, Nat.lt_succ_self n, hQ⟩
      · obtain ⟨m', hm', hQ⟩ := ihk w' (fun v hv => ih v (hv.trans_le hle)) hP (by omega) (by omega)
        exact ⟨m', by omega, hQ⟩

end LiteEth.Rtl
