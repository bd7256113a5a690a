/-
What a stage makes of the beats it takes, where it may refuse one for ever: what follows from those before is given all
the same. A stage that gives at once what it takes may go before such a stage.
-/
import LiteEth.Rtl.StreamSim

namespace LiteEth.Rtl

namespace Stage

variable {ε ε' α β : Type}

/-- A stage, in a larger environment. -/
abbrev under (A : Stage ε α β) (f : ε' → ε) : Stage ε' α β where
  State := A.State
  reset := A.reset
  source s e a := A.source s (f e) a
  ready s e a r := A.ready s (f e) a r
  step s e a r := A.step s (f e) a r

end Stage

/-- It makes the same of its stream. -/
def Stage.Sim.under {ε ε' α β : Type} {H : ε → Prop} {A : Stage ε α β} {T : Transducer α β} (R : Stage.Sim H A T)
    (f : ε' → ε) : Stage.Sim (fun e => H (f e)) (A.under f) T where
  W := R.W
  linear := R.linear
  wf := R.wf
  Rel s := R.Rel ⟨s.state, s.held⟩
  reset := R.reset
  cycle h i hok := R.cycle h ⟨f i.env, i.offer, i.ready⟩ hok
  stable h i hok x hx hr j := R.stable h ⟨f i.env, i.offer, i.ready⟩ hok x hx hr ⟨f j.env, j.offer, j.ready⟩

/-! ## Stages that give at once what they take -/

/-- A stage that gives what follows by `T` from a beat in the cycle in which it takes it. -/
structure Stage.Direct {ε α β : Type} (A : Stage ε α β) (T : Transducer α β) where
  Rel : A.Run → T.State → Prop
  reset : Rel ⟨A.reset, none⟩ T.init
  cycle : ∀ {s q}, Rel s q → ∀ i : Stage.In ε α, T.outs q (s.takes i).toList = (s.gives i).toList ∧
    Rel (s.next i) (T.run q (s.takes i).toList)
  /-- What is offered and not taken stays at the source. -/
  stable : ∀ {s q}, Rel s q → ∀ (i : Stage.In ε α) x, s.source i = some x → i.ready = false →
    ∀ j, (s.next i).source j = some x

namespace Stage

variable {ε α β γ : Type} {H : ε → Prop} {A : Stage ε α β} {B : Stage ε β γ} {T : Transducer α β} {U : Transducer β γ}

/-- A stage that never owes anything. -/
def Taking.direct (L : Taking H A T) (hok : ∀ q as, T.Oks q as) (hp : ∀ {s q p w}, L.Rel s q p w → p = []) :
    Direct A T where
  Rel s q := ∃ w, L.Rel s q [] w
  reset := L.reset
  cycle := by
    rintro s q ⟨w, h⟩ i
    obtain ⟨p', w', hout, hrel, -⟩ := L.cycle h i (hok _ _)
    obtain rfl := hp hrel
    rw [List.nil_append, List.append_nil] at hout
    exact ⟨hout, w', hrel⟩
  stable := by
    rintro s q ⟨w, h⟩ i x hx hr j
    exact L.stable h i (hok _ _) x hx hr j

namespace Direct

/-- In every run. -/
theorem run (R : Direct A T) (is : List (Stage.In ε α)) :
    R.Rel (A.machine.run is) (T.run T.init (A.taken is)) ∧ A.given is = T.outs T.init (A.taken is) := by
  induction is using List.reverseRecOn with
  | nil => exact ⟨R.reset, rfl⟩
  | append_singleton is i ih =>
    obtain ⟨h, hgiven⟩ := ih
    obtain ⟨hout, hrel⟩ := R.cycle h i
    rw [taken_concat, given_concat, run_concat, Transducer.run_append, Transducer.outs_append, hgiven, hout]
    exact ⟨hrel, rfl⟩

/-- With `g` at its source. -/
def mapped (R : Direct A T) (g : β → γ) : Direct (A.mapped g) (T.mapped g) where
  Rel s q := R.Rel ⟨s.state, s.held⟩ q
  reset := R.reset
  cycle := by
    intro s q h i
    obtain ⟨hout, hrel⟩ := R.cycle h i
    have hgives : s.gives i = (Run.gives (⟨s.state, s.held⟩ : A.Run) i).map g := by
      show (if i.ready then (Run.source (⟨s.state, s.held⟩ : A.Run) i).map g else none) =
        (if i.ready then Run.source (⟨s.state, s.held⟩ : A.Run) i else none).map g
      split_ifs <;> rfl
    refine ⟨?_, hrel⟩
    rw [T.mapped_outs, hgives, Option.toList_map]
    exact congrArg (List.map g) hout
  stable := by
    intro s q h i x hx hr j
    obtain ⟨y, hy, rfl⟩ := Option.map_eq_some_iff.1 hx
    exact congrArg (Option.map g) (R.stable h i y hy hr j)

/-- A stage whose registers are those of another one, seen through `f`. -/
def comap {A B : Stage ε α β} (R : Direct B T) (f : A.State → B.State) (hreset : f A.reset = B.reset)
    (hsource : ∀ s e a, A.source s e a = B.source (f s) e a)
    (hready : ∀ s e a r, A.ready s e a r = B.ready (f s) e a r)
    (hstep : ∀ s e a r, f (A.step s e a r) = B.step (f s) e a r) : Direct A T where
  Rel s := R.Rel ⟨f s.state, s.held⟩
  reset := by
    rw [hreset]
    exact R.reset
  cycle {s q} h i := by
    rw [Run.takes_through hready, Run.gives_through hsource, Run.next_through hready hstep]
    exact R.cycle h i
  stable {s q} h i x hx hr j := by
    rw [Run.source_through hsource, Run.next_through hready hstep]
    exact R.stable h i x ((Run.source_through hsource s i).symm.trans hx) hr j

section AndThen

open Sim (first second inner outer)

/-- The beat `b`, that the first stage offers and the second one has not taken, stays between them. -/
def Stays (s : (A.andThen B).Run) (b : Option β) : Prop := ∀ x, b = some x → ∀ j, (first s).source j = some x

theorem Stays.next (R : Direct A T) {s : (A.andThen B).Run} {q : T.State} {b : Option β} (h : R.Rel (first s) q)
    (hb : Stays s b) (i : Stage.In ε α) : Stays (s.next i) ((second s b).next (inner s i)).held := by
  intro x hx j
  obtain ⟨hsource, hready⟩ := Sim.second_held hb i (by rw [hx]; exact Option.some_ne_none x)
  exact R.stable h (outer s i) x (hsource.symm.trans hx) hready j

theorem takes_outer (s : (A.andThen B).Run) (i : Stage.In ε α) : (first s).takes (outer s i) = s.takes i := rfl

/-- Two of them, one after the other. -/
def andThen (R : Direct A T) (S : Direct B U) : Direct (A.andThen B) (T.andThen U) where
  Rel s q := ∃ b, Stays s b ∧ R.Rel (first s) q.1 ∧ S.Rel (second s b) q.2
  reset := ⟨none, nofun, R.reset, S.reset⟩
  cycle := by
    rintro s q ⟨b, hb, hA, hB⟩ i
    obtain ⟨houtA, hrelA⟩ := R.cycle hA (outer s i)
    obtain ⟨houtB, hrelB⟩ := S.cycle hB (inner s i)
    rw [Sim.second_takes hb] at houtB hrelB
    rw [takes_outer] at houtA hrelA
    rw [Transducer.andThen_outs, Transducer.andThen_run, houtA, houtB, Sim.gives_eq hb]
    refine ⟨rfl, _, hb.next R hA i, hrelA, ?_⟩
    rw [Sim.second_next hb i]
    exact hrelB
  stable := by
    rintro s q ⟨b, hb, hA, hB⟩ i x hx hr j
    rw [Sim.source_eq hb] at hx
    rw [Sim.source_eq (hb.next R hA i), Sim.second_next hb i]
    exact S.stable hB (inner s i) x hx hr _

end AndThen

end Direct

end Stage

/-! ## Stages that may refuse a beat -/

/-- A stage that gives what follows by `T` from the beats it takes. `Rel s q p w`: after the beats taken so far `T` is
in state `q`, of what follows from them `p` is still to be given, and `w` bounds the cycles until the stage takes or
gives a beat. -/
structure Stage.Yields {ε α β : Type} (H : ε → Prop) (A : Stage ε α β) (T : Transducer α β) where
  W : Type
  linear : LinearOrder W
  wf : WellFoundedLT W
  Rel : A.Run → T.State → List β → W → Prop
  reset : ∃ w, Rel ⟨A.reset, none⟩ T.init [] w
  cycle : ∀ {s q p w}, Rel s q p w → ∀ i : Stage.In ε α, ∃ p' w',
    p ++ T.outs q (s.takes i).toList = (s.gives i).toList ++ p' ∧ Rel (s.next i) (T.run q (s.takes i).toList) p' w' ∧
      (H i.env → i.ready = true → s.takes i = none → s.gives i = none → p = [] ∨ w' < w)

namespace Stage.Yields

variable {ε α β γ : Type} {H : ε → Prop} {A : Stage ε α β} {B : Stage ε β γ} {T : Transducer α β} {U : Transducer β γ}

attribute [instance] Stage.Yields.linear Stage.Yields.wf

/-- In every run. -/
theorem run (R : Yields H A T) (is : List (Stage.In ε α)) : ∃ p w,
    R.Rel (A.machine.run is) (T.run T.init (A.taken is)) p w ∧ T.outs T.init (A.taken is) = A.given is ++ p := by
  induction is using List.reverseRecOn with
  | nil =>
    obtain ⟨w, hw⟩ := R.reset
    exact ⟨[], w, hw, rfl⟩
  | append_singleton is i ih =>
    obtain ⟨p, w, h, hp⟩ := ih
    obtain ⟨p', w', hp', h', -⟩ := R.cycle h i
    rw [taken_concat, given_concat, run_concat, Transducer.run_append, Transducer.outs_append]
    exact ⟨p', w', h', by rw [hp, List.append_assoc, hp', List.append_assoc]⟩

/-- Left alone by the producer, with a ready consumer and a helpful environment, the stage gives all that follows from
what it has taken. -/
theorem drain (R : Yields H A T) (es : ℕ → ε) (hes : ∀ n, H (es n)) (is : List (Stage.In ε α)) {p : List β} {w : R.W}
    (h : R.Rel (A.machine.run is) (T.run T.init (A.taken is)) p w) (hp : T.outs T.init (A.taken is) = A.given is ++ p) :
    ∃ n, let is' := is ++ (List.range n).map fun k => Sim.settle (es k)
      A.given is' = T.outs T.init (A.taken is') := by
  -- by induction on the beat that is held, the beats to be given, and the bound for the next of them
  induction hm : toLex ((A.machine.run is).held.toList.length, toLex (p.length, w)) using WellFoundedLT.induction
    generalizing is p w es with
  | ind m ih =>
    subst hm
    by_cases hp0 : p = []
    · refine ⟨0, ?_⟩
      show A.given (is ++ []) = T.outs T.init (A.taken (is ++ []))
      rw [List.append_nil, hp, hp0, List.append_nil]
    · obtain ⟨p', w', hp', h', hprog⟩ := R.cycle h (Sim.settle (es 0))
      have hheld := congrArg List.length (Run.arrives_held (A.machine.run is) (Sim.settle (es 0)))
      rw [Sim.arrives_settle, Option.toList_none, List.append_nil, List.length_append] at hheld
      have hlt : toLex (((A.machine.run is).next (Sim.settle (es 0))).held.toList.length, toLex (p'.length, w')) <
          toLex ((A.machine.run is).held.toList.length, toLex (p.length, w)) := by
        simp only [Prod.Lex.toLex_lt_toLex]
        cases ht : (A.machine.run is).takes (Sim.settle (es 0)) with
        | some a =>
          rw [ht, Option.toList_some, List.length_singleton] at hheld
          exact .inl (by omega)
        | none =>
          rw [ht, Option.toList_none, List.length_nil, Nat.zero_add] at hheld
          rw [ht, Option.toList_none, Transducer.outs_nil, List.append_nil] at hp'
          have hlen := congrArg List.length hp'
          rw [List.length_append] at hlen
          refine .inr ⟨hheld.symm, ?_⟩
          cases hg : (A.machine.run is).gives (Sim.settle (es 0)) with
          | some b =>
            rw [hg, Option.toList_some, List.length_singleton] at hlen
            exact .inl (by omega)
          | none =>
            rw [hg, Option.toList_none, List.length_nil, Nat.zero_add] at hlen
            exact .inr ⟨hlen.symm, (hprog (hes 0) rfl ht hg).resolve_left hp0⟩
      rw [← run_concat] at hlt h'
      obtain ⟨n, hn⟩ := ih _ hlt (fun k => es (k + 1)) (fun k => hes _) (is ++ [Sim.settle (es 0)])
        (by rw [taken_concat, Transducer.run_append]; exact h')
        (by rw [taken_concat, given_concat, Transducer.outs_append, hp, List.append_assoc, hp', List.append_assoc]) rfl
      refine ⟨n + 1, ?_⟩
      rw [List.append_assoc, List.singleton_append] at hn
      rw [List.range_succ_eq_map, List.map_cons, List.map_map]
      exact hn

/-- After any run, what has been given follows from what has been taken, and in the end all that follows is given. -/
theorem given_eq (R : Yields H A T) (es : ℕ → ε) (hes : ∀ n, H (es n)) (is : List (Stage.In ε α)) :
    A.given is <+: T.outs T.init (A.taken is) ∧
      ∃ n, let is' := is ++ (List.range n).map fun k => Sim.settle (es k)
        A.given is' = T.outs T.init (A.taken is') := by
  obtain ⟨p, w, h, hp⟩ := R.run is
  exact ⟨⟨p, hp.symm⟩, R.drain es hes is h hp⟩

open Sim (first second inner outer)

/-- A stage that gives at once what it takes goes before one that may refuse a beat. -/
def after (R : Direct A T) (S : Yields H B U) : Yields H (A.andThen B) (T.andThen U) where
  W := S.W
  linear := S.linear
  wf := S.wf
  Rel s q p w := ∃ b, Direct.Stays s b ∧ R.Rel (first s) q.1 ∧ S.Rel (second s b) q.2 p w
  reset := by
    obtain ⟨w, hw⟩ := S.reset
    exact ⟨w, none, nofun, R.reset, hw⟩
  cycle := by
    rintro s q p w ⟨b, hb, hA, hB⟩ i
    obtain ⟨houtA, hrelA⟩ := R.cycle hA (outer s i)
    obtain ⟨p', w', houtB, hrelB, hprog⟩ := S.cycle hB (inner s i)
    rw [Sim.second_takes hb] at houtB hrelB hprog
    rw [Direct.takes_outer] at houtA hrelA
    rw [Transducer.andThen_outs, Transducer.andThen_run, houtA, Sim.gives_eq hb]
    refine ⟨p', w', houtB, ⟨_, hb.next R hA i, hrelA, ?_⟩, fun hH hr ht hg => ?_⟩
    · rw [Sim.second_next hb i]
      exact hrelB
    · rw [ht] at houtA
      exact hprog hH hr (Option.toList_eq_nil_iff.1 houtA.symm) hg

end Stage.Yields

/-! ## Queues -/

/-- A stage that gives what follows by `T` from the beats it has taken, and shows nothing else. -/
structure Stage.Queueing {ε α β : Type} (H : ε → Prop) (A : Stage ε α β) (T : Transducer α β) extends
    Stage.Taking H A T where
  head : ∀ {s q p w}, Rel s q p w → ∀ (i : Stage.In ε α) x, s.source i = some x → ∃ xs, p = x :: xs

namespace Stage.Sim

variable {ε α β : Type} {H : ε → Prop} {A : Stage ε α β} {T : Transducer α β}

/-- The relation of a simulation, by the beats taken: the beat held is still to be taken. -/
structure Ahead (R : Sim H A T) (s : A.Run) (q : T.State) (p : List β) (w : R.W) : Prop where
  ok : T.Oks q s.held.toList
  rel : R.Rel s (T.run q s.held.toList) (p ++ T.outs q s.held.toList) w

theorem oks_arrives {s : A.Run} {q : T.State} {i : Stage.In ε α} (hok : T.Oks q (s.offered i).toList) :
    T.Oks (T.run q s.held.toList) (s.arrives i).toList := by
  rw [← Run.offered_toList, Transducer.oks_append] at hok
  exact hok.2

/-- A cycle of a stage of which it is known what it gives of the beats it takes. -/
theorem Ahead.cycle {R : Sim H A T} {s : A.Run} {q : T.State} {p p' : List β} {w : R.W} (h : R.Ahead s q p w)
    (i : Stage.In ε α) (hok : T.Oks q (s.offered i).toList)
    (hp : p ++ T.outs q (s.takes i).toList = (s.gives i).toList ++ p') :
    ∃ w', R.Ahead (s.next i) (T.run q (s.takes i).toList) p' w' ∧
      (H i.env → s.arrives i = none → s.takes i = none → s.gives i = none →
        (s.held = none ∧ p = [] ∧ w' ≤ w) ∨ (s.source i ≠ none ∧ i.ready = false) ∨ w' < w) := by
  obtain ⟨pS, w', hpS, hrel, hprog⟩ := R.cycle h.rel i (oks_arrives hok)
  have hmove := Run.arrives_held s i
  rw [← Transducer.run_append, hmove, Transducer.run_append] at hrel
  rw [List.append_assoc, ← Transducer.outs_append, hmove, Transducer.outs_append, ← List.append_assoc, hp,
    List.append_assoc] at hpS
  rw [← Run.offered_toList, hmove, Transducer.oks_append] at hok
  refine ⟨w', ⟨hok.2, List.append_cancel_left hpS ▸ hrel⟩, fun hH hx ht hg => ?_⟩
  rcases hprog hH hx ht hg with ⟨h1, h2, h3⟩ | h1
  · exact .inl ⟨h1, (List.append_eq_nil_iff.1 h2).1, h3⟩
  · exact .inr h1

end Stage.Sim

/-- A stage that gives at once what it takes goes before one of which it is known what it has taken. -/
def Stage.Taking.behind {ε α β γ : Type} {H : ε → Prop} {A : Stage ε α β} {B : Stage ε β γ} {T : Transducer α β}
    {U : Transducer β γ} (R : Stage.Taking H A T) (D : Stage.Direct A T) (S : Stage.Taking H B U)
    (hU : ∀ q bs, U.Oks q bs) : Stage.Taking H (A.andThen B) (T.andThen U) where
  W := (R.sim.andThen S.sim).W
  linear := (R.sim.andThen S.sim).linear
  wf := (R.sim.andThen S.sim).wf
  -- what the first stage did is known from its beats taken, the simulation is ahead of it
  Rel s q p w := (∃ b, Stage.Direct.Stays s b ∧ D.Rel (Stage.Sim.first s) q.1 ∧
    ∃ w, S.Rel (Stage.Sim.second s b) q.2 p w) ∧ (R.sim.andThen S.sim).Ahead s q p w
  reset := by
    obtain ⟨wB, hB⟩ := S.reset
    obtain ⟨w, hw⟩ := (R.sim.andThen S.sim).reset
    exact ⟨w, ⟨none, nofun, D.reset, wB, hB⟩, trivial, hw⟩
  cycle := by
    rintro s q p w ⟨⟨b, hb, hA, wB, hB⟩, hahead⟩ i hok
    obtain ⟨houtA, hrelA⟩ := D.cycle hA (Stage.Sim.outer s i)
    obtain ⟨p', wB', houtB, hrelB, -⟩ := S.cycle hB (Stage.Sim.inner s i) (hU _ _)
    rw [Stage.Sim.second_takes hb] at houtB hrelB
    rw [Stage.Direct.takes_outer] at houtA hrelA
    rw [← Stage.Sim.gives_eq hb, ← houtA, ← Transducer.andThen_outs] at houtB
    obtain ⟨w', hahead', hprog⟩ := hahead.cycle i hok houtB
    refine ⟨p', w', houtB, ⟨⟨_, hb.next D hA i, ?_, wB', ?_⟩, hahead'⟩, hprog⟩
    · rw [Transducer.andThen_run]
      exact hrelA
    · rw [Transducer.andThen_run, houtA, Stage.Sim.second_next hb i]
      exact hrelB
  stable := by
    rintro s q p w ⟨-, hahead⟩ i hok x hx hr j
    exact (R.sim.andThen S.sim).stable hahead.rel i (Stage.Sim.oks_arrives hok) x hx hr j

/-- A stage that does not look ahead, and shows what is still to be given. -/
def Stage.Lazy.queueing {ε α β : Type} {H : ε → Prop} {A : Stage ε α β} {T : Transducer α β} (L : Stage.Lazy H A T)
    (head : ∀ {s q p w}, L.Rel s q p w → ∀ e a x, A.source s e a = some x → ∃ xs, p = x :: xs) :
    Stage.Queueing H A T :=
  { L.taking with head := fun h _ _ hx => head h _ _ _ hx }

/-- Each beat is passed on as `g` makes it. -/
abbrev Transducer.beatwise {α β : Type} (g : α → β) (ok : α → Prop) : Transducer α β where
  State := Unit
  init := ()
  next _ _ := ()
  out _ a := [g a]
  ok _ a := ok a

theorem Transducer.beatwise_makes {α β : Type} (g : α → β) (as : List α) :
    (Transducer.beatwise g fun _ => True).Makes as (as.map g) := by
  induction as with
  | nil => exact ⟨trivial, rfl, rfl⟩
  | cons a as ih =>
    obtain ⟨hok, hrun, houts⟩ := ih
    exact ⟨⟨trivial, hok⟩, hrun, congrArg (g a :: ·) houts⟩

namespace Stage.Queueing

variable {ε α β : Type} {H : ε → Prop} {A B : Stage ε α β} {T : Transducer α β}

/-- A stage whose registers are those of another one, seen through `f`. -/
def comap (L : Queueing H B T) (f : A.State → B.State) (hreset : f A.reset = B.reset)
    (hsource : ∀ s e a, A.source s e a = B.source (f s) e a)
    (hready : ∀ s e a r, A.ready s e a r = B.ready (f s) e a r)
    (hstep : ∀ s e a r, f (A.step s e a r) = B.step (f s) e a r) : Queueing H A T where
  W := L.W
  linear := L.linear
  wf := L.wf
  Rel s := L.Rel ⟨f s.state, s.held⟩
  reset := by
    rw [hreset]
    exact L.reset
  cycle {s q p w} h i hok := by
    rw [Run.gives_through hsource, Run.takes_through hready, Run.next_through hready hstep, Run.source_through hsource]
    exact L.cycle h i hok
  stable {s q p w} h i hok x hx hr j := by
    rw [Run.source_through hsource, Run.next_through hready hstep]
    exact L.stable h i hok x ((Run.source_through hsource s i).symm.trans hx) hr j
  head {s q p w} h i x hx := L.head h i x ((Run.source_through hsource s i).symm.trans hx)

/-- It passes on each beat on its own if its transducer does, in the states in which it is found between beats. -/
def onto (L : Queueing H A T) (g : α → β) (ok : α → Prop) (Rest : T.State → Prop) (hinit : Rest T.init)
    (hbeat : ∀ q a, Rest q → ok a → T.ok q a ∧ T.out q a = [g a] ∧ Rest (T.next q a)) :
    Queueing H A (.beatwise g ok) :=
  -- one step of the two machines against each other, beat or no beat
  have hbeats : ∀ q (a : Option α), Rest q → (Transducer.beatwise g ok).Oks () a.toList → T.Oks q a.toList ∧
      T.outs q a.toList = (Transducer.beatwise g ok).outs () a.toList ∧ Rest (T.run q a.toList) := fun q a hq ha => by
    cases a with
    | none => exact ⟨trivial, rfl, hq⟩
    | some a =>
      obtain ⟨h1, h2, h3⟩ := hbeat q a hq ha.1
      exact ⟨⟨h1, trivial⟩, congrArg (· ++ []) h2, h3⟩
  { W := L.W
    linear := L.linear
    wf := L.wf
    Rel := fun s _ p w => ∃ q, Rest q ∧ L.Rel s q p w
    reset := by
      obtain ⟨w, hw⟩ := L.reset
      exact ⟨w, T.init, hinit, hw⟩
    cycle := by
      rintro s ⟨⟩ p w ⟨q, hq, h⟩ i hok
      have hok' : (Transducer.beatwise g ok).Oks () (s.takes i).toList := by
        unfold Run.takes
        split_ifs
        · exact hok
        · trivial
      obtain ⟨p', w', hp, hrel, hprog⟩ := L.cycle h i (hbeats q _ hq hok).1
      obtain ⟨-, houts, hrest⟩ := hbeats q _ hq hok'
      rw [houts] at hp
      exact ⟨p', w', hp, ⟨_, hrest, hrel⟩, hprog⟩
    stable := by
      rintro s ⟨⟩ p w ⟨q, hq, h⟩ i hok x hx hr j
      exact L.stable h i (hbeats q _ hq hok).1 x hx hr j
    head := by
      rintro s ⟨⟩ p w ⟨q, hq, h⟩ i x hx
      exact L.head h i x hx }

section Step

variable {g : α → β} {ok : α → Prop} (L : Queueing H A (.beatwise g ok)) {s : A.State} {a b : Option α} {p : List β}
  {w : L.W}

/-- What a queue in a system does in a cycle: `b` is what it has refused before of `a`, if anything. -/
structure Step (s : A.State) (b : Option α) (p : List β) (w : L.W) (e : ε) (a : Option α) (r : Bool) (p' : List β)
    (w' : L.W) : Prop where
  moves : p ++ ((if A.ready s e a r then a else none).map g).toList = (if r then A.source s e a else none).toList ++ p'
  rel : L.Rel ⟨A.step s e a r, if A.ready s e a r then none else a⟩ () p' w'
  stable : ∀ x, A.source s e a = some x → r = false → ∀ e' a',
    (if A.ready s e a r then none else a).or a' = a' → A.source (A.step s e a r) e' a' = some x
  progress : H e → b = a → (A.ready s e a r = true → a = none) → (r = true → A.source s e a = none) →
    (a = none ∧ p = [] ∧ w' ≤ w) ∨ (A.source s e a ≠ none ∧ r = false) ∨ w' < w

section

variable (e : ε) (r : Bool) (hb : b = none ∨ b = a)

include hb

theorem or_offer : b.or a = a := by
  rcases hb with rfl | rfl
  · rfl
  · exact Option.or_self

theorem run_eq : Run.offered (⟨s, b⟩ : A.Run) ⟨e, a, r⟩ = a ∧
    Run.takes (⟨s, b⟩ : A.Run) ⟨e, a, r⟩ = (if A.ready s e a r then a else none) ∧
    Run.source (⟨s, b⟩ : A.Run) ⟨e, a, r⟩ = A.source s e a ∧
    Run.gives (⟨s, b⟩ : A.Run) ⟨e, a, r⟩ = (if r then A.source s e a else none) ∧
    Run.next (⟨s, b⟩ : A.Run) ⟨e, a, r⟩ = ⟨A.step s e a r, if A.ready s e a r then none else a⟩ := by
  have hor := or_offer hb
  unfold Run.takes Run.gives Run.source Run.next Run.offered
  rw [hor]
  exact ⟨rfl, rfl, rfl, rfl, rfl⟩

/-- One cycle. -/
theorem step (h : L.Rel ⟨s, b⟩ () p w) (ha : ∀ x, a = some x → ok x) : ∃ p' w', L.Step s b p w e a r p' w' := by
  obtain ⟨hoffered, htakes, hsource, hgives, hnext⟩ := run_eq (s := s) e r hb
  have hok : (Transducer.beatwise g ok).Oks () (Run.offered (⟨s, b⟩ : A.Run) ⟨e, a, r⟩).toList := by
    rw [hoffered]
    cases a with
    | none => trivial
    | some x => exact ⟨ha x rfl, trivial⟩
  have houts : ∀ x : Option α, (Transducer.beatwise g ok).outs () x.toList = (x.map g).toList := fun x => by
    cases x <;> rfl
  obtain ⟨p', w', hp, hrel, hprog⟩ := L.cycle h ⟨e, a, r⟩ hok
  have hstable := L.stable h ⟨e, a, r⟩ hok
  rw [htakes, hgives, houts] at hp
  rw [htakes, hnext] at hrel
  rw [htakes, hgives, hsource] at hprog
  rw [hsource, hnext] at hstable
  refine ⟨p', w', hp, hrel, fun x hx hr e' a' ha' => ?_, fun hH hba ht hg => ?_⟩
  · -- what is shown stays, whatever is offered next
    have hshown := hstable x hx hr ⟨e', a', true⟩
    unfold Run.source Run.offered at hshown
    rwa [ha'] at hshown
  · have harrives : Run.arrives (⟨s, b⟩ : A.Run) ⟨e, a, r⟩ = none := by
      unfold Run.arrives
      cases b with
      | none => exact hba.symm
      | some x => rfl
    have htakes : (if A.ready s e a r then a else none) = none := by
      split_ifs with hready
      · exact ht hready
      · rfl
    have hgives : (if r then A.source s e a else none) = none := by
      split_ifs with hr
      · exact hg hr
      · rfl
    exact hprog hH harrives htakes hgives |>.imp_left fun ⟨h1, h2⟩ => ⟨hba ▸ h1, h2⟩

end

/-- What it shows comes first. -/
theorem shown (h : L.Rel ⟨s, b⟩ () p w) (hb : b = none ∨ b = a) {e : ε} {x : β} (hx : A.source s e a = some x) :
    ∃ xs, p = x :: xs := L.head h ⟨e, a, true⟩ x ((congrArg (A.source s e) (or_offer hb)).trans hx)

end Step

/-- With `g` at its source. -/
def mapped {γ : Type} (L : Queueing H A T) (g : β → γ) : Queueing H (A.mapped g) (T.mapped g) where
  W := L.W
  linear := L.linear
  wf := L.wf
  -- the same state, with the outputs read through the function
  Rel s q p w := ∃ p₀, p = p₀.map g ∧ L.Rel ⟨s.state, s.held⟩ q p₀ w
  reset := by
    obtain ⟨w, hw⟩ := L.reset
    exact ⟨w, [], rfl, hw⟩
  cycle := by
    rintro s q p w ⟨p₀, rfl, h⟩ i hok
    obtain ⟨p', w', hp, hrel, hprog⟩ := L.cycle h i ((T.mapped_oks g _ _).1 hok)
    have hgives : s.gives i = (Run.gives (⟨s.state, s.held⟩ : A.Run) i).map g := by
      show (if i.ready then (Run.source (⟨s.state, s.held⟩ : A.Run) i).map g else none) =
        (if i.ready then Run.source (⟨s.state, s.held⟩ : A.Run) i else none).map g
      split_ifs <;> rfl
    refine ⟨p'.map g, w', ?_, ⟨p', rfl, hrel⟩, fun hH hx ht hg => ?_⟩
    · rw [T.mapped_outs, hgives, Option.toList_map, ← List.map_append, ← List.map_append]
      exact congrArg (List.map g) hp
    · rw [hgives, Option.map_eq_none_iff] at hg
      rcases hprog hH hx ht hg with ⟨h1, rfl, h2⟩ | ⟨h1, h2⟩ | h1
      · exact .inl ⟨h1, rfl, h2⟩
      · exact .inr (.inl ⟨fun hx => h1 (Option.map_eq_none_iff.1 hx), h2⟩)
      · exact .inr (.inr h1)
  stable := by
    rintro s q p w ⟨p₀, -, h⟩ i hok x hx hr j
    obtain ⟨y, hy, rfl⟩ := Option.map_eq_some_iff.1 hx
    exact congrArg (Option.map g) (L.stable h i ((T.mapped_oks g _ _).1 hok) y hy hr j)
  head := by
    rintro s q p w ⟨p₀, rfl, h⟩ i x hx
    obtain ⟨y, hy, rfl⟩ := Option.map_eq_some_iff.1 hx
    obtain ⟨ys, rfl⟩ := L.head h i y hy
    exact ⟨ys.map g, rfl⟩

section AndThen

open Sim (first second inner outer)

variable {γ : Type} {C : Stage ε β γ} {U : Transducer β γ}

/-- The beats that have been taken and not given, of which `b` is offered by the first stage and not taken by the
second. -/
structure Between (L : Queueing H A T) (S : Sim H C U) (s : (A.andThen C).Run) (q : (T.andThen U).State) (p : List γ)
    (b : Option β) (qC : U.State) (pC : List γ) (rest : List β) : Prop where
  left : ∃ w, L.Rel (first s) q.1 (b.toList ++ rest) w
  right : ∃ w, S.Rel (second s b) qC pC w
  stays : ∀ x, b = some x → ∀ j, (first s).source j = some x
  state : q.2 = U.run qC rest
  owed : p = pC ++ U.outs qC rest
  ok : U.Oks qC rest

section Cycle

variable {L : Queueing H A T} {S : Sim H C U} {s : (A.andThen C).Run} {q : (T.andThen U).State} {p : List γ}
  {b : Option β} {qC : U.State} {pC : List γ} {rest : List β}

/-- What the first stage shows is the first of the beats it owes. -/
theorem Between.shown (h : Between L S s q p b qC pC rest) (i : Stage.In ε α) :
    ∃ xs, b.toList ++ rest = ((first s).source (outer s i)).toList ++ xs := by
  obtain ⟨w, hl⟩ := h.left
  cases hx : (first s).source (outer s i) with
  | none => exact ⟨_, rfl⟩
  | some x => exact L.head hl (outer s i) x hx

theorem Between.cycle (h : Between L S s q p b qC pC rest) (i : Stage.In ε α)
    (hok : (T.andThen U).Oks q (s.offered i).toList) : ∃ p' qC' pC' rest',
      p ++ (T.andThen U).outs q (s.takes i).toList = (s.gives i).toList ++ p' ∧
        Between L S (s.next i) ((T.andThen U).run q (s.takes i).toList) p'
          ((second s b).next (inner s i)).held qC' pC' rest' := by
  obtain ⟨hokA, hokC⟩ := (Transducer.andThen_oks T U _ q).1 hok
  obtain ⟨wA, hl⟩ := h.left
  obtain ⟨wC, hr⟩ := h.right
  have hstay := h.stays
  obtain ⟨pA, wA', hpA, hl', -⟩ := L.cycle hl (outer s i) hokA
  obtain ⟨xs, hxs⟩ := h.shown i
  have htakes : (first s).takes (outer s i) = s.takes i := rfl
  rw [htakes] at hpA hl'
  obtain ⟨rest', hrest, hpA'⟩ := Sim.split_owed hstay i hpA (by rw [hxs, List.append_assoc])
  -- what the second stage is given is what it is meant for
  have hoks : U.Oks qC (rest ++ T.outs q.1 (s.takes i).toList) := by
    rw [Transducer.oks_append, ← h.state]
    refine ⟨h.ok, ?_⟩
    unfold Run.takes
    split_ifs
    · exact hokC
    · trivial
  rw [hrest, Transducer.oks_append] at hoks
  obtain ⟨pC', wC', hpC, hr', -⟩ := S.cycle hr (inner s i) hoks.1
  refine ⟨_, _, pC', rest', ?_, ⟨wA', ?_⟩, ⟨wC', ?_⟩, ?_, ?_, rfl, hoks.2⟩
  · rw [h.owed, Transducer.andThen_outs, h.state, List.append_assoc, ← Transducer.outs_append, hrest,
      Transducer.outs_append, ← List.append_assoc, hpC, Sim.gives_eq hstay, List.append_assoc]
  · rw [Transducer.andThen_run, ← hpA']
    exact hl'
  · rw [Sim.second_next hstay i]
    exact hr'
  · intro x hx j
    obtain ⟨hsrc, hready⟩ := Sim.second_held hstay i (by rw [hx]; exact Option.some_ne_none x)
    exact L.stable hl (outer s i) hokA x (hsrc.symm.trans hx) hready j
  · rw [Transducer.andThen_run, h.state, ← Transducer.run_append, hrest, Transducer.run_append]

theorem Between.head (h : Between L S s q p b qC pC rest) (i : Stage.In ε α) {x : γ} (hx : s.source i = some x) :
    ∃ xs, p = x :: xs := by
  obtain ⟨wC, hr⟩ := h.right
  obtain ⟨xs, hxs⟩ := h.shown i
  have hgives : ∃ pA, b.toList ++ rest ++ [] = ((first s).gives (outer s i)).toList ++ pA := by
    rw [List.append_nil, hxs]
    unfold Run.gives
    split_ifs
    · exact ⟨_, rfl⟩
    · exact ⟨_, rfl⟩
  obtain ⟨pA, hpA⟩ := hgives
  obtain ⟨rest', hrest, -⟩ := Sim.split_owed h.stays i hpA (by rw [List.append_nil, hxs])
  have hoks := h.ok
  rw [List.append_nil] at hrest
  rw [hrest, Transducer.oks_append] at hoks
  obtain ⟨pC', hpC⟩ := S.head hr (inner s i) hoks.1
  rw [Sim.source_eq h.stays] at hx
  rw [hx] at hpC
  refine ⟨pC' ++ U.outs (U.run qC ((second s b).arrives (inner s i)).toList) rest', ?_⟩
  rw [h.owed, hrest, Transducer.outs_append, ← List.append_assoc, hpC]
  rfl

end Cycle

/-- A queue, and a stage behind it. -/
def andThen (L : Queueing H A T) (S : Sim H C U) : Queueing H (A.andThen C) (T.andThen U) where
  W := (L.toTaking.sim.andThen S).W
  linear := (L.toTaking.sim.andThen S).linear
  wf := (L.toTaking.sim.andThen S).wf
  Rel s q p w := (∃ b qC pC rest, Between L S s q p b qC pC rest) ∧ (L.toTaking.sim.andThen S).Ahead s q p w
  reset := by
    obtain ⟨wA, hA⟩ := L.reset
    obtain ⟨wC, hC⟩ := S.reset
    obtain ⟨w, hw⟩ := (L.toTaking.sim.andThen S).reset
    exact ⟨w, ⟨none, U.init, [], [], ⟨wA, hA⟩, ⟨wC, hC⟩, nofun, rfl, rfl, trivial⟩, trivial, hw⟩
  cycle := by
    rintro s q p w ⟨⟨b, qC, pC, rest, h⟩, hahead⟩ i hok
    obtain ⟨p', qC', pC', rest', hp, h'⟩ := h.cycle i hok
    obtain ⟨w', hahead', hprog⟩ := hahead.cycle i hok hp
    exact ⟨p', w', hp, ⟨⟨_, qC', pC', rest', h'⟩, hahead'⟩, hprog⟩
  stable := by
    rintro s q p w ⟨-, hahead⟩ i hok x hx hr j
    exact (L.toTaking.sim.andThen S).stable hahead.rel i (Sim.oks_arrives hok) x hx hr j
  head := by
    rintro s q p w ⟨⟨b, qC, pC, rest, h⟩, -⟩ i x hx
    exact h.head i hx

end AndThen

end Stage.Queueing

end LiteEth.Rtl
