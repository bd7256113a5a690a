/-
What a stage makes of its stream, whatever the timing. A transducer says which beats follow from
which; a simulation shows that a stage gives them, all of them, in order, and that it gets on with
its work whenever its environment is helpful. Simulations compose: two stages, one after the other,
simulate their transducers, one after the other.
-/
import LiteEth.Rtl.Stream
import Mathlib.Data.Prod.Lex

namespace LiteEth.Rtl

/-- The order of a rank that is a number. -/
theorem wellFoundedLT_nat : WellFoundedLT ℕ := inferInstance

/-! ## Transducers -/

/-- A function on streams, beat by beat; `ok` tells which beats it is meant for. -/
structure Transducer (α β : Type) where
  State : Type
  init : State
  next : State → α → State
  out : State → α → List β
  ok : State → α → Prop

namespace Transducer

variable {α β γ : Type} (T : Transducer α β) (U : Transducer β γ)

/-- The state after some beats. -/
def run (q : T.State) (as : List α) : T.State := as.foldl T.next q

/-- What follows from some beats. -/
def outs : T.State → List α → List β
  | _, [] => []
  | q, a :: as => T.out q a ++ outs (T.next q a) as

/-- All of the beats are ones it is meant for. -/
def Oks : T.State → List α → Prop
  | _, [] => True
  | q, a :: as => T.ok q a ∧ Oks (T.next q a) as

@[simp] theorem run_nil (q : T.State) : T.run q [] = q := rfl

@[simp] theorem run_cons (q : T.State) (a : α) (as : List α) : T.run q (a :: as) = T.run (T.next q a) as := rfl

@[simp] theorem outs_nil (q : T.State) : T.outs q [] = [] := rfl

@[simp] theorem outs_cons (q : T.State) (a : α) (as : List α) :
    T.outs q (a :: as) = T.out q a ++ T.outs (T.next q a) as := rfl

@[simp] theorem oks_nil (q : T.State) : T.Oks q [] := trivial

@[simp] theorem oks_cons (q : T.State) (a : α) (as : List α) :
    T.Oks q (a :: as) ↔ T.ok q a ∧ T.Oks (T.next q a) as := Iff.rfl

theorem run_append (q : T.State) (as bs : List α) : T.run q (as ++ bs) = T.run (T.run q as) bs := List.foldl_append

theorem outs_append (as bs : List α) : ∀ q, T.outs q (as ++ bs) = T.outs q as ++ T.outs (T.run q as) bs := by
  induction as with
  | nil => intro q; rfl
  | cons a as ih => intro q; rw [List.cons_append, outs_cons, outs_cons, run_cons, ih, List.append_assoc]

theorem oks_append (as bs : List α) : ∀ q, T.Oks q (as ++ bs) ↔ T.Oks q as ∧ T.Oks (T.run q as) bs := by
  induction as with
  | nil => intro q; simp
  | cons a as ih => intro q; rw [List.cons_append, oks_cons, oks_cons, run_cons, ih, and_assoc]

/-- It may be meant for all beats. -/
theorem oks_of_forall (h : ∀ q a, T.ok q a) (as : List α) : ∀ q, T.Oks q as := by
  induction as with
  | nil => exact fun _ => trivial
  | cons a as ih => exact fun q => ⟨h q a, ih _⟩

/-- Parts that each leave it as they found it follow independently. -/
theorem outs_flatten {q : T.State} {fs : List (List α)} (h : ∀ f ∈ fs, T.run q f = q) (as : List α) :
    T.outs q (fs.flatten ++ as) = fs.flatMap (T.outs q) ++ T.outs q as := by
  induction fs with
  | nil => rfl
  | cons f fs ih =>
    rw [List.flatten_cons, List.append_assoc, outs_append, h f List.mem_cons_self,
      ih fun g hg => h g (List.mem_cons_of_mem f hg), List.flatMap_cons, List.append_assoc]

theorem oks_flatten {q : T.State} {fs : List (List α)} (h : ∀ f ∈ fs, T.run q f = q ∧ T.Oks q f) {as : List α}
    (has : T.Oks q as) : T.Oks q (fs.flatten ++ as) := by
  induction fs with
  | nil => exact has
  | cons f fs ih =>
    obtain ⟨hrun, hok⟩ := h f List.mem_cons_self
    rw [List.flatten_cons, List.append_assoc, oks_append, hrun]
    exact ⟨hok, ih fun g hg => h g (List.mem_cons_of_mem f hg)⟩

/-- `T`, followed by `g`. -/
abbrev mapped (g : β → γ) : Transducer α γ where
  State := T.State
  init := T.init
  next := T.next
  out q a := (T.out q a).map g
  ok := T.ok

theorem mapped_outs (g : β → γ) (as : List α) : ∀ q, (T.mapped g).outs q as = (T.outs q as).map g := by
  induction as with
  | nil => exact fun _ => rfl
  | cons a as ih => exact fun q => by rw [outs_cons, outs_cons, ih, List.map_append]

theorem mapped_oks (g : β → γ) (as : List α) : ∀ q, (T.mapped g).Oks q as ↔ T.Oks q as := by
  induction as with
  | nil => exact fun _ => Iff.rfl
  | cons a as ih => exact fun q => and_congr_right fun _ => ih _

/-- `U` after `T`. -/
def andThen : Transducer α γ where
  State := T.State × U.State
  init := (T.init, U.init)
  next q a := (T.next q.1 a, U.run q.2 (T.out q.1 a))
  out q a := U.outs q.2 (T.out q.1 a)
  ok q a := T.ok q.1 a ∧ U.Oks q.2 (T.out q.1 a)

theorem andThen_run (as : List α) :
    ∀ q, (T.andThen U).run q as = (T.run q.1 as, U.run q.2 (T.outs q.1 as)) := by
  induction as with
  | nil => intro q; rfl
  | cons a as ih => intro q; rw [run_cons, ih, outs_cons, run_append]; rfl

theorem andThen_outs (as : List α) : ∀ q, (T.andThen U).outs q as = U.outs q.2 (T.outs q.1 as) := by
  induction as with
  | nil => intro q; rfl
  | cons a as ih => intro q; rw [outs_cons, ih, outs_cons, outs_append]; rfl

theorem andThen_oks (as : List α) :
    ∀ q, (T.andThen U).Oks q as ↔ T.Oks q.1 as ∧ U.Oks q.2 (T.outs q.1 as) := by
  induction as with
  | nil => intro q; simp
  | cons a as ih =>
    intro q
    rw [oks_cons, ih, oks_cons, outs_cons, oks_append]
    exact and_and_and_comm

end Transducer

/-- What the transducer makes of some beats, if it is left as it was found. -/
structure Transducer.Makes {α β : Type} (T : Transducer α β) (as : List α) (bs : List β) : Prop where
  ok : T.Oks T.init as
  run : T.run T.init as = T.init
  outs : T.outs T.init as = bs

namespace Transducer.Makes

variable {α β γ ι : Type} {T : Transducer α β} {U : Transducer β γ}

theorem mapped {as : List α} {bs : List β} (h : T.Makes as bs) (g : β → γ) : (T.mapped g).Makes as (bs.map g) :=
  ⟨(T.mapped_oks g as _).2 h.ok, h.run, (T.mapped_outs g as _).trans (congrArg _ h.outs)⟩

section AndThen

variable {as : List α} {bs : List β} {cs : List γ} (h : T.Makes as bs)

include h

theorem oks_andThen (hbs : U.Oks U.init bs) : (T.andThen U).Oks (T.andThen U).init as :=
  (andThen_oks T U as _).2 ⟨h.ok, h.outs.symm ▸ hbs⟩

theorem outs_andThen : (T.andThen U).outs (T.andThen U).init as = U.outs U.init bs :=
  (andThen_outs T U as _).trans (congrArg (U.outs U.init) h.outs)

theorem andThen (h' : U.Makes bs cs) : (T.andThen U).Makes as cs where
  ok := h.oks_andThen h'.ok
  run := (andThen_run T U as _).trans (Prod.ext h.run ((congrArg (U.run U.init) h.outs).trans h'.run))
  outs := h.outs_andThen.trans h'.outs

end AndThen

/-- Packets, one after the other. -/
theorem flatMap {f : ι → List α} {g : ι → List β} (l : List ι) (h : ∀ x ∈ l, T.Makes (f x) (g x)) :
    T.Makes (l.flatMap f) (l.flatMap g) := by
  induction l with
  | nil => exact ⟨trivial, rfl, rfl⟩
  | cons x l ih =>
    obtain ⟨h1, h2, h3⟩ := h x List.mem_cons_self
    obtain ⟨h4, h5, h6⟩ := ih fun y hy => h y (List.mem_cons_of_mem x hy)
    rw [List.flatMap_cons, List.flatMap_cons]
    refine ⟨(oks_append T _ _ _).2 ⟨h1, h2.symm ▸ h4⟩, ?_, ?_⟩
    · rw [run_append, h2, h5]
    · rw [outs_append, h2, h3, h6]

/-- A stream of packets, and of the beginning of another one. -/
theorem outs_packets {last : α → Bool} {g : List α → List β} {as : List α}
    (hframe : ∀ f ∈ (frames last as).1, T.Makes f (g f))
    (hbegun : T.outs T.init (frames last as).2 = g (frames last as).2) : T.outs T.init as = (packets last as).flatMap g := by
  have hsplit := frames_flatten last as
  have hframes : (frames last as).1.flatMap (T.outs T.init) = (frames last as).1.flatMap g :=
    List.flatMap_congr fun f hf => (hframe f hf).outs
  rw [packets, List.flatMap_append, List.flatMap_singleton, ← hframes, ← hbegun,
    ← outs_flatten T fun f hf => (hframe f hf).run, hsplit]

end Transducer.Makes

/-! ## Simulations -/

/-- The stage `A` gives what follows by `T` from the beats offered to it. `Rel s q p w`: after the
beats offered so far `T` is in state `q`, of what follows from them `p` is still to be given, and `w`
bounds the cycles until the stage takes or gives a beat. -/
structure Stage.Sim {ε α β : Type} (H : ε → Prop) (A : Stage ε α β) (T : Transducer α β) where
  W : Type
  linear : LinearOrder W
  wf : WellFoundedLT W
  Rel : A.Run → T.State → List β → W → Prop
  reset : ∃ w, Rel ⟨A.reset, none⟩ T.init [] w
  cycle : ∀ {s q p w}, Rel s q p w → ∀ i : Stage.In ε α, T.Oks q (s.arrives i).toList → ∃ p' w',
    p ++ T.outs q (s.arrives i).toList = (s.gives i).toList ++ p' ∧
      Rel (s.next i) (T.run q (s.arrives i).toList) p' w' ∧
      (H i.env → s.arrives i = none → s.takes i = none → s.gives i = none →
        (s.held = none ∧ p = [] ∧ w' ≤ w) ∨ (s.source i ≠ none ∧ i.ready = false) ∨ w' < w)
  /-- What is offered and not taken stays at the source. -/
  stable : ∀ {s q p w}, Rel s q p w → ∀ i : Stage.In ε α, T.Oks q (s.arrives i).toList →
    ∀ b, s.source i = some b → i.ready = false → ∀ j, (s.next i).source j = some b

attribute [instance] Stage.Sim.linear Stage.Sim.wf

namespace Stage.Run

variable {ε α β γ : Type} {A : Stage ε α β}

section Through

variable {B : Stage ε α β} {f : A.State → B.State}

theorem source_through (hsource : ∀ s e a, A.source s e a = B.source (f s) e a) (s : A.Run) (i : Stage.In ε α) :
    s.source i = Run.source (⟨f s.state, s.held⟩ : B.Run) i := hsource _ _ _

theorem gives_through (hsource : ∀ s e a, A.source s e a = B.source (f s) e a) (s : A.Run) (i : Stage.In ε α) :
    s.gives i = Run.gives (⟨f s.state, s.held⟩ : B.Run) i := by
  unfold Run.gives
  rw [source_through hsource]

theorem takes_through (hready : ∀ s e a r, A.ready s e a r = B.ready (f s) e a r) (s : A.Run) (i : Stage.In ε α) :
    s.takes i = Run.takes (⟨f s.state, s.held⟩ : B.Run) i := by
  unfold Run.takes
  rw [hready]
  rfl

theorem next_through (hready : ∀ s e a r, A.ready s e a r = B.ready (f s) e a r)
    (hstep : ∀ s e a r, f (A.step s e a r) = B.step (f s) e a r) (s : A.Run) (i : Stage.In ε α) :
    (⟨f (s.next i).state, (s.next i).held⟩ : B.Run) = Run.next (⟨f s.state, s.held⟩ : B.Run) i := by
  unfold Run.next
  dsimp only
  rw [hstep, hready]
  rfl

end Through

end Stage.Run

namespace Stage.Sim

variable {ε α β γ : Type} {H : ε → Prop} {A : Stage ε α β} {T : Transducer α β}

/-- What is at the source comes next. -/
theorem head (R : Sim H A T) {s : A.Run} {q : T.State} {p : List β} {w : R.W} (h : R.Rel s q p w) (i : Stage.In ε α)
    (hok : T.Oks q (s.arrives i).toList) : ∃ p', p ++ T.outs q (s.arrives i).toList = (s.source i).toList ++ p' := by
  obtain ⟨p', _, hp, _⟩ := R.cycle h { i with ready := true } hok
  exact ⟨p', hp⟩

/-! ## Runs -/

/-- In every run whose beats are ones the transducer is meant for. -/
theorem run (R : Sim H A T) (is : List (Stage.In ε α)) (hok : T.Oks T.init (A.arrivals is)) :
    ∃ p w, R.Rel (A.machine.run is) (T.run T.init (A.arrivals is)) p w ∧
      T.outs T.init (A.arrivals is) = A.given is ++ p := by
  induction is using List.reverseRecOn with
  | nil =>
    obtain ⟨w, hw⟩ := R.reset
    exact ⟨[], w, hw, rfl⟩
  | append_singleton is i ih =>
    rw [arrivals_concat, Transducer.oks_append] at hok
    obtain ⟨p, w, h, hp⟩ := ih hok.1
    obtain ⟨p', w', hp', h', -⟩ := R.cycle h i hok.2
    rw [arrivals_concat, given_concat, run_concat, Transducer.run_append, Transducer.outs_append]
    exact ⟨p', w', h', by rw [hp, List.append_assoc, hp', List.append_assoc]⟩

/-- With `g` at its source a stage makes the same of its stream, followed by `g`. -/
def mapped (R : Sim H A T) (g : β → γ) : Sim H (A.mapped g) (T.mapped g) where
  W := R.W
  linear := R.linear
  wf := R.wf
  -- the same state, with the outputs read through the function
  Rel s q p w := ∃ p₀, p = p₀.map g ∧ R.Rel ⟨s.state, s.held⟩ q p₀ w
  reset := by
    obtain ⟨w, hw⟩ := R.reset
    exact ⟨w, [], rfl, hw⟩
  cycle := by
    rintro s q p w ⟨p₀, rfl, h⟩ i hok
    obtain ⟨p', w', hp, hrel, hprog⟩ := R.cycle h i ((T.mapped_oks g _ q).1 hok)
    have hsource : s.source i = (Run.source (⟨s.state, s.held⟩ : A.Run) i).map g := rfl
    have hgives : s.gives i = (Run.gives (⟨s.state, s.held⟩ : A.Run) i).map g := by
      unfold Run.gives
      rw [hsource]
      split_ifs <;> rfl
    refine ⟨p'.map g, w', ?_, ⟨p', rfl, hrel⟩, fun hH hx ht hg => ?_⟩
    · rw [T.mapped_outs, ← List.map_append, hgives, Option.toList_map, ← List.map_append]
      exact congrArg (List.map g) hp
    · rcases hprog hH hx ht (Option.map_eq_none_iff.1 (hgives.symm.trans hg)) with ⟨h1, h2, h3⟩ | h1 | h1
      · exact .inl ⟨h1, by rw [h2]; rfl, h3⟩
      · refine .inr (.inl ⟨fun hn => h1.1 ?_, h1.2⟩)
        exact Option.map_eq_none_iff.1 (hsource.symm.trans hn)
      · exact .inr (.inr h1)
  stable := by
    rintro s q p w ⟨p₀, rfl, h⟩ i hok x hx hr j
    obtain ⟨y, hy, rfl⟩ := Option.map_eq_some_iff.1 hx
    exact congrArg (Option.map g) (R.stable h i ((T.mapped_oks g _ q).1 hok) y hy hr j)

/-- A stage whose registers are those of another one, seen through `f`, makes the same of its stream. -/
def comap {A : Stage ε α β} {B : Stage ε α β} (R : Sim H B T) (f : A.State → B.State) (hreset : f A.reset = B.reset)
    (hsource : ∀ s e a, A.source s e a = B.source (f s) e a)
    (hready : ∀ s e a r, A.ready s e a r = B.ready (f s) e a r)
    (hstep : ∀ s e a r, f (A.step s e a r) = B.step (f s) e a r) : Sim H A T where
  W := R.W
  linear := R.linear
  wf := R.wf
  Rel s := R.Rel ⟨f s.state, s.held⟩
  reset := by
    rw [hreset]
    exact R.reset
  cycle {s q p w} h i hok := by
    rw [Run.gives_through hsource, Run.takes_through hready, Run.next_through hready hstep, Run.source_through hsource]
    exact R.cycle h i hok
  stable {s q p w} h i hok x hx hr j := by
    rw [Run.source_through hsource, Run.next_through hready hstep]
    exact R.stable h i hok x ((Run.source_through hsource s i).symm.trans hx) hr j

/-- A cycle in which nothing new is offered and the consumer is ready. -/
def settle (e : ε) : Stage.In ε α := ⟨e, none, true⟩

theorem arrives_settle (s : A.Run) (e : ε) : s.arrives (settle e) = none := by
  unfold Run.arrives settle
  exact ite_self _

theorem arrivals_settles (es : ℕ → ε) (is : List (Stage.In ε α)) (n : ℕ) :
    A.arrivals (is ++ (List.range n).map fun k => settle (es k)) = A.arrivals is := by
  induction n with
  | zero => rw [List.range_zero, List.map_nil, List.append_nil]
  | succ n ih =>
    rw [List.range_succ, List.map_append, List.map_singleton, ← List.append_assoc, arrivals_concat, ih, arrives_settle,
      Option.toList_none, List.append_nil]

/-- Left alone by the producer, with a ready consumer and a helpful environment, the stage gives
all that is left. -/
theorem drain (R : Sim H A T) (es : ℕ → ε) (hes : ∀ n, H (es n)) {s : A.Run} {q : T.State} {p : List β} {w : R.W}
    (h : R.Rel s q p w) : ∃ n, (A.machine.runFrom s ((List.range n).map fun k => settle (es k))).held = none ∧
      A.machine.log (fun s i => (s.gives i).toList) s ((List.range n).map fun k => settle (es k)) = p := by
  -- by induction on the beats to be taken or given, and on the bound for the next of them
  induction hm : toLex (p.length + s.held.toList.length, w) using WellFoundedLT.induction generalizing s q p w es with
  | ind m ih =>
    subst hm
    by_cases hrest : s.held = none ∧ p = []
    · exact ⟨0, hrest.1, by rw [hrest.2]; rfl⟩
    · obtain ⟨p', w', hp, h', hprog⟩ := R.cycle h (settle (es 0)) (by rw [arrives_settle]; trivial)
      have hheld := Run.arrives_held s (settle (es 0))
      rw [arrives_settle] at hp h' hheld
      rw [Option.toList_none, List.append_nil] at hheld
      simp only [Option.toList_none, Transducer.outs_nil, List.append_nil, Transducer.run_nil] at hp h'
      have hlen := congrArg List.length hp
      have hlen' := congrArg List.length hheld
      rw [List.length_append] at hlen hlen'
      have hlt : toLex (p'.length + (s.next (settle (es 0))).held.toList.length, w') <
          toLex (p.length + s.held.toList.length, w) := by
        rw [Prod.Lex.toLex_lt_toLex]
        by_cases hg : s.gives (settle (es 0)) = none
        · by_cases ht : s.takes (settle (es 0)) = none
          · right
            rw [hg, Option.toList_none, List.length_nil] at hlen
            rw [ht, Option.toList_none, List.length_nil] at hlen'
            rcases hprog (hes 0) (arrives_settle s _) ht hg with h1 | h1 | h1
            · exact absurd ⟨h1.1, h1.2.1⟩ hrest
            · exact absurd h1.2 (by simp [settle])
            · exact ⟨by simp only; omega, h1⟩
          · left
            obtain ⟨a, ha⟩ := Option.ne_none_iff_exists'.1 ht
            rw [ha, Option.toList_some, List.length_singleton] at hlen'
            simp only; omega
        · left
          obtain ⟨b, hb⟩ := Option.ne_none_iff_exists'.1 hg
          rw [hb, Option.toList_some, List.length_singleton] at hlen
          simp only; omega
      obtain ⟨n, h1, h2⟩ := ih _ hlt (fun k => es (k + 1)) (fun k => hes _) h' rfl
      refine ⟨n + 1, ?_⟩
      rw [List.range_succ_eq_map, List.map_cons, List.map_map, Machine.runFrom_cons, Machine.log_cons, hp]
      exact ⟨h1, congrArg _ h2⟩

end Stage.Sim

/-- The stage gives `outs` of the beats `ins`, in order, as they are offered, and all of it in the end, once the consumer
is ready and the environment helps. -/
structure Stage.Delivers {ε α β : Type} (H : ε → Prop) (A : Stage ε α β) (ins : List α) (outs : List β) : Prop where
  in_order : ∀ is, A.arrivals is <+: ins → A.given is <+: outs
  complete : ∀ is, A.arrivals is = ins → ∀ es : ℕ → ε, (∀ k, H (es k)) →
    ∃ n, A.given (is ++ (List.range n).map fun k => Stage.Sim.settle (es k)) = outs

namespace Stage.Sim

variable {ε α β γ : Type} {H : ε → Prop} {A : Stage ε α β} {T : Transducer α β}

/-- What follows by the transducer is delivered. -/
theorem delivers (R : Sim H A T) {ins : List α} (hok : T.Oks T.init ins) : A.Delivers H ins (T.outs T.init ins) := by
  constructor
  · rintro is ⟨bs, rfl⟩
    rw [Transducer.oks_append] at hok
    obtain ⟨p, w, -, hp⟩ := R.run is hok.1
    rw [Transducer.outs_append, hp, List.append_assoc]
    exact List.prefix_append _ _
  · rintro is rfl es hes
    obtain ⟨p, w, h, hp⟩ := R.run is hok
    obtain ⟨n, -, hlog⟩ := R.drain es hes h
    refine ⟨n, ?_⟩
    rw [hp, given, Machine.log_append]
    exact congrArg (_ ++ ·) hlog

/-- A stage that follows `T` follows `V`, if `V` makes the same of every beat in the states of `T` that satisfy
`Rest`, seen through `f`. -/
def becomes (R : Sim H A T) (V : Transducer α β) (f : T.State → V.State) (Rest : T.State → Prop) (hinit : Rest T.init)
    (hf : f T.init = V.init) (hbeat : ∀ q a, Rest q → V.ok (f q) a →
      T.ok q a ∧ T.out q a = V.out (f q) a ∧ f (T.next q a) = V.next (f q) a ∧ Rest (T.next q a)) : Sim H A V :=
  -- one step of the two machines against each other, beat or no beat
  have hbeats : ∀ q (a : Option α), Rest q → V.Oks (f q) a.toList → T.Oks q a.toList ∧
      T.outs q a.toList = V.outs (f q) a.toList ∧ f (T.run q a.toList) = V.run (f q) a.toList ∧
      Rest (T.run q a.toList) := fun q a hq ha => by
    cases a with
    | none => exact ⟨trivial, rfl, rfl, hq⟩
    | some a =>
      obtain ⟨h1, h2, h3, h4⟩ := hbeat q a hq ha.1
      exact ⟨⟨h1, trivial⟩, congrArg (· ++ []) h2, h3, h4⟩
  { W := R.W
    linear := R.linear
    wf := R.wf
    Rel := fun s v p w => ∃ q, Rest q ∧ f q = v ∧ R.Rel s q p w
    reset := by
      obtain ⟨w, hw⟩ := R.reset
      exact ⟨w, T.init, hinit, hf, hw⟩
    cycle := by
      rintro s v p w ⟨q, hq, rfl, h⟩ i hok
      obtain ⟨h1, h2, h3, h4⟩ := hbeats q _ hq hok
      obtain ⟨p', w', hp, hrel, hprog⟩ := R.cycle h i h1
      exact ⟨p', w', h2 ▸ hp, ⟨_, h4, h3, hrel⟩, hprog⟩
    stable := by
      rintro s v p w ⟨q, hq, rfl, h⟩ i hok x hx hr j
      exact R.stable h i (hbeats q _ hq hok).1 x hx hr j }

/-! ## Composition -/

section AndThen

variable {B : Stage ε β γ} {U : Transducer β γ}

/-- The beat between the two stages is `s.2`. -/
abbrev first (s : (A.andThen B).Run) : A.Run := ⟨s.state.1, s.held⟩

/-- The second stage, with the beat that waits between the two. -/
abbrev second (s : (A.andThen B).Run) (b : Option β) : B.Run := ⟨s.state.2, b⟩

/-- What the second stage sees of a cycle. -/
def inner (s : (A.andThen B).Run) (i : Stage.In ε α) : Stage.In ε β :=
  { env := i.env, offer := (first s).source i, ready := i.ready }

/-- What the first stage sees of it. -/
def outer (s : (A.andThen B).Run) (i : Stage.In ε α) : Stage.In ε α :=
  { i with ready := B.ready s.state.2 i.env ((first s).source i) i.ready }

/-- The relation of two stages: `b` is offered by the first and not taken by the second. -/
structure Between (R : Sim H A T) (S : Sim H B U) (s : (A.andThen B).Run) (q : (T.andThen U).State) (p : List γ)
    (w : ℕ ×ₗ S.W ×ₗ R.W) (b : Option β) (qB : U.State) (pB : List γ) (rest : List β) (wA : R.W) (wB : S.W) :
    Prop where
  left : R.Rel (first s) q.1 (b.toList ++ rest) wA
  right : S.Rel (second s b) qB pB wB
  stays : ∀ x, b = some x → ∀ j, (first s).source j = some x
  state : q.2 = U.run qB rest
  owed : p = pB ++ U.outs qB rest
  ok : U.Oks qB rest
  rank : w = toLex (2 * (b.toList ++ rest).length + (if b.isSome then 0 else 1), toLex (wB, wA))

theorem first_next (s : (A.andThen B).Run) (i : Stage.In ε α) : first (s.next i) = (first s).next (outer s i) := rfl

section Second

variable {s : (A.andThen B).Run} {b : Option β} (hb : ∀ x, b = some x → ∀ j, (first s).source j = some x)
  (i : Stage.In ε α)

include hb

theorem second_offered : (second s b).offered (inner s i) = (first s).source i := by
  unfold Run.offered
  cases b with
  | none => rfl
  | some x => exact (hb x rfl i).symm

/-- What the second stage takes, the first one gives. -/
theorem second_takes : (second s b).takes (inner s i) = (first s).gives (outer s i) := by
  unfold Run.takes Run.gives
  rw [second_offered hb]; rfl

theorem second_next : second (s.next i) ((second s b).next (inner s i)).held = (second s b).next (inner s i) := by
  unfold Run.next
  simp only [second_offered hb]
  rfl

theorem gives_eq : s.gives i = (second s b).gives (inner s i) := by
  unfold Run.gives Run.source
  rw [second_offered hb]; rfl

theorem source_eq : s.source i = (second s b).source (inner s i) := by
  unfold Run.source
  rw [second_offered hb]; rfl

/-- A beat the second stage leaves is one the first offers. -/
theorem second_held (hn : ((second s b).next (inner s i)).held ≠ none) :
    ((second s b).next (inner s i)).held = (first s).source i ∧ (outer s i).ready = false := by
  have hready : B.ready s.state.2 i.env ((first s).source i) i.ready = (outer s i).ready := rfl
  unfold Run.next at hn ⊢
  simp only [second_offered hb] at hn ⊢
  have hin : B.ready s.state.2 (inner s i).env ((first s).source i) (inner s i).ready = (outer s i).ready := rfl
  rw [hin] at hn ⊢
  cases h : (outer s i).ready with
  | true => rw [h] at hn; exact absurd rfl hn
  | false => exact ⟨rfl, rfl⟩

/-- Of the beats the first stage owes, the one at its source comes first: it may be offered for the first time, and may
stay between the stages. -/
theorem split_owed {rest outs pA pA' : List β} (hgives : b.toList ++ rest ++ outs = ((first s).gives (outer s i)).toList ++ pA)
    (hhead : b.toList ++ rest ++ outs = ((first s).source (outer s i)).toList ++ pA') : ∃ rest',
      rest ++ outs = ((second s b).arrives (inner s i)).toList ++ rest' ∧
        pA = ((second s b).next (inner s i)).held.toList ++ rest' := by
  have hmove := Run.arrives_held (second s b) (inner s i)
  rw [second_takes hb] at hmove
  by_cases hn : ((second s b).next (inner s i)).held = none
  · rw [hn, Option.toList_none, List.append_nil] at hmove
    rw [← hmove, List.append_assoc, List.append_assoc] at hgives
    exact ⟨pA, List.append_cancel_left hgives, by rw [hn]; rfl⟩
  · obtain ⟨hsrc, hready⟩ := second_held hb i hn
    have hg : (first s).gives (outer s i) = none := by
      unfold Run.gives
      rw [hready]; rfl
    have hsrc' : (first s).source (outer s i) = ((second s b).next (inner s i)).held := hsrc.symm
    rw [hg, Option.toList_none, List.nil_append] at hmove hgives
    rw [hsrc', ← hmove, List.append_assoc, List.append_assoc] at hhead
    have hrest := List.append_cancel_left hhead
    refine ⟨pA', hrest, ?_⟩
    rw [← hgives, ← hmove, List.append_assoc, List.append_assoc, hrest]

end Second

section Cycle

variable {R : Sim H A T} {S : Sim H B U} {s : (A.andThen B).Run} {q : (T.andThen U).State} {p : List γ}
  {w : ℕ ×ₗ S.W ×ₗ R.W} {b : Option β} {qB : U.State} {pB : List γ} {rest : List β} {wA : R.W} {wB : S.W}

/-- The first stage in a cycle: of the beats owed, one may be offered for the first time, and one stays
between the stages. -/
theorem Between.split (h : Between R S s q p w b qB pB rest wA wB) (i : Stage.In ε α)
    (hok : T.Oks q.1 (s.arrives i).toList) : ∃ rest' wA',
    rest ++ T.outs q.1 (s.arrives i).toList = ((second s b).arrives (inner s i)).toList ++ rest' ∧
      R.Rel (first (s.next i)) (T.run q.1 (s.arrives i).toList)
        (((second s b).next (inner s i)).held.toList ++ rest') wA' ∧
      (H i.env → s.arrives i = none → s.takes i = none → (first s).gives (outer s i) = none →
        (s.held = none ∧ b.toList ++ rest = [] ∧ wA' ≤ wA) ∨ (first s).source i ≠ none ∨ wA' < wA) := by
  obtain ⟨hl, -, hstay, -, -, -, -⟩ := h
  obtain ⟨pA', wA', hpA, hl', hprog⟩ := R.cycle hl (outer s i) hok
  obtain ⟨pA'', hhead⟩ := R.head hl (outer s i) hok
  have harr : (first s).arrives (outer s i) = s.arrives i := rfl
  rw [harr] at hpA hl' hhead
  obtain ⟨rest', hrest, hpA'⟩ := split_owed hstay i hpA hhead
  rw [hpA'] at hl'
  refine ⟨rest', wA', hrest, hl', fun hH hx ht hg => ?_⟩
  rcases hprog hH hx ht hg with h | h | h
  · exact .inl h
  · exact .inr (.inl h.1)
  · exact .inr (.inr h)

/-- The beats that reach the second stage are ones it is meant for. -/
theorem Between.oks (h : Between R S s q p w b qB pB rest wA wB) {i : Stage.In ε α}
    (hok : (T.andThen U).Oks q (s.arrives i).toList) : U.Oks qB (rest ++ T.outs q.1 (s.arrives i).toList) := by
  rw [Transducer.andThen_oks] at hok
  rw [Transducer.oks_append, ← h.state]
  exact ⟨h.ok, hok.2⟩

/-- A cycle in which neither stage exchanges a beat with the outside. -/
theorem Between.rank_lt (h : Between R S s q p w b qB pB rest wA wB) (i : Stage.In ε α) {rest' : List β} {wA' : R.W}
    {wB' : S.W} (hrest : rest = ((second s b).arrives (inner s i)).toList ++ rest')
    (hA : (first s).gives (outer s i) = none →
      (s.held = none ∧ b.toList ++ rest = [] ∧ wA' ≤ wA) ∨ (first s).source i ≠ none ∨ wA' < wA)
    (hB : (second s b).arrives (inner s i) = none → (second s b).takes (inner s i) = none →
      (b = none ∧ pB = [] ∧ wB' ≤ wB) ∨ ((second s b).source (inner s i) ≠ none ∧ i.ready = false) ∨ wB' < wB) :
    let b' := ((second s b).next (inner s i)).held
    let w' : ℕ ×ₗ S.W ×ₗ R.W := toLex (2 * (b'.toList ++ rest').length + (if b'.isSome then 0 else 1), toLex (wB', wA'))
    (s.held = none ∧ p = [] ∧ w' ≤ w) ∨ (s.source i ≠ none ∧ i.ready = false) ∨ w' < w := by
  intro b' w'
  obtain ⟨-, -, hstay, -, hp, -, hw⟩ := h
  have hmove := Run.arrives_held (second s b) (inner s i)
  rw [second_takes hstay] at hmove hB
  have hmove' : b.toList ++ ((second s b).arrives (inner s i)).toList =
    ((first s).gives (outer s i)).toList ++ b'.toList := hmove
  have hlen := congrArg List.length hmove'
  rw [List.length_append, List.length_append] at hlen
  have hw' : w' = toLex (2 * (b'.toList ++ rest').length + (if b'.isSome then 0 else 1), toLex (wB', wA')) := rfl
  rw [hw', hw, hrest]
  simp only [Prod.Lex.toLex_lt_toLex, Prod.Lex.toLex_le_toLex]
  by_cases harrB : (second s b).arrives (inner s i) = none
  · by_cases hgA : (first s).gives (outer s i) = none
    · -- nothing moves between the stages
      rw [harrB, hgA] at hmove'
      have hbb : b' = b := by
        rcases b with _ | x <;> rcases b' with _ | y <;> simp_all
      rw [harrB, hbb, Option.toList_none, List.nil_append]
      rcases hB harrB hgA with ⟨h1, h2, h3⟩ | h1 | h1
      · have hsrc : (first s).source i = none := by
          unfold Run.arrives at harrB
          rw [h1] at harrB
          exact harrB
        rcases hA hgA with ⟨k1, k2, k3⟩ | k | k
        · left
          have hrest0 : rest = [] := (List.append_eq_nil_iff.1 k2).2
          refine ⟨k1, ?_, .inr ⟨rfl, ?_⟩⟩
          · rw [hp, h2, hrest0]; rfl
          · rcases lt_or_eq_of_le h3 with h3 | h3
            · exact .inl h3
            · exact .inr ⟨h3, k3⟩
        · exact absurd hsrc k
        · right; right
          refine .inr ⟨rfl, ?_⟩
          rcases lt_or_eq_of_le h3 with h3 | h3
          · exact .inl h3
          · exact .inr ⟨h3, k⟩
      · right; left
        rw [source_eq hstay]
        exact h1
      · right; right
        exact .inr ⟨rfl, .inl h1⟩
    · -- the beat between them is taken
      right; right; left
      obtain ⟨y, hy⟩ := Option.ne_none_iff_exists'.1 hgA
      rw [harrB, hy] at hlen
      rw [harrB]
      rcases b with _ | x <;> rcases b' with _ | z <;> simp at hlen ⊢
      omega
  · -- a beat arrives between them
    right; right; left
    obtain ⟨y, hy⟩ := Option.ne_none_iff_exists'.1 harrB
    have hb0 : b = none := by
      by_contra hne
      obtain ⟨x, hx⟩ := Option.ne_none_iff_exists'.1 hne
      unfold Run.arrives at hy
      rw [hx] at hy
      cases hy
    rw [hy, hb0]
    rcases b' with _ | z <;> simp

/-- One cycle of two stages. -/
theorem Between.cycle (h : Between R S s q p w b qB pB rest wA wB) (i : Stage.In ε α)
    (hok : (T.andThen U).Oks q (s.arrives i).toList) : ∃ p' w' qB' pB' rest' wA' wB',
    rest ++ T.outs q.1 (s.arrives i).toList = ((second s b).arrives (inner s i)).toList ++ rest' ∧
      p ++ (T.andThen U).outs q (s.arrives i).toList = (s.gives i).toList ++ p' ∧
      Between R S (s.next i) ((T.andThen U).run q (s.arrives i).toList) p' w'
        ((second s b).next (inner s i)).held qB' pB' rest' wA' wB' ∧
      (H i.env → s.arrives i = none → s.takes i = none → s.gives i = none →
        (s.held = none ∧ p = [] ∧ w' ≤ w) ∨ (s.source i ≠ none ∧ i.ready = false) ∨ w' < w) := by
  have hokA := ((Transducer.andThen_oks T U _ q).1 hok).1
  -- the first stage moves, and what it gives is offered to the second
  obtain ⟨rest', wA', hrest, hl', hprogA⟩ := h.split i hokA
  have hoks := h.oks hok
  rw [hrest, Transducer.oks_append] at hoks
  obtain ⟨pB', wB', hpB, hr', hprogB⟩ := S.cycle h.right (inner s i) hoks.1
  have hstay := h.stays
  refine ⟨pB' ++ U.outs (U.run qB ((second s b).arrives (inner s i)).toList) rest', _, _, pB', rest', wA', wB', hrest, ?_,
    ⟨?_, ?_, ?_, ?_, rfl, hoks.2, rfl⟩, ?_⟩
  · -- what is owed is what the second owes, and makes of what the first owes
    rw [h.owed, Transducer.andThen_outs, h.state, List.append_assoc, ← Transducer.outs_append, hrest,
      Transducer.outs_append, ← List.append_assoc, hpB, gives_eq hstay, List.append_assoc]
  · rw [Transducer.andThen_run]
    exact hl'
  · rw [second_next hstay i]
    exact hr'
  · intro x hx j
    obtain ⟨hsrc, hready⟩ := second_held hstay i (by rw [hx]; simp)
    rw [first_next]
    exact R.stable h.left (outer s i) hokA x (by rw [← hx]; exact hsrc.symm) hready j
  · rw [Transducer.andThen_run, h.state, ← Transducer.run_append, hrest, Transducer.run_append]
  · -- the rank of one of the two falls
    intro hH hx ht hg
    rw [gives_eq hstay] at hg
    rw [hx, Option.toList_none, Transducer.outs_nil, List.append_nil] at hrest
    exact h.rank_lt i hrest (hprogA hH hx ht) fun h1 h2 => hprogB hH h1 h2 hg

end Cycle

/-- Two stages simulate their transducers, one after the other. -/
def andThen (R : Sim H A T) (S : Sim H B U) : Sim H (A.andThen B) (T.andThen U) where
  W := ℕ ×ₗ S.W ×ₗ R.W
  linear := inferInstance
  wf := inferInstance
  Rel s q p w := ∃ b qB pB rest wA wB, Between R S s q p w b qB pB rest wA wB
  reset := by
    obtain ⟨wA, hA⟩ := R.reset
    obtain ⟨wB, hB⟩ := S.reset
    exact ⟨_, none, U.init, [], [], wA, wB, ⟨hA, hB, nofun, rfl, rfl, trivial, rfl⟩⟩
  cycle := by
    rintro s q p w ⟨b, qB, pB, rest, wA, wB, h⟩ i hok
    obtain ⟨p', w', qB', pB', rest', wA', wB', -, h1, h2, h3⟩ := h.cycle i hok
    exact ⟨p', w', h1, ⟨_, qB', pB', rest', wA', wB', h2⟩, h3⟩
  stable := by
    rintro s q p w ⟨b, qB, pB, rest, wA, wB, h⟩ i hok x hx hr j
    obtain ⟨rest', wA', hrest, -⟩ := h.split i ((Transducer.andThen_oks T U _ q).1 hok).1
    have hoks := h.oks hok
    rw [hrest, Transducer.oks_append] at hoks
    obtain ⟨p', w', qB', pB', rest', wA', wB', -, -, h', -⟩ := h.cycle i hok
    rw [source_eq h.stays] at hx
    rw [source_eq h'.stays, second_next h.stays i]
    exact S.stable h.right (inner s i) hoks.1 x hx hr _

end AndThen

end Stage.Sim

/-! ## Simulations by the beats taken -/

/-- A stage that gives what follows by `T` from the beats it has taken; in `Rel s q p w` the beat held does not
count yet. -/
structure Stage.Taking {ε α β : Type} (H : ε → Prop) (A : Stage ε α β) (T : Transducer α β) where
  W : Type
  linear : LinearOrder W
  wf : WellFoundedLT W
  Rel : A.Run → T.State → List β → W → Prop
  reset : ∃ w, Rel ⟨A.reset, none⟩ T.init [] w
  cycle : ∀ {s q p w}, Rel s q p w → ∀ i : Stage.In ε α, T.Oks q (s.offered i).toList → ∃ p' w',
    p ++ T.outs q (s.takes i).toList = (s.gives i).toList ++ p' ∧
      Rel (s.next i) (T.run q (s.takes i).toList) p' w' ∧
      (H i.env → s.arrives i = none → s.takes i = none → s.gives i = none →
        (s.held = none ∧ p = [] ∧ w' ≤ w) ∨ (s.source i ≠ none ∧ i.ready = false) ∨ w' < w)
  /-- What is offered and not taken stays at the source. -/
  stable : ∀ {s q p w}, Rel s q p w → ∀ i : Stage.In ε α, T.Oks q (s.offered i).toList →
    ∀ x, s.source i = some x → i.ready = false → ∀ j, (s.next i).source j = some x

namespace Stage.Taking

variable {ε α β : Type} {H : ε → Prop} {A : Stage ε α β} {T : Transducer α β}

attribute [instance] Stage.Taking.linear Stage.Taking.wf

/-- The relation of a simulation: the beat held is still to be taken. -/
structure Holds (L : Taking H A T) (s : A.Run) (q : T.State) (p : List β) (w : L.W) (q₀ : T.State) (p₀ : List β) :
    Prop where
  rel : L.Rel s q₀ p₀ w
  ok : T.Oks q₀ s.held.toList
  state : q = T.run q₀ s.held.toList
  owed : p = p₀ ++ T.outs q₀ s.held.toList

theorem Holds.offered {L : Taking H A T} {s : A.Run} {q : T.State} {p : List β} {w : L.W} {q₀ : T.State} {p₀ : List β}
    (h : Holds L s q p w q₀ p₀) {i : Stage.In ε α} (hok : T.Oks q (s.arrives i).toList) :
    T.Oks q₀ (s.offered i).toList := by
  rw [← Run.offered_toList, Transducer.oks_append, ← h.state]
  exact ⟨h.ok, hok⟩

/-- Such a stage simulates its transducer. -/
def sim (L : Taking H A T) : Sim H A T where
  W := L.W
  linear := L.linear
  wf := L.wf
  Rel s q p w := ∃ q₀ p₀, Holds L s q p w q₀ p₀
  reset := by
    obtain ⟨w, hw⟩ := L.reset
    exact ⟨w, T.init, [], hw, trivial, rfl, rfl⟩
  cycle := by
    rintro s q p w ⟨q₀, p₀, h⟩ i hok
    have hoff := h.offered hok
    obtain ⟨p', w', hp, hrel, hprog⟩ := L.cycle h.rel i hoff
    have hmove := Run.arrives_held s i
    refine ⟨p' ++ T.outs (T.run q₀ (s.takes i).toList) (s.next i).held.toList, w', ?_,
      ⟨_, p', ⟨hrel, ?_, ?_, rfl⟩⟩, ?_⟩
    · rw [h.owed, h.state, List.append_assoc, ← Transducer.outs_append, hmove, Transducer.outs_append,
        ← List.append_assoc, hp, List.append_assoc]
    · rw [← Run.offered_toList, hmove, Transducer.oks_append] at hoff
      exact hoff.2
    · rw [h.state, ← Transducer.run_append, hmove, Transducer.run_append]
    · intro hH hx ht hg
      rcases hprog hH hx ht hg with ⟨hb, hp₀, hw⟩ | h1
      · refine .inl ⟨hb, ?_, hw⟩
        rw [h.owed, hp₀, hb]; rfl
      · exact .inr h1
  stable := by
    rintro s q p w ⟨q₀, p₀, h⟩ i hok x hx hr j
    exact L.stable h.rel i (h.offered hok) x hx hr j

end Stage.Taking

/-! ## Stages that do not look ahead -/

/-- A stage whose relation need not speak of the beat `b` at its sink at all. -/
structure Stage.Lazy {ε α β : Type} (H : ε → Prop) (A : Stage ε α β) (T : Transducer α β) where
  W : Type
  linear : LinearOrder W
  wf : WellFoundedLT W
  Rel : A.State → T.State → List β → W → Prop
  reset : ∃ w, Rel A.reset T.init [] w
  cycle : ∀ {s q p w}, Rel s q p w → ∀ e (b : Option α) r, T.Oks q b.toList → ∃ p' w',
    p ++ T.outs q (if A.ready s e b r then b else none).toList = (if r then A.source s e b else none).toList ++ p' ∧
      Rel (A.step s e b r) (T.run q (if A.ready s e b r then b else none).toList) p' w' ∧
      (H e → (A.ready s e b r = true → b = none) → (r = true → A.source s e b = none) →
        (b = none ∧ p = [] ∧ w' ≤ w) ∨ A.source s e b ≠ none ∨ w' < w)
  /-- What is offered and not taken stays at the source. -/
  stable : ∀ {s q p w}, Rel s q p w → ∀ e (b : Option α), T.Oks q b.toList → ∀ x, A.source s e b = some x →
    ∀ e' b', (A.ready s e b false = false → b ≠ none → b' = b) → A.source (A.step s e b false) e' b' = some x

namespace Stage.Lazy

variable {ε α β : Type} {H : ε → Prop} {A : Stage ε α β} {T : Transducer α β}

attribute [instance] Stage.Lazy.linear Stage.Lazy.wf

/-- The relation, at the beat that is offered. -/
def taking (L : Lazy H A T) : Taking H A T where
  W := L.W
  linear := L.linear
  wf := L.wf
  Rel s q p w := L.Rel s.state q p w
  reset := L.reset
  cycle := by
    intro s q p w h i hok
    obtain ⟨p', w', hp, hrel, hprog⟩ := L.cycle h i.env (s.offered i) i.ready hok
    refine ⟨p', w', hp, hrel, fun hH hx ht hg => ?_⟩
    -- a beat that is not taken is still offered
    have hready : A.ready s.state i.env (s.offered i) i.ready = true → s.offered i = none := by
      intro hc
      unfold Run.takes at ht
      rwa [if_pos hc] at ht
    have hsrc : i.ready = true → A.source s.state i.env (s.offered i) = none := by
      intro hc
      unfold Run.gives at hg
      rwa [if_pos hc] at hg
    rcases hprog hH hready hsrc with h1 | h1 | h1
    · rw [Run.offered_of_arrives hx] at h1
      exact .inl h1
    · refine .inr (.inl ⟨h1, ?_⟩)
      by_contra hc
      exact h1 (hsrc (by simpa using hc))
    · exact .inr (.inr h1)
  stable := by
    intro s q p w h i hok x hx hr j
    have hnext : (s.next i).source j =
      A.source (A.step s.state i.env (s.offered i) false) j.env ((s.next i).offered j) := by rw [← hr]; rfl
    rw [hnext]
    apply L.stable h i.env (s.offered i) hok x hx
    -- the beat offered now is the one that was held
    intro hnr hne
    obtain ⟨b, hb⟩ := Option.ne_none_iff_exists'.1 hne
    have hheld : (s.next i).held = some b := by
      unfold Run.next
      rw [hr, hnr, hb]; rfl
    unfold Run.offered at hb ⊢
    rw [hheld, hb]; rfl

/-- A stage that does not look ahead simulates its transducer. -/
def sim (L : Lazy H A T) : Sim H A T := L.taking.sim

open Sim (first) in
/-- What is offered to it by the stage before it is what it is meant for. -/
theorem offered {γ : Type} {B : Stage ε β γ} {U : Transducer β γ} (R : Sim H A T) (L : Lazy H B U) {s : (A.andThen B).Run}
    {q : (T.andThen U).State} {p : List γ} {w : (R.andThen L.sim).W} (h : (R.andThen L.sim).Rel s q p w)
    (i : Stage.In ε α) (hok : (T.andThen U).Oks q (s.arrives i).toList) :
    ∃ qB pB wB, L.Rel s.state.2 qB pB wB ∧ U.Oks qB ((first s).source i).toList := by
  obtain ⟨b, qB, pB, rest, wA, wB, hb⟩ := h
  obtain ⟨rest', wA', hrest, -⟩ := hb.split i ((Transducer.andThen_oks T U _ q).1 hok).1
  have hoks := hb.oks hok
  rw [hrest, Transducer.oks_append] at hoks
  obtain ⟨q₀, p₀, hholds⟩ := hb.right
  have hoffered := hholds.offered hoks.1
  rw [Sim.second_offered hb.stays] at hoffered
  exact ⟨q₀, p₀, wB, hholds.rel, hoffered⟩

end Stage.Lazy

end LiteEth.Rtl
