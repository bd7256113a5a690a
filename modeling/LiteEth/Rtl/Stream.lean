/-
Streams with a valid/ready handshake, one stage at a time. A stage offers a beat at its source
depending on its registers and on the beat offered at its sink, and answers the sink's beat
depending on whether its own is taken. A producer that has offered a beat keeps offering it until
it is taken: the machine of a stage holds it.
-/
import LiteEth.Rtl.Machine
import Mathlib.Tactic

namespace LiteEth.Rtl

/-- A stage between streams of `α` and of `β`, in an environment `ε`. Its functions take the beat
offered at the sink (`none` when `sink.valid = 0`) and `source.ready`. -/
structure Stage (ε α β : Type) where
  State : Type
  reset : State
  source : State → ε → Option α → Option β
  ready : State → ε → Option α → Bool → Bool
  step : State → ε → Option α → Bool → State

namespace Stage

variable {ε α β γ : Type}

/-- The inputs of one cycle: the environment, the beat the producer offers unless it still holds
one, and `source.ready`. -/
structure In (ε α : Type) where
  env : ε
  offer : Option α
  ready : Bool

section Machine

variable (A : Stage ε α β)

/-- The registers of a stage, with the beat that has been offered to it and not taken. -/
structure Run where
  state : A.State
  held : Option α

variable {A}

/-- The beat at the sink. -/
def Run.offered (s : A.Run) (i : In ε α) : Option α := s.held.or i.offer

/-- The beat that is offered for the first time. -/
def Run.arrives (s : A.Run) (i : In ε α) : Option α := if s.held.isSome then none else i.offer

/-- The beat the stage takes. -/
def Run.takes (s : A.Run) (i : In ε α) : Option α :=
  if A.ready s.state i.env (s.offered i) i.ready then s.offered i else none

/-- The beat at the source. -/
def Run.source (s : A.Run) (i : In ε α) : Option β := A.source s.state i.env (s.offered i)

/-- The beat the consumer takes. -/
def Run.gives (s : A.Run) (i : In ε α) : Option β := if i.ready then s.source i else none

/-- One cycle: a beat that is taken is offered no more. -/
def Run.next (s : A.Run) (i : In ε α) : A.Run where
  state := A.step s.state i.env (s.offered i) i.ready
  held := if A.ready s.state i.env (s.offered i) i.ready then none else s.offered i

variable (A)

/-- The stage, fed by a producer that keeps its offers. -/
def machine : Machine (In ε α) A.Run where
  reset := { state := A.reset, held := none }
  step := Run.next

/-- The beats offered, taken and given in a run. -/
def arrivals (is : List (In ε α)) : List α := A.machine.log (fun s i => (s.arrives i).toList) A.machine.reset is

/-- The beats that have been taken. -/
def taken (is : List (In ε α)) : List α := A.machine.log (fun s i => (s.takes i).toList) A.machine.reset is

/-- The beats that have been given. -/
def given (is : List (In ε α)) : List β := A.machine.log (fun s i => (s.gives i).toList) A.machine.reset is

end Machine

variable {A : Stage ε α β}

@[simp] theorem machine_step (s : A.Run) (i : In ε α) : A.machine.step s i = s.next i := rfl

@[simp] theorem machine_reset : A.machine.reset = ⟨A.reset, none⟩ := rfl

theorem Run.arrives_held (s : A.Run) (i : In ε α) :
    s.held.toList ++ (s.arrives i).toList = (s.takes i).toList ++ (s.next i).held.toList := by
  unfold Run.takes Run.next Run.arrives Run.offered
  rcases s.held with _ | a <;> split_ifs <;> simp_all

theorem Run.offered_toList (s : A.Run) (i : In ε α) :
    s.held.toList ++ (s.arrives i).toList = (s.offered i).toList := by
  unfold Run.arrives Run.offered
  rcases s.held with _ | a <;> simp

theorem Run.offered_of_arrives {s : A.Run} {i : In ε α} (h : s.arrives i = none) : s.offered i = s.held := by
  unfold Run.arrives at h
  unfold Run.offered
  rcases hs : s.held with _ | a
  · rw [hs] at h
    exact h
  · rfl

/-- What has been offered is taken, or still held. -/
theorem arrivals_eq (is : List (In ε α)) : A.arrivals is = A.taken is ++ (A.machine.run is).held.toList := by
  have h := A.machine.runFrom_logs_inv (R := fun s l m => l = m ++ s.held.toList)
    (f := fun s i => (s.arrives i).toList) (g := fun s i => (s.takes i).toList)
    (fun s i l m hl => by
      rw [hl, List.append_assoc, Run.arrives_held, machine_step, List.append_assoc])
    is A.machine.reset [] [] rfl
  rw [List.nil_append, List.nil_append] at h
  exact h

section Concat

variable (is : List (In ε α)) (i : In ε α)

theorem arrivals_concat : A.arrivals (is ++ [i]) = A.arrivals is ++ ((A.machine.run is).arrives i).toList := by
  unfold arrivals
  rw [Machine.log_concat]; rfl

theorem taken_concat : A.taken (is ++ [i]) = A.taken is ++ ((A.machine.run is).takes i).toList := by
  unfold taken
  rw [Machine.log_concat]; rfl

theorem given_concat : A.given (is ++ [i]) = A.given is ++ ((A.machine.run is).gives i).toList := by
  unfold given
  rw [Machine.log_concat]; rfl

theorem run_concat : A.machine.run (is ++ [i]) = (A.machine.run is).next i := A.machine.runFrom_concat _ is i

end Concat

/-! ## Composition -/

/-- `B` after `A`. -/
abbrev andThen (A : Stage ε α β) (B : Stage ε β γ) : Stage ε α γ where
  State := A.State × B.State
  reset := (A.reset, B.reset)
  source s e a := B.source s.2 e (A.source s.1 e a)
  ready s e a r := A.ready s.1 e a (B.ready s.2 e (A.source s.1 e a) r)
  step s e a r :=
    (A.step s.1 e a (B.ready s.2 e (A.source s.1 e a) r), B.step s.2 e (A.source s.1 e a) r)

/-- `A`, with `g` at its source. -/
abbrev mapped (A : Stage ε α β) (g : β → γ) : Stage ε α γ where
  State := A.State
  reset := A.reset
  source s e a := (A.source s e a).map g
  ready := A.ready
  step := A.step

end Stage

/-! ## Frames -/

section Frames

variable {α : Type} (last : α → Bool)

/-- One more beat after the frames so far and the beats of the next. -/
def frameStep (fp : List (List α) × List α) (b : α) : List (List α) × List α :=
  if last b then (fp.1 ++ [fp.2 ++ [b]], []) else (fp.1, fp.2 ++ [b])

/-- The frames of a stream, and the beats after the last of them. -/
def frames (bs : List α) : List (List α) × List α := bs.foldl (frameStep last) ([], [])

theorem frames_concat (bs : List α) (b : α) : frames last (bs ++ [b]) = frameStep last (frames last bs) b := by
  unfold frames
  rw [List.foldl_append, List.foldl_cons, List.foldl_nil]

/-- More beats do not change the frames before them. -/
theorem frames_append (bs cs : List α) : (frames last bs).1 <+: (frames last (bs ++ cs)).1 := by
  induction cs using List.reverseRecOn with
  | nil => rw [List.append_nil]
  | append_singleton cs b ih =>
    rw [← List.append_assoc, frames_concat, frameStep]
    split_ifs
    · exact ih.trans (List.prefix_append _ _)
    · exact ih

/-- The frames of a stream are its beats, in order. -/
theorem frames_flatten (bs : List α) : (frames last bs).1.flatten ++ (frames last bs).2 = bs := by
  induction bs using List.reverseRecOn with
  | nil => rfl
  | append_singleton bs b ih =>
    rw [frames_concat, frameStep]
    split_ifs
    · simp only [List.flatten_append, List.flatten_cons, List.flatten_nil, List.append_nil]
      rw [← List.append_assoc, ih]
    · rw [← List.append_assoc, ih]

/-- A frame: its last beat, and no other, is marked. -/
inductive IsFrame : List α → Prop
  | mk (m : List α) (l : α) (hm : ∀ b ∈ m, last b = false) (hl : last l = true) : IsFrame (m ++ [l])

/-- The frames of a stream are frames, and no beat after them is the last of one. -/
theorem frames_spec (bs : List α) :
    (∀ f ∈ (frames last bs).1, IsFrame last f) ∧ ∀ b ∈ (frames last bs).2, last b = false := by
  induction bs using List.reverseRecOn with
  | nil => exact ⟨nofun, nofun⟩
  | append_singleton bs b ih =>
    rw [frames_concat, frameStep]
    split_ifs with hb
    · refine ⟨fun f hf => ?_, nofun⟩
      rcases List.mem_append.1 hf with h | h
      · exact ih.1 f h
      · rw [List.mem_singleton.1 h]
        exact .mk _ b ih.2 hb
    · refine ⟨ih.1, fun x hx => ?_⟩
      rcases List.mem_append.1 hx with h | h
      · exact ih.2 x h
      · rw [List.mem_singleton.1 h]
        simpa using hb

/-- Beats of which none is the last of a frame belong to the next one. -/
theorem frames_append_begun (bs : List α) {m : List α} (hm : ∀ b ∈ m, last b = false) :
    frames last (bs ++ m) = ((frames last bs).1, (frames last bs).2 ++ m) := by
  induction m using List.reverseRecOn with
  | nil => simp
  | append_singleton m b ih =>
    rw [← List.append_assoc, frames_concat, ih fun x hx => hm x (List.mem_append_left _ hx), frameStep,
      hm b (by simp), if_neg Bool.false_ne_true, List.append_assoc]

/-- The frames of a stream of frames are these. -/
theorem frames_of_frames {fs : List (List α)} (hfs : ∀ f ∈ fs, IsFrame last f) {m : List α}
    (hm : ∀ b ∈ m, last b = false) : frames last (fs.flatten ++ m) = (fs, m) := by
  rw [frames_append_begun last _ hm]
  suffices h : frames last fs.flatten = (fs, []) by rw [h]; rfl
  induction fs using List.reverseRecOn with
  | nil => rfl
  | append_singleton fs f ih =>
    obtain ⟨m, l, hm, hl⟩ := hfs f (by simp)
    rw [List.flatten_append, List.flatten_singleton, ← List.append_assoc, frames_concat, frames_append_begun last _ hm,
      ih fun g hg => hfs g (List.mem_append_left _ hg), frameStep, hl]
    rfl

/-- The frames of the beginning of a stream of frames. -/
theorem frames_of_begins {fs : List (List α)} (hfs : ∀ f ∈ fs, IsFrame last f) {bs : List α} (h : bs <+: fs.flatten) :
    (frames last bs).1 = fs.take (frames last bs).1.length := by
  obtain ⟨cs, hcs⟩ := h
  have hmono := frames_append last bs cs
  rw [hcs, ← List.append_nil fs.flatten, frames_of_frames last hfs (List.forall_mem_nil _)] at hmono
  exact List.prefix_iff_eq_take.1 hmono

/-- Frames end with a beat that is marked. -/
theorem frames_end {fs : List (List α)} (hfs : ∀ f ∈ fs, IsFrame last f) {as bs : List α} (h : fs.flatten = as ++ bs)
    (hbs : ∀ b ∈ bs, last b = false) : bs = [] := by
  rcases List.eq_nil_or_concat fs with rfl | ⟨gs, g, rfl⟩
  · exact (List.append_eq_nil_iff.1 h.symm).2
  · obtain ⟨m, l, -, hl⟩ := hfs g (by simp)
    rw [List.concat_eq_append, List.flatten_append, List.flatten_singleton, ← List.append_assoc] at h
    rcases List.eq_nil_or_concat bs with rfl | ⟨us, u, rfl⟩
    · rfl
    · rw [List.concat_eq_append, ← List.append_assoc] at h
      obtain rfl : l = u := List.singleton_inj.1 (List.append_inj_right' h rfl)
      exact absurd hl (ne_true_of_eq_false (hbs l (by simp)))

/-- Nothing is left after frames, some of them left out. -/
theorem frames_flatMap {γ : Type} {g : γ → List α} {fs : List γ} (h : ∀ f ∈ fs, g f = [] ∨ IsFrame last (g f)) :
    (frames last (fs.flatMap g)).2 = [] := by
  induction fs using List.reverseRecOn with
  | nil => rfl
  | append_singleton fs f ih =>
    have hfs := ih fun f' hf' => h f' (List.mem_append_left _ hf')
    rw [List.flatMap_append, List.flatMap_singleton]
    rcases h f (by simp) with hnil | hframe
    · rw [hnil, List.append_nil]
      exact hfs
    · generalize g f = as at hframe
      obtain ⟨m, l, -, hl⟩ := hframe
      rw [← List.append_assoc, frames_concat, frameStep, if_pos hl]

/-- Beats that are changed, but for their marks, are frames as before. -/
theorem frames_map {β : Type} {last' : β → Bool} {g : α → β} (hg : ∀ b, last' (g b) = last b) (bs : List α) :
    frames last' (bs.map g) = ((frames last bs).1.map (List.map g), (frames last bs).2.map g) := by
  induction bs using List.reverseRecOn with
  | nil => rfl
  | append_singleton bs b ih =>
    rw [List.map_append, List.map_singleton, frames_concat, frames_concat, ih, frameStep, frameStep, hg]
    split_ifs <;> simp

/-- The frames of a stream, and what has begun of the next one. -/
def packets (bs : List α) : List (List α) := (frames last bs).1 ++ [(frames last bs).2]

theorem begun_mem_packets (bs : List α) (b : α) : (frames last bs).2 ++ [b] ∈ packets last (bs ++ [b]) := by
  rw [packets, frames_concat, frameStep]
  split_ifs <;> simp

/-- The packets of a stream are the beginnings of those of a longer one. -/
theorem packets_begins {bs cs f : List α} (h : bs <+: cs) (hf : f ∈ packets last bs) :
    ∃ g ∈ packets last cs, f <+: g := by
  obtain ⟨cs, rfl⟩ := h
  induction cs using List.reverseRecOn with
  | nil => exact ⟨f, by rwa [List.append_nil], List.prefix_rfl⟩
  | append_singleton cs b ih =>
    obtain ⟨g, hg, hfg⟩ := ih
    rw [← List.append_assoc]
    rcases List.mem_append.1 hg with hg | hg
    · have hmono := frames_append last (bs ++ cs) [b]
      exact ⟨g, List.mem_append_left _ (hmono.subset hg), hfg⟩
    · rw [List.mem_singleton.1 hg] at hfg
      exact ⟨_, begun_mem_packets last _ b, hfg.trans (List.prefix_append _ [b])⟩

/-- The values of a frame, the last of them marked. -/
def marked {δ : Type} (ds : List δ) : List (δ × Bool) := ds.dropLast.map (·, false) ++ ds.getLast?.toList.map (·, true)

theorem marked_concat {δ : Type} (ds : List δ) (d : δ) : marked (ds ++ [d]) = ds.map (·, false) ++ [(d, true)] := by
  unfold marked
  rw [List.dropLast_concat, List.getLast?_concat]
  rfl

theorem getLast?_marked {δ : Type} (ds : List δ) : (marked ds).getLast? = ds.getLast?.map (·, true) := by
  rcases List.eq_nil_or_concat ds with rfl | ⟨ds, d, rfl⟩
  · rfl
  · rw [List.concat_eq_append, marked_concat, List.getLast?_concat, List.getLast?_concat]
    rfl

theorem marked_cons_cons {δ : Type} (d e : δ) (ds : List δ) : marked (d :: e :: ds) = (d, false) :: marked (e :: ds) := by
  rw [← List.singleton_append, ← List.dropLast_append_getLast (List.cons_ne_nil e ds), ← List.append_assoc, marked_concat,
    marked_concat]
  rfl

/-- Marked values are a frame. -/
theorem isFrame_marked {δ : Type} {ds : List δ} (h : ds ≠ []) : IsFrame Prod.snd (marked ds) := by
  rw [← List.dropLast_append_getLast h, marked_concat]
  refine .mk _ _ (fun x hx => ?_) rfl
  obtain ⟨d, -, rfl⟩ := List.mem_map.1 hx
  rfl

/-- Only the last part decides which value is marked. -/
theorem marked_append {δ : Type} (cs : List δ) {ds : List δ} (hds : ds ≠ []) :
    marked (cs ++ ds) = cs.map (·, false) ++ marked ds := by
  rw [← List.dropLast_append_getLast hds, ← List.append_assoc, marked_concat, marked_concat, List.map_append,
    List.append_assoc]

theorem marked_map {δ δ' : Type} (g : δ → δ') (ds : List δ) :
    marked (ds.map g) = (marked ds).map fun x => (g x.1, x.2) := by
  unfold marked
  rw [← List.map_dropLast, List.getLast?_map, List.map_append, List.map_map, List.map_map, Option.toList_map,
    List.map_map, List.map_map]
  rfl

variable {last}

theorem IsFrame.ne_nil {f : List α} (h : IsFrame last f) : f ≠ [] := by
  obtain ⟨m, l, -, -⟩ := h
  exact List.append_ne_nil_of_right_ne_nil _ (List.cons_ne_nil _ _)

/-- The end of a frame is one. -/
theorem IsFrame.drop {f : List α} (h : IsFrame last f) {n : ℕ} (hn : n < f.length) : IsFrame last (f.drop n) := by
  obtain ⟨m, l, hm, hl⟩ := h
  rw [List.length_append, List.length_singleton] at hn
  rw [List.drop_append_of_le_length (by omega)]
  exact .mk _ l (fun b hb => hm b (List.mem_of_mem_drop hb)) hl

theorem IsFrame.map {β : Type} {last' : β → Bool} {g : α → β} (hg : ∀ b, last' (g b) = last b) {f : List α}
    (h : IsFrame last f) : IsFrame last' (f.map g) := by
  obtain ⟨m, l, hm, hl⟩ := h
  rw [List.map_append]
  refine .mk _ (g l) (fun x hx => ?_) ((hg l).trans hl)
  obtain ⟨b, hb, rfl⟩ := List.mem_map.1 hx
  exact (hg b).trans (hm b hb)

theorem IsFrame.map_marked {δ : Type} (g : α → δ) {f : List α} (h : IsFrame last f) :
    f.map (fun b => (g b, last b)) = marked (f.map g) := by
  obtain ⟨m, l, hm, hl⟩ := h
  have hm' : m.map (fun b => (g b, last b)) = m.map fun b => (g b, false) :=
    List.map_congr_left fun b hb => by rw [hm b hb]
  rw [List.map_append, List.map_append, hm', marked, List.map_singleton, List.map_singleton, hl]
  simp

end Frames

end LiteEth.Rtl
