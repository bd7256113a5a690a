/-
A dispatcher in a row of stages. It offers a beat to no more than one slave in a cycle, so what it gives is one stream, in
which each beat is marked with its slave; a stage at one of the slaves works on the beats that are marked with it, and lets
the others pass. Each packet goes to the slave its first beat selects.
-/
import LiteEth.Rtl.Dispatcher
import LiteEth.Rtl.StreamTaken

namespace LiteEth.Rtl

variable {ε α : Type} {last : α → Bool} {n : ℕ}

namespace Dispatcher

/-- The beat that a slave is offered, with the slave. -/
def chosen (D : Dispatcher α last n) (s : D.State) (sel : ℕ) (b : Option α) : Option (ℕ × α) :=
  ((List.range n).find? fun j => (D.source s sel b j).isSome).bind fun j => (D.source s sel b j).map (j, ·)

/-- What selects the slave. -/
def select (slave : α → ℕ) (idle : ε → ℕ) (e : ε) (b : Option α) : ℕ := b.elim (idle e) (2 ^ slave ·)

/-- The dispatcher as a stage: `ready` is that of the slave that is offered a beat, `slave` is the one a packet is for, and
`idle` the selection while there is no beat. -/
abbrev stage (D : Dispatcher α last n) (slave : α → ℕ) (idle : ε → ℕ) : Stage ε α (ℕ × α) where
  State := D.State
  reset := D.reset
  source s e b := D.chosen s (select slave idle e b) b
  ready s e b r := D.ready s (select slave idle e b) b fun _ => r
  step s e b r := D.step s (select slave idle e b) b fun _ => r

/-- Each packet is marked with the slave it is for; the state is that of the packet that has begun. -/
abbrev marks (slave : α → ℕ) (last : α → Bool) : Transducer α (ℕ × α) where
  State := Option ℕ
  init := none
  next v x := if last x then none else some (v.getD (slave x))
  out v x := [(v.getD (slave x), x)]
  ok _ _ := True

section Marks

variable (slave : α → ℕ)

theorem marks_oks (xs : List α) : ∀ v, (marks slave last).Oks v xs := Transducer.oks_of_forall _ (fun _ _ => trivial) xs

/-- The beginning of a packet, marked. -/
def markedFor (f : List α) : List (ℕ × α) := f.head?.toList.flatMap fun a => f.map (slave a, ·)

theorem marks_rest {m : List α} (hm : ∀ x ∈ m, last x = false) (j : ℕ) :
    (marks slave last).outs (some j) m = m.map (j, ·) ∧ (marks slave last).run (some j) m = some j := by
  induction m with
  | nil => exact ⟨rfl, rfl⟩
  | cons x m ih =>
    obtain ⟨h1, h2⟩ := ih fun y hy => hm y (List.mem_cons_of_mem x hy)
    rw [Transducer.outs_cons, Transducer.run_cons]
    simp only [hm x List.mem_cons_self, Option.getD_some, Bool.false_eq_true, if_false, h1, h2, List.map_cons,
      List.singleton_append]
    exact ⟨trivial, trivial⟩

theorem marks_begun {m : List α} (hm : ∀ x ∈ m, last x = false) :
    (marks slave last).outs none m = markedFor slave m ∧ (marks slave last).run none m = m.head?.map slave := by
  cases m with
  | nil => exact ⟨rfl, rfl⟩
  | cons x m =>
    obtain ⟨h1, h2⟩ := marks_rest slave (fun y hy => hm y (List.mem_cons_of_mem x hy)) (slave x)
    rw [Transducer.outs_cons, Transducer.run_cons]
    simp only [hm x List.mem_cons_self, Option.getD_none, Bool.false_eq_true, if_false, h1, h2]
    exact ⟨(List.append_nil _).symm, rfl⟩

/-- A packet is marked as a whole. -/
theorem marks_frame {f : List α} (hf : IsFrame last f) :
    (marks slave last).outs none f = markedFor slave f ∧ (marks slave last).run none f = none := by
  obtain ⟨m, l, hm, hl⟩ := hf
  obtain ⟨h1, h2⟩ := marks_begun slave hm
  rw [Transducer.outs_append, Transducer.run_append, h1, h2, Transducer.outs_cons, Transducer.run_cons]
  simp only [hl, if_true, Transducer.outs_nil, Transducer.run_nil, and_true]
  cases m with
  | nil => rfl
  | cons x m => simp [markedFor]

end Marks

variable {D : Dispatcher α last n}

/-- The dispatcher in a cycle that offers a beat: the slave is that of the packet that has begun, or that of the beat. -/
theorem stage_some (hn : 2 ≤ n) {s : D.State} {slave : α → ℕ} (idle : ε → ℕ) {v : Option ℕ}
    (hlatched : D.latched s = v.map (2 ^ ·)) (e : ε) (a : α) (hlt : v.getD (slave a) < n) :
    (D.stage slave idle).source s e (some a) = some (v.getD (slave a), a) ∧
      (∀ r, (D.stage slave idle).ready s e (some a) r = r) ∧
      ∀ r, D.latched ((D.stage slave idle).step s e (some a) r) =
        ((marks slave last).run v (if r then some a else none).toList).map (2 ^ ·) := by
  -- the latch holds the mark of the packet, or the beat brings its own
  have hsel : (D.latched s).getD (select slave idle e (some a)) = 2 ^ v.getD (slave a) := by
    rw [hlatched]
    cases v <;> rfl
  have hready : ∀ r, (D.stage slave idle).ready s e (some a) r = r := fun r => D.ready_selected hn _ _ _ _ _ hlt hsel
  refine ⟨?_, hready, fun r => ?_⟩
  · have hsource : ∀ j, D.source s (select slave idle e (some a)) (some a) j =
        if v.getD (slave a) = j then some a else none := by
      intro j
      rw [D.source_eq hn, hsel]
      by_cases hj : v.getD (slave a) = j
      · rw [if_pos hj, if_pos ⟨hj ▸ hlt, hj ▸ rfl⟩]
      · rw [if_neg hj, if_neg]
        exact fun h => hj (Nat.pow_right_injective le_rfl h.2)
    have hfind : (List.range n).find? (fun j => (D.source s (select slave idle e (some a)) (some a) j).isSome) =
        some (v.getD (slave a)) := by
      rw [List.find?_range_eq_some]
      refine ⟨?_, List.mem_range.2 hlt, fun j hj => ?_⟩
      · rw [hsource, if_pos rfl]
        rfl
      · rw [hsource, if_neg hj.ne']
        rfl
    show D.chosen s _ (some a) = _
    unfold chosen
    rw [hfind, Option.bind_some, hsource, if_pos rfl]
    rfl
  · -- the mark is latched by the first beat and cleared by the last
    have hstep : D.latched ((D.stage slave idle).step s e (some a) r) =
        if (D.stage slave idle).ready s e (some a) r then
          if last a then none else some ((D.latched s).getD (select slave idle e (some a)))
        else D.latched s := D.latched_some hn _ _ _ _
    rw [hstep, hready, hsel, hlatched]
    cases r <;> cases hl : last a <;> simp [hl]

theorem stage_none (hn : 2 ≤ n) (s : D.State) (slave : α → ℕ) (idle : ε → ℕ) (e : ε) :
    (D.stage slave idle).source s e none = none := by
  have hfind : (List.range n).find? (fun j => (D.source s (select slave idle e none) none j).isSome) = none := by
    rw [List.find?_eq_none]
    rintro j -
    rw [D.source_eq hn, ite_self]
    exact Bool.false_ne_true
  show D.chosen s _ none = none
  unfold chosen
  rw [hfind]
  rfl

/-- With several slaves, each packet goes to the one it is for. -/
def dispatches (hn : 2 ≤ n) {slave : α → ℕ} (hslave : ∀ a, slave a < n) (H : ε → Prop) (idle : ε → ℕ) :
    Stage.Lazy H (D.stage slave idle) (marks slave last) where
  W := ℕ
  linear := inferInstance
  wf := wellFoundedLT_nat
  Rel s v p w := D.latched s = v.map (2 ^ ·) ∧ (∀ a, v.getD (slave a) < n) ∧ p = [] ∧ w = 0
  reset := ⟨0, D.latched_reset, hslave, rfl, rfl⟩
  cycle := by
    rintro s v p w ⟨hlatched, hv, rfl, rfl⟩ e b r -
    cases b with
    | none =>
      rw [stage_none hn, ite_self, ite_self]
      refine ⟨[], 0, rfl, ⟨?_, hv, rfl, rfl⟩, fun _ _ _ => .inl ⟨rfl, rfl, le_rfl⟩⟩
      exact (D.latched_none hn _ _ _).trans hlatched
    | some a =>
      obtain ⟨hsource, hready, hstep⟩ := stage_some hn idle hlatched e a (hv a)
      rw [hready, hsource]
      refine ⟨[], 0, ?_, ⟨hstep r, ?_, rfl, rfl⟩, fun _ _ _ => .inr (.inl (Option.some_ne_none _))⟩
      · cases r <;> rfl
      · -- the packet goes on, or the next one has not begun
        intro c
        cases r with
        | false => exact hv c
        | true =>
          cases hl : last a with
          | true => simpa [hl] using hslave c
          | false => simpa [hl] using hv a
  stable := by
    rintro s v p w ⟨hlatched, hv, rfl, rfl⟩ e b - x hx e' b' hb
    cases b with
    | none =>
      rw [stage_none hn] at hx
      cases hx
    | some a =>
      obtain ⟨hsource, hready, hstep⟩ := stage_some hn idle hlatched e a (hv a)
      obtain ⟨hsource', -, -⟩ := stage_some hn idle (hstep false) e' a (hv a)
      rw [hb (hready false) (Option.some_ne_none a)]
      exact hsource'.trans (hsource.symm.trans hx)

end Dispatcher

end LiteEth.Rtl
