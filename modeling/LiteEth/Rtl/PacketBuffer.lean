/-
Stages that store each packet in a packet FIFO before they pass it on. A FIFO of a certain size waits
for the end of the packet it holds, and so a packet that is larger than the FIFO waits for room for ever.
-/
import LiteEth.Rtl.PacketFIFO
import LiteEth.Rtl.StreamTaken

namespace LiteEth.Rtl

namespace PacketFIFO

variable {α : Type} {last : α → Bool}

/-- The FIFO takes words while it holds fewer than `payload` of them and the ends of fewer than `params`
packets, and it shows a packet once it holds its end: the FIFOs inside have no output register, whose cycle would pass
before the packet is shown. -/
structure Sized (F : PacketFIFO α last) (payload params : ℕ) : Prop where
  ready_iff : ∀ s, F.sinkReady s = true ↔ (F.contents s).length < payload ∧ (F.contents s).countP last < params
  source_ne : ∀ s, (∃ y ∈ F.contents s, last y = true) → F.source s ≠ none

theorem queue_sized (last : α → Bool) (payloadDepth paramDepth : ℕ) :
    (queue last payloadDepth paramDepth).Sized (payloadDepth + 1) (paramDepth + 1) := by
  refine ⟨fun s => ?_, fun s => ?_⟩
  · show (decide _ && decide _) = true ↔ _
    rw [Bool.and_eq_true, decide_eq_true_iff, decide_eq_true_iff]
    rfl
  · rintro ⟨y, hy, hl⟩ hnone
    have hany : List.any s last = true := List.any_eq_true.2 ⟨y, hy, hl⟩
    have hhead : (if List.any s last then List.head? s else none) = none := hnone
    rw [if_pos hany] at hhead
    cases s with
    | nil => cases hany
    | cons x s => cases hhead

end PacketFIFO

/-! ## Packets that fit -/

namespace PacketFIFO

variable {ε α : Type} {last : α → Bool}

/-- A packet FIFO as a stage. -/
abbrev stage (F : PacketFIFO α last) : Stage ε α α where
  State := F.State
  reset := F.reset
  source s _ _ := F.source s
  ready s _ _ _ := F.sinkReady s
  step s _ a r := F.step s a r

/-- Each packet follows as a whole, with its end; it is meant for packets of at most `payload` words. -/
abbrev store (last : α → Bool) (payload : ℕ) : Transducer α α where
  State := List α
  init := []
  next m a := if last a then [] else m ++ [a]
  out m a := if last a then m ++ [a] else []
  ok m _ := m.length < payload

theorem store_begun (payload : ℕ) {m : List α} (hm : ∀ a ∈ m, last a = false) : ∀ n : List α,
    (store last payload).outs n m = [] ∧ (store last payload).run n m = n ++ m ∧
      (n.length + m.length ≤ payload → (store last payload).Oks n m) := by
  induction m with
  | nil => exact fun n => ⟨rfl, (List.append_nil n).symm, fun _ => trivial⟩
  | cons a m ih =>
    intro n
    obtain ⟨h1, h2, h3⟩ := ih (fun b hb => hm b (List.mem_cons_of_mem a hb)) (n ++ [a])
    rw [List.length_append, List.length_singleton] at h3
    rw [Transducer.outs_cons, Transducer.run_cons, Transducer.oks_cons, List.length_cons]
    simp only [hm a List.mem_cons_self, Bool.false_eq_true, if_false, h1, h2, List.append_assoc, List.singleton_append,
      List.nil_append, true_and]
    exact fun hlen => ⟨by omega, h3 (by omega)⟩

/-- A packet that fits follows. -/
theorem store_frame (payload : ℕ) {f : List α} (hf : IsFrame last f) : (store last payload).outs [] f = f ∧
    (store last payload).run [] f = [] ∧ (f.length ≤ payload → (store last payload).Oks [] f) := by
  obtain ⟨m, l, hm, hl⟩ := hf
  obtain ⟨h1, h2, h3⟩ := store_begun payload hm []
  rw [Transducer.outs_append, Transducer.run_append, Transducer.oks_append, h1, h2, Transducer.outs_cons,
    Transducer.run_cons, Transducer.oks_cons, List.length_append, List.length_singleton]
  simp only [hl, if_true, Transducer.outs_nil, Transducer.run_nil, List.nil_append, List.append_nil, Transducer.oks_nil,
    and_true, true_and]
  exact fun hlen => ⟨h3 (by rw [List.length_nil]; omega), hlen⟩

/-- The words stored: whole packets, and the beginning of the next one. -/
structure Stores (F : PacketFIFO α last) (s : F.State) (m p : List α) : Prop where
  contents : F.contents s = p ++ m
  begun : ∀ a ∈ m, last a = false
  whole : p ≠ [] → ∃ u l, p = u ++ [l] ∧ last l = true

section Stores

variable {F : PacketFIFO α last} {payload params : ℕ} (hF : F.Sized payload params) {s : F.State} {m p : List α}
  (h : Stores F s m p)

include h

/-- What is shown comes first. -/
theorem Stores.source_eq {x : α} (hx : F.source s = some x) : ∃ xs, p = x :: xs := by
  obtain ⟨y, hy, hl⟩ := F.source_whole s (by rw [hx]; exact Option.some_ne_none x)
  obtain ⟨xs, hxs⟩ := F.source_eq s x hx
  rw [h.contents] at hxs hy
  cases p with
  | nil =>
    rw [h.begun y hy] at hl
    cases hl
  | cons z zs =>
    cases hxs
    exact ⟨zs, rfl⟩

variable (payload) in
/-- One cycle. -/
theorem Stores.next (a : Option α) (pop : Bool) : ∃ p', p ++ (store last payload).outs m (F.pushed s a).toList =
      (F.popped s pop).toList ++ p' ∧ Stores F (F.step s a pop) ((store last payload).run m (F.pushed s a).toList) p' := by
  have hcont := F.popped_append_contents s a pop
  rw [h.contents] at hcont
  -- what stays of the whole packets
  obtain ⟨p₁, hp₁, hwhole⟩ : ∃ p₁, p = (F.popped s pop).toList ++ p₁ ∧
      (p₁ ≠ [] → ∃ u l, p₁ = u ++ [l] ∧ last l = true) := by
    cases hx : F.popped s pop with
    | none => exact ⟨p, rfl, h.whole⟩
    | some x =>
      have hsource : F.source s = some x := by
        cases pop with
        | false => cases hx
        | true => exact hx
      obtain ⟨xs, hxs⟩ := h.source_eq hsource
      refine ⟨xs, hxs, fun hne => ?_⟩
      obtain ⟨u, l, hu, hl⟩ := h.whole (by rw [hxs]; exact List.cons_ne_nil x xs)
      rw [hxs] at hu
      cases u with
      | nil => exact absurd (List.cons.inj hu).2 hne
      | cons y u => exact ⟨u, l, (List.cons.inj hu).2, hl⟩
  rw [hp₁, List.append_assoc, List.append_assoc] at hcont
  have hcont := List.append_cancel_left hcont
  cases hpush : F.pushed s a with
  | none =>
    rw [hpush, Option.toList_none, List.append_nil] at hcont
    exact ⟨p₁, by rw [hp₁]; exact List.append_nil _, hcont, h.begun, hwhole⟩
  | some b =>
    rw [hpush, Option.toList_some] at hcont
    rw [Option.toList_some, Transducer.outs_cons, Transducer.run_cons, Transducer.outs_nil, Transducer.run_nil,
      List.append_nil]
    cases hl : last b with
    | true =>
      refine ⟨p₁ ++ (m ++ [b]), by simp only [hl, if_true]; rw [hp₁, List.append_assoc], ?_⟩
      simp only [hl, if_true]
      exact ⟨by rw [hcont, List.append_nil], nofun, fun _ => ⟨p₁ ++ m, b, (List.append_assoc _ _ _).symm, hl⟩⟩
    | false =>
      refine ⟨p₁, by simp only [hl, Bool.false_eq_true, if_false]; rw [hp₁, List.append_nil], ?_⟩
      simp only [hl, Bool.false_eq_true, if_false]
      refine ⟨hcont, fun x hx => ?_, hwhole⟩
      rcases List.mem_append.1 hx with hx | hx
      · exact h.begun x hx
      · rw [List.mem_singleton.1 hx, hl]

include hF in
theorem Stores.source_ne (hp : p ≠ []) : F.source s ≠ none := by
  obtain ⟨u, l, rfl, hl⟩ := h.whole hp
  exact hF.source_ne s ⟨l, by rw [h.contents]; simp, hl⟩

end Stores

/-- The stage, with a word at its sink that it does not take as part of its environment. -/
abbrev refusing (F : PacketFIFO α last) : Stage (ε × Option α) α α where
  State := F.State
  reset := F.reset
  source s _ _ := F.source s
  ready s _ _ _ := F.sinkReady s
  step s e a r := F.step s (if F.sinkReady s then a else a.or e.2) r

/-- A packet FIFO passes on the packets that fit in it. -/
def stores {F : PacketFIFO α last} {payload params : ℕ} (hF : F.Sized payload params) (hparams : 0 < params)
    (H : ε × Option α → Prop) : Stage.Lazy H F.refusing (store last payload) where
  W := ℕ
  linear := inferInstance
  wf := wellFoundedLT_nat
  -- the FIFO holds what is owed, and shows it at once: no rank is needed
  Rel s m p w := Stores F s m p ∧ w = 0
  reset := ⟨0, ⟨F.contents_reset, nofun, fun h => absurd rfl h⟩, rfl⟩
  cycle := by
    rintro s m p w ⟨h, rfl⟩ e b r hok
    have hpushed : F.pushed s (if F.sinkReady s then b else b.or e.2) = if F.sinkReady s then b else none := by
      unfold pushed
      split_ifs <;> rfl
    obtain ⟨p', hp, hs⟩ := h.next payload (if F.sinkReady s then b else b.or e.2) r
    rw [hpushed] at hp hs
    refine ⟨p', 0, hp, ⟨hs, rfl⟩, fun _ hready hsource => ?_⟩
    -- nothing is owed, hence it has room; else it shows its first beat
    by_cases hpn : p = []
    · refine .inl ⟨?_, hpn, le_rfl⟩
      cases b with
      | none => rfl
      | some b =>
        refine hready ((hF.ready_iff s).2 ?_)
        have hcount : m.countP last = 0 := List.countP_eq_zero.2 fun y hy => ne_true_of_eq_false (h.begun y hy)
        rw [h.contents, hpn, List.nil_append, hcount]
        exact ⟨hok.1, hparams⟩
    · exact .inr (.inl (h.source_ne hF hpn))
  stable := by
    rintro s m p w ⟨h, rfl⟩ e b - x hx e' b' -
    obtain ⟨xs, rfl⟩ := h.source_eq hx
    obtain ⟨p', hp, hs⟩ := h.next payload (if F.sinkReady s then b else b.or e.2) false
    have hp' : x :: (xs ++ (store last payload).outs m
      (F.pushed s (if F.sinkReady s then b else b.or e.2)).toList) = p' := hp
    obtain ⟨y, hy⟩ := Option.ne_none_iff_exists'.1 (hs.source_ne hF (hp' ▸ List.cons_ne_nil _ _))
    obtain ⟨ys, hys⟩ := hs.source_eq hy
    have hxy : x = y := (List.cons.inj (hp'.trans hys)).1
    show F.source (F.step s _ false) = some x
    rw [hy, hxy]

section Yields

variable {F : PacketFIFO α last} {payload params : ℕ} (hF : F.Sized payload params) {β γ : Type} (g : α → β)
  {X : Stage ε β γ} {U : Transducer β γ}

/-- A cycle, with what is not taken in the environment. -/
def taking (s : ((F.stage.mapped g).andThen X).Run) (i : Stage.In ε α) : Stage.In (ε × Option α) α :=
  ⟨(i.env, s.offered i), s.takes i, i.ready⟩

/-- Between cycles, the beat that is held will be in the environment. -/
def free (s : ((F.stage.mapped g).andThen X).Run) : ((F.refusing.mapped g).andThen (X.under Prod.fst)).Run :=
  ⟨s.state, none⟩

variable {g}

theorem free_gives (s : ((F.stage.mapped g).andThen X).Run) (i : Stage.In ε α) :
    (free g s).gives (taking g s i) = s.gives i := rfl

theorem free_takes (s : ((F.stage.mapped g).andThen X).Run) (i : Stage.In ε α) :
    (free g s).takes (taking g s i) = s.takes i := by
  show (if F.sinkReady s.state.1 then (if F.sinkReady s.state.1 then s.offered i else none) else none) =
    if F.sinkReady s.state.1 then s.offered i else none
  split_ifs <;> rfl

theorem free_next (s : ((F.stage.mapped g).andThen X).Run) (i : Stage.In ε α) :
    (free g s).next (taking g s i) = free g (s.next i) := by
  have hstep : (if F.sinkReady s.state.1 then s.takes i else (s.takes i).or (s.offered i)) = s.offered i := by
    show (if F.sinkReady s.state.1 then (if F.sinkReady s.state.1 then s.offered i else none) else
      (if F.sinkReady s.state.1 then s.offered i else none).or (s.offered i)) = s.offered i
    split_ifs <;> rfl
  have hheld : (if F.sinkReady s.state.1 then none else s.takes i) = none := by
    show (if F.sinkReady s.state.1 then none else if F.sinkReady s.state.1 then s.offered i else none) = none
    split_ifs <;> rfl
  refine congrArg₂ Stage.Run.mk (Prod.ext ?_ rfl) hheld
  exact congrArg (F.step s.state.1 · _) hstep

section

variable (hparams : 0 < params) {H : ε → Prop} (S : Stage.Sim (fun e : ε × Option α => H e.1) (X.under Prod.fst) U)

include hF hparams S in
/-- The FIFO and the stage behind it, where no beat is refused. -/
def simulates (g : α → β) : Stage.Sim (fun e : ε × Option α => H e.1) ((F.refusing.mapped g).andThen (X.under Prod.fst))
    (((store last payload).mapped g).andThen U) :=
  ((stores hF hparams fun e : ε × Option α => H e.1).sim.mapped g).andThen S

variable {S} {s : ((F.stage.mapped g).andThen X).Run} {q : (((store last payload).mapped g).andThen U).State} {p : List γ}
  {v : (simulates hF hparams S g).W} {p₀ : List α}

include hF in
/-- What is taken fits in the FIFO. -/
theorem stores_oks (hs : Stores F s.state.1 q.1 p₀) (i : Stage.In ε α) :
    (store last payload).Oks q.1 (s.takes i).toList := by
  show (store last payload).Oks q.1 (if F.sinkReady s.state.1 then s.offered i else none).toList
  split_ifs with hready
  · have hlt := ((hF.ready_iff _).1 hready).1
    rw [hs.contents, List.length_append] at hlt
    cases s.offered i with
    | none => trivial
    | some a => exact ⟨by show q.1.length < payload; omega, trivial⟩
  · trivial

/-- One cycle. -/
theorem simulates_cycle (h : (simulates hF hparams S g).Rel (free g s) q p v) (hs : Stores F s.state.1 q.1 p₀)
    (i : Stage.In ε α) (hok : (((store last payload).mapped g).andThen U).Oks q (s.takes i).toList) : ∃ p' v',
      p ++ (((store last payload).mapped g).andThen U).outs q (s.takes i).toList = (s.gives i).toList ++ p' ∧
        (simulates hF hparams S g).Rel (free g (s.next i))
          ((((store last payload).mapped g).andThen U).run q (s.takes i).toList) p' v' ∧
        (∃ p₁, Stores F (s.next i).state.1
          ((((store last payload).mapped g).andThen U).run q (s.takes i).toList).1 p₁) ∧
        (H i.env → i.ready = true → s.takes i = none → s.gives i = none → p = [] ∨ v' < v) := by
  have harrives : (free g s).arrives (taking g s i) = s.takes i := rfl
  obtain ⟨p', v', hp, hrel, hprog⟩ := (simulates hF hparams S g).cycle h (taking g s i) hok
  rw [harrives, free_next] at hrel
  rw [harrives, free_gives] at hp
  obtain ⟨p₁, -, hs'⟩ := hs.next payload (s.offered i)
    (X.ready s.state.2 i.env ((F.source s.state.1).map g) i.ready)
  refine ⟨p', v', hp, hrel, ⟨p₁, ?_⟩, fun hH hr ht hg => ?_⟩
  · rw [Transducer.andThen_run]
    exact hs'
  · rw [harrives, free_takes, free_gives] at hprog
    rcases hprog hH ht ht hg with h1 | h1 | h1
    · exact .inl h1.2.1
    · exact absurd (hr.symm.trans h1.2) Bool.noConfusion
    · exact .inr h1

variable (S)

/-- Behind a packet FIFO: what follows from the packets that the FIFO takes is given, even if it is left with the
beginning of one that is larger than it. -/
def yields (hU : ∀ q bs, U.Oks q bs) (g : α → β) :
    Stage.Yields H ((F.stage.mapped g).andThen X) (((store last payload).mapped g).andThen U) where
  W := (simulates hF hparams S g).W
  linear := (simulates hF hparams S g).linear
  wf := (simulates hF hparams S g).wf
  Rel s q p w := (simulates hF hparams S g).Rel (free g s) q p w ∧ ∃ p₀, Stores F s.state.1 q.1 p₀
  reset := by
    obtain ⟨w, hw⟩ := (simulates hF hparams S g).reset
    exact ⟨w, hw, [], F.contents_reset, nofun, fun h => absurd rfl h⟩
  cycle := by
    rintro s q p w ⟨h, p₀, hs⟩ i
    have hok : (((store last payload).mapped g).andThen U).Oks q (s.takes i).toList := by
      rw [Transducer.andThen_oks, Transducer.mapped_oks]
      exact ⟨stores_oks hF hs i, hU _ _⟩
    obtain ⟨p', v', hp, hrel, hs', hprog⟩ := simulates_cycle hF hparams h hs i hok
    exact ⟨p', v', hp, ⟨hrel, hs'⟩, hprog⟩

end

/-! ## As a queue -/

include hF in
/-- A packet FIFO on its own. -/
def buffers (hparams : 0 < params) (H : ε → Prop) : Stage.Sim H F.stage (store last payload) :=
  ((stores hF hparams fun e : ε × Option α => H e.1).sim.under fun e => (e, none)).comap id rfl
    (fun _ _ _ => rfl) (fun _ _ _ _ => rfl) fun s _ a r => by
      show F.step s a r = F.step s (if F.sinkReady s then a else a.or none) r
      rw [Option.or_none, ite_self]

/-- A packet FIFO, and what is behind it, show nothing before they have taken it. -/
def queues (hparams : 0 < params) {H : ε → Prop} (S : Stage.Sim H X U) (g : α → β) :
    Stage.Queueing H ((F.stage.mapped g).andThen X) (((store last payload).mapped g).andThen U) where
  W := (((buffers hF hparams H).mapped g).andThen S).W
  linear := (((buffers hF hparams H).mapped g).andThen S).linear
  wf := (((buffers hF hparams H).mapped g).andThen S).wf
  Rel s q p w := (∃ v, (simulates hF hparams (S.under Prod.fst) g).Rel (free g s) q p v) ∧
    (∃ p₀, Stores F s.state.1 q.1 p₀) ∧ (((buffers hF hparams H).mapped g).andThen S).Ahead s q p w
  reset := by
    obtain ⟨v, hv⟩ := (simulates hF hparams (S.under Prod.fst) g).reset
    obtain ⟨w, hw⟩ := (((buffers hF hparams H).mapped g).andThen S).reset
    exact ⟨w, ⟨v, hv⟩, ⟨[], F.contents_reset, nofun, fun h => absurd rfl h⟩, trivial, hw⟩
  cycle := by
    rintro s q p w ⟨⟨v, hv⟩, ⟨p₀, hs⟩, h⟩ i hok
    have htakes : (((store last payload).mapped g).andThen U).Oks q (s.takes i).toList := by
      unfold Stage.Run.takes
      split_ifs
      · exact hok
      · trivial
    obtain ⟨p', v', hp, hv', hs', -⟩ := simulates_cycle hF hparams hv hs i htakes
    obtain ⟨w', h', hprog⟩ := h.cycle i hok hp
    exact ⟨p', w', hp, ⟨⟨v', hv'⟩, hs', h'⟩, hprog⟩
  stable := by
    rintro s q p w ⟨-, -, h⟩ i hok x hx hr j
    exact (((buffers hF hparams H).mapped g).andThen S).stable h.rel i (Stage.Sim.oks_arrives hok) x hx hr j
  head := by
    rintro s q p w ⟨⟨v, hv⟩, -⟩ i x hx
    -- with a ready consumer and nothing offered, it would be given
    obtain ⟨p', -, hp, -⟩ := (simulates hF hparams (S.under Prod.fst) g).cycle hv ⟨(i.env, none), none, true⟩ trivial
    have hgives : (free g s).gives ⟨(i.env, none), none, true⟩ = some x := hx
    rw [hgives] at hp
    exact ⟨p', (List.append_nil p).symm.trans hp⟩

end Yields

end PacketFIFO

namespace Stage

variable {ε α β : Type}

/-- A stage whose sink is that of a packet FIFO. With a ready consumer it takes what the FIFO shows, after at most
`rank` cycles. -/
structure Buffered (A : Stage ε α β) {last : α → Bool} (F : PacketFIFO α last) where
  fifo : A.State → F.State
  pop : A.State → ε → Bool → Bool
  fifo_reset : fifo A.reset = F.reset
  ready_eq : ∀ s e a r, A.ready s e a r = F.sinkReady (fifo s)
  fifo_step : ∀ s e a r, fifo (A.step s e a r) = F.step (fifo s) a (pop s e r)
  rank : A.State → ℕ
  rank_step : ∀ s e a, F.source (fifo s) ≠ none → pop s e true = true ∨ rank (A.step s e a true) < rank s

namespace Buffered

variable {A : Stage ε α β} {last : α → Bool} {F : PacketFIFO α last} (B : A.Buffered F)

/-- The words in the FIFO. -/
def contents (s : A.Run) : List α := F.contents (B.fifo s.state)

/-- The FIFO refuses the beat at the sink, and it shows nothing. -/
def Wedged (s : A.Run) (i : Stage.In ε α) : Prop :=
  s.offered i ≠ none ∧ F.sinkReady (B.fifo s.state) = false ∧ F.source (B.fifo s.state) = none

variable {B}

theorem contents_next (s : A.Run) (i : Stage.In ε α) : B.contents (s.next i) =
    (if (F.source (B.fifo s.state)).isSome && B.pop s.state i.env i.ready then (B.contents s).tail else B.contents s) ++
      (s.takes i).toList := by
  unfold contents Run.takes Run.next
  dsimp only
  rw [B.fifo_step, F.contents_step, B.ready_eq]
  cases F.sinkReady (B.fifo s.state) <;> rfl

theorem takes_eq (s : A.Run) (i : Stage.In ε α) :
    s.takes i = if F.sinkReady (B.fifo s.state) then s.offered i else none := by
  unfold Run.takes
  rw [B.ready_eq]

/-! ## What is stored -/

section Run

variable {payload params : ℕ} (hF : F.Sized payload params)

/-- The FIFO holds the end of what has been taken, with all that has been taken of the last packet. -/
structure Holds (B : A.Buffered F) (payload : ℕ) (is : List (Stage.In ε α)) : Prop where
  stored : B.contents (A.machine.run is) <:+ A.taken is
  begun : (frames last (A.taken is)).2 <:+ B.contents (A.machine.run is)
  length_le : (B.contents (A.machine.run is)).length ≤ payload

/-- A packet that has begun is not among the words that leave. -/
theorem tail_begun {m c : List α} (hm : ∀ y ∈ m, last y = false) (hmc : m <:+ c) (hc : ∃ y ∈ c, last y = true) :
    m <:+ c.tail := by
  obtain ⟨v, rfl⟩ := hmc
  obtain ⟨y, hy, hl⟩ := hc
  cases v with
  | nil =>
    rw [hm y hy] at hl
    cases hl
  | cons x v => exact List.suffix_append v m

theorem suffix_append_right {c d : List α} (h : c <:+ d) (t : List α) : c ++ t <:+ d ++ t := by
  obtain ⟨u, rfl⟩ := h
  exact ⟨u, (List.append_assoc _ _ _).symm⟩

/-- Frames end with the end of one. -/
theorem last_flatten {fs : List (List α)} (hfs : ∀ f ∈ fs, IsFrame last f) {u : List α} {y : α}
    (h : u ++ [y] = fs.flatten) : last y = true := by
  rcases List.eq_nil_or_concat fs with rfl | ⟨fs, f, rfl⟩
  · exact absurd h (by simp)
  · obtain ⟨m, l, -, hl⟩ := hfs f (by simp)
    rw [List.concat_eq_append, List.flatten_append, List.flatten_singleton, ← List.append_assoc] at h
    rw [List.append_inj_right' h rfl |> List.singleton_inj.1]
    exact hl

include hF

theorem holds (is : List (Stage.In ε α)) : Holds B payload is := by
  induction is using List.reverseRecOn with
  | nil =>
    have hnil : B.contents (A.machine.run []) = [] := by
      show F.contents (B.fifo A.reset) = []
      rw [B.fifo_reset, F.contents_reset]
    exact ⟨hnil ▸ List.nil_suffix, List.nil_suffix, hnil ▸ Nat.zero_le _⟩
  | append_singleton is i ih =>
    obtain ⟨hstored, hbegun, hle⟩ := ih
    have hm := (frames_spec last (A.taken is)).2
    -- what stays in the FIFO
    obtain ⟨c, hc, hstored, hbegun, hshort⟩ : ∃ c, B.contents ((A.machine.run is).next i) =
        c ++ ((A.machine.run is).takes i).toList ∧ c <:+ A.taken is ∧ (frames last (A.taken is)).2 <:+ c ∧
          c.length ≤ (B.contents (A.machine.run is)).length := by
      refine ⟨_, contents_next _ i, ?_⟩
      split_ifs with hpop
      · have hsome := Option.isSome_iff_ne_none.1 (Bool.and_eq_true_iff.1 hpop).1
        exact ⟨(List.tail_suffix _).trans hstored, tail_begun hm hbegun (F.source_whole _ hsome),
          (List.tail_suffix _).length_le⟩
      · exact ⟨hstored, hbegun, le_rfl⟩
    refine ⟨?_, ?_, ?_⟩
    · rw [run_concat, hc, taken_concat]
      exact suffix_append_right hstored _
    · rw [run_concat, hc, taken_concat]
      cases (A.machine.run is).takes i with
      | none =>
        rw [Option.toList_none, List.append_nil, List.append_nil]
        exact hbegun
      | some b =>
        rw [Option.toList_some, frames_concat, frameStep]
        split_ifs
        · exact List.nil_suffix
        · exact suffix_append_right hbegun _
    · rw [run_concat, hc, takes_eq (B := B), List.length_append]
      split_ifs with hready
      · have hlt : (B.contents (A.machine.run is)).length < payload := ((hF.ready_iff _).1 hready).1
        have hone : ((A.machine.run is).offered i).toList.length ≤ 1 := by
          cases (A.machine.run is).offered i <;> simp
        omega
      · rw [Option.toList_none, List.length_nil]
        omega

/-- What is stored when nothing is shown has begun and not ended. -/
theorem contents_eq_begun {is : List (Stage.In ε α)} (h : F.source (B.fifo (A.machine.run is).state) = none) :
    B.contents (A.machine.run is) = (frames last (A.taken is)).2 := by
  obtain ⟨hstored, hbegun, -⟩ := holds hF (B := B) is
  have hnone : ∀ y ∈ B.contents (A.machine.run is), last y = false := fun y hy =>
    eq_false_of_ne_true fun hl => hF.source_ne _ ⟨y, hy, hl⟩ h
  obtain ⟨v, hv⟩ := hbegun
  rcases List.eq_nil_or_concat v with rfl | ⟨v, y, rfl⟩
  · exact hv.symm
  · obtain ⟨u, hu⟩ := hstored
    have hy : last y = false := hnone y (by rw [← hv]; simp)
    rw [← frames_flatten last (A.taken is), ← hv, ← List.append_assoc] at hu
    have hflat := List.append_cancel_right hu
    rw [List.concat_eq_append, ← List.append_assoc] at hflat
    rw [last_flatten (frames_spec last (A.taken is)).1 hflat] at hy
    cases hy

/-! ## Packets that are too large -/

/-- A FIFO that is wedged holds the beginning of a packet that is larger than it. -/
theorem Wedged.large (hparams : 0 < params) {is : List (Stage.In ε α)} {i : Stage.In ε α}
    (h : B.Wedged (A.machine.run is) i) : ∃ f ∈ packets last (A.arrivals (is ++ [i])), payload < f.length := by
  obtain ⟨hoffer, hready, hsource⟩ := h
  obtain ⟨b, hb⟩ := Option.ne_none_iff_exists'.1 hoffer
  have harrivals : A.arrivals (is ++ [i]) = A.taken is ++ [b] := by
    rw [arrivals_concat, arrivals_eq, List.append_assoc, Run.offered_toList, hb]
    rfl
  have hcontents := contents_eq_begun hF hsource
  have hcount : (B.contents (A.machine.run is)).countP last = 0 := by
    rw [hcontents]
    exact List.countP_eq_zero.2 fun y hy => ne_true_of_eq_false ((frames_spec last (A.taken is)).2 y hy)
  have hfull : ¬ (B.contents (A.machine.run is)).length < payload := fun hlt => by
    have htrue := (hF.ready_iff _).2 ⟨hlt, hcount.trans_lt hparams⟩
    rw [hready] at htrue
    cases htrue
  refine ⟨_, harrivals ▸ begun_mem_packets last (A.taken is) b, ?_⟩
  rw [← hcontents, List.length_append, List.length_singleton]
  omega

/-- A FIFO that is wedged stays so. -/
theorem Wedged.next {s : A.Run} {i : Stage.In ε α} (h : B.Wedged s i) (j : Stage.In ε α) : B.Wedged (s.next i) j := by
  obtain ⟨hoffer, hready, hsource⟩ := h
  have htakes : s.takes i = none := by
    rw [takes_eq (B := B), hready]
    rfl
  have hcontents : B.contents (s.next i) = B.contents s := by
    rw [contents_next, hsource, htakes]
    exact List.append_nil _
  have hheld : (s.next i).held = s.offered i := by
    show (if A.ready s.state i.env (s.offered i) i.ready then none else s.offered i) = _
    rw [B.ready_eq, hready]
    rfl
  refine ⟨?_, ?_, ?_⟩
  · unfold Run.offered
    rw [hheld]
    obtain ⟨b, hb⟩ := Option.ne_none_iff_exists'.1 hoffer
    rw [hb]
    exact Option.some_ne_none b
  · -- the contents are the same, so that there is no room later either
    refine eq_false_of_ne_true fun htrue => ?_
    have hlt := (hF.ready_iff _).1 htrue
    have htrue' : F.sinkReady (B.fifo s.state) = true := (hF.ready_iff _).2 (by
      rw [show F.contents (B.fifo s.state) = F.contents (B.fifo (s.next i).state) from hcontents.symm]
      exact hlt)
    rw [hready] at htrue'
    cases htrue'
  · by_contra hne
    obtain ⟨y, hy, hl⟩ := F.source_whole _ hne
    have hy' : y ∈ B.contents (s.next i) := hy
    rw [hcontents] at hy'
    exact hF.source_ne _ ⟨y, hy', hl⟩ hsource

theorem Wedged.forever {s : A.Run} {i : Stage.In ε α} (h : B.Wedged s i) (js : List (Stage.In ε α)) :
    A.machine.Along (fun s i => B.Wedged s i) (s.next i) js := by
  induction js generalizing s i with
  | nil => trivial
  | cons j js ih => exact ⟨Wedged.next hF h j, ih (Wedged.next hF h j)⟩

/-- Packets that fit in the FIFO do not wedge it. -/
theorem along_of_fit (hparams : 0 < params) {is : List (Stage.In ε α)}
    (h : ∀ f ∈ packets last (A.arrivals is), f.length ≤ payload) :
    A.machine.Along (fun s i => ¬ B.Wedged s i) A.machine.reset is := by
  induction is using List.reverseRecOn with
  | nil => trivial
  | append_singleton is i ih =>
    rw [Machine.along_append]
    refine ⟨ih fun f hf => ?_, fun hw => ?_, trivial⟩
    · obtain ⟨g, hg, hfg⟩ := packets_begins last (arrivals_concat is i ▸ List.prefix_append _ _) hf
      exact hfg.length_le.trans (h g hg)
    · obtain ⟨f, hf, hlt⟩ := Wedged.large hF hparams hw
      exact absurd (h f hf) (not_le.2 hlt)

/-- The beat is offered until it is taken, to a ready consumer. -/
def push (e : ε) (b : α) : Stage.In ε α := ⟨e, some b, true⟩

omit hF in
/-- What the FIFO shows leaves it, or is about to. -/
theorem count_lt {e : ε} {b : α} {s : A.Run} (hsource : F.source (B.fifo s.state) ≠ none)
    (htakes : s.takes (push e b) = none) : toLex ((B.contents (s.next (push e b))).length, B.rank (s.next (push e b)).state) <
      toLex ((B.contents s).length, B.rank s.state) := by
  have hcontents := contents_next (B := B) s (push e b)
  rw [htakes, Option.toList_none, List.append_nil, Option.isSome_iff_ne_none.2 hsource, Bool.true_and] at hcontents
  rw [Prod.Lex.toLex_lt_toLex, hcontents]
  cases hpop : B.pop s.state (push e b).env (push e b).ready with
  | true =>
    obtain ⟨x, hx⟩ := Option.ne_none_iff_exists'.1 hsource
    obtain ⟨xs, hxs⟩ := F.source_eq _ x hx
    have hxs' : B.contents s = x :: xs := hxs
    rw [if_pos rfl, hxs']
    exact .inl (Nat.lt_succ_self _)
  | false =>
    refine .inr ⟨rfl, (B.rank_step s.state e (s.offered (push e b)) hsource).resolve_left ?_⟩
    exact ne_true_of_eq_false hpop

/-- A beat is taken, or the FIFO is wedged before. -/
theorem pushes (e : ε) (b : α) (is : List (Stage.In ε α)) (hb : (A.machine.run is).offered (push e b) = some b) :
    (∃ js, B.Wedged (A.machine.run (is ++ js)) (push e b) ∧ A.arrivals (is ++ js ++ [push e b]) = A.taken is ++ [b]) ∨
      ∃ js, A.taken (is ++ js) = A.taken is ++ [b] ∧ (A.machine.run (is ++ js)).held = none ∧
        (frames last (A.taken is)).2.length < payload := by
  -- induction on the contents and the rank of the FIFO, which fall until the beat is taken
  induction hn : toLex ((B.contents (A.machine.run is)).length, B.rank (A.machine.run is).state) using
    WellFoundedLT.induction generalizing is with
  | ind n ih =>
    subst hn
    have htakes := takes_eq (B := B) (A.machine.run is) (push e b)
    have htaken := taken_concat (A := A) is (push e b)
    have hheld : (A.machine.run (is ++ [push e b])).held =
        if F.sinkReady (B.fifo (A.machine.run is).state) then none else some b := by
      rw [run_concat]
      show (if A.ready (A.machine.run is).state e ((A.machine.run is).offered (push e b)) true then none
        else (A.machine.run is).offered (push e b)) = _
      rw [B.ready_eq, hb]
    cases hready : F.sinkReady (B.fifo (A.machine.run is).state) with
    | true =>
      rw [hready, if_pos rfl] at htakes hheld
      rw [htakes, hb] at htaken
      refine .inr ⟨[push e b], htaken, hheld, ?_⟩
      exact (holds hF is).begun.length_le.trans_lt ((hF.ready_iff _).1 hready).1
    | false =>
      rw [hready, if_neg Bool.false_ne_true] at htakes hheld
      rw [htakes, Option.toList_none, List.append_nil] at htaken
      -- refused with nothing to leave: wedged; else one beat leaves
      by_cases hsource : F.source (B.fifo (A.machine.run is).state) = none
      · refine .inl ⟨[], ⟨by rw [List.append_nil, hb]; exact Option.some_ne_none b, ?_⟩, ?_⟩
        · rw [List.append_nil]
          exact ⟨hready, hsource⟩
        · rw [List.append_nil, arrivals_concat, arrivals_eq, List.append_assoc, Run.offered_toList, hb]
          rfl
      · have hlt := count_lt (e := e) (b := b) hsource htakes
        rw [← run_concat] at hlt
        have hb' : (A.machine.run (is ++ [push e b])).offered (push e b) = some b := by
          unfold Run.offered
          rw [hheld]
          rfl
        rcases ih _ hlt (is ++ [push e b]) hb' rfl with ⟨js, h1, h2⟩ | ⟨js, h1, h2, h3⟩
        · rw [htaken] at h2
          refine .inl ⟨push e b :: js, ?_, ?_⟩
          · rwa [List.append_assoc] at h1
          · rwa [List.append_assoc is] at h2
        · rw [htaken] at h1 h3
          refine .inr ⟨push e b :: js, ?_, ?_, h3⟩
          · rwa [List.append_assoc] at h1
          · rwa [List.append_assoc] at h2


/-- The beats of any stream are taken, one after the other, and its packets fit, or the FIFO gets wedged. -/
theorem taken_or_wedged (B : A.Buffered F) (e : ε) (bs : List α) :
    (∃ is i, B.Wedged (A.machine.run is) i ∧ A.arrivals (is ++ [i]) <+: bs) ∨
      ∃ is, A.taken is = bs ∧ (A.machine.run is).held = none ∧ ∀ f ∈ packets last bs, f.length ≤ payload := by
  -- induction on the beats: the first that is never taken wedges the buffer
  induction bs using List.reverseRecOn with
  | nil =>
    refine .inr ⟨[], rfl, rfl, fun f hf => ?_⟩
    rw [List.mem_singleton.1 hf]
    exact Nat.zero_le _
  | append_singleton bs b ih =>
    rcases ih with ⟨is, i, hw, hbs⟩ | ⟨is, htaken, hheld, hfit⟩
    · exact .inl ⟨is, i, hw, hbs.trans (List.prefix_append _ _)⟩
    · have hb : (A.machine.run is).offered (push e b) = some b := by
        unfold Run.offered
        rw [hheld]
        rfl
      rcases pushes hF e b is hb with ⟨js, hw, harrivals⟩ | ⟨js, htaken', hheld', hlt⟩
      · exact .inl ⟨is ++ js, push e b, hw, by rw [harrivals, htaken]⟩
      · rw [htaken] at htaken' hlt
        refine .inr ⟨is ++ js, htaken', hheld', fun f hf => ?_⟩
        have hstep : packets last (bs ++ [b]) = (frames last bs).1 ++
            if last b then [(frames last bs).2 ++ [b], []] else [(frames last bs).2 ++ [b]] := by
          rw [packets, frames_concat, frameStep]
          split_ifs <;> simp
        rw [hstep] at hf
        rcases List.mem_append.1 hf with hf | hf
        · exact hfit f (List.mem_append_left _ hf)
        · have hnew : ((frames last bs).2 ++ [b]).length ≤ payload := by
            rw [List.length_append]
            exact hlt
          split_ifs at hf
          · rcases List.mem_pair.1 hf with rfl | rfl
            · exact hnew
            · exact Nat.zero_le _
          · rw [List.mem_singleton.1 hf]
            exact hnew

/-- The FIFO is never wedged by the packets of a stream, whatever the timing on both sides, if and only if they all
fit in it. -/
theorem never_wedged_iff (B : A.Buffered F) (hparams : 0 < params) (e : ε) (bs : List α) :
    (∀ is, A.arrivals is <+: bs → A.machine.Along (fun s i => ¬ B.Wedged s i) A.machine.reset is) ↔
      ∀ f ∈ packets last bs, f.length ≤ payload := by
  constructor
  · intro h
    rcases taken_or_wedged hF B e bs with ⟨is, i, hw, hbs⟩ | ⟨is, -, -, hfit⟩
    · have halong := h (is ++ [i]) hbs
      rw [Machine.along_append] at halong
      exact absurd hw halong.2.1
    · exact hfit
  · intro h is hbs
    refine along_of_fit hF hparams fun f hf => ?_
    obtain ⟨g, hg, hfg⟩ := packets_begins last hbs hf
    exact hfg.length_le.trans (h g hg)

end Run

end Buffered

end Stage

end LiteEth.Rtl
