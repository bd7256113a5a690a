/-
The record receiver in a stream, whatever it is offered and whenever its consumer is ready. It consumes words of whole
packets only, in order, and a consumer that stays ready gets it to consume them all; so it decodes a list of records as it
should exactly when none of them has both writes and reads.
-/
import LiteEth.Frontend.EtherboneStream

namespace LiteEth.Frontend.Etherbone

open LiteEth.Rtl

namespace Receiver

variable {δ ε τ : Type} {F : PacketFIFO (Word τ) Word.last} {t : τ}

/-! ## One cycle -/

/-- The registers `s` of a receiver that has consumed words up to the registers `c` and stores `ws`: it may have seen the
return base address that comes first among these. -/
inductive Follows (s c : Ctrl τ) : List (Word τ) → Prop
  | same {ws : List (Word τ)} (h : Same s c) : Follows s c ws
  | retBase {w : Word τ} {ws : List (Word τ)} (hc : c.fsm = .receiveBaseRetAddr) (h : Same s (c.retBase w)) :
    Follows s c (w :: ws)

theorem Follows.append {s c : Ctrl τ} {ws : List (Word τ)} (h : Follows s c ws) (vs : List (Word τ)) :
    Follows s c (ws ++ vs) := by
  cases h with
  | same h => exact .same h
  | retBase hc h => exact .retBase hc h

theorem Follows.trans {s s' c : Ctrl τ} {ws : List (Word τ)} (hs : Same s' s) (h : Follows s c ws) : Follows s' c ws := by
  cases h with
  | same h => exact .same (hs.trans h)
  | retBase hc h => exact .retBase hc (hs.trans h)

theorem retBase_fsm {c : Ctrl τ} (hc : c.fsm = .receiveBaseRetAddr) (w : Word τ) : (c.retBase w).fsm = .receiveReads := by
  rw [Ctrl.retBase, if_pos hc]

theorem retBase_retBase (c : Ctrl τ) (w : Word τ) : (c.retBase w).retBase w = c.retBase w := by
  obtain ⟨fsm, b, n⟩ := c
  cases fsm <;> rfl

/-- The return base address is not seen in `IDLE`, nor taken for it. -/
theorem Follows.idle_iff {s c : Ctrl τ} {ws : List (Word τ)} (h : Follows s c ws) : s.fsm = .idle ↔ c.fsm = .idle := by
  cases h with
  | same h => rw [h.fsm]
  | retBase hc h =>
    rw [h.fsm, retBase_fsm hc, hc]
    decide

/-- A word that leaves the FIFO is consumed in the registers up to which the words before it are. -/
theorem Follows.take {s c : Ctrl τ} {w : Word τ} {ws : List (Word τ)} (h : Follows s c (w :: ws)) (hs : s.retBase w = s) :
    Same s (c.retBase w) ∧ s.take w = c.take w := by
  cases h with
  | same h =>
    constructor
    · have hret := h.retBase w
      rwa [hs] at hret
    · exact h.take_eq w
  | retBase hc h =>
    refine ⟨h, ?_⟩
    rw [h.take_eq, Ctrl.take, retBase_retBase]
    rfl

/-- A word that stays may be taken for the return base address. -/
theorem Follows.stay {s c : Ctrl τ} {w : Word τ} {ws : List (Word τ)} (h : Follows s c (w :: ws)) {r : Bool}
    (hr : s.ready r = false) : Follows (s.next (some w) r) c (w :: ws) := by
  by_cases hs : s.fsm = .receiveBaseRetAddr
  · cases h with
    | same h =>
      refine .retBase (h.fsm ▸ hs) ?_
      have hnext : s.next (some w) r = s.retBase w := by
        obtain ⟨fsm, b, n⟩ := s
        cases hs
        rfl
      rw [hnext]
      exact h.retBase w
    | retBase hc h =>
      -- it has been taken for it already, and the receiver is in `RECEIVE_READS`
      rw [h.fsm, retBase_fsm hc] at hs
      cases hs
  · obtain ⟨-, -, hnext⟩ := shown_of_not_ready hs hr w
    rw [hnext]
    exact h

section Cycle

variable {f : Ctrl τ → Word τ → List δ} {s : State F} {c : Ctrl τ}

/-- A cycle consumes the word that leaves the FIFO, if any. -/
theorem Follows.cycle (hf : Blind f) (h : Follows s.ctrl c (F.contents s.fifo)) (i : In τ) :
    let ws := (F.popped s.fifo (s.ctrl.ready i.sourceReady)).toList
    s.consumes f i = c.logs f ws ∧ Follows (s.next i).ctrl (c.takes ws) (F.contents (s.next i).fifo) := by
  have hstep := F.contents_step s.fifo i.sink (s.ctrl.ready i.sourceReady)
  unfold State.consumes PacketFIFO.popped
  show _ ∧ Follows (s.ctrl.next (F.source s.fifo) i.sourceReady) _ (F.contents (F.step _ _ _))
  rw [hstep]
  cases hx : F.source s.fifo with
  | none =>
    rw [ite_self]
    exact ⟨rfl, (h.trans (next_none s.ctrl i.sourceReady)).append _⟩
  | some w =>
    obtain ⟨ws, hws⟩ := F.source_eq _ _ hx
    rw [hws] at h ⊢
    cases hr : s.ctrl.ready i.sourceReady with
    | true =>
      obtain ⟨hret, hnext⟩ := next_of_ready hr w
      obtain ⟨hsame, htake⟩ := h.take hret
      rw [hnext, htake]
      refine ⟨?_, .same (.refl _)⟩
      show f s.ctrl w = f (c.retBase w) w ++ []
      rw [List.append_nil]
      exact hf _ _ w hsame
    | false => exact ⟨rfl, (h.stay hr).append _⟩

/-- The FIFO shows its words while it holds the end of a packet: the words behind the last end stay. -/
theorem contents_behind {xs ms : List (Word τ)} (hms : ∀ w ∈ ms, w.last = false) (hs : F.contents s.fifo = xs ++ ms)
    (i : In τ) : ∃ ys, F.contents (s.next i).fifo = ys ++ (ms ++ (F.pushed s.fifo i.sink).toList) := by
  have hmove := F.popped_append_contents s.fifo i.sink (s.ctrl.ready i.sourceReady)
  rw [hs, List.append_assoc] at hmove
  show ∃ ys, F.contents (F.step s.fifo i.sink _) = _
  cases hp : F.popped s.fifo (s.ctrl.ready i.sourceReady) with
  | none =>
    rw [hp] at hmove
    exact ⟨xs, hmove⟩
  | some w =>
    rw [hp, Option.toList_some, List.singleton_append] at hmove
    cases xs with
    | cons x xs =>
      exact ⟨xs, (List.cons.inj hmove).2⟩
    | nil =>
      -- no end is stored, and so nothing is shown
      have hne : F.source s.fifo ≠ none := fun hn => by
        rw [PacketFIFO.popped, hn, ite_self] at hp
        cases hp
      obtain ⟨y, hy, hlast⟩ := F.source_whole _ hne
      rw [hs] at hy
      exact absurd hlast (ne_true_of_eq_false (hms y hy))

end Cycle

/-! ## Runs -/

variable (F t) in
/-- What has become of a run: the receiver has consumed `ws`, and what has begun of the next packet stays. -/
structure Consumed (is : List (Stage.In ε (Word τ))) (ws : List (Word τ)) : Prop where
  taken : (recordReceiver F t).taken is = ws ++ F.contents ((recordReceiver F t).machine.run is).state.fifo
  given : (recordReceiver F t).given is = (Ctrl.init t).beats ws
  ctrl : Follows ((recordReceiver F t).machine.run is).state.ctrl ((Ctrl.init t).takes ws)
    (F.contents ((recordReceiver F t).machine.run is).state.fifo)
  begun : ∃ xs, F.contents ((recordReceiver F t).machine.run is).state.fifo =
    xs ++ (frames Word.last ((recordReceiver F t).taken is)).2

/-- What the receiver takes and gives in a cycle. -/
theorem takes_eq (s : (recordReceiver (ε := ε) F t).Run) (i : Stage.In ε (Word τ)) :
    s.takes i = F.pushed s.state.fifo (s.offered i) ∧
      (s.gives i).toList = s.state.emits ⟨s.offered i, i.ready⟩ ∧
      (s.next i).state = s.state.next ⟨s.offered i, i.ready⟩ := by
  refine ⟨rfl, ?_, rfl⟩
  show (if i.ready then s.state.source else none).toList = if i.ready then s.state.source.toList else []
  cases i.ready <;> rfl

theorem run_consumed (is : List (Stage.In ε (Word τ))) : ∃ ws, Consumed F t is ws := by
  -- induction on the run from its end: a word leaves the FIFO, one enters it, or both
  induction is using List.reverseRecOn with
  | nil =>
    have hreset : F.contents F.reset = [] := F.contents_reset
    exact ⟨[], ⟨hreset.symm, rfl, .same (.refl _), [], hreset⟩⟩
  | append_singleton is i ih =>
    obtain ⟨ws, htaken, hgiven, hctrl, xs, hbegun⟩ := ih
    -- the controller sees the word at the head of the FIFO
    generalize hs : (recordReceiver F t).machine.run is = s at htaken hgiven hctrl hbegun
    obtain ⟨htakes, hgives, hnext⟩ := takes_eq s i
    obtain ⟨hlog, hctrl'⟩ := hctrl.cycle blind_beat ⟨s.offered i, i.ready⟩
    have hmove := F.popped_append_contents s.state.fifo (s.offered i) (s.state.ctrl.ready i.ready)
    obtain ⟨ys, hys⟩ := contents_behind (frames_spec Word.last _).2 hbegun ⟨s.offered i, i.ready⟩
    refine ⟨ws ++ (F.popped s.state.fifo (s.state.ctrl.ready i.ready)).toList, ?_, ?_, ?_, ?_⟩
    · rw [Stage.taken_concat, Stage.run_concat, hs, htakes, htaken, hnext, List.append_assoc, List.append_assoc]
      exact congrArg (ws ++ ·) hmove.symm
    · rw [Stage.given_concat, hs, hgives, emits_eq, hlog, hgiven]
      exact (logs_append ws _ _).symm
    · rw [Stage.run_concat, hs, hnext, takes_append]
      exact hctrl'
    · -- what has begun stays at the end of the contents
      rw [Stage.run_concat, Stage.taken_concat, hs, hnext, htakes]
      generalize (recordReceiver F t).taken is = as at hys
      cases hpush : F.pushed s.state.fifo (s.offered i) with
      | none =>
        rw [hpush] at hys
        exact ⟨ys, by rw [hys, Option.toList_none, List.append_nil, List.append_nil]⟩
      | some a =>
        rw [hpush, Option.toList_some] at hys
        rw [Option.toList_some, frames_concat, frameStep]
        split_ifs
        · exact ⟨_, (List.append_nil _).symm⟩
        · exact ⟨ys, hys⟩

/-- The words consumed are the beginning of those of the packets that were offered as a whole. -/
theorem Consumed.in_order {is : List (Stage.In ε (Word τ))} {ws : List (Word τ)} (h : Consumed F t is ws) :
    ws <+: (frames Word.last ((recordReceiver F t).arrivals is)).1.flatten := by
  obtain ⟨xs, hxs⟩ := h.begun
  have hsplit := frames_flatten Word.last ((recordReceiver F t).taken is)
  have hws : (frames Word.last ((recordReceiver F t).taken is)).1.flatten = ws ++ xs := by
    have htaken := h.taken
    rw [hxs, ← List.append_assoc] at htaken
    exact List.append_cancel_right (hsplit.trans htaken)
  obtain ⟨gs, hgs⟩ := frames_append Word.last ((recordReceiver F t).taken is)
    ((recordReceiver F t).machine.run is).held.toList
  rw [Stage.arrivals_eq, ← hgs, List.flatten_append, hws, List.append_assoc]
  exact List.prefix_append _ _

/-- A receiver that holds the end of no packet has consumed all that it has taken of whole packets. -/
theorem Consumed.complete {is : List (Stage.In ε (Word τ))} {ws : List (Word τ)} (h : Consumed F t is ws)
    (hend : ∀ w ∈ F.contents ((recordReceiver F t).machine.run is).state.fifo, w.last = false) :
    ws = (frames Word.last ((recordReceiver F t).taken is)).1.flatten ∧
      F.contents ((recordReceiver F t).machine.run is).state.fifo =
        (frames Word.last ((recordReceiver F t).taken is)).2 := by
  obtain ⟨xs, hxs⟩ := h.begun
  have hsplit := frames_flatten Word.last ((recordReceiver F t).taken is)
  have hws : (frames Word.last ((recordReceiver F t).taken is)).1.flatten = ws ++ xs := by
    have htaken := h.taken
    rw [hxs, ← List.append_assoc] at htaken
    exact List.append_cancel_right (hsplit.trans htaken)
  rw [hxs] at hend ⊢
  obtain rfl : xs = [] := frames_end _ (frames_spec Word.last _).1 hws fun w hw => hend w (List.mem_append_left _ hw)
  rw [List.append_nil] at hws
  exact ⟨hws.symm, rfl⟩

/-! ## A consumer that stays ready -/

/-- One for a receiver that is going to take the return base address. -/
def Ctrl.awaits (c : Ctrl τ) : ℕ := if c.fsm = .receiveBaseRetAddr then 1 else 0

/-- A bound for the cycles in which the receiver, with a ready consumer, has consumed what it holds. -/
def left (s : (recordReceiver (ε := ε) F t).Run) : ℕ :=
  3 * s.held.toList.length + 2 * (F.contents s.state.fifo).length + s.state.ctrl.awaits

theorem awaits_le (c : Ctrl τ) : c.awaits ≤ 1 := by
  unfold Ctrl.awaits
  split_ifs
  · exact le_rfl
  · exact Nat.zero_le 1

/-- A ready consumer gets each word that is shown: at once, or once it has been taken for the return base address. -/
theorem word_leaves (c : Ctrl τ) (w : Word τ) :
    c.ready true = true ∨ c.ready true = false ∧ c.awaits = 1 ∧ (c.next (some w) true).awaits = 0 := by
  obtain ⟨fsm, b, n⟩ := c
  cases fsm with
  | receiveBaseRetAddr => exact .inr ⟨rfl, rfl, rfl⟩
  | _ => exact .inl rfl

section Ready

variable {payload params : ℕ} (hF : F.Sized payload params)

include hF

/-- Each cycle consumes a word, takes one or takes the return base address. -/
theorem left_next (hparams : 0 < params) {s : (recordReceiver (ε := ε) F t).Run} (e : ε)
    (hroom : s.held ≠ none → (∀ w ∈ F.contents s.state.fifo, w.last = false) →
      (F.contents s.state.fifo).length < payload)
    (hleft : s.held ≠ none ∨ ∃ w ∈ F.contents s.state.fifo, w.last = true) :
    left (s.next (Stage.Sim.settle e)) < left s := by
  have hoffered : s.offered (Stage.Sim.settle e) = s.held := Option.or_none
  have hheld : (s.next (Stage.Sim.settle e)).held = if F.sinkReady s.state.fifo then none else s.held := by
    rw [← hoffered]
    rfl
  have hstate : (s.next (Stage.Sim.settle e)).state = s.state.next ⟨s.held, true⟩ := by
    rw [← hoffered]
    rfl
  have hmove := congrArg List.length (F.popped_append_contents s.state.fifo s.held (s.state.ctrl.ready true))
  rw [List.length_append, List.length_append] at hmove
  have hpushed : (F.pushed s.state.fifo s.held).toList.length +
      (if F.sinkReady s.state.fifo then none else s.held).toList.length = s.held.toList.length := by
    unfold PacketFIFO.pushed
    cases F.sinkReady s.state.fifo <;> simp
  unfold left
  rw [hheld, hstate]
  show _ + 2 * (F.contents (F.step s.state.fifo s.held (s.state.ctrl.ready true))).length +
    (s.state.ctrl.next (F.source s.state.fifo) true).awaits < _
  by_cases hend : ∃ w ∈ F.contents s.state.fifo, w.last = true
  · obtain ⟨w, hw⟩ := Option.ne_none_iff_exists'.1 (hF.source_ne _ hend)
    rw [PacketFIFO.popped, hw] at hmove
    rw [hw]
    rcases word_leaves s.state.ctrl w with hready | ⟨hready, h1, h0⟩
    · have hawaits := awaits_le (s.state.ctrl.next (some w) true)
      rw [hready, if_pos rfl, Option.toList_some, List.length_singleton] at hmove
      rw [hready]
      omega
    · rw [hready, if_neg Bool.false_ne_true, Option.toList_none, List.length_nil] at hmove
      rw [hready, h1, h0]
      omega
  · -- nothing is shown, and there is room for the word that is offered
    have hnone : F.source s.state.fifo = none := by
      by_contra hne
      exact hend (F.source_whole _ hne)
    have hno : ∀ w ∈ F.contents s.state.fifo, w.last = false := fun w hw => by
      rw [← Bool.not_eq_true]
      exact fun hl => hend ⟨w, hw, hl⟩
    have hne := hleft.resolve_right hend
    have hready : F.sinkReady s.state.fifo = true := by
      refine (hF.ready_iff _).2 ⟨hroom hne hno, ?_⟩
      rw [List.countP_eq_zero.2 fun w hw => ne_true_of_eq_false (hno w hw)]
      exact hparams
    have hawaits : (s.state.ctrl.next none true).awaits = s.state.ctrl.awaits := by
      rw [Ctrl.awaits, Ctrl.awaits, (next_none s.state.ctrl true).fsm]
    obtain ⟨a, ha⟩ := Option.ne_none_iff_exists'.1 hne
    rw [PacketFIFO.popped, hnone, ite_self, Option.toList_none, List.length_nil, PacketFIFO.pushed, hready, ha,
      if_pos rfl, Option.toList_some, List.length_singleton] at hmove
    rw [hnone, hawaits, hready, ha, if_pos rfl, Option.toList_none, List.length_nil, Option.toList_some,
      List.length_singleton]
    omega

/-- A consumer that stays ready gets the receiver to take all that is offered and to consume the packets that are there
as a whole, if each packet fits in its buffer. -/
theorem consumes_all (hparams : 0 < params) (e : ε) (is : List (Stage.In ε (Word τ)))
    (hfit : ∀ f ∈ packets Word.last ((recordReceiver F t).arrivals is), f.length ≤ payload) :
    ∃ n, let js := is ++ List.replicate n (Stage.Sim.settle e)
      (recordReceiver F t).arrivals js = (recordReceiver F t).arrivals is ∧
        ((recordReceiver F t).machine.run js).held = none ∧
        ∀ w ∈ F.contents ((recordReceiver F t).machine.run js).state.fifo, w.last = false := by
  -- by induction on the bound
  induction hm : left ((recordReceiver F t).machine.run is) using Nat.strong_induction_on generalizing is with
  | h m ih =>
    subst hm
    by_cases hdone : ((recordReceiver F t).machine.run is).held = none ∧
        ∀ w ∈ F.contents ((recordReceiver F t).machine.run is).state.fifo, w.last = false
    · refine ⟨0, ?_⟩
      rw [List.replicate_zero, List.append_nil]
      exact ⟨rfl, hdone⟩
    · have hlt : left (((recordReceiver F t).machine.run is).next (Stage.Sim.settle e)) <
          left ((recordReceiver F t).machine.run is) := by
        refine left_next hF hparams e (fun hheld hno => ?_) ?_
        · -- what the FIFO holds has begun of the packet to which the word offered belongs
          obtain ⟨a, ha⟩ := Option.ne_none_iff_exists'.1 hheld
          obtain ⟨ws, h⟩ := run_consumed (F := F) (t := t) is
          have hmem := begun_mem_packets Word.last ((recordReceiver F t).taken is) a
          have harr := Stage.arrivals_eq (A := recordReceiver F t) is
          rw [ha, Option.toList_some] at harr
          rw [← harr] at hmem
          have := hfit _ hmem
          rw [List.length_append, List.length_singleton] at this
          rw [(h.complete hno).2]
          omega
        · rw [not_and_or] at hdone
          refine hdone.imp_right fun h => ?_
          obtain ⟨w, hw⟩ := not_forall.1 h
          obtain ⟨hmem, hl⟩ := Classical.not_imp.1 hw
          exact ⟨w, hmem, by simpa using hl⟩
      have harr : (recordReceiver F t).arrivals (is ++ [Stage.Sim.settle e]) = (recordReceiver F t).arrivals is := by
        rw [Stage.arrivals_concat, Stage.Sim.arrives_settle, Option.toList_none, List.append_nil]
      obtain ⟨n, h1, h2⟩ := ih _ hlt (is ++ [Stage.Sim.settle e]) (by rwa [harr]) (by rw [Stage.run_concat])
      refine ⟨n + 1, ?_⟩
      rw [List.replicate_succ, ← List.singleton_append, ← List.append_assoc]
      exact ⟨h1.trans harr, h2⟩

end Ready

end Receiver

/-! ## Records -/

section Records

open Receiver

variable (F : PacketFIFO (Word Unit) Word.last)

/-- A run in which the packets of the records `rs` are offered as a whole, and the receiver decodes them: what it emits is
the beginning of their beats, and with a consumer that stays ready it emits all of them, has consumed the words of the
records and no other, and waits for the first word of the next one. -/
structure Decodes (rs : List Record) (is : List (Stage.In Unit (Word Unit))) : Prop where
  in_order : (recordReceiver F ()).given is <+: rs.flatMap Record.beats
  complete : ∃ n, let js := is ++ List.replicate n (Stage.Sim.settle ())
    (recordReceiver F ()).given js = rs.flatMap Record.beats ∧
      (recordReceiver F ()).taken js = (recordReceiver F ()).arrivals is ∧
      F.contents ((recordReceiver F ()).machine.run js).state.fifo =
        (frames Word.last ((recordReceiver F ()).arrivals is)).2 ∧
      ((recordReceiver F ()).machine.run js).state.ctrl.fsm = .idle

variable {F} {payload params : ℕ} (hF : F.Sized payload params)

include hF

/-- In every run in which the packets of some well-formed records are offered as a whole, and whatever has begun of the
next packet, all of which fit in the buffer, the records are decoded as they should exactly when none of them has both
writes and reads. -/
theorem receiver_decodes_iff (hparams : 0 < params) (rs : List Record) (hrs : ∀ r ∈ rs, r.WellFormed)
    (is : List (Stage.In Unit (Word Unit)))
    (hpackets : (frames Word.last ((recordReceiver F ()).arrivals is)).1 = rs.map Record.words)
    (hfit : ∀ f ∈ packets Word.last ((recordReceiver F ()).arrivals is), f.length ≤ payload) :
    Decodes F rs is ↔ ∀ r ∈ rs, ¬ r.Mixed := by
  have hwords : (frames Word.last ((recordReceiver F ()).arrivals is)).1.flatten = rs.flatMap Record.words := by
    rw [hpackets, List.flatMap_def]
  -- decoded in a finished run: each record as it was sent, so none was mixed
  constructor
  · rintro ⟨-, n, hgiven, htaken, hcont, hidle⟩
    obtain ⟨ws, h⟩ := run_consumed (F := F) (t := ()) (is ++ List.replicate n (Stage.Sim.settle ()))
    have hws : ws = rs.flatMap Record.words := by
      have hall := h.taken
      rw [htaken, hcont] at hall
      exact (List.append_cancel_right (hall.symm.trans (frames_flatten Word.last _).symm)).trans hwords
    rw [h.given, hws] at hgiven
    refine unmixed_of_decode rs hrs rfl hgiven ?_
    rw [← hws]
    exact h.ctrl.idle_iff.1 hidle
  · -- no record is mixed: the beats are in order at every moment, and complete in the end
    intro hm
    obtain ⟨hbeats, hidle⟩ := decode_records rs hrs hm (c := Ctrl.init ()) rfl
    constructor
    · obtain ⟨ws, h⟩ := run_consumed (F := F) (t := ()) is
      obtain ⟨vs, hvs⟩ := h.in_order
      rw [h.given, ← hbeats, ← hwords, ← hvs, beats_append]
      exact List.prefix_append _ _
    · obtain ⟨n, harr, hheld, hend⟩ := consumes_all hF hparams () is hfit
      obtain ⟨ws, h⟩ := run_consumed (F := F) (t := ()) (is ++ List.replicate n (Stage.Sim.settle ()))
      have htaken := Stage.arrivals_eq (A := recordReceiver F ()) (is ++ List.replicate n (Stage.Sim.settle ()))
      rw [hheld, Option.toList_none, List.append_nil, harr] at htaken
      obtain ⟨hws, hcont⟩ := h.complete hend
      rw [← htaken] at hws hcont
      rw [hwords] at hws
      refine ⟨n, ?_, htaken.symm, hcont, ?_⟩
      · rw [h.given, hws, hbeats]
      · rw [h.ctrl.idle_iff, hws]
        exact hidle

omit hF

/-- A buffer of four words. -/
abbrev fourWords : PacketFIFO (Word Unit) Word.last := PacketFIFO.queue Word.last 4 1

/-- Two words written to one address, and one read from another. -/
def writeRecord : Record := ⟨0xf, 0x1000, [7, 8], 0, []⟩

/-- A record with one read and no writes. -/
def readRecord : Record := ⟨0xf, 0, [], 0x2000, [0x3000]⟩

/-- The cycles in which some words are offered, while the consumer waits. -/
def offers (ws : List (Word Unit)) : List (Stage.In Unit (Word Unit)) := ws.map fun w => ⟨(), some w, false⟩

theorem write_and_read_decoded : Decodes fourWords [writeRecord, readRecord]
    (offers (writeRecord.words ++ readRecord.words)) :=
  (receiver_decodes_iff (PacketFIFO.queue_sized Word.last 4 1) (by decide) [writeRecord, readRecord] (by decide)
    (offers (writeRecord.words ++ readRecord.words)) (by decide) (by decide)).2 (by decide)

/-- A record that writes one word and reads another: the address read is the return base address. -/
theorem return_base_read :
    let r : Record := ⟨0xf, 0x1000, [7], 0x2000, [0x3000]⟩
    let is := offers r.words ++ List.replicate 6 (Stage.Sim.settle ())
    r.WellFormed ∧ (frames Word.last ((recordReceiver fourWords ()).arrivals is)).1 = [r.words] ∧
      (∀ f ∈ packets Word.last ((recordReceiver fourWords ()).arrivals is), f.length ≤ 5) ∧
      ¬ Decodes fourWords [r] is := by
  refine ⟨by decide, by decide, by decide, fun h => ?_⟩
  have horder := h.in_order
  revert horder
  decide

end Records

end LiteEth.Frontend.Etherbone
