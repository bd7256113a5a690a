/-
A packet that the SRAM writer drops because the status FIFO is full. The drop leaves through
`TERMINATE`, the state a received packet is reported from, so its end advances the slot pointer
and queues an entry of length 0 whenever software has made room in the meantime; a packet of one
beat does not end at all, since the beat taken in `IDLE` is not looked at for `last`.
-/
import LiteEth.Mac.SramSlots

namespace LiteEth.Mac.Writer

open LiteEth.Rtl

variable {τ : Type} {p : SRAMParams} {F : SyncFIFO (StatEntry τ) p.nslots} {t : τ}

/-! ## The property -/

/-- The same cycle, without a beat. -/
def In.quiet {dw : Nat} (i : In dw τ) : In dw τ := { i with sink := none }

/-- After the cycles `is` the writer is as if no beat had come in them, one more error counted. -/
structure NoTrace (t : τ) (s : State p F) (is : List (In p.dw τ)) : Prop where
  errors : ((writer p F t).runFrom s is).errors = (s.errors + 1) % 2 ^ 32
  fsm : ((writer p F t).runFrom s is).fsm = .idle
  queued : ((writer p F t).runFrom s is).queued = ((writer p F t).runFrom s (is.map In.quiet)).queued
  slot : ((writer p F t).runFrom s is).slot = s.slot
  counter : ((writer p F t).runFrom s is).counter = s.counter
  mems : ((writer p F t).runFrom s is).mems = s.mems

/-! ## What a drop does -/

/-- The cycles of a dropped packet before its last: nothing is stored or reported. -/
structure Dropping (s s' : State p F) : Prop where
  fsm : s'.fsm = .discardRemaining
  errors : s'.errors = (s.errors + 1) % 2 ^ 32
  slot : s'.slot = s.slot
  counter : s'.counter = s.counter
  mems : s'.mems = s.mems

theorem Dropping.refused {s : State p F} (hf : s.fsm = .idle) (hr : ¬ s.room) {i : In p.dw τ} {b : PhyBeat p.dw}
    (hb : i.sink = some b) : Dropping s (s.next i) := by
  have hn := next_refuse hf hb hr
  constructor <;> rw [hn]

theorem Dropping.body {s s' : State p F} (h : Dropping s s') (is : List (In p.dw τ)) (hl : NoLast is) :
    Dropping s ((writer p F t).runFrom s' is) := by
  obtain ⟨h1, h2, h3, h4, -⟩ := discard_body (t := t) is s' h.fsm hl
  constructor
  · exact h1
  · rw [h4.errors, h.errors]
  · rw [h4.slot, h.slot]
  · rw [h2, h.counter]
  · rw [h3, h.mems]

/-- The last beat of a drop leads to `TERMINATE`, with nothing else changed. -/
theorem Dropping.last {s s' : State p F} (h : Dropping s s') {i : In p.dw τ} {b : PhyBeat p.dw}
    (hb : i.sink = some b) (hl : b.last = true) :
    (s'.next i).fsm = .terminate ∧ (s'.next i).slot = s.slot ∧ (s'.next i).counter = s.counter := by
  have hn := next_skip h.fsm hb
  rw [if_pos hl] at hn
  rw [hn]
  exact ⟨rfl, h.slot, h.counter⟩

/-- A packet of several beats ends in `TERMINATE`. -/
theorem drop_terminates (k : Packet p.dw τ) (hl : NoLast k.body) (hbody : k.body ≠ []) {s : State p F}
    (hf : s.fsm = .idle) (hr : ¬ s.room) :
    ((writer p F t).runFrom s k.cycles).fsm = .terminate ∧
      ((writer p F t).runFrom s k.cycles).slot = s.slot ∧
      ((writer p F t).runFrom s k.cycles).counter = s.counter := by
  obtain ⟨i, is, hk⟩ := List.exists_cons_of_ne_nil hbody
  obtain ⟨b, hb⟩ := Option.ne_none_iff_exists'.1 (k.body_head i is hk)
  have hl' : NoLast is := fun j hj => hl j (by rw [hk]; exact List.mem_cons_of_mem _ hj)
  have hd := (Dropping.refused hf hr hb).body (t := t) is hl'
  have hrun : (writer p F t).runFrom s k.cycles = ((writer p F t).runFrom (s.next i) is).next k.final := by
    rw [Packet.cycles, hk, Machine.runFrom_concat]; rfl
  rw [hrun]
  exact hd.last k.final_sink k.last

/-- It leaves the slot pointer one further. -/
theorem drop_advances_slot (k : Packet p.dw τ) (hl : NoLast k.body) (hbody : k.body ≠ []) (after : In p.dw τ)
    (gap : List (In p.dw τ)) (hgap : ∀ i ∈ gap, i.sink = none) {s : State p F} (hf : s.fsm = .idle)
    (hr : ¬ s.room) :
    ((writer p F t).runFrom s (k.cycles ++ after :: gap)).slot = (s.slot + 1) % 2 ^ p.slotbits := by
  obtain ⟨ht, hslot, -⟩ := drop_terminates (t := t) k hl hbody hf hr
  have hn := next_finish (i := after) ht
  have hidle : (((writer p F t).runFrom s k.cycles).next after).fsm = .idle := by rw [hn]
  obtain ⟨⟨q, hq⟩, -⟩ := quiet_run (t := t) gap _ (.inl hidle) hgap
  rw [Machine.runFrom_append, Machine.runFrom_cons, writer_step, hq, hn]
  simp only [hslot]

/-- If software has made room by then, it is reported: an entry of length 0 over a slot that holds
nothing of it. -/
theorem drop_reports_nothing (past : List (In p.dw τ)) (hidle : ((writer p F t).run past).fsm = .idle)
    (hfull : ¬ ((writer p F t).run past).room) (k : Packet p.dw τ) (hl : NoLast k.body) (hbody : k.body ≠ [])
    (hroom : ((writer p F t).run (past ++ k.cycles)).room) (after : In p.dw τ) :
    ∃ ts m, ((writer p F t).run (past ++ k.cycles)).report after = [(⟨((writer p F t).run past).slot, 0, ts⟩, m)] := by
  have hrun : (writer p F t).run (past ++ k.cycles) =
      (writer p F t).runFrom ((writer p F t).run past) k.cycles := (writer p F t).runFrom_append _ past k.cycles
  obtain ⟨ht, hslot, hcount⟩ := drop_terminates (t := t) k hl hbody hidle hfull
  rw [idle_counter past hidle] at hcount
  rw [hrun] at hroom ⊢
  rw [report_eq, if_pos ⟨ht, hroom⟩, hslot, hcount]
  exact ⟨_, _, rfl⟩

/-- A packet of one beat leaves the writer waiting for the end of it. -/
theorem drop_one_beat_hangs (k : Packet p.dw τ) (hbody : k.body = []) (gap : List (In p.dw τ))
    (hgap : ∀ i ∈ gap, i.sink = none) {s : State p F} (hf : s.fsm = .idle) (hr : ¬ s.room) :
    ((writer p F t).runFrom s (k.cycles ++ gap)).fsm = .discardRemaining := by
  have hd := Dropping.refused hf hr k.final_sink
  obtain ⟨⟨q, hq⟩, -⟩ := quiet_run (t := t) gap _ (.inr (.inr hd.fsm)) hgap
  rw [Packet.cycles, hbody, List.nil_append, List.cons_append, List.nil_append, Machine.runFrom_cons,
    writer_step, hq]
  exact hd.fsm

theorem succ_mod_slots_ne (n : Nat) : (n + 1) % 2 ^ p.slotbits ≠ n := by
  intro h
  have h2 : 2 ≤ 2 ^ p.slotbits := calc
    2 = 2 ^ 1 := rfl
    _ ≤ 2 ^ p.slotbits := Nat.pow_le_pow_right (by decide) (Nat.le_max_right _ _)
  have hlt : n < 2 ^ p.slotbits := by rw [← h]; exact Nat.mod_lt _ (by omega)
  rcases Nat.lt_or_ge (n + 1) (2 ^ p.slotbits) with h3 | h3
  · rw [Nat.mod_eq_of_lt h3] at h; omega
  · have : n + 1 = 2 ^ p.slotbits := by omega
    rw [this, Nat.mod_self] at h; omega

/-- In every run: no packet that starts while the status FIFO is full goes without a trace,
whatever software pops while it is being dropped and however long the line is idle after it. -/
theorem drop_leaves_trace (past : List (In p.dw τ)) (hidle : ((writer p F t).run past).fsm = .idle)
    (hfull : ¬ ((writer p F t).run past).room) (k : Packet p.dw τ) (hl : NoLast k.body)
    (after : In p.dw τ) (gap : List (In p.dw τ)) (hquiet : ∀ i ∈ after :: gap, i.sink = none) :
    ¬ NoTrace t ((writer p F t).run past) (k.cycles ++ after :: gap) := by
  rintro ⟨-, hfsm, -, hslot, -, -⟩
  by_cases hbody : k.body = []
  · rw [drop_one_beat_hangs k hbody (after :: gap) hquiet hidle hfull] at hfsm
    cases hfsm
  · rw [drop_advances_slot k hl hbody after gap (fun i hi => hquiet i (List.mem_cons_of_mem _ hi)) hidle hfull]
      at hslot
    exact succ_mod_slots_ne _ hslot

/-- A packet of two beats, while the last of which software may pop the status FIFO. -/
def droppedPacket (clear : Bool) : Packet 32 Unit where
  body := [dataCycle false]
  final := { dataCycle true with clear := clear }
  lastBeat := ⟨0, 1, 0, true⟩
  final_sink := rfl
  last := rfl
  body_last := by simp
  body_head := by
    rintro i is h
    cases h
    simp [dataCycle]

theorem droppedPacket_noLast (clear : Bool) : NoLast (droppedPacket clear).body := by
  rintro i hi b hb
  cases List.mem_singleton.1 hi
  cases hb
  rfl

theorem drop_leaves_trace_two_beats :
    ¬ NoTrace () (twoSlotWriter.run (twoBeats ++ twoBeats)) ((droppedPacket false).cycles ++ [idleCycle false]) := by
  have hidle : (twoSlotWriter.run (twoBeats ++ twoBeats)).fsm = .idle := by decide
  have hfull : ¬ (twoSlotWriter.run (twoBeats ++ twoBeats)).room := by decide
  have hquiet : ∀ i ∈ [idleCycle false], i.sink = none := by simp [idleCycle]
  exact drop_leaves_trace _ hidle hfull _ (droppedPacket_noLast false) _ [] hquiet

/-- The status FIFO is full, software pops one entry during the last beat of the dropped packet, and
an entry of length 0 is queued for it. -/
theorem dropped_packet_is_reported :
    (twoSlotWriter.run (twoBeats ++ twoBeats)).fsm = .idle ∧ ¬ (twoSlotWriter.run (twoBeats ++ twoBeats)).room ∧
      ¬ NoTrace () (twoSlotWriter.run (twoBeats ++ twoBeats)) ((droppedPacket true).cycles ++ [idleCycle false]) := by
  refine ⟨by decide, by decide, ?_⟩
  rintro ⟨-, -, hq, -, -, -⟩
  exact absurd hq (by decide)

end LiteEth.Mac.Writer
