/-
`mac/sram.py`: the SRAM reader with a timestamp source. A register keeps the time at which a command was started, and
when its packet has been sent a status entry goes to a FIFO that software reads. The FIFO is not asked whether there is
room: an entry is lost if software has left as many unread as there are slots.
-/
import LiteEth.Mac.SramReader

namespace LiteEth.Mac.Reader

open LiteEth.Rtl

variable {p : SRAMParams} {tb : ℕ}

/-- An entry of the status FIFO. -/
structure Status (tb : ℕ) where
  slot : ℕ
  timestamp : BitVec tb
  deriving DecidableEq, Inhabited

/-- The inputs of one cycle: those of the reader, the timestamp source, and `ev.done.clear`. -/
structure StampedIn (p : SRAMParams) (tb : ℕ) extends In p where
  timestamp : BitVec tb
  clear : Bool

variable (F : SyncFIFO (Command p) p.nslots) (G : SyncFIFO (Status tb) p.nslots)

/-- The registers; `timestamp` is `stat_fifo.sink.timestamp`. -/
structure Stamped where
  reader : State p F
  timestamp : BitVec tb
  statFifo : G.State

/-- The registers after reset. -/
def Stamped.init : Stamped F G := { reader := .init p F, timestamp := 0, statFifo := G.reset }

variable {F G}

namespace Stamped

variable (s : Stamped F G) (i : StampedIn p tb)

/-- `start`. -/
def start : Bool :=
  match s.reader.fsm with
  | .idle => F.sourceValid s.reader.cmdFifo
  | _ => false

/-- The entry at the sink of the status FIFO, which is valid in `END`. -/
def status : Option (Status tb) :=
  if s.reader.done then some { slot := s.reader.command.slot, timestamp := s.timestamp } else none

/-- One cycle: the timestamp is sampled at the start of a packet, and queued at its end. -/
def next : Stamped F G where
  reader := s.reader.next i.toIn
  timestamp := if s.start then i.timestamp else s.timestamp
  statFifo := G.step s.statFifo s.status i.clear

end Stamped

variable (F G) in
/-- `LiteEthMACSRAMReader` with a timestamp source. -/
def stampedReader : Machine (StampedIn p tb) (Stamped F G) where
  reset := Stamped.init F G
  step := Stamped.next

/-! ## Status entries -/

section Runs

variable (F G) (is : List (StampedIn p tb))

/-- The slots of the commands that are started, with the time of their start. -/
def starts : List (Status tb) :=
  (stampedReader F G).log (fun s i => if s.start then [⟨s.reader.command.slot, i.timestamp⟩] else [])
    (stampedReader F G).reset is

/-- The transmissions that complete. -/
def completions : ℕ :=
  ((stampedReader F G).log (fun s _ => if s.reader.done then [()] else []) (stampedReader F G).reset is).length

/-- The entries that software acknowledges. -/
def acknowledged : List (Status tb) :=
  (stampedReader F G).log (fun s i => if i.clear && G.sourceValid s.statFifo then [G.sourceData s.statFifo] else [])
    (stampedReader F G).reset is

/-- What was acknowledged, and what waits for it, are the entries of the completed transmissions, in order. -/
def Reports : Prop :=
  acknowledged F G is ++ G.contents ((stampedReader F G).run is).statFifo = (starts F G is).take (completions F G is)

variable {F G} in
/-- There is room for the entry of a transmission that completes. -/
def HasRoom (s : Stamped F G) (_ : StampedIn p tb) : Prop := s.reader.done = true → G.level s.statFifo < p.nslots

/-- The entries of the transmissions that complete. -/
def completed : List (Status tb) := (stampedReader F G).log (fun s _ => s.status.toList) (stampedReader F G).reset is

/-- The entries that go to the FIFO. -/
def recorded : List (Status tb) :=
  (stampedReader F G).log (fun s _ => if G.sinkReady s.statFifo then s.status.toList else []) (stampedReader F G).reset is

variable {F G} in
/-- A command that was started and has not completed is at the head of the command FIFO, and the register holds the time
of its start. -/
inductive Pending (s : Stamped F G) (started completed : List (Status tb)) : Prop
  | idle (hf : s.reader.fsm = .idle) (h : started = completed)
  | busy (hf : s.reader.fsm ≠ .idle) (hq : F.contents s.reader.cmdFifo ≠ [])
      (h : started = completed ++ [⟨s.reader.command.slot, s.timestamp⟩])

variable {F G} in
/-- The head of the command FIFO stays until its transmission completes. -/
theorem command_next {s : State p F} {i : In p} (hd : s.done = false) (hq : F.contents s.cmdFifo ≠ []) :
    F.contents (s.next i).cmdFifo ≠ [] ∧ (s.next i).command = s.command := by
  obtain ⟨q, qs, hqs⟩ := List.exists_cons_of_ne_nil hq
  have hcontents : F.contents (s.next i).cmdFifo =
      q :: (qs ++ if F.sinkReady s.cmdFifo then i.start.toList else []) := by
    show F.contents (F.step s.cmdFifo i.start s.done) = _
    rw [F.contents_step, hd, if_neg Bool.false_ne_true, hqs, List.cons_append]
  refine ⟨hcontents ▸ List.cons_ne_nil _ _, ?_⟩
  exact (F.sourceData_eq _ _ _ hcontents).trans (F.sourceData_eq _ _ _ hqs).symm

variable {F G} in
theorem Pending.next {s : Stamped F G} {started completed : List (Status tb)} (h : Pending s started completed)
    (i : StampedIn p tb) : Pending (s.next i)
      (started ++ if s.start then [⟨s.reader.command.slot, i.timestamp⟩] else []) (completed ++ s.status.toList) := by
  have hreader : (s.next i).reader = s.reader.next i.toIn := rfl
  cases h with
  | idle hf h =>
    have hd : s.reader.done = false := by
      unfold State.done
      rw [hf]
      rfl
    have hstatus : s.status.toList = [] := by
      unfold Stamped.status
      rw [hd]
      rfl
    have hfsm : (s.next i).reader.fsm = if F.sourceValid s.reader.cmdFifo then .send else .idle := by
      rw [hreader, State.next, hf]
    rw [hstatus, List.append_nil, h]
    -- a command waits: it starts now, and the time is stored
    cases hv : F.sourceValid s.reader.cmdFifo with
    | true =>
      have hstart : s.start = true := by
        unfold Stamped.start
        rw [hf]
        exact hv
      obtain ⟨hq, hcommand⟩ := command_next (i := i.toIn) hd ((F.sourceValid_iff _).1 hv)
      have hstamp : (s.next i).timestamp = i.timestamp := if_pos hstart
      rw [if_pos hstart]
      refine .busy (by rw [hfsm, hv]; exact Fsm.noConfusion) hq ?_
      rw [hstamp, hreader, hcommand]
    | false =>
      have hstart : s.start = false := by
        unfold Stamped.start
        rw [hf]
        exact hv
      rw [hstart, if_neg Bool.false_ne_true, List.append_nil]
      exact .idle (by rw [hfsm, hv]; rfl) rfl
  | busy hf hq h =>
    have hstart : s.start = false := by
      unfold Stamped.start
      cases hfsm : s.reader.fsm with
      | idle => exact absurd hfsm hf
      | _ => rfl
    rw [hstart, if_neg Bool.false_ne_true, List.append_nil, h]
    -- at the end the status is given, with the time of the start
    cases hd : s.reader.done with
    | true =>
      have hfsm : s.reader.fsm = .end := (done_iff _).1 hd
      have hstatus : s.status.toList = [⟨s.reader.command.slot, s.timestamp⟩] := by
        unfold Stamped.status
        rw [hd]
        rfl
      rw [hstatus]
      refine .idle ?_ rfl
      rw [hreader, State.next, hfsm]
    | false =>
      have hstatus : s.status.toList = [] := by
        unfold Stamped.status
        rw [hd]
        rfl
      obtain ⟨hq', hcommand⟩ := command_next (i := i.toIn) hd hq
      have hstamp : (s.next i).timestamp = s.timestamp := by
        show (if s.start then i.timestamp else s.timestamp) = _
        rw [hstart, if_neg Bool.false_ne_true]
      rw [hstatus, List.append_nil]
      refine .busy ?_ hq' (by rw [hstamp, hreader, hcommand])
      rw [hreader, State.next]
      cases hfsm : s.reader.fsm with
      | idle => exact absurd hfsm hf
      | send => dsimp only; split_ifs <;> exact Fsm.noConfusion
      | «end» =>
        rw [(done_iff _).2 hfsm] at hd
        cases hd

variable {F G} in
theorem pending : Pending ((stampedReader F G).run is) (starts F G is) (completed F G is) := by
  induction is using List.reverseRecOn with
  | nil => exact .idle rfl rfl
  | append_singleton is i ih =>
    unfold starts completed Machine.run at *
    rw [Machine.log_concat, Machine.log_concat, Machine.runFrom_concat]
    exact ih.next i

theorem length_completed : (completed F G is).length = completions F G is := by
  unfold completed completions
  induction is using List.reverseRecOn with
  | nil => rfl
  | append_singleton is i ih =>
    rw [Machine.log_concat, Machine.log_concat, List.length_append, List.length_append, ih]
    congr 1
    unfold Stamped.status
    split_ifs <;> rfl

/-- The completed transmissions are those started first. -/
theorem take_starts : (starts F G is).take (completions F G is) = completed F G is := by
  rw [← length_completed]
  cases pending is with
  | idle _ h => rw [h, List.take_length]
  | busy _ _ h => rw [h, List.take_left]

/-- The FIFO keeps what is recorded until it is acknowledged. -/
theorem acknowledged_append : acknowledged F G is ++ G.contents ((stampedReader F G).run is).statFifo =
    recorded F G is := by
  unfold acknowledged recorded Machine.run
  induction is using List.reverseRecOn with
  | nil => exact G.contents_reset
  | append_singleton is i ih =>
    rw [Machine.log_concat, Machine.log_concat, Machine.runFrom_concat, ← ih, List.append_assoc, List.append_assoc]
    congr 1
    generalize (stampedReader F G).runFrom (stampedReader F G).reset is = s
    show _ ++ G.contents (G.step s.statFifo s.status i.clear) = _
    rw [G.contents_step]
    cases i.clear with
    | false => rfl
    | true =>
      cases hc : G.contents s.statFifo with
      | nil =>
        have hv : G.sourceValid s.statFifo = false := by
          rw [← Bool.not_eq_true, G.sourceValid_iff]
          exact fun h => h hc
        rw [hv]
        rfl
      | cons x xs =>
        have hv : G.sourceValid s.statFifo = true := (G.sourceValid_iff _).2 (hc ▸ List.cons_ne_nil x xs)
        rw [hv, G.sourceData_eq _ _ _ hc]
        rfl

/-- Nothing is lost as long as there is room. -/
theorem recorded_iff : (recorded F G is).length ≤ (completed F G is).length ∧
    ((stampedReader F G).Along HasRoom (stampedReader F G).reset is ↔ recorded F G is = completed F G is) := by
  unfold recorded completed
  -- a status is lost exactly when there is no room for it
  induction is using List.reverseRecOn with
  | nil => exact ⟨le_rfl, iff_of_true trivial rfl⟩
  | append_singleton is i ih =>
    rw [Machine.log_concat, Machine.log_concat, Machine.along_append, ih.2, Machine.along_cons]
    generalize (stampedReader F G).runFrom (stampedReader F G).reset is = s
    generalize (stampedReader F G).log _ _ is = r at ih ⊢
    obtain ⟨hle, -⟩ := ih
    have hroom : HasRoom s i ↔ (s.status ≠ none → G.sinkReady s.statFifo = true) := by
      unfold HasRoom Stamped.status
      rw [G.sinkReady_iff]
      cases s.reader.done <;> simp [SyncFIFO.level]
    rw [hroom]
    cases hs : s.status with
    | none => simpa using hle
    | some x =>
      cases hr : G.sinkReady s.statFifo with
      | true => simpa using hle
      | false =>
        refine ⟨by simp; omega, ?_⟩
        simp
        intro h
        have hlen := congrArg List.length h
        simp at hlen
        omega

/-- Each completed transmission is reported with the time of its start, in order, if and only if there is always room
for its entry. -/
theorem reports_iff : Reports F G is ↔ (stampedReader F G).Along HasRoom (stampedReader F G).reset is := by
  unfold Reports
  rw [acknowledged_append, take_starts, (recorded_iff F G is).2]

end Runs

/-- Software issues a command while `_ready = 1` only. -/
def Obeys (s : Stamped F G) (i : StampedIn p tb) : Prop := i.start ≠ none → F.sinkReady s.reader.cmdFifo = true

instance (s : Stamped F G) (i : StampedIn p tb) : Decidable (Obeys s i) := inferInstanceAs (Decidable (_ → _))

/-- Three packets of one word, with the number of the cycle for the time; software reads no status. -/
def unread : List (StampedIn (wishboneParams 2 .big) 8) := (List.range 12).map fun k =>
  { start := if k % 4 = 0 then some ⟨0, 4⟩ else none
    ready := true
    write := none
    timestamp := BitVec.ofNat 8 k
    clear := false }

/-- The third entry is lost. -/
theorem unread_lost : (stampedReader (SyncFIFO.queue _ _) (SyncFIFO.queue (Status 8) _)).Along Obeys (stampedReader _ _).reset
    unread ∧ ¬ Reports (SyncFIFO.queue _ _) (SyncFIFO.queue (Status 8) _) unread := by
  unfold Reports
  decide +kernel

end LiteEth.Mac.Reader
