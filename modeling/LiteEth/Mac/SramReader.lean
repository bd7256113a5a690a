/-
`mac/sram.py`: the SRAM reader of the MAC. Software queues commands, a slot and a length in bytes;
the reader sends the words of each command's slot and reports that it is done. The memory answers
one cycle after it is addressed, so the reader addresses the next word when a word is taken. The
end of a packet is found with a subtraction that wraps: a command of fewer than four bytes never
ends.
-/
import LiteEth.Mac.Sram

namespace LiteEth.Mac.Reader

open LiteEth.Rtl

variable (p : SRAMParams)

/-- The width of the length, the counter and the read address. -/
def lengthbits : ℕ := bitsFor (p.depth * 4)

/-- An entry of the command FIFO. -/
structure Command where
  slot : ℕ
  length : BitVec (lengthbits p)
  deriving DecidableEq

instance : Inhabited (Command p) := ⟨⟨0, 0⟩⟩

/-- The states of the reader. -/
inductive Fsm
  | idle
  | send
  | «end»
  deriving DecidableEq, Repr

/-- The inputs of one cycle: the command software writes to `_start`, `source.ready`, and the word
software writes to a slot memory. -/
structure In where
  start : Option (Command p)
  ready : Bool
  write : Option (Writer.Write p.dw)

variable (F : SyncFIFO (Command p) p.nslots)

/-- The registers and the slot memories; `adr` is the address the read ports have registered. -/
structure State where
  fsm : Fsm
  counter : BitVec (lengthbits p)
  adr : ℕ
  cmdFifo : F.State
  mems : ℕ → ℕ → BitVec p.dw

/-- The registers and the memories after reset. -/
def State.init : State p F :=
  { fsm := .idle, counter := 0, adr := 0, cmdFifo := F.reset, mems := fun _ _ => 0 }

/-- `source.last_be` on the last word, by `length[0:2]`. -/
def lastBe (e : Endianness) (lengthLsb : ℕ) : BitVec (p.dw / 8) :=
  match e, lengthLsb with
  | .big, 0 => 0b0001
  | .big, 1 => 0b1000
  | .big, 2 => 0b0100
  | .big, _ => 0b0010
  | .little, 0 => 0b1000
  | .little, 1 => 0b0001
  | .little, 2 => 0b0010
  | .little, _ => 0b0100

variable {p F}

namespace State

variable (s : State p F) (i : In p)

/-- `cmd_fifo.source`. -/
def command : Command p := F.sourceData s.cmdFifo

/-- `source.last` in `SEND`. -/
def last : Bool := decide (s.command.length - 4 ≤ s.counter)

/-- `source.data`: the read port of the command's slot. -/
def data : BitVec p.dw := if s.command.slot < p.nslots then s.mems s.command.slot s.adr else 0

/-- The beat at the source: in `SEND` the word that was read. -/
def source : Option (PhyBeat p.dw) :=
  match s.fsm with
  | .send => some
    { data := s.data
      lastBe := if s.last then lastBe p p.endianness (s.command.length.toNat % 4) else 0
      error := 0
      last := s.last }
  | _ => none

/-- `ev.done.trigger`; with a timestamp source it is the valid of the status FIFO's sink. -/
def done : Bool := s.fsm == .end

/-- The address of the next word. -/
def readAddress : BitVec (lengthbits p) :=
  match s.fsm with
  | .send => if i.ready then s.counter + 4 else s.counter
  | _ => 0

/-- One cycle of the reader. -/
def next : State p F where
  fsm :=
    match s.fsm with
    | .idle => if F.sourceValid s.cmdFifo then .send else .idle
    | .send => if i.ready && s.last then .end else .send
    | .end => .idle
  counter :=
    match s.fsm with
    | .idle => 0
    | .send => if i.ready then s.counter + 4 else s.counter
    | .end => s.counter
  adr := (s.readAddress i).toNat / 4 % 2 ^ bitsFor (p.depth - 1)
  cmdFifo := F.step s.cmdFifo i.start s.done
  mems :=
    match i.write with
    | some w => Writer.memWrite p.depth s.mems w
    | none => s.mems

end State

variable (p F) in
/-- `LiteEthMACSRAMReader`. -/
def reader : Machine (In p) (State p F) where
  reset := State.init p F
  step := State.next

/-! ## Commands and their packets -/

/-- A command with the words of its slot. -/
abbrev Issued (p : SRAMParams) := Command p × (ℕ → BitVec p.dw)

/-- The command software issues, `_ready = 1`, with what its slot holds from now on. -/
def State.issues (s : State p F) (i : In p) : Option (Issued p) :=
  if F.sinkReady s.cmdFifo then i.start.map fun c => (c, (s.next i).mems c.slot) else none

/-- What is seen of the reader: the beats that are taken, and `done`. -/
inductive Event (dw : ℕ)
  | beat (b : PhyBeat dw)
  | done
  deriving DecidableEq

/-- What is seen of a cycle: the beat that is taken, and the end of a packet. -/
def State.events (s : State p F) (i : In p) : List (Event p.dw) :=
  (if i.ready then s.source.toList.map .beat else []) ++ if s.done then [.done] else []

variable (F) in
/-- The commands issued in a run. -/
def issued (is : List (In p)) : List (Issued p) :=
  (reader p F).log (fun s i => (s.issues i).toList) (reader p F).reset is

variable (F) in
/-- The events of a run. -/
def events (is : List (In p)) : List (Event p.dw) :=
  (reader p F).log (fun s i => s.events i) (reader p F).reset is

/-- `last_be` with the mark at the `j`-th byte of the word. -/
def mark (dw : ℕ) (e : Endianness) (j : ℕ) : BitVec (dw / 8) :=
  match e with
  | .big => BitVec.ofNat _ (2 ^ (3 - j))
  | .little => BitVec.ofNat _ (2 ^ j)

namespace Issued

variable (q : Issued p)

/-- The number of words, `ceil(length / 4)`. -/
def words : ℕ := (q.1.length.toNat + 3) / 4

/-- The word `k` of the packet. -/
def word (k : ℕ) : PhyBeat p.dw where
  data := q.2 k
  lastBe := if k + 1 = q.words then mark p.dw p.endianness ((q.1.length.toNat - 1) % 4) else 0
  error := 0
  last := decide (k + 1 = q.words)

/-- The first words of the packet. -/
def sent (k : ℕ) : List (Event p.dw) := (List.range k).map fun k => .beat (q.word k)

/-- What is to be seen for a command. -/
def output : List (Event p.dw) := q.sent q.words ++ [.done]

/-- A command for a slot, with the length of a packet that fits in it. -/
structure Proper : Prop where
  slot : q.1.slot < p.nslots
  length_pos : 1 ≤ q.1.length.toNat
  length_le : q.1.length.toNat ≤ 4 * p.depth

/-- The command has at least four bytes. -/
def Long : Prop := 4 ≤ q.1.length.toNat

instance : Decidable q.Long := inferInstanceAs (Decidable (_ ≤ _))

end Issued

/-- Software issues proper commands, and does not write to the slots of the commands in the queue. -/
structure Fair (s : State p F) (i : In p) : Prop where
  proper : ∀ q, s.issues i = some q → q.Proper
  stable : ∀ w, i.write = some w → ∀ c ∈ F.contents s.cmdFifo, w.slot ≠ c.slot

/-! ## The end of a packet -/

/-- Lengths and addresses fit in their signals. -/
theorem lt_lengthbits (p : SRAMParams) : 4 * p.depth < 2 ^ lengthbits p := by
  have := lt_two_pow_bitsFor (p.depth * 4)
  unfold lengthbits
  omega

namespace Issued

variable {q : Issued p}

theorem sent_succ (q : Issued p) (k : ℕ) : q.sent (k + 1) = q.sent k ++ [.beat (q.word k)] := by
  unfold sent
  rw [List.range_succ, List.map_append, List.map_singleton]

theorem done_notMem_sent (q : Issued p) (k : ℕ) : Event.done ∉ q.sent k := by
  simp [sent]

theorem Proper.four_dvd (h : q.Proper) : 4 ∣ 2 ^ lengthbits p := by
  have hlt := lt_lengthbits p
  have hpos := h.length_pos
  have hle := h.length_le
  have h2 : 2 < lengthbits p := by
    by_contra hb
    have : 2 ^ lengthbits p ≤ 2 ^ 2 := Nat.pow_le_pow_right (by decide) (by omega)
    omega
  exact (Nat.pow_dvd_pow 2 h2.le : 2 ^ 2 ∣ _)

theorem Proper.toNat_four (h : q.Proper) : (4 : BitVec (lengthbits p)).toNat = 4 := by
  have hlt := lt_lengthbits p
  have hpos := h.length_pos
  have hle := h.length_le
  have hlt' : 4 < 2 ^ lengthbits p := by omega
  exact (BitVec.toNat_ofNat 4 _).trans (Nat.mod_eq_of_lt hlt')

/-- A long command ends with its last word. -/
theorem Proper.last_iff (h : q.Proper) (hq : q.Long) {c : BitVec (lengthbits p)} {k : ℕ} (hc : c.toNat = 4 * k)
    (hk : k < q.words) : q.1.length - 4 ≤ c ↔ k + 1 = q.words := by
  have hsub : (q.1.length - 4).toNat = q.1.length.toNat - 4 := by
    rw [BitVec.toNat_sub_of_le (BitVec.le_def.2 (h.toNat_four.symm ▸ hq)), h.toNat_four]
  unfold Long at hq
  unfold words at *
  rw [BitVec.le_def, hsub, hc]
  omega

/-- The subtraction wraps for a command that is not long: it never ends. -/
theorem Proper.not_last (h : q.Proper) (hq : ¬ q.Long) {c : BitVec (lengthbits p)} (hc : c.toNat % 4 = 0) :
    ¬ q.1.length - 4 ≤ c := by
  have hdvd := h.four_dvd
  have hlt := lt_lengthbits p
  have hpos := h.length_pos
  have hle := h.length_le
  unfold Long at hq
  have hsub : (q.1.length - 4).toNat = 2 ^ lengthbits p - 4 + q.1.length.toNat := by
    rw [BitVec.toNat_sub, h.toNat_four, Nat.mod_eq_of_lt (by omega)]
  rw [BitVec.le_def, hsub]
  have := c.isLt
  omega

theorem toNat_add_four (h : q.Proper) {c : BitVec (lengthbits p)} (hc : c.toNat % 4 = 0) : (c + 4).toNat % 4 = 0 := by
  rw [BitVec.toNat_add, h.toNat_four, Nat.mod_mod_of_dvd _ h.four_dvd]
  omega

/-- The counter goes to the next word of the packet. -/
theorem Proper.counter_succ (h : q.Proper) {c : BitVec (lengthbits p)} {k : ℕ} (hc : c.toNat = 4 * k)
    (hk : k < q.words) : (c + 4).toNat = 4 * (k + 1) := by
  have hlt := lt_lengthbits p
  have hle := h.length_le
  unfold words at hk
  rw [BitVec.toNat_add, h.toNat_four, hc, Nat.mod_eq_of_lt (by omega)]
  omega

/-- A word of the packet is in the memory. -/
theorem Proper.lt_depth (h : q.Proper) {k : ℕ} (hk : k < q.words) : k < p.depth := by
  have hle := h.length_le
  unfold words at hk
  omega

theorem words_pos (h : q.Proper) : 0 < q.words := by
  have := h.length_pos
  unfold words
  omega

/-- `last_be` marks the last byte. -/
theorem lastBe_eq_mark (h : q.Proper) :
    lastBe p p.endianness (q.1.length.toNat % 4) = mark p.dw p.endianness ((q.1.length.toNat - 1) % 4) := by
  have hpos := h.length_pos
  obtain ⟨j, hj, hlt⟩ : ∃ j, (q.1.length.toNat - 1) % 4 = j ∧ j < 4 := ⟨_, rfl, Nat.mod_lt _ (by decide)⟩
  rw [hj, show q.1.length.toNat % 4 = (j + 1) % 4 by omega]
  cases p.endianness <;> interval_cases j <;> rfl

end Issued

/-! ## The queue -/

/-- The commands in the queue, with what their slots hold. -/
structure Queued (s : State p F) (qs : List (Issued p)) : Prop where
  contents : F.contents s.cmdFifo = qs.map Prod.fst
  proper : ∀ q ∈ qs, q.Proper
  memory : ∀ q ∈ qs, s.mems q.1.slot = q.2

section Queue

variable {s : State p F} {i : In p} {q : Issued p} {qs : List (Issued p)}

theorem Queued.command_eq (h : Queued s (q :: qs)) : s.command = q.1 := F.sourceData_eq _ _ _ h.contents

theorem Queued.data_eq (h : Queued s (q :: qs)) : s.data = q.2 s.adr := by
  unfold State.data
  rw [h.command_eq, if_pos (h.proper q List.mem_cons_self).slot, h.memory q List.mem_cons_self]

theorem mem_drop {b : Bool} (hq : q ∈ if b then qs.tail else qs) : q ∈ qs := by
  cases b
  · exact hq
  · exact List.mem_of_mem_tail hq

/-- A slot that is not written to keeps its words. -/
theorem mems_next {n : ℕ} (h : ∀ w, i.write = some w → w.slot ≠ n) : (s.next i).mems n = s.mems n := by
  unfold State.next
  cases hw : i.write with
  | none => rfl
  | some w =>
    funext a
    exact if_neg fun hn => h w hw hn.1.symm

theorem Queued.next (h : Queued s qs) (hi : Fair s i) :
    Queued (s.next i) ((if s.done then qs.tail else qs) ++ (s.issues i).toList) := by
  have hissues : (s.issues i).toList.map Prod.fst = if F.sinkReady s.cmdFifo then i.start.toList else [] := by
    unfold State.issues
    cases F.sinkReady s.cmdFifo <;> cases i.start <;> rfl
  refine ⟨?_, fun q hq => ?_, fun q hq => ?_⟩
  · show F.contents (F.step s.cmdFifo i.start s.done) = _
    rw [F.contents_step, h.contents, List.map_append, hissues, apply_ite (List.map Prod.fst), List.map_tail]
  · rcases List.mem_append.1 hq with hq | hq
    · exact h.proper q (mem_drop hq)
    · exact hi.proper q (Option.mem_toList.1 hq)
  · rcases List.mem_append.1 hq with hq | hq
    · have hmem := mem_drop hq
      have hc : q.1 ∈ F.contents s.cmdFifo := h.contents ▸ List.mem_map_of_mem hmem
      rw [mems_next fun w hw => hi.stable w hw _ hc, h.memory q hmem]
    · have hq := Option.mem_toList.1 hq
      unfold State.issues at hq
      split_ifs at hq
      · obtain ⟨c, -, rfl⟩ := Option.map_eq_some_iff.1 hq
        rfl

end Queue

/-! ## Phases -/

/-- Where the reader is in the packet of the first command, and what has been seen of it. -/
inductive Phase (s : State p F) : List (Issued p) → List (Event p.dw) → Prop
  | idle (qs : List (Issued p)) (hf : s.fsm = .idle) : Phase s qs []
  | send (q : Issued p) (qs : List (Issued p)) (k : ℕ) (hf : s.fsm = .send) (hq : q.Long) (hk : k < q.words)
      (hc : s.counter.toNat = 4 * k) (ha : s.adr = k) : Phase s (q :: qs) (q.sent k)
  | stuck (q : Issued p) (qs : List (Issued p)) (m : List (Event p.dw)) (hf : s.fsm = .send) (hq : ¬ q.Long)
      (hc : s.counter.toNat % 4 = 0) (hm : .done ∉ m) : Phase s (q :: qs) m
  | «end» (q : Issued p) (qs : List (Issued p)) (hf : s.fsm = .end) (hq : q.Long) : Phase s (q :: qs) (q.sent q.words)

section Cycle

variable {s : State p F} {i : In p} {q : Issued p} {qs : List (Issued p)} {m : List (Event p.dw)}

theorem done_iff (s : State p F) : s.done = true ↔ s.fsm = .end := beq_iff_eq

/-- What is seen in `SEND`. -/
theorem events_send (hf : s.fsm = .send) : s.events i = if i.ready then
    [.beat { data := s.data
             lastBe := if s.last then lastBe p p.endianness (s.command.length.toNat % 4) else 0
             error := 0
             last := s.last }] else [] := by
  unfold State.events State.source State.done
  rw [hf]
  exact List.append_nil _

/-- The word `k` is taken if the consumer is ready. -/
theorem events_word (hs : Queued s (q :: qs)) {k : ℕ} (hf : s.fsm = .send) (hq : q.Long) (hk : k < q.words)
    (hc : s.counter.toNat = 4 * k) (ha : s.adr = k) :
    s.last = decide (k + 1 = q.words) ∧ s.events i = if i.ready then [.beat (q.word k)] else [] := by
  have hproper := hs.proper q List.mem_cons_self
  have hlast : s.last = decide (k + 1 = q.words) := by
    unfold State.last
    rw [hs.command_eq, decide_eq_decide]
    exact hproper.last_iff hq hc hk
  refine ⟨hlast, ?_⟩
  rw [events_send hf, hlast, hs.data_eq, hs.command_eq, ha, Issued.lastBe_eq_mark hproper]
  simp [Issued.word]

/-- A cycle in `IDLE`. -/
theorem begin_next (hf : s.fsm = .idle) (i : In p) :
    (s.next i).fsm = (if F.sourceValid s.cmdFifo then .send else .idle) ∧ (s.next i).counter.toNat = 4 * 0 ∧
      (s.next i).adr = 0 := by
  refine ⟨?_, ?_, ?_⟩
  · simp [State.next, hf]
  · simp [State.next, hf]
  · simp [State.next, State.readAddress, hf]

/-- The first packet is begun as soon as there is a command. -/
theorem phase_begin (hs : Queued s qs) (hf : s.fsm = .idle) (i : In p) (new : List (Issued p)) :
    Phase (s.next i) (qs ++ new) [] := by
  obtain ⟨hfsm, hcounter, hadr⟩ := begin_next hf i
  cases qs with
  | nil =>
    have hv : F.sourceValid s.cmdFifo = false := by
      rw [← Bool.not_eq_true, F.sourceValid_iff, hs.contents]
      simp
    exact .idle _ (by rw [hfsm, hv]; rfl)
  | cons q qs =>
    have hv : F.sourceValid s.cmdFifo = true := by
      rw [F.sourceValid_iff, hs.contents]
      simp
    rw [hv, if_pos rfl] at hfsm
    by_cases hq : q.Long
    · exact .send q _ 0 hfsm hq (Issued.words_pos (hs.proper q List.mem_cons_self)) hcounter hadr
    · exact .stuck q _ [] hfsm hq (by rw [hcounter]) (by simp)

/-- The address of the next word is registered. -/
theorem adr_next {k : ℕ} (hproper : q.Proper) (hk : k < q.words) (ha : (s.readAddress i).toNat = 4 * k) :
    (s.next i).adr = k := by
  show (s.readAddress i).toNat / 4 % 2 ^ bitsFor (p.depth - 1) = k
  have hlt := hproper.lt_depth hk
  have hdepth := lt_two_pow_bitsFor (p.depth - 1)
  rw [ha, Nat.mul_div_cancel_left _ (by decide), Nat.mod_eq_of_lt (by omega)]

/-- A cycle in `SEND`, with the word `k` of a long command: with a ready consumer it is the turn of the next word, or the
end. -/
theorem send_next (hs : Queued s (q :: qs)) {k : ℕ} (hf : s.fsm = .send) (hq : q.Long) (hk : k < q.words)
    (hc : s.counter.toNat = 4 * k) (ha : s.adr = k) (i : In p) :
    (i.ready = true ∧ k + 1 = q.words ∧ (s.next i).fsm = .end) ∨ ∃ k', k' = (if i.ready then k + 1 else k) ∧
      (s.next i).fsm = .send ∧ k' < q.words ∧ (s.next i).counter.toNat = 4 * k' ∧ (s.next i).adr = k' := by
  have hproper := hs.proper q List.mem_cons_self
  have hfsm : (s.next i).fsm = if i.ready && decide (k + 1 = q.words) then .end else .send := by
    simp only [State.next, hf, (events_word (i := i) hs hf hq hk hc ha).1]
  have hcounter : (s.next i).counter = if i.ready then s.counter + 4 else s.counter := by
    simp only [State.next, hf]
  have hread : s.readAddress i = if i.ready then s.counter + 4 else s.counter := by
    simp only [State.readAddress, hf]
  cases hr : i.ready with
  | false =>
    rw [hr] at hfsm hcounter hread
    exact .inr ⟨k, rfl, hfsm, hk, hcounter ▸ hc, adr_next hproper hk (hread ▸ hc)⟩
  | true =>
    rw [hr] at hfsm hcounter hread
    have hsucc := hproper.counter_succ hc hk
    by_cases hw : k + 1 = q.words
    · exact .inl ⟨rfl, hw, by rw [hfsm, hw]; simp⟩
    · have hk' : k + 1 < q.words := by omega
      exact .inr ⟨k + 1, rfl, by simp [hfsm, hw], hk', hcounter ▸ hsucc, adr_next hproper hk' (hread ▸ hsucc)⟩

/-- A cycle in which a word of a long command is sent. -/
theorem phase_word (hs : Queued s (q :: qs)) {k : ℕ} (hf : s.fsm = .send) (hq : q.Long) (hk : k < q.words)
    (hc : s.counter.toNat = 4 * k) (ha : s.adr = k) (i : In p) (new : List (Issued p)) :
    Phase (s.next i) (q :: qs ++ new) (q.sent k ++ s.events i) := by
  have hsent : q.sent k ++ s.events i = q.sent (if i.ready then k + 1 else k) := by
    rw [(events_word (i := i) hs hf hq hk hc ha).2]
    cases i.ready
    · exact List.append_nil _
    · exact (q.sent_succ k).symm
  rw [hsent]
  rcases send_next hs hf hq hk hc ha i with ⟨hr, hw, hend⟩ | ⟨k', rfl, hsend, hk', hc', ha'⟩
  · rw [hr, if_pos rfl, hw]
    exact .end q _ hend hq
  · exact .send q _ _ hsend hq hk' hc' ha'

/-- A command that is not long goes on. -/
theorem phase_stuck (hs : Queued s (q :: qs)) (hf : s.fsm = .send) (hq : ¬ q.Long) (hc : s.counter.toNat % 4 = 0)
    (hm : .done ∉ m) (i : In p) (new : List (Issued p)) : Phase (s.next i) (q :: qs ++ new) (m ++ s.events i) := by
  have hproper := hs.proper q List.mem_cons_self
  have hlast : s.last = false := by
    unfold State.last
    rw [hs.command_eq]
    exact decide_eq_false (hproper.not_last hq hc)
  refine .stuck q _ _ (by simp [State.next, hf, hlast]) hq ?_ fun h => ?_
  · have hcounter : (s.next i).counter = if i.ready then s.counter + 4 else s.counter := by
      simp only [State.next, hf]
    rw [hcounter]
    split_ifs
    · exact Issued.toNat_add_four hproper hc
    · exact hc
  · rcases List.mem_append.1 h with h | h
    · exact hm h
    · rw [events_send hf] at h
      split_ifs at h <;> simp at h

end Cycle

/-! ## Runs -/

section Concat

variable (is : List (In p)) (i : In p)

theorem run_concat : (reader p F).run (is ++ [i]) = ((reader p F).run is).next i := (reader p F).runFrom_concat _ is i

theorem issued_append (js : List (In p)) : issued F (is ++ js) =
    issued F is ++ (reader p F).log (fun s i => (s.issues i).toList) ((reader p F).run is) js :=
  (reader p F).log_append _ is js _

theorem events_append (js : List (In p)) : events F (is ++ js) =
    events F is ++ (reader p F).log (fun s i => s.events i) ((reader p F).run is) js :=
  (reader p F).log_append _ is js _

theorem issued_concat : issued F (is ++ [i]) = issued F is ++ (((reader p F).run is).issues i).toList := by
  rw [issued_append, Machine.log_cons, Machine.log_nil, List.append_nil]

theorem events_concat : events F (is ++ [i]) = events F is ++ ((reader p F).run is).events i := by
  rw [events_append, Machine.log_cons, Machine.log_nil, List.append_nil]

end Concat

/-- The commands that are done and those in the queue, after a run, and what has been seen of the
first of these. -/
structure Progress (F : SyncFIFO (Command p) p.nslots) (is : List (In p)) (finished queue : List (Issued p))
    (m : List (Event p.dw)) : Prop where
  queued : Queued ((reader p F).run is) queue
  phase : Phase ((reader p F).run is) queue m
  long : ∀ q ∈ finished, q.Long
  commands : issued F is = finished ++ queue
  seen : events F is = finished.flatMap Issued.output ++ m

section Run

variable {is : List (In p)} {finished queue : List (Issued p)} {m : List (Event p.dw)} {i : In p}

/-- The packet of the first command goes on. -/
theorem Progress.continue (h : Progress F is finished queue m) (hi : Fair ((reader p F).run is) i)
    (hd : ((reader p F).run is).done = false)
    (hphase : Phase (((reader p F).run is).next i) (queue ++ (((reader p F).run is).issues i).toList)
      (m ++ ((reader p F).run is).events i)) : ∃ finished' queue' m', Progress F (is ++ [i]) finished' queue' m' := by
  have hqueued := h.queued.next hi
  rw [hd, if_neg Bool.false_ne_true] at hqueued
  refine ⟨finished, _, _, run_concat is i ▸ hqueued, run_concat is i ▸ hphase, h.long, ?_, ?_⟩
  · rw [issued_concat, h.commands, List.append_assoc]
  · rw [events_concat, h.seen, List.append_assoc]

theorem Progress.next (h : Progress F is finished queue m) (hi : Fair ((reader p F).run is) i) :
    ∃ finished' queue' m', Progress F (is ++ [i]) finished' queue' m' := by
  have hphase := h.phase
  have hqueued := h.queued
  cases hphase with
  | idle _ hf =>
    refine h.continue hi (by simp [State.done, hf]) ?_
    have hevents : ((reader p F).run is).events i = [] := by
      simp [State.events, State.source, State.done, hf]
    rw [hevents]
    exact phase_begin hqueued hf i _
  | send q qs k hf hq hk hc ha =>
    exact h.continue hi (by simp [State.done, hf]) (phase_word hqueued hf hq hk hc ha i _)
  | stuck q qs m hf hq hc hm =>
    exact h.continue hi (by simp [State.done, hf]) (phase_stuck hqueued hf hq hc hm i _)
  | «end» q qs hf hq =>
    have hnext := hqueued.next hi
    rw [(done_iff _).2 hf, if_pos rfl, List.tail_cons] at hnext
    refine ⟨finished ++ [q], _, [], run_concat is i ▸ hnext, .idle _ ?_, fun x hx => ?_, ?_, ?_⟩
    · rw [run_concat]
      simp [State.next, hf]
    · rcases List.mem_append.1 hx with hx | hx
      · exact h.long x hx
      · rwa [List.mem_singleton.1 hx]
    · rw [issued_concat, h.commands]
      simp
    · rw [events_concat, h.seen, List.flatMap_append, List.flatMap_singleton, Issued.output]
      simp [State.events, State.source, State.done, hf]

/-- Any run leaves the reader somewhere in the commands issued. -/
theorem progress (is : List (In p)) (his : (reader p F).Along Fair (reader p F).reset is) :
    ∃ finished queue m, Progress F is finished queue m := by
  induction is using List.reverseRecOn with
  | nil => exact ⟨[], [], [], ⟨F.contents_reset, nofun, nofun⟩, .idle _ rfl, nofun, rfl, rfl⟩
  | append_singleton is i ih =>
    obtain ⟨his, hi, -⟩ := ((reader p F).along_append Fair is [i] _).1 his
    obtain ⟨finished, queue, m, h⟩ := ih his
    exact h.next hi

theorem done_notMem (h : Phase ((reader p F).run is) queue m) : .done ∉ m := by
  cases h with
  | idle => simp
  | send q qs k => exact q.done_notMem_sent k
  | stuck q qs m hf hq hc hm => exact hm
  | «end» q qs => exact q.done_notMem_sent q.words

/-- What has been seen of the packet of a long command is its beginning. -/
theorem seen_begins (h : Phase ((reader p F).run is) queue m) (hq : ∀ q ∈ queue, q.Long) :
    m <+: queue.flatMap Issued.output := by
  have hsent : ∀ (q : Issued p) (qs : List (Issued p)) (k : ℕ), k ≤ q.words →
      q.sent k <+: (q :: qs).flatMap Issued.output := fun q qs k hk => by
    have hrange : List.range k <+: List.range q.words := by
      obtain ⟨n, hn⟩ := Nat.exists_eq_add_of_le hk
      rw [hn, List.range_add]
      exact List.prefix_append _ _
    exact ((hrange.map _).trans (List.prefix_append _ _)).trans (List.prefix_append _ _)
  cases h with
  | idle => exact List.nil_prefix
  | send q qs k hf _ hk => exact hsent q qs k hk.le
  | stuck q qs m hf hshort => exact absurd (hq q List.mem_cons_self) hshort
  | «end» q qs => exact hsent q qs _ le_rfl

/-- While there are commands that are not done, what has been seen is short of their packets. -/
theorem Progress.length_lt (h : Progress F is finished queue m) {cs : List (Issued p)} (hcs : cs <+: issued F is)
    (hlong : ∀ q ∈ cs, q.Long) (hn : finished.length < cs.length) :
    (events F is).length < (cs.flatMap Issued.output).length ∧ ∃ q qs, queue = q :: qs ∧ q.Long := by
  rw [h.commands] at hcs
  obtain ⟨rest, rfl⟩ : finished <+: cs := List.prefix_of_prefix_length_le (List.prefix_append _ _) hcs hn.le
  have hrest : rest <+: queue := (List.prefix_append_right_inj _).1 hcs
  cases rest with
  | nil => simp at hn
  | cons q rest =>
    obtain ⟨qs, rfl⟩ := hrest
    have hq : q.Long := hlong q (by simp)
    refine ⟨?_, q, rest ++ qs, rfl, hq⟩
    have hm : m.length < q.output.length := by
      have hphase := h.phase
      cases hphase with
      | idle => simp [Issued.output]
      | send _ _ k hf _ hk => simp [Issued.output, Issued.sent]; omega
      | stuck _ _ _ hf hshort => exact absurd hq hshort
      | «end» => simp [Issued.output]
    rw [h.seen, List.flatMap_append, List.flatMap_cons]
    simp only [List.length_append]
    omega

/-- What has been seen of commands that are done is their packets. -/
theorem Progress.begins (h : Progress F is finished queue m) {cs : List (Issued p)} (hcs : cs <+: issued F is)
    (hn : cs.length ≤ finished.length) : cs.flatMap Issued.output <+: events F is := by
  obtain ⟨rest, rfl⟩ : cs <+: finished :=
    List.prefix_of_prefix_length_le (h.commands ▸ hcs) (List.prefix_append _ _) hn
  rw [h.seen, List.flatMap_append, List.append_assoc]
  exact List.prefix_append _ _

/-- A cycle to be waited for in `IDLE`. -/
def idles (s : State p F) : ℕ := if s.fsm = .idle then 1 else 0

/-- In a cycle in which the consumer is ready the reader leaves `IDLE`, or something is seen. -/
theorem Progress.rank (h : Progress F is finished queue m) {q : Issued p} {qs : List (Issued p)}
    (hqueue : queue = q :: qs) (hq : q.Long) (i : In p) :
    (((reader p F).run is).events i).length ≤ 1 ∧ idles (((reader p F).run is).next i) + (if i.ready then 1 else 0) ≤
      2 * (((reader p F).run is).events i).length + idles ((reader p F).run is) := by
  subst hqueue
  have hphase := h.phase
  -- each cycle an event, or one of the two idle cycles is spent
  cases hphase with
  | idle _ hf =>
    have hv : F.sourceValid ((reader p F).run is).cmdFifo = true := by
      rw [F.sourceValid_iff, h.queued.contents]
      simp
    have hevents : ((reader p F).run is).events i = [] := by
      simp [State.events, State.source, State.done, hf]
    have hnext : (((reader p F).run is).next i).fsm = .send := by simp [State.next, hf, hv]
    rw [hevents, idles, idles, hf, hnext]
    cases i.ready <;> simp
  | send _ _ k hf _ hk hc ha =>
    have hnext : (((reader p F).run is).next i).fsm ≠ .idle := by
      simp only [State.next, hf]
      split_ifs <;> simp
    rw [(events_word h.queued hf hq hk hc ha).2, idles, idles, if_neg hnext, hf]
    cases i.ready <;> simp
  | stuck _ _ _ hf hshort => exact absurd hq hshort
  | «end» _ _ hf =>
    have hevents : ((reader p F).run is).events i = [.done] := by
      simp [State.events, State.source, State.done, hf]
    have hnext : (((reader p F).run is).next i).fsm = .idle := by simp [State.next, hf]
    rw [hevents, idles, idles, hf, hnext]
    cases i.ready <;> simp

/-- Long commands are done after so many cycles in which the consumer is ready. -/
theorem commands_end {cs : List (Issued p)} (hlong : ∀ q ∈ cs, q.Long) (js : List (In p)) (is : List (In p))
    (his : (reader p F).Along Fair (reader p F).reset (is ++ js)) (hcs : cs <+: issued F is)
    (hn : 2 * ((cs.flatMap Issued.output).length - (events F is).length) + idles ((reader p F).run is) ≤
      js.countP (·.ready)) : cs.flatMap Issued.output <+: events F (is ++ js) := by
  induction js generalizing is with
  | nil =>
    rw [List.append_nil] at his ⊢
    obtain ⟨finished, queue, m, h⟩ := progress is his
    rcases lt_or_ge finished.length cs.length with hlt | hge
    · have := (h.length_lt hcs hlong hlt).1
      rw [List.countP_nil] at hn
      omega
    · exact h.begins hcs hge
  | cons i js ih =>
    obtain ⟨finished, queue, m, h⟩ := progress is (((reader p F).along_append Fair is _ _).1 his).1
    rcases lt_or_ge finished.length cs.length with hlt | hge
    · obtain ⟨hevents, q, qs, hqueue, hq⟩ := h.length_lt hcs hlong hlt
      obtain ⟨hone, hrank⟩ := h.rank hqueue hq i
      rw [List.append_cons] at his ⊢
      refine ih (is ++ [i]) his (hcs.trans (issued_concat is i ▸ List.prefix_append _ _)) ?_
      rw [List.countP_cons] at hn
      rw [events_concat, run_concat, List.length_append]
      omega
    · exact (h.begins hcs hge).trans (events_append is _ ▸ List.prefix_append _ _)

end Run

/-! ## What is queued is sent -/

/-- In a run, the reader sends the packets of the commands issued, in order; and all of them, each
followed by `done`, once the consumer has been ready often enough. -/
structure Sends (F : SyncFIFO (Command p) p.nslots) (is : List (In p)) : Prop where
  inOrder : events F is <+: (issued F is).flatMap Issued.output
  ends : ∀ js, (reader p F).Along Fair (reader p F).reset (is ++ js) →
    2 * ((issued F is).flatMap Issued.output).length + 1 ≤ js.countP (·.ready) →
      (issued F is).flatMap Issued.output <+: events F (is ++ js)

/-- Each packet is followed by one `done`. -/
theorem count_done (qs : List (Issued p)) : (qs.flatMap Issued.output).count .done = qs.length := by
  induction qs with
  | nil => rfl
  | cons q qs ih =>
    rw [List.flatMap_cons, List.count_append, ih, Issued.output, List.count_append,
      List.count_eq_zero.2 (q.done_notMem_sent q.words)]
    simp [add_comm]

/-- A cycle in which software does nothing. -/
def quiet : In p := { start := none, ready := true, write := none }

theorem fair_quiet (s : State p F) : Fair s quiet := by
  refine ⟨fun q h => ?_, fun w h => by cases h⟩
  unfold State.issues at h
  split_ifs at h
  cases h

theorem along_quiet (s : State p F) (n : ℕ) : (reader p F).Along Fair s (List.replicate n quiet) := by
  induction n generalizing s with
  | zero => trivial
  | succ n ih => exact ⟨fair_quiet s, ih _⟩

theorem issues_quiet (s : State p F) (n : ℕ) :
    (reader p F).log (fun s i => (s.issues i).toList) s (List.replicate n quiet) = [] := by
  induction n generalizing s with
  | zero => rfl
  | succ n ih =>
    rw [List.replicate_succ, Machine.log_cons, ih, State.issues]
    split_ifs <;> rfl

/-- What is queued is sent iff all of it has at least four bytes. -/
theorem sends_iff (is : List (In p)) (his : (reader p F).Along Fair (reader p F).reset is) :
    Sends F is ↔ ∀ q ∈ issued F is, q.Long := by
  refine ⟨fun h => ?_, fun h => ⟨?_, fun js hjs hn => ?_⟩⟩
  · let n := 2 * ((issued F is).flatMap Issued.output).length + 1
    have hrun : (reader p F).Along Fair (reader p F).reset (is ++ List.replicate n quiet) :=
      ((reader p F).along_append Fair is _ _).2 ⟨his, along_quiet _ n⟩
    have hends := h.ends _ hrun (le_of_eq (by rw [List.countP_replicate]; rfl))
    obtain ⟨finished, queue, m, hp⟩ := progress _ hrun
    have hcount := hends.sublist.count_le .done
    rw [count_done, hp.seen, List.count_append, count_done, List.count_eq_zero.2 (done_notMem hp.phase)] at hcount
    have hbegins : issued F is <+: finished :=
      List.prefix_of_prefix_length_le (issued_append (F := F) is _ ▸ List.prefix_append _ _)
        (hp.commands ▸ List.prefix_append _ _) hcount
    exact fun q hq => hp.long q (hbegins.subset hq)
  · obtain ⟨finished, queue, m, hp⟩ := progress is his
    rw [hp.seen, hp.commands, List.flatMap_append]
    exact (List.prefix_append_right_inj _).2
      (seen_begins hp.phase fun q hq => h q (hp.commands ▸ List.mem_append_right _ hq))
  · refine commands_end h js is hjs List.prefix_rfl ?_
    have : idles ((reader p F).run is) ≤ 1 := by
      unfold idles
      split_ifs <;> simp
    omega

/-- A command for slot 0 of the wishbone interface, and `n` cycles in which the consumer is ready. -/
def sendFrom (length : BitVec (lengthbits (wishboneParams 2 .big))) (n : ℕ) : List (In (wishboneParams 2 .big)) :=
  { quiet with start := some ⟨0, length⟩ } :: List.replicate n quiet

theorem issued_sendFrom (length : BitVec (lengthbits (wishboneParams 2 .big))) (n : ℕ) :
    issued (SyncFIFO.queue _ _) (sendFrom length n) = [(⟨0, length⟩, fun _ => 0)] := by
  unfold issued sendFrom
  rw [Machine.log_cons, issues_quiet]
  rfl

theorem along_sendFrom {length : BitVec (lengthbits (wishboneParams 2 .big))} (h1 : 1 ≤ length.toNat)
    (h2 : length.toNat ≤ 1528) (n : ℕ) : (reader (wishboneParams 2 .big) (SyncFIFO.queue _ _)).Along Fair
      (reader _ _).reset (sendFrom length n) := by
  refine ⟨⟨fun q hq => ?_, fun w hw => by cases hw⟩, along_quiet _ n⟩
  obtain rfl : (⟨0, length⟩, fun _ => 0) = q := Option.some.inj hq
  exact ⟨Nat.two_pos, h1, h2⟩

/-- Five bytes are sent. -/
theorem sends_five : Sends (SyncFIFO.queue _ _) (sendFrom 5 4) :=
  (sends_iff _ (along_sendFrom (by decide +kernel) (by decide +kernel) 4)).2 fun q hq => by
    rw [issued_sendFrom, List.mem_singleton] at hq
    subst hq
    decide +kernel

/-- One byte is not: the word that should be the last one is not marked. -/
theorem one_not_sent : (reader (wishboneParams 2 .big) (SyncFIFO.queue _ _)).Along Fair (reader _ _).reset
    (sendFrom 1 2) ∧ ¬ Sends (SyncFIFO.queue _ _) (sendFrom 1 2) := by
  refine ⟨along_sendFrom (by decide +kernel) (by decide +kernel) 2, fun h => ?_⟩
  have hseen := h.inOrder
  rw [issued_sendFrom] at hseen
  revert hseen
  decide +kernel

end LiteEth.Mac.Reader
