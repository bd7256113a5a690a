/-
The replies that `LiteEthARP` sends: receiver, table and transmitter together. The table forwards
the receiver's fields while it waits for the transmitter, so a reply names the host that asked only
as long as no later frame is shifted into the receiver's header register.
-/
import LiteEth.Core.Arp
import LiteEth.Rtl.Machine

namespace LiteEth.Core.Arp.Link

open LiteEth.Rtl Table

variable (p : Params) (tp : Table.Params) (rt : WaitTimer (tp.clkFreq / 10)) (ct : WaitTimer (tp.clkFreq * 10))
  (P : Packetizer Header p.dw) (D : Depacketizer Header p.dw)

/-- The inputs of one cycle: the beat from the MAC (if valid), the MAC's `source.ready`, and the
requester's side of the table. -/
structure In (dw : Nat) where
  sink : Option (Beat dw)
  sourceReady : Bool
  requestValid : Bool
  requestIp : BitVec 32
  responseReady : Bool

/-- The three modules, and the addresses of the hosts whose requests were received so far. -/
structure State where
  rx : Rx.State p D
  table : Table.State tp rt ct
  tx : Tx.State p P
  received : List (BitVec 32 × BitVec 48)

variable {p tp rt ct P D}

/-- `table.source`, which is `tx.sink`. -/
def State.record (s : State p tp rt ct P D) : TableRecord := s.table.source s.rx.source

/-- What the table sees: the receiver's record, the transmitter's `ready`, and the requests of the environment. -/
def State.tableIn (s : State p tp rt ct P D) (i : In p.dw) : Table.In :=
  { sinkValid := s.rx.sourceValid, sink := s.rx.source
    sourceReady := s.tx.sinkReady s.record i.sourceReady
    requestValid := i.requestValid, requestIp := i.requestIp, responseReady := i.responseReady }

/-- The host whose valid request for our address is in the receiver in this cycle. -/
def State.asker (s : State p tp rt ct P D) : Option (BitVec 32 × BitVec 48) :=
  if s.rx.fsm = .check ∧ Rx.forUs p s.rx.header ∧ s.rx.header.opcode = opcodeRequest then
    some (s.rx.header.senderIp, s.rx.header.senderMac)
  else none

/-- One cycle of receiver, table and transmitter; `received` records the requests. -/
def State.next (s : State p tp rt ct P D) (i : In p.dw) : State p tp rt ct P D :=
  { rx := s.rx.next i.sink
    table := s.table.next (s.tableIn i)
    tx := s.tx.next s.table.sourceValid s.record i.sourceReady
    received := s.received ++ s.asker.toList }

variable (p tp rt ct P D) in
/-- `LiteEthARP` as a clocked machine. -/
def arp : Machine (In p.dw) (State p tp rt ct P D) where
  reset := { rx := .init p D, table := .init tp rt ct, tx := .init p P, received := [] }
  step := State.next

/-- The frame at `source`, if a beat of one is presented: the ARP header that is being sent, or
would be from this beat on, and the destination address of the frame. -/
def State.frame (s : State p tp rt ct P D) : Option (Header × BitVec 48) :=
  (s.tx.source s.record).map fun _ =>
    ((P.header s.tx.packetizer).getD (Tx.header p s.record), Tx.targetMac p s.record)

/-- A reply that is being sent answers one received request, in its header and by its destination. -/
def Answers (s : State p tp rt ct P D) : Prop :=
  ∀ h dst, s.frame = some (h, dst) → h.opcode = opcodeReply →
    (h.targetIp, h.targetMac) ∈ s.received ∧ dst = h.targetMac

/-- A header beat of a later frame is shifted in while the table sends a reply. -/
def Overtakes (s : State p tp rt ct P D) (i : In p.dw) : Prop :=
  s.table.fsm = .sendReply ∧ D.inHeader s.rx.depacketizer = true ∧ i.sink.isSome = true

instance (s : State p tp rt ct P D) (i : In p.dw) : Decidable (Overtakes s i) := inferInstanceAs (Decidable (_ ∧ _))

/-! ## The invariant -/

/-- A receiver in `CHECK` holds its frame; a reply names the host in the receiver's header; the
transmitter is busy only for the table, with a header of what the table asks for. -/
structure Inv (s : State p tp rt ct P D) : Prop where
  check : s.rx.fsm = .check → D.inHeader s.rx.depacketizer = false ∧ (s.rx.valid = true → Rx.forUs p s.rx.header = true)
  reply : s.table.fsm = .sendReply → (s.rx.header.senderIp, s.rx.header.senderMac) ∈ s.received
  idle : s.tx.fsm = .idle → P.header s.tx.packetizer = none
  send : s.tx.fsm = .send → s.table.fsm = .sendReply ∨ s.table.fsm = .sendRequest
  sampled : ∀ h, P.header s.tx.packetizer = some h →
    (s.table.fsm = .sendReply → h = Tx.header p s.record) ∧
    (s.table.fsm = .sendRequest → h.opcode = opcodeRequest)

theorem record_sendReply {s : State p tp rt ct P D} (h : s.table.fsm = .sendReply) : s.record =
    { reply := true, request := false, ipAddress := s.rx.header.senderIp, macAddress := s.rx.header.senderMac } := by
  rw [State.record, Table.State.source, h]; rfl

theorem record_sendRequest {s : State p tp rt ct P D} (h : s.table.fsm = .sendRequest) : s.record =
    { reply := false, request := true, ipAddress := s.table.requestIpAddress, macAddress := 0 } := by
  rw [State.record, Table.State.source, h]; rfl

theorem Inv.answers {s : State p tp rt ct P D} (h : Inv s) : Answers s := by
  intro hd dst hfr hop
  obtain ⟨x, hx, heq⟩ := Option.map_eq_some_iff.1 hfr
  cases heq
  have hs : s.tx.fsm = .send := by
    by_contra hn
    rw [Tx.State.source, if_neg hn] at hx
    cases hx
  rcases h.send hs with ht | ht
  · have hh : (P.header s.tx.packetizer).getD (Tx.header p s.record) = Tx.header p s.record := by
      cases hp : P.header s.tx.packetizer with
      | none => rfl
      | some h' => exact (h.sampled h' hp).1 ht
    rw [hh, record_sendReply ht]
    exact ⟨h.reply ht, rfl⟩
  · -- the header of a request
    have hh : ((P.header s.tx.packetizer).getD (Tx.header p s.record)).opcode = opcodeRequest := by
      cases hp : P.header s.tx.packetizer with
      | none => rw [record_sendRequest ht]; rfl
      | some h' => exact (h.sampled h' hp).2 ht
    rw [hh] at hop
    cases hop

/-! ## What a step keeps -/

section Step

variable {s : State p tp rt ct P D} {i : In p.dw}

theorem header_next (h : D.inHeader s.rx.depacketizer = false ∨ i.sink = none) :
    (s.next i).rx.header = s.rx.header := D.header_step _ _ _ h

/-- A frame goes to `CHECK` when its header is complete, and stays where it is. -/
theorem check_next (h : (s.next i).rx.fsm = .check) :
    D.inHeader (s.next i).rx.depacketizer = false ∧
      ((s.next i).rx.valid = true → Rx.forUs p (s.next i).rx.header = true) := by
  have h' : (s.rx.next i.sink).fsm = .check := h
  obtain ⟨-, -, hin, hh, hv⟩ := Rx.check_next h'
  refine ⟨hin, fun hvalid => ?_⟩
  show Rx.forUs p (s.rx.next i.sink).header = true
  rw [hh]
  exact hv hvalid

/-- The receiver keeps the addresses for the cycle after the one in which it presents them. -/
theorem fields_kept (is : List (In p.dw)) (i : In p.dw)
    (hv : ((arp p tp rt ct P D).run is).rx.sourceValid = true) :
    (((arp p tp rt ct P D).run is).next i).rx.header = ((arp p tp rt ct P D).run is).rx.header := by
  have hcheck : ((arp p tp rt ct P D).run is).rx.fsm = .check →
      D.inHeader ((arp p tp rt ct P D).run is).rx.depacketizer = false :=
    (arp p tp rt ct P D).runFrom_inv
      (P := fun s => s.rx.fsm = .check → D.inHeader s.rx.depacketizer = false) (C := fun _ _ => True)
      (fun _ _ _ _ h => (check_next h).1) is _ (fun h => by cases h) (Machine.along_trivial _ _ _)
  rw [Rx.State.sourceValid, Bool.and_eq_true, beq_iff_eq] at hv
  exact header_next (.inl (hcheck hv.1))

/-- The table goes to `SEND_REPLY` in the cycle of `CHECK` of a request, and stays there without
another frame coming in. -/
theorem Inv.reply_next (h : Inv s) (hc : ¬ Overtakes s i) (hf : (s.next i).table.fsm = .sendReply) :
    ((s.next i).rx.header.senderIp, (s.next i).rx.header.senderMac) ∈ (s.next i).received := by
  have ht := turn s.table (s.tableIn i)
  have hf' : (s.table.drive (s.tableIn i)).fsm = .sendReply := hf
  generalize s.table.drive (s.tableIn i) = d at ht hf'
  cases ht with
  -- the request is being heard in this cycle, with its fields still in place
  | hear _ hv hr =>
    have hv' : s.rx.fsm = .check ∧ s.rx.valid = true := by simpa [State.tableIn, Rx.State.sourceValid] using hv
    obtain ⟨hin, hus⟩ := h.check hv'.1
    have hop : s.rx.header.opcode = opcodeRequest := by
      have hr' : (s.rx.sourceValid && s.rx.header.opcode == opcodeRequest) = true := hr
      rw [Bool.and_eq_true, beq_iff_eq] at hr'
      exact hr'.2
    rw [header_next (.inl hin)]
    refine List.mem_append_right _ ?_
    rw [State.asker, if_pos ⟨hv'.1, hus hv'.2, hop⟩]
    exact List.mem_singleton.2 rfl
  | stay hu hck hs =>
    have hin : D.inHeader s.rx.depacketizer = false ∨ i.sink = none := by
      by_contra hn
      rw [not_or, Bool.not_eq_false, ← ne_eq, Option.ne_none_iff_isSome] at hn
      exact hc ⟨hf', hn.1, hn.2⟩
    rw [header_next hin]
    exact List.mem_append_left _ (h.reply hf')
  | _ => cases hf'

/-- The table waits in `SEND_REPLY` or `SEND_REQUEST` until the transmitter has sent the frame. -/
theorem table_waits (hf : s.table.fsm = .sendReply ∨ s.table.fsm = .sendRequest)
    (hr : s.tx.sinkReady s.record i.sourceReady = false) : (s.next i).table.fsm = s.table.fsm := by
  have hr' : (s.tableIn i).sourceReady = false := hr
  show (s.table.drive _).fsm = _
  rcases hf with hf | hf <;>
    simp only [Table.State.drive, hf, hr', Bool.false_eq_true, if_false, Table.State.hold]

theorem sinkReady_idle (hf : s.tx.fsm = .idle) : s.tx.sinkReady s.record i.sourceReady = false := by
  simp [Tx.State.sinkReady, Tx.State.source, hf, isLast]

theorem Inv.send_next (h : Inv s) (hf : (s.next i).tx.fsm = .send) :
    (s.next i).table.fsm = .sendReply ∨ (s.next i).table.fsm = .sendRequest := by
  have hf' : (s.tx.next s.table.sourceValid s.record i.sourceReady).fsm = .send := hf
  unfold Tx.State.next at hf'
  cases ht : s.tx.fsm with
  | idle =>
    rw [ht] at hf'
    dsimp only at hf'
    split_ifs at hf' with hv
    have hs : s.table.fsm = .sendReply ∨ s.table.fsm = .sendRequest := by
      simpa [Table.State.sourceValid] using hv
    rwa [table_waits hs (sinkReady_idle ht)]
  | send =>
    rw [ht] at hf'
    dsimp only at hf'
    split_ifs at hf' with hr
    rw [table_waits (h.send ht) (by simpa using hr)]
    exact h.send ht

/-- The packetizer's header after the cycle. -/
theorem sent_header : P.header (s.next i).tx.packetizer =
    if (P.source s.tx.packetizer (Tx.header p s.record) s.tx.pad).isSome && (s.tx.fsm == .send && i.sourceReady) then
      (if isLast (P.source s.tx.packetizer (Tx.header p s.record) s.tx.pad) then none
        else some ((P.header s.tx.packetizer).getD (Tx.header p s.record)))
    else P.header s.tx.packetizer := P.header_step _ _ _ _

/-- The transmitter returns to `IDLE` with its packetizer. -/
theorem Inv.idle_next (h : Inv s) (hf : (s.next i).tx.fsm = .idle) : P.header (s.next i).tx.packetizer = none := by
  have hf' : (s.tx.next s.table.sourceValid s.record i.sourceReady).fsm = .idle := hf
  unfold Tx.State.next at hf'
  rw [sent_header]
  cases ht : s.tx.fsm with
  | idle => simpa using h.idle ht
  | send =>
    rw [ht] at hf'
    dsimp only at hf'
    split_ifs at hf' with hr
    rw [Tx.State.sinkReady, Tx.State.source, if_pos ht, Bool.and_eq_true] at hr
    simp [isSome_of_isLast hr.1, hr.1, hr.2]

/-- While a frame is being sent, its header is the one sampled or the one of this cycle. -/
theorem Inv.sampled_next (h : Inv s) (hc : ¬ Overtakes s i) (hd : Header)
    (hh : P.header (s.next i).tx.packetizer = some hd) :
    ((s.next i).table.fsm = .sendReply → hd = Tx.header p (s.next i).record) ∧
      ((s.next i).table.fsm = .sendRequest → hd.opcode = opcodeRequest) := by
  -- a header is sampled while the transmitter sends, and has not been let go
  rw [sent_header] at hh
  have hs : s.tx.fsm = .send := by
    cases ht : s.tx.fsm with
    | idle => rw [ht] at hh; simp [h.idle ht] at hh
    | send => rfl
  have hhd : hd = (P.header s.tx.packetizer).getD (Tx.header p s.record) := by
    split_ifs at hh with h1 h2
    · exact (Option.some.inj hh).symm
    · rw [hh]; rfl
  -- not the last beat of the frame, for that one would have cleared the sample
  have hr : s.tx.sinkReady s.record i.sourceReady = false := by
    rw [← Bool.not_eq_true, Tx.State.sinkReady, Tx.State.source, if_pos hs, Bool.and_eq_true]
    rintro ⟨hl, hr⟩
    simp [isSome_of_isLast hl, hl, hs, hr] at hh
  rw [table_waits (h.send hs) hr]
  -- a reply reads the record, which stays; a request reads the table alone
  constructor
  · intro hf
    have hin : D.inHeader s.rx.depacketizer = false ∨ i.sink = none := by
      by_contra hn
      rw [not_or, Bool.not_eq_false, ← ne_eq, Option.ne_none_iff_isSome] at hn
      exact hc ⟨hf, hn.1, hn.2⟩
    have hrec : (s.next i).record = s.record := by
      rw [record_sendReply hf, record_sendReply ((table_waits (.inl hf) hr).trans hf), header_next hin]
    rw [hrec, hhd]
    cases hp : P.header s.tx.packetizer with
    | none => rfl
    | some h' => exact (h.sampled h' hp).1 hf
  · intro hf
    rw [hhd]
    cases hp : P.header s.tx.packetizer with
    | none => rw [record_sendRequest hf]; rfl
    | some h' => exact (h.sampled h' hp).2 hf

theorem Inv.next (h : Inv s) (hc : ¬ Overtakes s i) : Inv (s.next i) :=
  ⟨check_next, h.reply_next hc, h.idle_next, h.send_next, h.sampled_next hc⟩

end Step

/-- In every run in which no later frame comes in while the table sends a reply, each reply answers
a received request. -/
theorem arp_replies_answer (is : List (In p.dw))
    (hc : (arp p tp rt ct P D).Along (fun s i => ¬ Overtakes s i) (arp p tp rt ct P D).reset is) :
    Answers ((arp p tp rt ct P D).run is) := by
  refine ((arp p tp rt ct P D).runFrom_inv (P := Inv) (fun s i h hc => h.next hc) is _ ?_ hc).answers
  refine ⟨fun h => (by cases h), fun h => (by cases h), fun _ => P.header_reset, fun h => (by cases h), ?_⟩
  intro h hh
  rw [show P.header (arp p tp rt ct P D).reset.tx.packetizer = none from P.header_reset] at hh
  cases hh

/-- Our host, with 8-bit streams. -/
abbrev ours : Params := { macAddress := 0x12345678abcd, ipAddress := 0x12345678, dw := 8 }

/-- `LiteEthARP` of our host. -/
abbrev ourArp : Machine (In 8) (State ours ⟨10, 8⟩ (.down 1) (.down 100) (.words 28 Header.byte)
    (.words 28 (by decide) Header.ofBytes)) :=
  arp ours ⟨10, 8⟩ (.down 1) (.down 100) (.words 28 Header.byte) (.words 28 (by decide) Header.ofBytes)

/-- A cycle without a request for the table. -/
def cycle (sink : Option (Beat 8)) (sourceReady : Bool) : In 8 :=
  { sink := sink, sourceReady := sourceReady, requestValid := false, requestIp := 0, responseReady := false }

/-- The cycles that bring in the header of a frame. -/
def headerIn (h : Header) (sourceReady : Bool) : List (In 8) :=
  (List.range 28).map fun k => cycle (some (.ofWord (h.byte k))) sourceReady

/-- The cycles of a frame with one byte of padding, which is held for the three cycles the receiver
needs. -/
def frameIn (h : Header) (sourceReady : Bool) : List (In 8) :=
  headerIn h sourceReady ++ List.replicate 3 (cycle (some ⟨0, 1, 0, true⟩) sourceReady)

/-- An ARP packet for our address. -/
def packetTo (opcode : BitVec 16) (senderMac : BitVec 48) (senderIp : BitVec 32) : Header :=
  { hwtype := hwtypeEthernet, proto := protoIp, hwsize := 6, protosize := 4, opcode := opcode
    senderMac := senderMac, senderIp := senderIp, targetMac := 0, targetIp := ours.ipAddress }

theorem arp_replies_answer_two_requests :
    Answers (ourArp.run (frameIn (packetTo opcodeRequest 7 5) true ++ List.replicate 50 (cycle none true) ++
      frameIn (packetTo opcodeRequest 9 8) true ++ List.replicate 4 (cycle none true))) := by
  have hc : ourArp.Along (fun s i => ¬ Overtakes s i) ourArp.reset
      (frameIn (packetTo opcodeRequest 7 5) true ++ List.replicate 50 (cycle none true) ++
        frameIn (packetTo opcodeRequest 9 8) true ++ List.replicate 4 (cycle none true)) := by decide +kernel
  exact arp_replies_answer _ hc

/-- While the transmitter is blocked, the header of another frame follows the one of a request: the
reply goes to the sender of that frame, which asked nothing. -/
theorem arp_replies_to_another :
    ¬ Answers (ourArp.run (frameIn (packetTo opcodeRequest 7 5) false ++ headerIn (packetTo opcodeReply 9 8) false ++
      [cycle none true])) := by
  intro h
  exact absurd (h (Tx.header ours { reply := true, request := false, ipAddress := 8, macAddress := 9 }) 9
    (by decide +kernel) rfl).1 (by decide +kernel)

end LiteEth.Core.Arp.Link
