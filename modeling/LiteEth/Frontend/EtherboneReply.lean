/-
Which host gets the response to a read. The address a response goes to is not stored with the read:
it is the one of the last packet that began at the sink, so that it is the address of the host that
asked as long as no packet of another host begins while the read is in flight.
-/
import LiteEth.Frontend.EtherboneRecord

namespace LiteEth.Frontend.Etherbone

open LiteEth.Rtl Receiver

section Pending

variable {τ : Type} {F : PacketFIFO (Word τ) Word.last} {s : Receiver.State F}

/-- The beats that the receiver is going to emit for the words it stores. -/
def Receiver.State.pending (s : Receiver.State F) : List (MmapBeat τ) := s.ctrl.beats (F.contents s.fifo)

/-- A beat that is pending after a cycle was pending before, or is made with the word that came in. -/
theorem mem_pending_next {i : Receiver.In τ} {b : MmapBeat τ} (hb : b ∈ (s.next i).pending) :
    b ∈ s.pending ∨ ∃ w, i.sink = some w ∧ (b.we = false → b.addr.tag = w.data.tag) := by
  obtain ⟨ws, -, hcont, hlog, -⟩ := cycle_words blind_beat s i
  rw [State.pending, hcont, beats_append] at hb
  rcases List.mem_append.1 hb with h | h
  · left
    show b ∈ s.ctrl.logs Ctrl.beat (F.contents s.fifo)
    rw [hlog]
    exact List.mem_append_right _ h
  · right
    obtain ⟨w, hw, -, htag⟩ := mem_beats h
    refine ⟨w, ?_, htag⟩
    rw [State.accepts, Option.mem_toList, PacketFIFO.pushed] at hw
    split_ifs at hw
    exact hw

/-- The beat at `source` of a receiver in `RECEIVE_READS` is the first one pending. -/
theorem source_reads (hc : s.ctrl.fsm = .receiveReads) {b : MmapBeat τ} (hb : s.source = some b) :
    ∃ w ws, F.contents s.fifo = w :: ws ∧ b = s.ctrl.readBeat w ∧ b ∈ s.pending := by
  rw [State.source, Ctrl.source, hc] at hb
  obtain ⟨w, hw, rfl⟩ := Option.map_eq_some_iff.1 hb
  obtain ⟨ws, hws⟩ := F.source_eq _ _ hw
  refine ⟨w, ws, hws, rfl, ?_⟩
  rw [State.pending, hws, beats_cons, Ctrl.retBase, if_neg (by simp [hc])]
  exact List.mem_append_left _ (by simp [Ctrl.beat, Ctrl.source, hc])

/-- A read is emitted in `RECEIVE_READS` only. -/
theorem reads_of_source {b : MmapBeat τ} (hb : s.source = some b) (hwe : b.we = false) :
    s.ctrl.fsm = .receiveReads := by
  rw [State.source, Ctrl.source] at hb
  cases hf : s.ctrl.fsm with
  | receiveReads => rfl
  | receiveWrites =>
    rw [hf] at hb
    obtain ⟨w, -, rfl⟩ := Option.map_eq_some_iff.1 hb
    cases hwe
  | _ => rw [hf] at hb; cases hb

/-- A receiver in `RECEIVE_READS` stays there until the last read is taken. -/
theorem next_reads (hc : s.ctrl.fsm = .receiveReads) (i : Receiver.In τ)
    (hlast : ∀ b, s.source = some b → i.sourceReady = true → b.last = false) :
    (s.next i).ctrl.fsm = .receiveReads := by
  show (s.ctrl.next (F.source s.fifo) i.sourceReady).fsm = _
  rw [State.source, Ctrl.source, hc] at hlast
  rw [Ctrl.next.eq_def, hc]
  cases hw : F.source s.fifo with
  | none => exact hc
  | some w =>
    cases hr : i.sourceReady with
    | false => exact hc
    | true =>
      have := hlast _ (by rw [hw]; rfl) hr
      simp [this]

/-- A word stays first until it is taken. -/
theorem next_head {w : Word τ} {ws : List (Word τ)} (hws : F.contents s.fifo = w :: ws) (i : Receiver.In τ)
    (hstay : F.source s.fifo = none ∨ s.ctrl.ready i.sourceReady = false) :
    ∃ ws', F.contents (s.next i).fifo = w :: ws' := by
  show ∃ ws', F.contents (F.step s.fifo i.sink (s.ctrl.ready i.sourceReady)) = w :: ws'
  have hkeep : ((F.source s.fifo).isSome && s.ctrl.ready i.sourceReady) = false := by
    rcases hstay with h | h
    · rw [h]; rfl
    · rw [h, Bool.and_false]
  rw [F.contents_step, hkeep, hws]
  exact ⟨_, rfl⟩

end Pending

namespace RecordMaster

variable {e : Endianness} {F : PacketFIFO (Word (BitVec 32)) Word.last}
variable {G : PacketFIFO (MmapBeat (BitVec 32)) MmapBeat.last}
variable {D : Depacketizer RecordHeader 32} {P : Packetizer RecordHeader 32}
variable {s : State F G D P} {i : In}

/-! ## Packets and hosts -/

/-- All beats of a packet come from the host of the first, whose address has been saved. -/
def OneHost (s : State F G D P) (i : In) : Prop := ∀ x ∈ i.sink, s.first = false → x.2 = s.lastIpAddress

/-- The responses that stay in the sender in this cycle. -/
def State.kept (e : Endianness) (s : State F G D P) (i : In) : List (MmapBeat (BitVec 32)) :=
  if s.sender.response.isSome && s.sender.fifoReady (s.senderReady e i) then (G.contents s.sender.fifo).tail
  else G.contents s.sender.fifo

/-- A packet that begins in this cycle comes from the host of every read that is pending and of every
response that is stored. -/
def BeginsAlone (e : Endianness) (s : State F G D P) (i : In) : Prop :=
  ∀ x ∈ s.taken i, s.first = true →
    (∀ b ∈ s.receiver.pending, b.we = false → b.addr.tag = x.2) ∧ ∀ m ∈ s.kept e i, m.data.tag = x.2

/-- What is presented at `source` goes to the host whose word was the address read for it. -/
def Answers (e : Endianness) (s : State F G D P) : Prop :=
  ∀ r ∈ s.source e, ∀ m ∈ s.sender.response, r.ipAddress = m.data.tag

instance (s : State F G D P) (i : In) : Decidable (OneHost s i) :=
  decidable_of_iff (∀ x ∈ i.sink, s.first = false → x.2 = s.lastIpAddress) Iff.rfl

instance (s : State F G D P) (i : In) : Decidable (BeginsAlone e s i) :=
  decidable_of_iff (∀ x ∈ s.taken i, s.first = true →
    (∀ b ∈ s.receiver.pending, b.we = false → b.addr.tag = x.2) ∧ ∀ m ∈ s.kept e i, m.data.tag = x.2) Iff.rfl

instance (s : State F G D P) : Decidable (Answers e s) :=
  decidable_of_iff (∀ r ∈ s.source e, ∀ m ∈ s.sender.response, r.ipAddress = m.data.tag) Iff.rfl

theorem nextIpAddress_eq (s : State F G D P) (i : In) :
    s.nextIpAddress i = s.lastIpAddress ∨ ∃ x ∈ s.taken i, s.first = true ∧ s.nextIpAddress i = x.2 := by
  unfold State.nextIpAddress
  cases ht : s.taken i with
  | none => exact .inl rfl
  | some x =>
    cases hf : s.first with
    | false => exact .inl rfl
    | true => exact .inr ⟨x, rfl, rfl, rfl⟩

/-- The address saved is the one that came with the last beat. -/
theorem nextHost_eq (hh : s.host = s.lastIpAddress) (hone : OneHost s i) : s.nextHost i = s.nextIpAddress i := by
  unfold State.nextHost State.nextIpAddress
  cases ht : s.taken i with
  | none => exact hh
  | some x =>
    cases hf : s.first with
    | true => rfl
    | false =>
      refine hone x ?_ hf
      rw [State.taken] at ht
      split_ifs at ht
      exact ht

/-! ## The invariant -/

/-- A master that reads is at reads of the receiver, and data that is being sent was read from the
address that is still the first word of the receiver. -/
structure Reading (s : State F G D P) : Prop where
  readData : s.master.fsm = .readData → s.receiver.ctrl.fsm = .receiveReads
  sendData : s.master.fsm = .sendData → s.receiver.ctrl.fsm = .receiveReads ∧
    ∃ w ws, F.contents s.receiver.fifo = w :: ws ∧ s.master.data.tag = w.data.tag

/-- Everything in flight belongs to the host whose address is saved. -/
structure Inv (s : State F G D P) : Prop where
  host : s.host = s.lastIpAddress
  pending : ∀ b ∈ s.receiver.pending, b.we = false → b.addr.tag = s.lastIpAddress
  stored : ∀ m ∈ G.contents s.sender.fifo, m.data.tag = s.lastIpAddress
  reading : Reading s

theorem inv_reset : Inv (State.init F G D P) where
  host := rfl
  pending b hb := by
    rw [Receiver.State.pending, State.init, F.contents_reset] at hb
    cases hb
  stored m hm := by
    rw [State.init, Sender.State.init, G.contents_reset] at hm
    cases hm
  reading := ⟨fun h => (by cases h), fun h => (by cases h)⟩

/-- `receiver.source.ready` is low unless the master is writing or sends what it has read. -/
theorem sourceReady_eq (s : State F G D P) (i : In) :
    (s.receiverIn e i).sourceReady = s.master.sinkReady s.receiver.source i.ack (G.sinkReady s.sender.fifo) := rfl

theorem Reading.next (h : Reading s) (i : In) : Reading (s.next e i) := by
  have hready := sourceReady_eq (e := e) s i
  rw [Master.State.sinkReady] at hready
  cases hf : s.master.fsm with
  | idle =>
    rw [hf] at hready
    constructor
    · intro h'
      show (s.receiver.next (s.receiverIn e i)).ctrl.fsm = _
      simp only [State.next, Master.State.next, hf] at h'
      cases hb : s.receiver.source with
      | none => simp [hb] at h'
      | some b =>
        rw [hb] at hready
        refine next_reads (reads_of_source hb ?_) _ fun b' _ hr => ?_
        · simpa [hb] using h'
        · rw [hready] at hr
          cases hr
    · intro h'
      simp only [State.next, Master.State.next, hf] at h'
      split_ifs at h'
  | writeData =>
    constructor <;>
    · intro h'
      simp only [State.next, Master.State.next, hf] at h'
      split_ifs at h'
  | readData =>
    rw [hf] at hready
    have hc := h.readData hf
    have hnext : (s.receiver.next (s.receiverIn e i)).ctrl.fsm = .receiveReads :=
      next_reads hc _ fun b _ hr => by rw [hready] at hr; cases hr
    refine ⟨fun _ => hnext, fun h' => ⟨hnext, ?_⟩⟩
    simp only [State.next, Master.State.next, hf] at h' ⊢
    cases hb : s.receiver.source with
    | none => simp [hb, Master.State.bus, hf] at h'
    | some b =>
      obtain ⟨w, ws, hws, rfl, -⟩ := source_reads hc hb
      obtain ⟨ws', hws'⟩ := next_head hws (s.receiverIn e i) (.inr (by rw [Ctrl.ready, hc]; exact hready))
      refine ⟨w, ws', hws', ?_⟩
      rw [hb] at h'
      split_ifs at h' with hu
      rw [if_pos hu]
      rfl
  | sendData =>
    rw [hf] at hready
    obtain ⟨hc, w, ws, hws, htag⟩ := h.sendData hf
    constructor
    · intro h'
      refine next_reads hc _ fun b hb hr => ?_
      rw [hready] at hr
      cases hl : b.last with
      | false => rfl
      | true => simp [State.next, Master.State.next, hf, hb, hr, hl] at h'
    · intro h'
      -- the data is not taken in this cycle
      have hwait : s.receiver.source = none ∨ (s.receiverIn e i).sourceReady = false := by
        rw [hready]
        by_contra hno
        obtain ⟨hsome, hr⟩ := not_or.1 hno
        obtain ⟨b, hb⟩ := Option.ne_none_iff_exists'.1 hsome
        rw [Bool.not_eq_false] at hr
        simp only [State.next, Master.State.next, hf, hb, hr] at h'
        cases hl : b.last <;> simp [hl] at h'
      refine ⟨next_reads hc _ fun b hb hr => ?_, ?_⟩
      · rcases hwait with h0 | h0
        · rw [h0] at hb
          cases hb
        · rw [h0] at hr
          cases hr
      · obtain ⟨ws', hws'⟩ := next_head hws (s.receiverIn e i) <| by
          rw [Ctrl.ready, hc]
          refine hwait.imp_left fun h0 => ?_
          rw [Receiver.State.source, Ctrl.source, hc] at h0
          exact Option.map_eq_none_iff.1 h0
        refine ⟨w, ws', hws', ?_⟩
        simp only [State.next, Master.State.next, hf]
        exact htag

/-- Reads that are pending after a cycle belong to the host whose address is saved then. -/
theorem Inv.pending_next (h : Inv s) (hone : OneHost s i) (hb : BeginsAlone e s i) :
    ∀ b ∈ (s.next e i).receiver.pending, b.we = false → b.addr.tag = s.nextIpAddress i := by
  intro b hmem hwe
  rcases mem_pending_next hmem with hold | ⟨w, hw, htag⟩
  · rcases nextIpAddress_eq s i with heq | ⟨x, hx, hf, heq⟩
    · rw [heq]
      exact h.pending b hold hwe
    · rw [heq]
      exact (hb x hx hf).1 b hold hwe
  · obtain ⟨v, -, rfl⟩ := Option.map_eq_some_iff.1 hw
    rw [htag hwe, ← nextHost_eq h.host hone]
    rfl

/-- The response that comes into the sender is one to a read that is pending. -/
theorem Reading.response (h : Reading s) {m : MmapBeat (BitVec 32)} (hm : s.master.source s.receiver.source = some m) :
    ∃ b ∈ s.receiver.pending, b.we = false ∧ m.data.tag = b.addr.tag := by
  rw [Master.State.source] at hm
  cases hf : s.master.fsm with
  | sendData =>
    rw [hf] at hm
    obtain ⟨b, hb, rfl⟩ := Option.map_eq_some_iff.1 hm
    obtain ⟨hc, w, ws, hws, htag⟩ := h.sendData hf
    obtain ⟨v, vs, hvs, rfl, hpend⟩ := source_reads hc hb
    obtain ⟨rfl, -⟩ := List.cons.inj (hws.symm.trans hvs)
    exact ⟨_, hpend, rfl, htag⟩
  | _ => rw [hf] at hm; cases hm

/-- What the sender stores after a cycle belongs to the host whose address is saved then. -/
theorem Inv.stored_next (h : Inv s) (hb : BeginsAlone e s i) :
    ∀ m ∈ G.contents (s.next e i).sender.fifo, m.data.tag = s.nextIpAddress i := by
  have hcont : G.contents (s.next e i).sender.fifo = s.kept e i ++
      (if G.sinkReady s.sender.fifo then (s.master.source s.receiver.source).toList else []) :=
    G.contents_step _ _ _
  have hkept : ∀ m ∈ s.kept e i, m ∈ G.contents s.sender.fifo := by
    intro m hm
    rw [State.kept] at hm
    split_ifs at hm
    · exact List.mem_of_mem_tail hm
    · exact hm
  intro m hmem
  rw [hcont, List.mem_append] at hmem
  rcases hmem with hm | hm
  · rcases nextIpAddress_eq s i with heq | ⟨x, hx, hf, heq⟩
    · rw [heq]
      exact h.stored m (hkept m hm)
    · rw [heq]
      exact (hb x hx hf).2 m hm
  · split_ifs at hm
    · obtain ⟨b, hpend, hwe, htag⟩ := h.reading.response (Option.mem_toList.1 hm)
      rw [htag]
      rcases nextIpAddress_eq s i with heq | ⟨x, hx, hf, heq⟩
      · rw [heq]
        exact h.pending b hpend hwe
      · rw [heq]
        exact (hb x hx hf).1 b hpend hwe
    · cases hm

theorem Inv.next (h : Inv s) (hone : OneHost s i) (hb : BeginsAlone e s i) : Inv (s.next e i) where
  host := nextHost_eq h.host hone
  pending := h.pending_next hone hb
  stored := h.stored_next hb
  reading := h.reading.next i

theorem Inv.answers (h : Inv s) : Answers e s := by
  intro r hr m hm
  obtain ⟨b, -, rfl⟩ := Option.map_eq_some_iff.1 hr
  obtain ⟨ms, hms⟩ := G.source_eq _ _ hm
  exact (h.stored m (hms ▸ List.mem_cons_self)).symm

/-! ## Runs -/

section Run

variable (e F G D P)

/-- In a run in which no packet of another host begins while a read is pending or a response is
stored, every response goes to the host that asked. -/
theorem record_answers_host (is : List In) (hone : (system e F G D P).Along OneHost (system e F G D P).reset is)
    (halone : (system e F G D P).Along (BeginsAlone e) (system e F G D P).reset is) :
    Answers e ((system e F G D P).run is) := by
  refine Inv.answers ?_
  exact (system e F G D P).runFrom_inv (C := fun s i => OneHost s i ∧ BeginsAlone e s i)
    (fun s i h hc => h.next hc.1 hc.2) is _ inv_reset (((system e F G D P).along_and _ _).2 ⟨hone, halone⟩)

variable {e F G D P}

/-- No packet begins in this cycle. -/
def BeginsNone (s : State F G D P) (i : In) : Prop := ∀ x ∈ s.taken i, s.first = false

theorem ip_kept (is : List In) (s : State F G D P) (hno : (system e F G D P).Along BeginsNone s is) :
    ((system e F G D P).runFrom s is).lastIpAddress = s.lastIpAddress := by
  refine (system e F G D P).runFrom_inv (P := fun s' => s'.lastIpAddress = s.lastIpAddress) ?_ is s rfl hno
  intro s' i hip hno'
  rcases nextIpAddress_eq s' i with heq | ⟨x, hx, hf, -⟩
  · exact heq.trans hip
  · exact absurd hf (by simp [hno' x hx])

/-- Once a packet of another host begins, a response that was in flight is presented with the address
of that host as long as no further packet begins. -/
theorem answers_another (i : In) (is : List In) (hno : (system e F G D P).Along BeginsNone (s.next e i) is)
    {x : Beat 32 × BitVec 32} (hx : x ∈ s.taken i) (hf : s.first = true) {r : Reply}
    (hr : r ∈ ((system e F G D P).runFrom (s.next e i) is).source e) {m : MmapBeat (BitVec 32)}
    (hm : m ∈ ((system e F G D P).runFrom (s.next e i) is).sender.response) (hne : m.data.tag ≠ x.2) :
    ¬ Answers e ((system e F G D P).runFrom (s.next e i) is) := by
  intro ha
  obtain ⟨b, -, rfl⟩ := Option.map_eq_some_iff.1 hr
  have htag := ha _ hr m hm
  rw [ip_kept is _ hno] at htag
  have hnext : (s.next e i).lastIpAddress = x.2 := by
    show s.nextIpAddress i = _
    rw [State.nextIpAddress, Option.mem_def.1 hx, hf]
    rfl
  exact hne (htag.symm.trans hnext)

end Run

/-- A system with buffers of four words. -/
abbrev bufferedSystem :=
  system .big (PacketFIFO.queue Word.last 4 1) (PacketFIFO.queue MmapBeat.last 4 1)
    (Depacketizer.words 1 (by decide) RecordHeader.ofWords) (Packetizer.words 1 fun h _ => h.bits)

/-- A cycle with a beat at the sink or none, with the bus ready or not. -/
def cycle (sink : Option (Beat 32 × BitVec 32)) (ack : Bool) : In :=
  { sink := sink, ack := ack, datR := 7, sourceReady := true
    undriven := ⟨false, 0, ⟨0, 0⟩, 0, ⟨0, 0⟩, ⟨0, 0⟩, false⟩ }

/-- The cycles of a packet that reads one word. -/
def readPacket (ip : BitVec 32) (ack : Bool) : List In :=
  [cycle (some (.ofWord (RecordHeader.bits ⟨0, 1, 0xf⟩), ip)) ack,
    cycle (some (.ofWord (reverseBytes 0x2000), ip)) ack,
    cycle (some ({ Beat.ofWord (reverseBytes 0x3000) with last := true }, ip)) ack]

/-- Two hosts, one after the other. -/
def twoHosts : List In :=
  readPacket 1 true ++ List.replicate 8 (cycle none true) ++ readPacket 2 true ++ List.replicate 5 (cycle none true)

theorem record_answers_host_two_hosts :
    (bufferedSystem.run twoHosts).source .big = some ⟨.ofWord (RecordHeader.bits ⟨1, 0, 0⟩), 2, 12⟩ ∧
      Answers .big (bufferedSystem.run twoHosts) :=
  ⟨by decide, record_answers_host .big _ _ _ _ twoHosts (by decide) (by decide)⟩

/-- A read that the bus does not acknowledge before another host's packet begins: the response goes to
that host. -/
theorem record_answers_another :
    let is := readPacket 1 false ++ [cycle (some (.ofWord (RecordHeader.bits ⟨1, 0, 0xf⟩), 2)) false] ++
      List.replicate 4 (cycle none true)
    bufferedSystem.Along OneHost bufferedSystem.reset is ∧
      (bufferedSystem.run is).source .big = some ⟨.ofWord (RecordHeader.bits ⟨1, 0, 0⟩), 2, 12⟩ ∧
      ¬ Answers .big (bufferedSystem.run is) := by
  decide

end RecordMaster

end LiteEth.Frontend.Etherbone
