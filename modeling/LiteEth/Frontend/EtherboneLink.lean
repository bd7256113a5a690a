/-
A packet of memory-mapped beats as a record: from the sender of one record module, over what carries it there, to the
receiver of another, which makes the operation of it again.
-/
import LiteEth.Frontend.EtherboneSender
import LiteEth.Frontend.EtherboneStream
import LiteEth.Rtl.PacketWords
import LiteEth.Rtl.StreamFifo

namespace LiteEth.Frontend.Etherbone

open LiteEth.Rtl

/-! ## Packets of memory-mapped beats -/

/-- A packet at the sender's sink: data for a base address, or the addresses to be read for one. Each beat also has
an address of its own, which the sender does not send. -/
structure Burst where
  we : Bool
  baseAddr : BitVec 32
  be : BitVec 4
  payload : List (BitVec 32 × BitVec 32)
  nonempty : payload ≠ []
  small : payload.length < 256

namespace Burst

variable (b : Burst)

/-- `count`. -/
def count : BitVec 8 := BitVec.ofNat 8 b.payload.length

/-- The data of the beats. -/
def data : List (BitVec 32) := b.payload.map Prod.snd

/-- The beats of the packet. -/
def beats : List (MmapBeat Unit) := (marked b.payload).map fun x =>
  { we := b.we, count := b.count, baseAddr := plain b.baseAddr, be := b.be, addr := plain x.1.1, data := plain x.1.2
    last := x.2 }

/-- The write of the `i`-th word, to the address in words. -/
def write (x : BitVec 32 × ℕ) : MmapBeat Unit :=
  { we := true, count := b.count, baseAddr := plain 0, be := b.be, data := plain x.1
    addr := plain (b.baseAddr >>> 2 + BitVec.ofNat 32 x.2), last := x.2 + 1 == b.payload.length }

/-- The read at the `i`-th address, in words. -/
def read (x : BitVec 32 × ℕ) : MmapBeat Unit :=
  { we := false, count := b.count, baseAddr := plain b.baseAddr, be := 0, data := plain 0
    addr := plain (x.1 >>> 2), last := x.2 + 1 == b.payload.length }

/-- The operation that the packet asks for. -/
def operation : List (MmapBeat Unit) := b.data.zipIdx.map (if b.we then b.write else b.read)

/-- The header of the record. -/
def header : RecordHeader :=
  { wcount := if b.we then b.count else 0, rcount := if b.we then 0 else b.count, byteEnable := b.be.setWidth 8 }

/-- The words of the record: the header, the base address and the data, these in the byte order of the bus. -/
def recordWords (e : Endianness) : List (BitVec 32) := b.header.bits :: (b.baseAddr :: b.data).map (byEndianness e)

theorem data_ne_nil : b.data ≠ [] := by simpa [data] using b.nonempty

theorem length_data : b.data.length = b.payload.length := List.length_map _

theorem count_toNat : b.count.toNat = b.payload.length := by
  have := b.small
  rw [count, BitVec.toNat_ofNat]
  omega

theorem length_recordWords (e : Endianness) : (b.recordWords e).length = b.payload.length + 2 := by
  rw [recordWords, List.length_cons, List.length_map, List.length_cons, length_data]

theorem isFrame_beats : IsFrame MmapBeat.last b.beats := IsFrame.map (fun _ => rfl) (isFrame_marked b.nonempty)

theorem length_beats : b.beats.length = b.payload.length := by
  have h : (marked b.payload).length = b.payload.length := by
    have := length_wordPacket b.data
    rw [wordPacket, data, marked_map] at this
    simpa using this
  rw [beats, List.length_map, h]

/-- The record, in the terms of its receiver. -/
def record : Record where
  byteEnable := b.be.setWidth 8
  base := b.baseAddr
  writes := if b.we then b.data else []
  retBase := b.baseAddr
  reads := if b.we then [] else b.data

theorem record_wellFormed : b.record.WellFormed := by
  have hlen := b.length_data
  have hs := b.small
  have hne := b.data_ne_nil
  unfold record
  cases b.we with
  | true => exact ⟨by simp only [if_true]; omega, Nat.zero_le _, .inl hne⟩
  | false => exact ⟨Nat.zero_le _, by simp only [Bool.false_eq_true, if_false]; omega, .inr hne⟩

theorem record_unmixed : ¬ b.record.Mixed := by
  unfold record
  cases b.we <;> simp [Record.Mixed]

theorem record_header : b.record.header = b.header := by
  have hlen := b.length_data
  unfold record Record.header header count
  cases b.we <;> simp [hlen]

theorem record_payload : b.record.payload = b.baseAddr :: b.data := by
  have hne := b.data_ne_nil
  unfold record Record.payload
  cases b.we <;> simp [hne]

/-- What the record should be decoded to is the operation. -/
theorem record_beats : b.record.beats = b.operation := by
  have hlen := b.length_data
  unfold record Record.beats operation
  cases b.we with
  | true =>
    simp only [if_true, List.zipIdx_nil, List.map_nil, List.append_nil]
    refine List.map_congr_left fun x _ => ?_
    simp only [Record.write, write, count, hlen]
    congr 1
    simp
  | false =>
    simp only [Bool.false_eq_true, if_false, List.zipIdx_nil, List.map_nil, List.nil_append]
    refine List.map_congr_left fun x _ => ?_
    simp only [Record.read, read, count, hlen]

end Burst

/-! ## Packets of one beat -/

/-- A packet of one beat. -/
def Single (m : MmapBeat Unit) : Prop := m.count = 1 ∧ m.last = true

/-- The packet of the beat. -/
def Burst.single (m : MmapBeat Unit) : Burst where
  we := m.we
  baseAddr := m.baseAddr.bits
  be := m.be
  payload := [(m.addr.bits, m.data.bits)]
  nonempty := List.cons_ne_nil _ _
  small := Nat.succ_lt_succ (Nat.succ_pos 254)

theorem beats_single {m : MmapBeat Unit} (hm : Single m) : (Burst.single m).beats = [m] := by
  obtain ⟨we, count, baseAddr, be, addr, data, last⟩ := m
  obtain ⟨rfl, rfl⟩ := hm
  rfl

/-- What a packet of one beat is when it arrives. -/
def carried (m : MmapBeat Unit) : MmapBeat Unit :=
  if m.we then (Burst.single m).write (m.data.bits, 0) else (Burst.single m).read (m.data.bits, 0)

theorem operation_single (m : MmapBeat Unit) : (Burst.single m).operation = [carried m] := by
  unfold carried Burst.operation
  show List.map (if m.we then (Burst.single m).write else (Burst.single m).read) [(m.data.bits, 0)] = _
  cases m.we <;> rfl

/-! ## From one record module to another -/

/-- `param_depth` is one, and the packet FIFOs hold one more. -/
theorem paramDepth_pos : 0 < 1 + 1 := Nat.succ_pos 1

/-- The sending half of a record module, the receiving half of another one, and what carries the records. -/
structure RecordLink (ε : Type) where
  helpful : ε → Prop
  endianness : Endianness
  bufferDepth : ℕ
  senderFifo : PacketFIFO (MmapBeat Unit) MmapBeat.last
  senderSized : senderFifo.Sized (bufferDepth + 1) (1 + 1)
  recordPacketizer : Packetizer RecordHeader 32
  recordPrepends : recordPacketizer.PrependsWords fun h => [h.bits]
  /-- What drives the packetizer's sink while its `valid` is zero. -/
  idleRecord : ε → RecordHeader × Beat 32
  carrier : Fifo helpful (BitVec 16 × Beat 32)
  recordDepacketizer : Depacketizer RecordHeader 32
  recordStrips : recordDepacketizer.StripsWords 1 RecordHeader.ofWords
  receiverFifo : PacketFIFO (Word Unit) Word.last
  receiverSized : receiverFifo.Sized (bufferDepth + 1) (1 + 1)

namespace RecordLink

variable {ε : Type} (S : RecordLink ε) (b : Burst)

/-- The words at the packetizer of records, with `source.length`. -/
abbrev recordFeed (e : Endianness) : Packetizer.Feed RecordHeader (RecordHeader × Beat 32) (BitVec 16 × Beat 32) 32 where
  header a := a.1
  beat a := { a.2 with data := byEndianness e a.2.data }
  out a x := (RecordMaster.length a.1, x)

/-- From the sink of the sender to the source of the record module. -/
abbrev recordTx : Stage ε (MmapBeat Unit) (BitVec 16 × Beat 32) :=
  (Sender.recordSender S.senderFifo).andThen (S.recordPacketizer.fed (recordFeed S.endianness) S.idleRecord)

/-- A word at the receiver's sink. -/
abbrev word (x : RecordHeader × Beat 32) : Word Unit := x.1.word x.2.last (plain (byEndianness S.endianness x.2.data))

/-- From the sink of the sender to the source of the receiver. -/
abbrev link : Stage ε (MmapBeat Unit) (MmapBeat Unit) :=
  ((((S.recordTx.andThen S.carrier.stage).mapped Prod.snd).andThen S.recordDepacketizer.stage).mapped S.word).andThen
    (Receiver.recordReceiver S.receiverFifo ())

/-- The record of the packet, with the length that goes with it. -/
def recordFrame : List (BitVec 16 × Beat 32) :=
  (wordPacket (b.recordWords S.endianness)).map (RecordMaster.length b.header, ·)

/-! ## What the stages make of a packet -/

/-- What the sender sends of the packet. -/
theorem makes_words (hb : b.payload.length ≤ S.bufferDepth) : (Sender.encodes Unit (S.bufferDepth + 1)).Makes b.beats
    ((wordPacket (b.baseAddr :: b.data)).map (b.header, ·)) := by
  obtain ⟨hstored, hstore, hoks⟩ := PacketFIFO.store_frame (S.bufferDepth + 1) b.isFrame_beats
  obtain ⟨houts, hrun⟩ := Packetizer.prepend_frame (fun m : MmapBeat Unit => [Sender.baseWord m]) Sender.dataWord
    MmapBeat.last b.isFrame_beats
  have hbeats : b.beats.map Sender.dataWord = (wordPacket b.data).map (b.header, ·) := by
    rw [Burst.beats, Burst.data, wordPacket, marked_map, List.map_map, List.map_map, List.map_map]
    exact List.map_congr_left fun x _ => rfl
  have hwords : Packetizer.prepended (fun m : MmapBeat Unit => [Sender.baseWord m]) Sender.dataWord b.beats =
      (wordPacket (b.baseAddr :: b.data)).map (b.header, ·) := by
    obtain ⟨x, xs, hx⟩ := List.exists_cons_of_ne_nil (isFrame_marked b.nonempty).ne_nil
    rw [Packetizer.prepended, hbeats, show b.baseAddr :: b.data = [b.baseAddr] ++ b.data from rfl,
      wordPacket_append _ b.data_ne_nil, List.map_append, Burst.beats, hx]
    rfl
  exact .andThen ⟨hoks (b.length_beats.trans_le (Nat.le_succ_of_le hb)), hstore, hstored⟩
    ⟨Packetizer.prepend_oks _ _ _ _ _, hrun, houts.trans hwords⟩

/-- The transducer of the record module's transmitter. -/
abbrev recordOf : Transducer (MmapBeat Unit) (BitVec 16 × Beat 32) :=
  (Sender.encodes Unit (S.bufferDepth + 1)).andThen ((recordFeed S.endianness).sends fun h => [h.bits])

theorem makes_record (hb : b.payload.length ≤ S.bufferDepth) : S.recordOf.Makes b.beats (S.recordFrame b) :=
  (S.makes_words b hb).andThen (prepend_makes (b.header, ·) (RecordMaster.length b.header, ·)
    (byEndianness S.endianness) [b.header.bits] (List.cons_ne_nil _ _) (fun _ => rfl) (fun _ => rfl) (fun _ _ => rfl)
    rfl)

/-! ## To the receiver -/

theorem reverseBytes_reverseBytes (w : BitVec 32) : reverseBytes (reverseBytes w) = w := by
  unfold reverseBytes
  ext i hi
  simp only [BitVec.getElem_append, BitVec.getElem_extractLsb', BitVec.getLsbD_append, BitVec.getLsbD_extractLsb']
  grind

theorem byEndianness_byEndianness (e : Endianness) (w : BitVec 32) : byEndianness e (byEndianness e w) = w := by
  cases e with
  | little => rfl
  | big => exact reverseBytes_reverseBytes w

/-- The header is read off its word. -/
theorem ofWords_bits (h : RecordHeader) : RecordHeader.ofWords [h.bits] = h := by
  obtain ⟨w, r, e⟩ := h
  unfold RecordHeader.ofWords RecordHeader.bits
  simp only [List.headD_cons, RecordHeader.mk.injEq]
  refine ⟨?_, ?_, ?_⟩
  all_goals
    ext i hi
    simp only [BitVec.getElem_extractLsb', BitVec.getLsbD_append]
    grind

/-- The words of a record, the last one marked. -/
theorem words_eq_marked (h : RecordHeader) (ds : List (Tagged Unit)) :
    h.words ds = (marked ds).map fun x => h.word x.2 x.1 := by
  induction ds with
  | nil => rfl
  | cons d ds ih =>
    cases ds with
    | nil => rfl
    | cons d' ds =>
      rw [RecordHeader.words, ih, show d :: d' :: ds = [d] ++ d' :: ds from rfl, marked_append [d] (List.cons_ne_nil d' ds)]
      rfl

/-- From the sink of the sender to the sink of the receiver. -/
abbrev wordsOf : Transducer (MmapBeat Unit) (Word Unit) :=
  (((S.recordOf.andThen (Fifo.same _)).mapped Prod.snd).andThen
    (Depacketizer.stripWords id 1 RecordHeader.ofWords)).mapped S.word

theorem makes_received (hb : b.payload.length ≤ S.bufferDepth) : S.wordsOf.Makes b.beats b.record.words := by
  have hrecord : ((S.recordOf.andThen (Fifo.same _)).mapped Prod.snd).Makes b.beats
      (wordPacket (b.recordWords S.endianness)) := by
    have h := ((S.makes_record b hb).andThen (Fifo.same_makes _)).mapped Prod.snd
    rw [recordFrame, List.map_map] at h
    exact List.map_id (wordPacket (b.recordWords S.endianness)) ▸ h
  have hne : (b.baseAddr :: b.data).map (byEndianness S.endianness) ≠ [] := List.cons_ne_nil _ _
  have hwords : wordPacket (b.recordWords S.endianness) =
      .ofWord b.header.bits :: wordPacket ((b.baseAddr :: b.data).map (byEndianness S.endianness)) :=
    wordPacket_append [b.header.bits] hne
  have hlen : 1 < (wordPacket (b.recordWords S.endianness)).length := by
    rw [length_wordPacket, b.length_recordWords]
    omega
  obtain ⟨houts, hrun, -⟩ := Depacketizer.stripWords_frame id 1 RecordHeader.ofWords
    (isFrame_wordPacket (List.cons_ne_nil _ _) : IsFrame (·.last) (wordPacket (b.recordWords S.endianness))) hlen
  have hstrip : (Depacketizer.stripWords id 1 RecordHeader.ofWords).Makes (wordPacket (b.recordWords S.endianness))
      ((wordPacket ((b.baseAddr :: b.data).map (byEndianness S.endianness))).map (b.header, ·)) := by
    refine ⟨Depacketizer.stripWords_oks _ _ _ _ _, hrun, houts.trans ?_⟩
    rw [hwords]
    show List.map (RecordHeader.ofWords [b.header.bits], ·) _ = _
    rw [ofWords_bits]
    rfl
  -- the words of the packet are those of the record, in the byte order of the link
  have h := (hrecord.andThen hstrip).mapped S.word
  rw [List.map_map, wordPacket, marked_map, List.map_map, List.map_map] at h
  refine (congrArg (S.wordsOf.Makes b.beats) ?_).mp h
  rw [Record.words, words_eq_marked, b.record_payload, b.record_header, marked_map, List.map_map]
  refine List.map_congr_left fun x _ => ?_
  show b.header.word x.2 (plain (byEndianness S.endianness (byEndianness S.endianness x.1))) = _
  rw [byEndianness_byEndianness]
  rfl

/-- From the sink of the sender to the source of the receiver. -/
abbrev linkOf : Transducer (MmapBeat Unit) (MmapBeat Unit) :=
  S.wordsOf.andThen (Receiver.receives (S.bufferDepth + 1) ())

theorem isFrame_words : IsFrame Word.last b.record.words := by
  rw [Record.words, words_eq_marked, b.record_payload]
  exact IsFrame.map (fun _ => rfl) (isFrame_marked (List.cons_ne_nil _ _))

/-- Packets that fit are stored. -/
theorem makes_stored {bs : List Burst} (hbs : ∀ b ∈ bs, b.payload.length ≤ S.bufferDepth) :
    ((PacketFIFO.store Word.last (S.bufferDepth + 1)).mapped id).Makes (bs.flatMap (·.record.words))
      (bs.flatMap (·.record.words)) := by
  refine .flatMap bs fun b hb => ?_
  obtain ⟨houts, hrun, hoks⟩ := PacketFIFO.store_frame (S.bufferDepth + 1) (isFrame_words b)
  have hlen : b.record.words.length ≤ S.bufferDepth + 1 := by
    rw [Record.words, words_length, b.record_payload, List.length_map, List.length_cons, b.length_data]
    exact Nat.succ_le_succ (hbs b hb)
  have h := Transducer.Makes.mapped ⟨hoks hlen, hrun, houts⟩ id
  rw [List.map_id] at h
  exact h

/-- The records are decoded to the operations, from `IDLE` to `IDLE`. -/
theorem decodes_words (bs : List Burst) {c : Receiver.Ctrl Unit} (hc : c.fsm = .idle) :
    (Receiver.decoding ()).Oks c (bs.flatMap (·.record.words)) ∧
      (Receiver.decoding ()).outs c (bs.flatMap (·.record.words)) = bs.flatMap Burst.operation ∧
      ((Receiver.decoding ()).run c (bs.flatMap (·.record.words))).fsm = .idle := by
  refine ⟨Receiver.decoding_oks (fun w hw => ?_) _, ?_⟩
  · obtain ⟨b, -, hw⟩ := List.mem_flatMap.1 hw
    obtain ⟨hwcount, hrcount, -⟩ := mem_words hw
    rw [hwcount, hrcount, b.record_header, Burst.header]
    cases b.we with
    | true => exact .inr rfl
    | false => exact .inl rfl
  · obtain ⟨hbeats, hidle⟩ := decode_records (bs.map Burst.record) (List.forall_mem_map.2 fun b _ => b.record_wellFormed)
      (List.forall_mem_map.2 fun b _ => b.record_unmixed) hc
    rw [List.flatMap_map] at hbeats hidle
    rw [List.flatMap_map] at hbeats
    exact ⟨(Receiver.decoding_outs _ _).trans (hbeats.trans (List.flatMap_congr fun b _ => b.record_beats)), hidle⟩

theorem link_outs {bs : List Burst} (hbs : ∀ b ∈ bs, b.payload.length ≤ S.bufferDepth) :
    S.linkOf.Oks S.linkOf.init (bs.flatMap Burst.beats) ∧
      S.linkOf.outs S.linkOf.init (bs.flatMap Burst.beats) = bs.flatMap Burst.operation := by
  have h := Transducer.Makes.flatMap bs fun b hb => S.makes_received b (hbs b hb)
  have hstored := S.makes_stored hbs
  obtain ⟨hoks, houts, -⟩ := decodes_words bs (c := .init ()) rfl
  exact ⟨h.oks_andThen (hstored.oks_andThen hoks), h.outs_andThen.trans (hstored.outs_andThen.trans houts)⟩

/-! ## As queues -/

/-- The sender and the packetizer of records. -/
def queuesRecords : Stage.Queueing S.helpful S.recordTx S.recordOf :=
  (Sender.queues S.senderSized paramDepth_pos S.helpful).andThen
    (Packetizer.prependsFed (recordFeed S.endianness) S.idleRecord S.recordPrepends S.helpful)

/-- The record transmitter, the carrier and the receiver queue what follows of the beats offered. -/
def queuesLink : Stage.Queueing S.helpful S.link S.linkOf :=
  ((((S.queuesRecords.andThen S.carrier.passes.sim).mapped Prod.snd).andThen
    (S.recordStrips.follows S.helpful).sim).mapped S.word).andThen
      (Receiver.queues S.receiverSized paramDepth_pos S.helpful).toTaking.sim

/-! ## Operations of one beat -/

/-- Nothing is under way. -/
structure AtRest (q : S.linkOf.State) : Prop where
  words : q.1 = S.wordsOf.init
  stored : q.2.1 = []
  idle : q.2.2.fsm = .idle

variable {S} in
/-- A packet of one beat arrives as a whole. -/
theorem AtRest.carries {q : S.linkOf.State} (h : S.AtRest q) (hS : 1 ≤ S.bufferDepth) {m : MmapBeat Unit}
    (hm : Single m) :
    S.linkOf.Oks q [m] ∧ S.linkOf.outs q [m] = [carried m] ∧ S.AtRest (S.linkOf.run q [m]) := by
  obtain ⟨q, m', c⟩ := q
  obtain ⟨rfl, rfl, hc⟩ := h
  -- the packet on its way out, stored on the other side, and decoded there
  obtain ⟨hok, hrun, hout⟩ := S.makes_received (Burst.single m) hS
  obtain ⟨hstored, hstore, hstoreOut⟩ := S.makes_stored (List.forall_mem_singleton.2 hS : ∀ b ∈ [Burst.single m], _)
  obtain ⟨hdecode, hbeats, hidle⟩ := decodes_words [Burst.single m] hc
  rw [beats_single hm] at hok hrun hout
  simp only [List.flatMap_cons, List.flatMap_nil, List.append_nil] at hstored hstore hstoreOut hdecode hbeats hidle
  rw [operation_single] at hbeats
  have hoks : (Receiver.receives (S.bufferDepth + 1) ()).Oks ([], c) (Burst.single m).record.words :=
    (Transducer.andThen_oks _ _ _ _).2 ⟨hstored, hstoreOut.symm ▸ hdecode⟩
  have houts : (Receiver.receives (S.bufferDepth + 1) ()).outs ([], c) (Burst.single m).record.words = [carried m] :=
    (Transducer.andThen_outs _ _ _ _).trans (hstoreOut.symm ▸ hbeats)
  have hruns : (Receiver.receives (S.bufferDepth + 1) ()).run ([], c) (Burst.single m).record.words =
      ([], (Receiver.decoding ()).run c (Burst.single m).record.words) :=
    (Transducer.andThen_run _ _ _ _).trans (Prod.ext hstore (congrArg ((Receiver.decoding ()).run c) hstoreOut))
  have hlink : S.linkOf.run (S.wordsOf.init, ([], c)) [m] =
      (S.wordsOf.init, (Receiver.receives (S.bufferDepth + 1) ()).run ([], c) (Burst.single m).record.words) :=
    (Transducer.andThen_run _ _ _ _).trans (Prod.ext hrun
      (congrArg ((Receiver.receives (S.bufferDepth + 1) ()).run ([], c)) hout))
  refine ⟨(Transducer.andThen_oks _ _ _ _).2 ⟨hok, hout.symm ▸ hoks⟩,
    (Transducer.andThen_outs _ _ _ _).trans (hout.symm ▸ houts), ?_⟩
  rw [hlink, hruns]
  exact ⟨rfl, rfl, hidle⟩

/-- Operations of one beat each, over a link with room for them. -/
def passes (hS : 1 ≤ S.bufferDepth) : Stage.Queueing S.helpful S.link (.beatwise carried Single) :=
  S.queuesLink.onto carried Single S.AtRest ⟨rfl, rfl, rfl⟩ fun q m hq hm => by
    obtain ⟨hok, hout, hrest⟩ := hq.carries hS hm
    exact ⟨hok.1, (List.append_nil _).symm.trans hout, hrest⟩

end RecordLink

/-! ## A link of words -/

/-- Record modules with room for four words, and a register between them. -/
def wordLink : RecordLink Unit where
  helpful _ := True
  endianness := .big
  bufferDepth := 4
  senderFifo := PacketFIFO.queue MmapBeat.last 4 1
  senderSized := PacketFIFO.queue_sized MmapBeat.last 4 1
  recordPacketizer := Packetizer.words 1 fun h _ => h.bits
  recordPrepends := Packetizer.prependsWords_words 1 Nat.one_pos fun (h : RecordHeader) _ => h.bits
  carrier := Fifo.pipeValid _ _
  recordDepacketizer := Depacketizer.words 1 Nat.one_pos RecordHeader.ofWords
  recordStrips := Depacketizer.stripsWords_words 1 Nat.one_pos RecordHeader.ofWords
  receiverFifo := PacketFIFO.queue Word.last 4 1
  receiverSized := PacketFIFO.queue_sized Word.last 4 1
  idleRecord _ := ({ wcount := 0, rcount := 0, byteEnable := 0 }, .ofWord 0)

end LiteEth.Frontend.Etherbone
