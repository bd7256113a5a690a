/-
`frontend/etherbone.py`: the sender of Etherbone records, the Wishbone master, and the record module
with its receiver and its sender on both sides of the master. Payload words carry the address of the
host they come from for a tag, and what the bus answers carries the tag of the address read.
-/
import LiteEth.Common
import LiteEth.Rtl.Packet
import LiteEth.Frontend.Etherbone

namespace LiteEth.Frontend.Etherbone

open LiteEth.Rtl

variable {τ : Type}

/-- `reverse_bytes`. -/
def reverseBytes (w : BitVec 32) : BitVec 32 :=
  w.extractLsb' 0 8 ++ w.extractLsb' 8 8 ++ w.extractLsb' 16 8 ++ w.extractLsb' 24 8

/-- The word of a beat for the word of a record, and the other way round. -/
def byEndianness (e : Endianness) (w : BitVec 32) : BitVec 32 :=
  match e with
  | .big => reverseBytes w
  | .little => w

/-- The header on the wire, first byte to the right. The fields that neither module looks at are zero. -/
def RecordHeader.bits (h : RecordHeader) : BitVec 32 := h.rcount ++ h.wcount ++ h.byteEnable ++ 0#8

/-- The fields of a shift register of one word. -/
def RecordHeader.ofWords (ws : List (BitVec 32)) : RecordHeader :=
  let b := ws.headD 0
  { wcount := b.extractLsb' 16 8, rcount := b.extractLsb' 24 8, byteEnable := b.extractLsb' 8 8 }

/-! ## Sender -/

namespace Sender

/-- The states of the sender. -/
inductive Fsm
  | idle
  | sendBaseAddress
  | sendData
  deriving DecidableEq, Repr

variable (G : PacketFIFO (MmapBeat τ) MmapBeat.last)

/-- The registers of the sender. -/
structure State where
  fsm : Fsm
  fifo : G.State

/-- The registers after reset. -/
def State.init : State G := { fsm := .idle, fifo := G.reset }

variable {G}

/-- The response that is being sent. -/
def State.response (s : State G) : Option (MmapBeat τ) := G.source s.fifo

/-- The header fields at `source`. They are driven in every state, from the FIFO's source; while
there is no response they are taken for zeros. -/
def State.header (s : State G) : RecordHeader :=
  match s.response with
  | none => { wcount := 0, rcount := 0, byteEnable := 0 }
  | some m =>
    { wcount := if m.we then m.count else 0
      rcount := if m.we then 0 else m.count
      byteEnable := m.be.setWidth 8 }

/-- The beat at `source`, which is valid in both sending states. -/
def State.source (s : State G) : Option (Beat 32) :=
  match s.fsm with
  | .idle => none
  | .sendBaseAddress =>
    some { data := s.response.elim 0 (·.baseAddr.bits), lastBe := 0, error := 0, last := false }
  | .sendData =>
    some { data := s.response.elim 0 (·.data.bits), lastBe := 0, error := 0, last := s.response.any (·.last) }

/-- `fifo.source.ready`. -/
def State.fifoReady (s : State G) (sourceReady : Bool) : Bool := s.fsm == .sendData && sourceReady

/-- One cycle of the sender and its buffer. -/
def State.next (s : State G) (sink : Option (MmapBeat τ)) (sourceReady : Bool) : State G :=
  { fsm := match s.fsm with
      | .idle => if s.response.isSome then .sendBaseAddress else .idle
      | .sendBaseAddress => if sourceReady then .sendData else .sendBaseAddress
      | .sendData => if sourceReady && s.response.any (·.last) then .idle else .sendData
    fifo := G.step s.fifo sink (s.fifoReady sourceReady) }

end Sender

/-! ## Wishbone master -/

namespace Master

/-- The states of the Wishbone master. -/
inductive Fsm
  | idle
  | writeData
  | readData
  | sendData
  deriving DecidableEq, Repr

/-- The registers of the master: its state and the fields of `source` that are clocked. -/
structure State (τ : Type) where
  fsm : Fsm
  we : Bool
  count : BitVec 8
  baseAddr : Tagged τ
  be : BitVec 4
  addr : Tagged τ
  data : Tagged τ

/-- The registers after reset. -/
def State.init (t : τ) : State τ :=
  { fsm := .idle, we := false, count := 0, baseAddr := ⟨0, t⟩, be := 0, addr := ⟨0, t⟩, data := ⟨0, t⟩ }

/-- What the master drives on its bus. Undriven signals are zero. -/
structure Bus where
  adr : BitVec 30
  datW : BitVec 32
  sel : BitVec 4
  stb : Bool
  we : Bool
  cyc : Bool
  deriving DecidableEq

variable (s : State τ) (sink : Option (MmapBeat τ))

/-- What the master drives on the bus. -/
def State.bus : Bus :=
  match s.fsm with
  | .writeData =>
    { adr := sink.elim 0 (·.addr.bits.setWidth 30), datW := sink.elim 0 (·.data.bits), sel := sink.elim 0 (·.be)
      stb := sink.isSome, we := true, cyc := true }
  | .readData =>
    { adr := sink.elim 0 (·.addr.bits.setWidth 30), datW := 0, sel := sink.elim 0 (·.be)
      stb := sink.isSome, we := false, cyc := true }
  | _ => { adr := 0, datW := 0, sel := 0, stb := false, we := false, cyc := false }

/-- `sink.ready`. -/
def State.sinkReady (ack sourceReady : Bool) : Bool :=
  match s.fsm with
  | .idle => sink.isNone
  | .writeData => (s.bus sink).stb && ack
  | .readData => false
  | .sendData => sourceReady

/-- `source`, whose `valid` and `last` are those of the sink in `SEND_DATA`. -/
def State.source : Option (MmapBeat τ) :=
  match s.fsm with
  | .sendData => sink.map fun b =>
    { we := s.we, count := s.count, baseAddr := s.baseAddr, be := s.be, addr := s.addr, data := s.data, last := b.last }
  | _ => none

/-- The registers after a clock edge. The fields of the sink are sampled in every cycle; `undriven` is
what they hold while it is not valid. -/
def State.next (undriven : MmapBeat τ) (ack : Bool) (datR : BitVec 32) (sourceReady : Bool) : State τ :=
  let fields := sink.getD undriven
  let dataUpdate := s.fsm == .readData && (s.bus sink).stb && ack
  { fsm := match s.fsm with
      | .idle => if sink.isSome then (if fields.we then .writeData else .readData) else .idle
      | .writeData => if (s.bus sink).stb && ack && fields.last then .idle else .writeData
      | .readData => if dataUpdate then .sendData else .readData
      | .sendData =>
        if sink.isSome && sourceReady then (if fields.last then .idle else .readData) else .sendData
    we := true, count := fields.count, baseAddr := fields.baseAddr, be := fields.be, addr := fields.addr
    data := if dataUpdate then ⟨datR, fields.addr.tag⟩ else s.data }

end Master

/-! ## Record -/

namespace RecordMaster

/-- The inputs of one cycle: the beat at the sink (if valid) with the address of its host, the
acknowledge and the data of the bus, and `source.ready`; also what the fields between the receiver
and the master hold while they are not valid. -/
structure In where
  sink : Option (Beat 32 × BitVec 32)
  ack : Bool
  datR : BitVec 32
  sourceReady : Bool
  undriven : MmapBeat (BitVec 32)

variable (e : Endianness) (F : PacketFIFO (Word (BitVec 32)) Word.last)
variable (G : PacketFIFO (MmapBeat (BitVec 32)) MmapBeat.last)
variable (D : Depacketizer RecordHeader 32) (P : Packetizer RecordHeader 32)

/-- The registers of the record module and of the master between its receiver and its sender. `host`
is a ghost: the address that came with the last beat taken at the sink. -/
structure State where
  depacketizer : D.State
  receiver : Receiver.State F
  first : Bool
  lastIpAddress : BitVec 32
  master : Master.State (BitVec 32)
  sender : Sender.State G
  packetizer : P.State
  host : BitVec 32

/-- The registers of all parts after reset. -/
def State.init : State F G D P :=
  { depacketizer := D.reset, receiver := ⟨.init 0, F.reset⟩, first := true, lastIpAddress := 0, master := .init 0
    sender := .init G, packetizer := P.reset, host := 0 }

variable {F G D P}

/-- The beat taken at the sink in this cycle, with the address of its host. -/
def State.taken (s : State F G D P) (i : In) : Option (Beat 32 × BitVec 32) :=
  if D.sinkReady s.depacketizer (i.sink.map Prod.fst) (F.sinkReady s.receiver.fifo) then i.sink else none

/-- `last_ip_address` after a clock edge. -/
def State.nextIpAddress (s : State F G D P) (i : In) : BitVec 32 :=
  match s.taken i with
  | none => s.lastIpAddress
  | some x => if s.first then x.2 else s.lastIpAddress

/-- The ghost register after a clock edge. -/
def State.nextHost (s : State F G D P) (i : In) : BitVec 32 := (s.taken i).elim s.host Prod.snd

/-- The word at the receiver's sink. The depacketizer of a one-word header passes on the beat it takes. -/
def State.word (s : State F G D P) (i : In) : Option (Word (BitVec 32)) :=
  (D.source s.depacketizer (i.sink.map Prod.fst)).map fun b =>
    (D.header s.depacketizer).word b.last ⟨byEndianness e b.data, s.nextHost i⟩

/-- The beat at the packetizer's sink. -/
def State.payload (s : State F G D P) : Option (Beat 32) :=
  s.sender.source.map fun b => { b with data := byEndianness e b.data }

/-- The receiver's inputs: `receiver.source.ready` is the master's. -/
def State.receiverIn (s : State F G D P) (i : In) : Receiver.In (BitVec 32) :=
  { sink := s.word e i
    sourceReady := s.master.sinkReady s.receiver.source i.ack (G.sinkReady s.sender.fifo) }

/-- `packetizer.sink.ready`. -/
def State.senderReady (s : State F G D P) (i : In) : Bool :=
  P.sinkReady s.packetizer s.sender.header (s.payload e) i.sourceReady

/-- One cycle of the record module. -/
def State.next (s : State F G D P) (i : In) : State F G D P :=
  { depacketizer := D.step s.depacketizer (i.sink.map Prod.fst) (F.sinkReady s.receiver.fifo)
    receiver := s.receiver.next (s.receiverIn e i)
    first := (s.taken i).elim s.first (·.1.last)
    lastIpAddress := s.nextIpAddress i
    master := s.master.next s.receiver.source i.undriven i.ack i.datR (G.sinkReady s.sender.fifo)
    sender := s.sender.next (s.master.source s.receiver.source) (s.senderReady e i)
    packetizer := P.step s.packetizer s.sender.header (s.payload e) i.sourceReady
    host := s.nextHost i }

/-- A beat at `source`, with the fields that the record module drives itself. -/
structure Reply where
  beat : Beat 32
  ipAddress : BitVec 32
  length : BitVec 16
  deriving DecidableEq

/-- `etherbone_record_header.length`. -/
def headerLength : Nat := 4

/-- `source.length`: the header, and each part that is there behind its base address. -/
def length (h : RecordHeader) : BitVec 16 :=
  BitVec.ofNat 16 (headerLength + (if h.wcount ≠ 0 then 4 else 0) + h.wcount.toNat * 4 +
    (if h.rcount ≠ 0 then 4 else 0) + h.rcount.toNat * 4)

/-- `source`. -/
def State.source (s : State F G D P) : Option Reply :=
  (P.source s.packetizer s.sender.header (s.payload e)).map fun b =>
    { beat := b, ipAddress := s.lastIpAddress, length := length s.sender.header }

variable (F G D P) in
/-- The record module and the Wishbone master as a clocked machine. -/
def system : Machine In (State F G D P) where
  reset := .init F G D P
  step := State.next e

end RecordMaster

end LiteEth.Frontend.Etherbone
