/-
`core/udp.py`: the UDP transmitter and the UDP receiver. The transmitter starts a packet once the
packetizer shows its first word. The receiver drops what is not UDP, counts the bytes it delivers, and
ends the datagram when the count meets the length field; what follows in the packet is padding.
-/
import LiteEth.Core.Ip

namespace LiteEth.Core.Udp

open LiteEth.Rtl

/-- The fields of `udp_header`. -/
structure Header where
  srcPort : BitVec 16
  dstPort : BitVec 16
  length : BitVec 16
  checksum : BitVec 16
  deriving DecidableEq

/-- `udp_header_length`. -/
theorem headerLength_pos : 0 < 8 := by decide

/-- The encoded header. -/
def Header.bytes (h : Header) : List (BitVec 8) :=
  [h.srcPort, h.dstPort, h.length, h.checksum].flatMap fun x => [x.extractLsb' 8 8, x.extractLsb' 0 8]

/-- The decoded fields. -/
def Header.ofBytes (bs : List (BitVec 8)) : Header where
  srcPort := bs.getD 0 0 ++ bs.getD 1 0
  dstPort := bs.getD 2 0 ++ bs.getD 3 0
  length := bs.getD 4 0 ++ bs.getD 5 0
  checksum := bs.getD 6 0 ++ bs.getD 7 0

theorem Header.ofBytes_bytes (h : Header) : ofBytes h.bytes = h := by
  have hword : ∀ x : BitVec 16, (x.extractLsb' 8 8 ++ x.extractLsb' 0 8 : BitVec 16) = x := fun _ =>
    BitVec.extractLsb'_append_extractLsb'
  obtain ⟨a, b, c, d⟩ := h
  simp [bytes, ofBytes, hword]

/-- `udp_header.length`. -/
def headerLength : ℕ := 8

/-- `udp_protocol`. -/
def protocol : BitVec 8 := 0x11

/-- The parameters of a packet of `eth_udp_user_description(dw)`. -/
structure UserParams where
  srcPort : BitVec 16
  dstPort : BitVec 16
  ipAddress : BitVec 32
  length : BitVec 16
  deriving DecidableEq

/-! ## Transmitter -/

namespace Tx

/-- The states of the transmitter. -/
inductive Fsm
  | idle
  | send
  deriving DecidableEq, Repr

/-- The inputs of one cycle: `sink` with its parameters and its beat, and `source.ready`. -/
structure In (dw : ℕ) where
  params : UserParams
  sink : Option (Beat dw)
  sourceReady : Bool

variable {dw : ℕ} (P : Packetizer Header dw)

/-- The registers of the transmitter. -/
structure State where
  fsm : Fsm
  packetizer : P.State

/-- The registers after reset. -/
def State.init : State P := { fsm := .idle, packetizer := P.reset }

/-- The fields driven at the packetizer's sink. -/
def header (q : UserParams) : Header :=
  { srcPort := q.srcPort, dstPort := q.dstPort, length := q.length + BitVec.ofNat 16 headerLength, checksum := 0 }

/-- The parameters driven at `source`. -/
def params (q : UserParams) : Ip.UserParams :=
  { length := (header q).length, protocol := protocol, ipAddress := q.ipAddress }

variable {P} (s : State P) (i : In dw)

/-- The beat at the packetizer's sink; `error` is not connected. -/
def sinkBeat : Option (Beat dw) := i.sink.map fun x => { x with error := 0 }

/-- The beat at the packetizer's source. -/
def State.packet : Option (Beat dw) := P.source s.packetizer (header i.params) (sinkBeat i)

/-- `packetizer.source.ready`. -/
def State.packetReady : Bool :=
  match s.fsm with
  | .idle => false
  | .send => i.sourceReady

/-- The beat at the source, with the parameters of the packet. -/
def State.source : Option (Ip.UserParams × Beat dw) :=
  match s.fsm with
  | .idle => none
  | .send => (s.packet i).map (params i.params, ·)

/-- The packetizer takes the beat. -/
def State.sinkReady : Bool := P.sinkReady s.packetizer (header i.params) (sinkBeat i) (s.packetReady i)

/-- One cycle of the transmitter. -/
def State.next : State P where
  fsm := match s.fsm with
    | .idle => if (s.packet i).isSome then .send else .idle
    | .send => if isLast (s.packet i) && i.sourceReady then .idle else .send
  packetizer := P.step s.packetizer (header i.params) (sinkBeat i) (s.packetReady i)

end Tx

/-! ## Receiver -/

namespace Rx

/-- The states of the receiver. -/
inductive Fsm
  | idle
  | receive
  | drop
  deriving DecidableEq, Repr

/-- The inputs of one cycle: `sink` with its parameters and its beat, and `source.ready`. -/
structure In (dw : ℕ) where
  params : Ip.UserParams
  sink : Option (Beat dw)
  sourceReady : Bool

variable {dw : ℕ} (D : Depacketizer Header dw)

/-- The registers of the receiver: the FSM, the bytes given, and the depacketizer's. -/
structure State where
  fsm : Fsm
  count : BitVec 16
  depacketizer : D.State

/-- The registers after reset. -/
def State.init : State D := { fsm := .idle, count := 0, depacketizer := D.reset }

/-- The bytes of a beat, as the FSM counts them. -/
def step (dw : ℕ) : BitVec 16 := BitVec.ofNat 16 (dw / 8)

variable {D} (s : State D) (i : In dw)

/-- The beat at the depacketizer's source. -/
def State.packet : Option (Beat dw) := D.source s.depacketizer i.sink

/-- The parameters driven at `source`. -/
def State.params : UserParams :=
  { srcPort := (D.header s.depacketizer).srcPort, dstPort := (D.header s.depacketizer).dstPort
    ipAddress := i.params.ipAddress
    length := (D.header s.depacketizer).length - BitVec.ofNat 16 headerLength }

/-- `source.last` for a beat of the depacketizer. -/
def State.last (x : Beat dw) : Bool := x.last || s.count == (s.params i).length - step dw

/-- `source`; `last_be` is not connected. -/
def State.source : Option (UserParams × Beat dw) :=
  match s.fsm with
  | .receive => (s.packet i).map fun x => (s.params i, { x with lastBe := 0, last := s.last i x })
  | _ => none

/-- `depacketizer.source.ready`. -/
def State.packetReady : Bool :=
  match s.fsm with
  | .idle => false
  | .receive => i.sourceReady
  | .drop => true

/-- The depacketizer takes the beat. -/
def State.sinkReady : Bool := D.sinkReady s.depacketizer i.sink (s.packetReady i)

/-- One cycle of the receiver: what follows the length of the header is dropped. -/
def State.next : State D where
  fsm := match s.fsm with
    | .idle => if (s.packet i).isSome then (if i.params.protocol = protocol then .receive else .drop) else .idle
    | .receive =>
      match s.packet i with
      | some x =>
        if i.sourceReady then (if x.last then .idle else if s.last i x then .drop else .receive) else .receive
      | none => .receive
    | .drop => if isLast (s.packet i) then .idle else .drop
  count := match s.fsm with
    | .idle => 0
    | .receive => if (s.packet i).isSome && i.sourceReady then s.count + step dw else s.count
    | .drop => s.count
  depacketizer := D.step s.depacketizer i.sink (s.packetReady i)

end Rx

end LiteEth.Core.Udp
