/-
`core/icmp.py`: the ICMP transmitter, the receiver, and the echo between them. The receiver drops what is not ICMP.
The echo stores each message, and sends it back as an echo reply, with its checksum adjusted for the type of an echo
request.
-/
import LiteEth.Core.Ip
import LiteEth.Rtl.PacketBuffer
import LiteEth.Rtl.PacketGate

namespace LiteEth.Core.Icmp

open LiteEth.Rtl

/-- The fields of `icmp_header`. -/
structure Header where
  msgtype : BitVec 8
  code : BitVec 8
  checksum : BitVec 16
  quench : BitVec 32
  deriving DecidableEq

/-- `icmp_header_length`. -/
def headerLength : ℕ := 8

theorem headerLength_pos : 0 < headerLength := by decide

/-- The encoded header. -/
def Header.bytes (h : Header) : List (BitVec 8) :=
  [h.msgtype, h.code] ++ [h.checksum.extractLsb' 8 8, h.checksum.extractLsb' 0 8] ++
    [h.quench.extractLsb' 24 8, h.quench.extractLsb' 16 8, h.quench.extractLsb' 8 8, h.quench.extractLsb' 0 8]

/-- The decoded fields. -/
def Header.ofBytes (bs : List (BitVec 8)) : Header where
  msgtype := bs.getD 0 0
  code := bs.getD 1 0
  checksum := bs.getD 2 0 ++ bs.getD 3 0
  quench := bs.getD 4 0 ++ bs.getD 5 0 ++ bs.getD 6 0 ++ bs.getD 7 0

theorem Header.ofBytes_bytes (h : Header) : ofBytes h.bytes = h := by
  have h16 : ∀ x : BitVec 16, (x.extractLsb' 8 8 ++ x.extractLsb' 0 8 : BitVec 16) = x := fun _ =>
    BitVec.extractLsb'_append_extractLsb'
  have h32 : ∀ x : BitVec 32, (x.extractLsb' 24 8 ++ x.extractLsb' 16 8 ++ x.extractLsb' 8 8 ++ x.extractLsb' 0 8 :
      BitVec 32) = x := Ip.fieldByte_32
  obtain ⟨a, b, c, d⟩ := h
  simp [bytes, ofBytes, h16, h32]

/-- `icmp_protocol`. -/
def protocol : BitVec 8 := 0x01

/-- The type of an echo request. -/
def echoRequest : BitVec 8 := 8

/-- The parameters of a message of `eth_icmp_user_description(dw)`. -/
structure UserParams where
  header : Header
  ipAddress : BitVec 32
  length : BitVec 16
  deriving DecidableEq

variable {ε : Type} {dw : ℕ}

/-! ## Transmitter -/

namespace Tx

/-- The states of the transmitter. -/
inductive Fsm
  | idle
  | send
  deriving DecidableEq, Repr

variable (P : Packetizer Header dw)

/-- The registers of the transmitter. -/
structure State where
  fsm : Fsm
  packetizer : P.State

/-- The registers after reset. -/
def State.init : State P := { fsm := .idle, packetizer := P.reset }

/-- The parameters driven at `source`. -/
def params (q : UserParams) : Ip.UserParams :=
  { length := q.length + BitVec.ofNat 16 headerLength, protocol := protocol, ipAddress := q.ipAddress }

variable {P} (s : State P) (q : UserParams) (a : Option (Beat dw)) (r : Bool)

/-- The beat at the packetizer's sink; `error` is not connected. -/
def sinkBeat : Option (Beat dw) := a.map fun x => { x with error := 0 }

/-- The beat at the packetizer's source. -/
def State.packet : Option (Beat dw) := P.source s.packetizer q.header (sinkBeat a)

/-- `packetizer.source.ready`. -/
def State.packetReady : Bool :=
  match s.fsm with
  | .idle => false
  | .send => r

/-- The beat at the source, with the parameters of the packet. -/
def State.source : Option (Ip.UserParams × Beat dw) :=
  match s.fsm with
  | .idle => none
  | .send => (s.packet q a).map (params q, ·)

/-- The packetizer takes the beat. -/
def State.sinkReady : Bool := P.sinkReady s.packetizer q.header (sinkBeat a) (s.packetReady r)

/-- One cycle of the transmitter. -/
def State.next : State P where
  fsm := match s.fsm with
    | .idle => if (s.packet q a).isSome then .send else .idle
    | .send => if isLast (s.packet q a) && r then .idle else .send
  packetizer := P.step s.packetizer q.header (sinkBeat a) (s.packetReady r)

end Tx

/-- `LiteEthICMPTX`; `idle` drives its sink while `sink.valid = 0`. -/
abbrev icmptx (P : Packetizer Header dw) (idle : ε → UserParams) :
    Stage ε (UserParams × Beat dw) (Ip.UserParams × Beat dw) where
  State := Tx.State P
  reset := .init P
  source s e a := s.source (a.elim (idle e) (·.1)) (a.map (·.2))
  ready s e a r := s.sinkReady (a.elim (idle e) (·.1)) (a.map (·.2)) r
  step s e a r := s.next (a.elim (idle e) (·.1)) (a.map (·.2)) r

/-! ## Receiver -/

namespace Rx

/-- The states of the receiver. -/
inductive Fsm
  | idle
  | receive
  | drop
  deriving DecidableEq, Repr

variable (D : Depacketizer Header dw)

/-- The registers of the receiver. -/
structure State where
  fsm : Fsm
  depacketizer : D.State

/-- The registers after reset. -/
def State.init : State D := { fsm := .idle, depacketizer := D.reset }

/-- The parameters driven at `source`. -/
def params (h : Header) (u : Ip.UserParams) : UserParams :=
  { header := h, ipAddress := u.ipAddress, length := u.length - BitVec.ofNat 16 headerLength }

variable {D} (s : State D) (u : Ip.UserParams) (a : Option (Beat dw)) (r : Bool)

/-- The beat at the depacketizer's source. -/
def State.packet : Option (Beat dw) := D.source s.depacketizer a

/-- The beat at the source, with the parameters of the packet. -/
def State.source : Option (UserParams × Beat dw) :=
  match s.fsm with
  | .receive => (s.packet a).map (params (D.header s.depacketizer) u, ·)
  | _ => none

/-- `depacketizer.source.ready`. -/
def State.packetReady : Bool :=
  match s.fsm with
  | .idle => false
  | .receive => r
  | .drop => true

/-- The depacketizer takes the beat. -/
def State.sinkReady : Bool := D.sinkReady s.depacketizer a (s.packetReady r)

/-- One cycle of the receiver: a packet of another protocol is dropped. -/
def State.next : State D where
  fsm := match s.fsm with
    | .idle => if (s.packet a).isSome then (if u.protocol = protocol then .receive else .drop) else .idle
    | .receive => if isLast (s.packet a) && r then .idle else .receive
    | .drop => if isLast (s.packet a) then .idle else .drop
  depacketizer := D.step s.depacketizer a (s.packetReady r)

end Rx

/-- `LiteEthICMPRX`; `idle` drives its sink while `sink.valid = 0`. -/
abbrev icmprx (D : Depacketizer Header dw) (idle : ε → Ip.UserParams) :
    Stage ε (Ip.UserParams × Beat dw) (UserParams × Beat dw) where
  State := Rx.State D
  reset := .init D
  source s e a := s.source (a.elim (idle e) (·.1)) (a.map (·.2))
  ready s _ a r := s.sinkReady (a.map (·.2)) r
  step s e a r := s.next (a.elim (idle e) (·.1)) (a.map (·.2)) r

/-! ## Echo -/

/-- The last beat of a message. -/
abbrev UserParams.last (a : UserParams × Beat dw) : Bool := a.2.last

/-- `payload_depth` of the buffer. -/
def payloadDepth (dw : ℕ) : ℕ := 128 / (dw / 8)

/-- The parameters of the reply to a message. -/
def reply (q : UserParams) : UserParams :=
  { q with header := { q.header with
      msgtype := 0
      checksum := q.header.checksum + 0x800 + if 0xf800 ≤ q.header.checksum then 1 else 0 } }

/-- `LiteEthICMPEcho`, with its buffer. -/
abbrev icmpecho (F : PacketFIFO (UserParams × Beat dw) UserParams.last) :
    Stage ε (UserParams × Beat dw) (UserParams × Beat dw) where
  State := F.State
  reset := F.reset
  source s _ _ := (F.source s).map fun a => (reply a.1, a.2)
  ready s _ _ _ := F.sinkReady s
  step s _ a r := F.step s a r

/-! ## ICMP -/

/-- `LiteEthICMP`: the receiver, the echo and the transmitter. -/
abbrev icmp (D : Depacketizer Header dw) (F : PacketFIFO (UserParams × Beat dw) UserParams.last) (P : Packetizer Header dw)
    (idleRx : ε → Ip.UserParams) (idleTx : ε → UserParams) :
    Stage ε (Ip.UserParams × Beat dw) (Ip.UserParams × Beat dw) :=
  (icmprx D idleRx).andThen ((icmpecho F).andThen (icmptx P idleTx))

end LiteEth.Core.Icmp
