/-
`core/ip.py`: the IPv4 transmitter. It computes the header's checksum while the packetizer is held
back, resolves the MAC address of the target through the ARP table, and then sends the packet or,
when the table has no address for it, drops it.
-/
import LiteEth.Core.IpChecksum
import LiteEth.Rtl.Packet

namespace LiteEth.Core.Ip

open LiteEth.Rtl

/-- The fields of `ipv4_header`. -/
structure Header where
  ihl : BitVec 4
  version : BitVec 4
  totalLength : BitVec 16
  identification : BitVec 16
  ttl : BitVec 8
  protocol : BitVec 8
  checksum : BitVec 16
  senderIp : BitVec 32
  targetIp : BitVec 32
  deriving DecidableEq

/-- `ipv4_header_length`. -/
theorem headerLength_pos : 0 < 20 := by decide

/-- The `i`-th byte of a field, the highest one first. -/
def fieldByte {n : Nat} (x : BitVec n) (i : Nat) : BitVec 8 := x.extractLsb' (n - 8 * (i + 1)) 8

/-- The encoded header. -/
def Header.bytes (h : Header) : HeaderBytes
  | 0 => h.version ++ h.ihl
  | 2 => fieldByte h.totalLength 0
  | 3 => fieldByte h.totalLength 1
  | 4 => fieldByte h.identification 0
  | 5 => fieldByte h.identification 1
  | 8 => h.ttl
  | 9 => h.protocol
  | 10 => fieldByte h.checksum 0
  | 11 => fieldByte h.checksum 1
  | 12 => fieldByte h.senderIp 0
  | 13 => fieldByte h.senderIp 1
  | 14 => fieldByte h.senderIp 2
  | 15 => fieldByte h.senderIp 3
  | 16 => fieldByte h.targetIp 0
  | 17 => fieldByte h.targetIp 1
  | 18 => fieldByte h.targetIp 2
  | 19 => fieldByte h.targetIp 3
  | _ => 0

/-- The decoded fields. -/
def Header.ofBytes (b : HeaderBytes) : Header where
  ihl := (b 0).extractLsb' 0 4
  version := (b 0).extractLsb' 4 4
  totalLength := b 2 ++ b 3
  identification := b 4 ++ b 5
  ttl := b 8
  protocol := b 9
  checksum := b 10 ++ b 11
  senderIp := b 12 ++ b 13 ++ b 14 ++ b 15
  targetIp := b 16 ++ b 17 ++ b 18 ++ b 19

theorem fieldByte_16 (x : BitVec 16) : fieldByte x 0 ++ fieldByte x 1 = x := BitVec.extractLsb'_append_extractLsb'

theorem fieldByte_32 (x : BitVec 32) : fieldByte x 0 ++ fieldByte x 1 ++ fieldByte x 2 ++ fieldByte x 3 = x := by
  have h1 : fieldByte x 0 ++ fieldByte x 1 = x.extractLsb' 16 16 :=
    BitVec.extractLsb'_append_extractLsb'_eq_extractLsb' (by decide)
  have h2 : x.extractLsb' 16 16 ++ fieldByte x 2 = x.extractLsb' 8 24 :=
    BitVec.extractLsb'_append_extractLsb'_eq_extractLsb' (by decide)
  have h3 : x.extractLsb' 8 24 ++ fieldByte x 3 = x := BitVec.extractLsb'_append_extractLsb'
  rw [h1, h2, h3]

/-- What is encoded is decoded. -/
theorem Header.ofBytes_bytes (h : Header) : ofBytes h.bytes = h := by
  have hihl : (h.version ++ h.ihl).extractLsb' 0 4 = h.ihl := BitVec.extractLsb'_append_eq_right
  have hversion : (h.version ++ h.ihl).extractLsb' 4 4 = h.version := BitVec.extractLsb'_append_eq_left
  unfold ofBytes
  simp only [bytes, hihl, hversion, fieldByte_16, fieldByte_32]

/-- The parameters of a packet of `eth_ipv4_user_description(dw)`. -/
structure UserParams where
  length : BitVec 16
  protocol : BitVec 8
  ipAddress : BitVec 32
  deriving DecidableEq

/-- `mcast_oui`: the first three bytes of the MAC address of a group. -/
def mcastOui : BitVec 24 := 0x01005e

/-- `mcast_ip_mask`: the first four bits of the address of a group. -/
def mcastIpMask : BitVec 4 := BitVec.ofNat 4 (224 >>> 4)

/-- The constructor arguments of the transmitter (with `dummy_checksum=False`). -/
structure Params where
  macAddress : BitVec 48
  ipAddress : BitVec 32
  dw : Nat

namespace Tx

/-- The engine of the transmitter. -/
def engine : Checksum.Params := { wordsPerClockCycle := 1, skipChecksum := true }

/-- The states of the transmitter. -/
inductive Fsm
  | idle
  | sendMacAddressRequest
  | waitMacAddressResponse
  | send
  | drop
  deriving DecidableEq, Repr

/-- The inputs of one cycle: `sink` with its parameters and beat, `source.ready`, and the table's
side of the MAC address request and response. -/
structure In (dw : Nat) where
  sinkValid : Bool
  params : UserParams
  beat : Beat dw
  sourceReady : Bool
  requestReady : Bool
  responseValid : Bool
  responseFailed : Bool
  responseMac : BitVec 48

variable (p : Params) (P : Packetizer Header p.dw)

/-- The registers of the transmitter: the FSM, the MAC address of the target, and those of the checksum and the packetizer.
-/
structure State where
  fsm : Fsm
  targetMac : BitVec 48
  checksum : Checksum.State
  packetizer : P.State

/-- The registers after reset. -/
def State.init : State p P := { fsm := .idle, targetMac := 0, checksum := .init, packetizer := P.reset }

/-- The fields driven at the packetizer's sink for a packet and a checksum. -/
def header (q : UserParams) (checksum : BitVec 16) : Header :=
  { targetIp := q.ipAddress, protocol := q.protocol
    totalLength := BitVec.ofNat 16 ipv4HeaderLength + q.length, version := 0x4
    ihl := BitVec.ofNat 4 (ipv4HeaderLength / 4), identification := 0, ttl := 0x80
    senderIp := p.ipAddress, checksum := checksum }

/-- The bytes the engine reads; it leaves the checksum field out. -/
def summed (q : UserParams) : HeaderBytes := (header p q 0).bytes

variable {p P}

/-- `checksum.done`. -/
def State.done (s : State p P) : Bool := s.checksum.done engine

/-- The fields at the packetizer's sink. -/
def State.header (s : State p P) (q : UserParams) : Header :=
  Tx.header p q (s.checksum.value engine (summed p q))

/-- The beat at the packetizer's sink: none before the checksum is done. `error` is not connected. -/
def State.sinkBeat (s : State p P) (i : In p.dw) : Option (Beat p.dw) :=
  if i.sinkValid && s.done then some { i.beat with error := 0 } else none

/-- The beat at the packetizer's source. -/
def State.packet (s : State p P) (i : In p.dw) : Option (Beat p.dw) :=
  P.source s.packetizer (s.header i.params) (s.sinkBeat i)

/-- `packetizer.source.ready`. -/
def State.packetReady (s : State p P) (i : In p.dw) : Bool :=
  match s.fsm with
  | .send => i.sourceReady
  | .drop => true
  | _ => false

/-- `source`. -/
def State.source (s : State p P) (i : In p.dw) : Option (Beat p.dw) :=
  if s.fsm = .send then s.packet i else none

/-- `sink.ready`. -/
def State.sinkReady (s : State p P) (i : In p.dw) : Bool :=
  P.sinkReady s.packetizer (s.header i.params) (s.sinkBeat i) (s.packetReady i) && s.done

/-- `target_unreachable`. -/
def State.targetUnreachable (s : State p P) (i : In p.dw) : Bool :=
  s.fsm == .waitMacAddressResponse && i.responseValid && i.responseFailed

/-- A multicast address. -/
def isMulticast (ip : BitVec 32) : Bool := ip.extractLsb' 28 4 == mcastIpMask

/-- One cycle of the transmitter: a packet whose target is not found is dropped. -/
def State.next (s : State p P) (i : In p.dw) : State p P :=
  { fsm := match s.fsm with
      | .idle =>
        if (s.packet i).isSome then (if isMulticast i.params.ipAddress then .send else .sendMacAddressRequest)
        else .idle
      | .sendMacAddressRequest => if i.requestReady then .waitMacAddressResponse else .sendMacAddressRequest
      | .waitMacAddressResponse =>
        if i.responseValid then (if i.responseFailed then .drop else .send) else .waitMacAddressResponse
      | .send => if isLast (s.source i) && i.sourceReady then .idle else .send
      | .drop => if isLast (s.packet i) then .idle else .drop
    targetMac := match s.fsm with
      | .idle =>
        if (s.packet i).isSome && isMulticast i.params.ipAddress then
          mcastOui ++ 0#1 ++ i.params.ipAddress.extractLsb' 0 23
        else s.targetMac
      | .waitMacAddressResponse => if i.responseValid then i.responseMac else s.targetMac
      | _ => s.targetMac
    checksum := s.checksum.next engine i.sinkValid (isLast (s.source i) && i.sourceReady) (summed p i.params)
    packetizer := P.step s.packetizer (s.header i.params) (s.sinkBeat i) (s.packetReady i) }

end Tx

end LiteEth.Core.Ip
