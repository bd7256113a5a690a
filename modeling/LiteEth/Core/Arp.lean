/-
`core/arp.py`: the ARP transmitter, the ARP receiver and their composition with the table. The
receiver hands the decoded fields of a frame to the table in one cycle; the table and the
transmitter read them again, from the same wires, for as long as a reply is being sent.
-/
import LiteEth.Core.ArpTable
import LiteEth.Rtl.Packet

namespace LiteEth.Core.Arp

open LiteEth.Rtl

/-- The fields of `arp_header`. -/
structure Header where
  hwtype : BitVec 16
  proto : BitVec 16
  hwsize : BitVec 8
  protosize : BitVec 8
  opcode : BitVec 16
  senderMac : BitVec 48
  senderIp : BitVec 32
  targetMac : BitVec 48
  targetIp : BitVec 32
  deriving DecidableEq

/-- `arp_hwtype_ethernet`. -/
def hwtypeEthernet : BitVec 16 := 0x0001

/-- `arp_proto_ip`. -/
def protoIp : BitVec 16 := 0x0800

/-- `arp_opcode_request`. -/
def opcodeRequest : BitVec 16 := 0x0001

/-- `arp_opcode_reply`. -/
def opcodeReply : BitVec 16 := 0x0002

/-- `arp_header.length`. -/
def headerLength : Nat := 28

/-- The header as it is on the wire, first byte on the left. -/
def Header.bits (h : Header) : BitVec 224 :=
  h.hwtype ++ h.proto ++ h.hwsize ++ h.protosize ++ h.opcode ++ h.senderMac ++ h.senderIp ++ h.targetMac ++
    h.targetIp

/-- The `k`-th byte of the header. -/
def Header.byte (h : Header) (k : Nat) : BitVec 8 := h.bits.extractLsb' (8 * (headerLength - 1 - k)) 8

/-- The fields of a shift register of bytes. -/
def Header.ofBytes (bs : List (BitVec 8)) : Header :=
  let b : BitVec 224 := BitVec.ofNat 224 (bs.foldl (fun a x => a * 256 + x.toNat) 0)
  { hwtype := b.extractLsb' 208 16, proto := b.extractLsb' 192 16, hwsize := b.extractLsb' 184 8
    protosize := b.extractLsb' 176 8, opcode := b.extractLsb' 160 16, senderMac := b.extractLsb' 112 48
    senderIp := b.extractLsb' 80 32, targetMac := b.extractLsb' 32 48, targetIp := b.extractLsb' 0 32 }

/-- The constructor arguments the transmitter and the receiver share. -/
structure Params where
  macAddress : BitVec 48
  ipAddress : BitVec 32
  dw : Nat

variable (p : Params)

/-! ## Transmitter -/

namespace Tx

/-- The states of the transmitter. -/
inductive Fsm
  | idle
  | send
  deriving DecidableEq, Repr

/-- `packet_length`: an ARP frame is padded to the least Ethernet payload. -/
def packetLength : Nat := max headerLength ethMinLen

/-- `packet_words`. -/
def packetWords : Nat := packetLength / (p.dw / 8)

variable (P : Packetizer Header p.dw)

/-- The registers of the transmitter: the FSM, the words sent, and those of its packetizer. -/
structure State where
  fsm : Fsm
  counter : Nat
  packetizer : P.State

/-- The registers after reset. -/
def State.init : State p P := { fsm := .idle, counter := 0, packetizer := P.reset }

/-- The fields the transmitter drives at the packetizer's sink. Neither a reply nor a request
leaves `opcode` and `target_mac` at zero. -/
def header (sink : TableRecord) : Header :=
  { hwtype := hwtypeEthernet, proto := protoIp, hwsize := 6, protosize := 4
    opcode := if sink.reply then opcodeReply else if sink.request then opcodeRequest else 0
    senderMac := p.macAddress, senderIp := p.ipAddress
    targetMac := if sink.reply then sink.macAddress else if sink.request then 0xffffffffffff else 0
    targetIp := sink.ipAddress }

/-- `source.target_mac`. -/
def targetMac (sink : TableRecord) : BitVec 48 := (header p sink).targetMac

variable {p P}

/-- The beat at the packetizer's sink, valid in `SEND`: padding up to the packet's length. -/
def State.pad (s : State p P) : Option (Beat p.dw) :=
  if s.fsm = .send then
    some
      { data := 0, error := 0, last := s.counter == packetWords p - 1
        lastBe := if p.dw / 8 = 1 then 1 else BitVec.ofNat _ (2 ^ (packetLength % (p.dw / 8) - 1)) }
  else none

/-- `source`, connected in `SEND`. -/
def State.source (s : State p P) (sink : TableRecord) : Option (Beat p.dw) :=
  if s.fsm = .send then P.source s.packetizer (header p sink) s.pad else none

/-- `sink.ready`. -/
def State.sinkReady (s : State p P) (sink : TableRecord) (sourceReady : Bool) : Bool :=
  isLast (s.source sink) && sourceReady

/-- One cycle of the transmitter. -/
def State.next (s : State p P) (sinkValid : Bool) (sink : TableRecord) (sourceReady : Bool) : State p P :=
  { fsm := match s.fsm with
      | .idle => if sinkValid then .send else .idle
      | .send => if s.sinkReady sink sourceReady then .idle else .send
    counter := match s.fsm with
      | .idle => 0
      | .send =>
        if (s.source sink).isSome && sourceReady then (s.counter + 1) % 2 ^ bitsFor (packetWords p - 1)
        else s.counter
    packetizer := P.step s.packetizer (header p sink) s.pad (s.fsm == .send && sourceReady) }

end Tx

/-! ## Receiver -/

namespace Rx

/-- The states of the receiver. -/
inductive Fsm
  | idle
  | check
  | terminate
  deriving DecidableEq, Repr

variable (D : Depacketizer Header p.dw)

/-- The registers of the receiver: the FSM, whether the frame that is shown is for this host, and the depacketizer's. -/
structure State where
  fsm : Fsm
  valid : Bool
  depacketizer : D.State

/-- The registers after reset. -/
def State.init : State p D := { fsm := .idle, valid := false, depacketizer := D.reset }

/-- The fields of a frame that are checked: ARP for IPv4 over Ethernet, for our address. -/
def forUs (h : Header) : Bool :=
  h.hwtype == hwtypeEthernet && h.proto == protoIp && h.hwsize == 6 && h.protosize == 4 &&
    h.targetIp == p.ipAddress

variable {p D}

/-- The decoded fields of the frame. -/
def State.header (s : State p D) : Header := D.header s.depacketizer

/-- `source.valid`. -/
def State.sourceValid (s : State p D) : Bool := s.fsm == .check && s.valid

/-- The fields of `source`; the addresses are driven in every state. -/
def State.source (s : State p D) : TableRecord :=
  { reply := s.sourceValid && s.header.opcode == opcodeReply
    request := s.sourceValid && s.header.opcode == opcodeRequest
    ipAddress := s.header.senderIp
    macAddress := s.header.senderMac }

/-- `depacketizer.source.ready`. -/
def State.ready (s : State p D) (sink : Option (Beat p.dw)) : Bool :=
  match s.fsm with
  | .idle => (D.source s.depacketizer sink).isNone
  | .check => false
  | .terminate => true

/-- One cycle of the receiver. -/
def State.next (s : State p D) (sink : Option (Beat p.dw)) : State p D :=
  let source := D.source s.depacketizer sink
  { fsm := match s.fsm with
      | .idle => if source.isSome then .check else .idle
      | .check => .terminate
      | .terminate => if isLast source then .idle else .terminate
    valid := source.isSome && forUs p s.header
    depacketizer := D.step s.depacketizer sink (s.ready sink) }

/-- A frame goes to `CHECK` from `IDLE`, when its header is complete, and stays where it is. -/
theorem check_next {s : State p D} {sink : Option (Beat p.dw)} (h : (s.next sink).fsm = .check) :
    s.fsm = .idle ∧ (D.source s.depacketizer sink).isSome = true ∧ D.inHeader (s.next sink).depacketizer = false ∧
      (s.next sink).header = s.header ∧ ((s.next sink).valid = true → forUs p s.header = true) := by
  have hi : s.fsm = .idle ∧ (D.source s.depacketizer sink).isSome = true := by
    unfold State.next at h
    cases hf : s.fsm with
    | idle =>
      rw [hf] at h
      dsimp only at h
      split_ifs at h with hs
      exact ⟨rfl, hs⟩
    | check => rw [hf] at h; cases h
    | terminate => rw [hf] at h; dsimp only at h; split_ifs at h
  obtain ⟨hf, hs⟩ := hi
  -- the header has been taken: nothing is shown before its end
  have hin : D.inHeader s.depacketizer = false := by
    rw [← Bool.not_eq_true]
    intro hin
    rw [D.source_inHeader _ _ hin] at hs
    cases hs
  -- `CHECK` is entered before the beat that is shown is taken
  have hr : s.ready sink = false := by
    rw [State.ready, hf]
    simpa using hs
  refine ⟨hf, hs, ?_, D.header_step _ _ _ (.inl hin), fun hv => ?_⟩
  · show D.inHeader (D.step _ _ _) = false
    rw [D.inHeader_step _ _ _ hin, hr, Bool.and_false]
  · have hv' : ((D.source s.depacketizer sink).isSome && forUs p s.header) = true := hv
    rw [Bool.and_eq_true] at hv'
    exact hv'.2

/-- The frame in `CHECK` is still there in the cycle after. -/
theorem header_next {s : State p D} (h : D.inHeader s.depacketizer = false) (sink : Option (Beat p.dw)) :
    (s.next sink).header = s.header := D.header_step _ _ _ (.inl h)

end Rx

end LiteEth.Core.Arp
