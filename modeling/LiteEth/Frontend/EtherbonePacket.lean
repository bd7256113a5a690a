/-
`frontend/etherbone.py`: the transmitter of Etherbone packets. It puts the Etherbone header before what the record
module or the probe sends, for the UDP port of Etherbone.
-/
import LiteEth.Core.Udp
import LiteEth.Rtl.PacketGate

namespace LiteEth.Frontend.Etherbone

open LiteEth.Rtl LiteEth.Core

/-- The fields of `etherbone_packet_header`. -/
structure PacketHeader where
  magic : BitVec 16
  version : BitVec 4
  nr : Bool
  pr : Bool
  pf : Bool
  addrSize : BitVec 4
  portSize : BitVec 4
  deriving DecidableEq

/-- `etherbone_packet_header.length`. -/
def packetHeaderLength : ℕ := 8

/-- The header on the wire, first byte to the right. -/
def PacketHeader.words (h : PacketHeader) : List (BitVec 32) :=
  [h.addrSize ++ h.portSize ++ h.version ++ 0#1 ++ BitVec.ofBool h.nr ++ BitVec.ofBool h.pr ++ BitVec.ofBool h.pf ++
    h.magic.extractLsb' 0 8 ++ h.magic.extractLsb' 8 8, 0]

/-- The parameters of `eth_etherbone_packet_user_description(32)` that the transmitter reads. -/
structure PacketUserParams where
  nr : Bool
  pr : Bool
  pf : Bool
  ipAddress : BitVec 32
  length : BitVec 16
  deriving DecidableEq

namespace PacketTx

/-- `etherbone_magic`. -/
def etherboneMagic : BitVec 16 := 0x4e6f

/-- `etherbone_version`. -/
def etherboneVersion : BitVec 4 := 1

/-- The fields driven at the packetizer's sink. -/
def header (q : PacketUserParams) : PacketHeader :=
  { magic := etherboneMagic, version := etherboneVersion, nr := q.nr, pr := q.pr, pf := q.pf
    addrSize := BitVec.ofNat 4 (32 / 8), portSize := BitVec.ofNat 4 (32 / 8) }

/-- The parameters driven at `source`. -/
def params (udpPort : BitVec 16) (q : PacketUserParams) : Udp.UserParams :=
  { srcPort := udpPort, dstPort := udpPort, ipAddress := q.ipAddress
    length := q.length + BitVec.ofNat 16 packetHeaderLength }

/-- The beats at the packetizer, to which `last_be` and `error` are not connected. -/
abbrev feed (udpPort : BitVec 16) :
    Packetizer.Feed PacketHeader (PacketUserParams × Beat 32) (Udp.UserParams × Beat 32) 32 where
  header a := header a.1
  beat a := { a.2 with lastBe := 0, error := 0 }
  out a b := (params udpPort a.1, b)

/-- `LiteEthEtherbonePacketTX`: an FSM that goes to `SEND` once the packetizer has a word, and passes on its packet;
`idle` is at the sink while it is not valid. -/
abbrev packetTx {ε : Type} (udpPort : BitVec 16) (P : Packetizer PacketHeader 32) (idle : ε → PacketUserParams × Beat 32) :
    Stage ε (PacketUserParams × Beat 32) (Udp.UserParams × Beat 32) :=
  P.transmitter (feed udpPort) (·.2.last) idle

end PacketTx

end LiteEth.Frontend.Etherbone
