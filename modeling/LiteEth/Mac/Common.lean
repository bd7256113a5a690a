/-
The MAC header: its fields, and the bytes they are encoded in.
-/
import LiteEth.Rtl.Packet

namespace LiteEth.Mac

/-- The fields of `mac_header`. -/
structure Header where
  targetMac : BitVec 48
  senderMac : BitVec 48
  ethernetType : BitVec 16
  deriving DecidableEq

namespace Header

/-- The bytes of a field, the highest one first. -/
def fieldBytes {w : ℕ} (x : BitVec w) : List (BitVec 8) :=
  (List.range (w / 8)).map fun i => x.extractLsb' (w - 8 * (i + 1)) 8

/-- The encoded header. -/
def bytes (h : Header) : List (BitVec 8) :=
  fieldBytes h.targetMac ++ fieldBytes h.senderMac ++ fieldBytes h.ethernetType

/-- The decoded fields. -/
def ofBytes (bs : List (BitVec 8)) : Header where
  targetMac := bs.getD 0 0 ++ bs.getD 1 0 ++ bs.getD 2 0 ++ bs.getD 3 0 ++ bs.getD 4 0 ++ bs.getD 5 0
  senderMac := bs.getD 6 0 ++ bs.getD 7 0 ++ bs.getD 8 0 ++ bs.getD 9 0 ++ bs.getD 10 0 ++ bs.getD 11 0
  ethernetType := bs.getD 12 0 ++ bs.getD 13 0

theorem join_16 (x : BitVec 16) : x.extractLsb' 8 8 ++ x.extractLsb' 0 8 = x := BitVec.extractLsb'_append_extractLsb'

theorem join_48 (x : BitVec 48) : x.extractLsb' 40 8 ++ x.extractLsb' 32 8 ++ x.extractLsb' 24 8 ++
    x.extractLsb' 16 8 ++ x.extractLsb' 8 8 ++ x.extractLsb' 0 8 = x := by
  repeat rw [BitVec.extractLsb'_append_extractLsb'_eq_extractLsb' (by decide)]
  exact BitVec.extractLsb'_eq_self

/-- What is encoded is decoded. -/
theorem ofBytes_bytes (h : Header) : ofBytes h.bytes = h := by
  obtain ⟨targetMac, senderMac, ethernetType⟩ := h
  exact congr (congr (congrArg mk (join_48 targetMac)) (join_48 senderMac)) (join_16 ethernetType)

end Header

end LiteEth.Mac
