/-
The receiving side of `LiteEthMACCoreCrossbar`: frames from the core go to the hardware MAC and to the
CPU. With a hardware MAC address the header is taken off, and the frames for that address are kept from
the CPU; each branch has a FIFO, and puts the header back. Without one both branches are given
everything. A beat passes when the branches it is due to can take it.
-/
import LiteEth.Mac.Common
import LiteEth.Rtl.Fork
import LiteEth.Rtl.PacketSim
import LiteEth.Rtl.StreamFifo

namespace LiteEth.Mac.CoreCrossbar

open LiteEth.Rtl

/-- `mac_header_length`. -/
def macHeaderLength : ℕ := 14

/-- The parts of the receiving side with a hardware MAC address, each by what is relied on. -/
structure Parts where
  depacketizer : Depacketizer Header 8
  strips : depacketizer.StripsWords macHeaderLength Header.ofBytes
  hwFifo : Fifo (fun _ : Unit => True) (Header × Beat 8)
  /-- An empty FIFO is writable. -/
  hwFifo_empty : ∀ s e r, hwFifo.contents s = [] → hwFifo.ready s e r = true
  cpuFifo : Fifo (fun _ : Unit => True) (Header × Beat 8)
  cpuFifo_empty : ∀ s e r, cpuFifo.contents s = [] → cpuFifo.ready s e r = true
  hwPacketizer : Packetizer Header 8
  hwPrepends : hwPacketizer.PrependsWords Header.bytes
  cpuPacketizer : Packetizer Header 8
  cpuPrepends : cpuPacketizer.PrependsWords Header.bytes
  /-- The header at the packetizers while the FIFOs show nothing. -/
  idle : Header

variable (P : Parts)

/-- `hw_fifo` and `hw_packetizer`, `cpu_fifo` and `cpu_packetizer`. -/
abbrev branch (F : Fifo (fun _ : Unit => True) (Header × Beat 8)) (Q : Packetizer Header 8) (idle : Header) :
    Stage Unit (Header × Beat 8) (Beat 8) :=
  F.stage.andThen (Q.stage fun _ => idle)

section Branch

variable {F : Fifo (fun _ : Unit => True) (Header × Beat 8)} {Q : Packetizer Header 8}
  (W : Q.PrependsWords Header.bytes) (idle : Header)

variable {W idle}

end Branch

/-- The target address in the header of a frame. -/
def targetMac (f : List (Beat 8)) : BitVec 48 := (Header.ofBytes ((f.take macHeaderLength).map (·.data))).targetMac

/-- The beats of the header carry no marks. -/
def Plain (f : List (Beat 8)) : Prop := ∀ b ∈ f.take macHeaderLength, b.lastBe = 0 ∧ b.error = 0

/-- What the trunk shows of a frame. -/
def shown (f : List (Beat 8)) : List (Header × Beat 8) :=
  (f.drop macHeaderLength).map (Header.ofBytes ((f.take macHeaderLength).map (·.data)), ·)

/-- The depth of the FIFOs, and the length of the header. -/
theorem fifoDepth_pos : 0 < 4 := by decide

theorem macHeaderLength_pos : 0 < macHeaderLength := by decide

/-- The parts, with the FIFOs of the source. -/
def parts : Parts where
  depacketizer := .words macHeaderLength macHeaderLength_pos Header.ofBytes
  strips := Depacketizer.stripsWords_words macHeaderLength macHeaderLength_pos Header.ofBytes
  hwFifo := .buffered _ _ 4 fifoDepth_pos
  hwFifo_empty := Fifo.buffered_ready
  cpuFifo := .buffered _ _ 4 fifoDepth_pos
  cpuFifo_empty := Fifo.buffered_ready
  hwPacketizer := .words macHeaderLength fun h k => h.bytes.getD k 0
  hwPrepends := Packetizer.prependsWords_words macHeaderLength macHeaderLength_pos fun (h : Header) k => h.bytes.getD k 0
  cpuPacketizer := .words macHeaderLength fun h k => h.bytes.getD k 0
  cpuPrepends := Packetizer.prependsWords_words macHeaderLength macHeaderLength_pos fun (h : Header) k => h.bytes.getD k 0
  idle := ⟨0, 0, 0⟩

end LiteEth.Mac.CoreCrossbar
