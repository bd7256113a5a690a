/-
`frontend/etherbone.py`: the Wishbone slave. Each operation of its bus is sent as a packet of one beat. A write is
acknowledged as soon as its beat is taken, a read once a word comes back.
-/
import LiteEth.Frontend.EtherboneLink
import LiteEth.Frontend.EtherboneMaster

namespace LiteEth.Frontend.Etherbone

open LiteEth.Rtl

namespace Slave

/-- The states of the Wishbone slave. -/
inductive Fsm
  | idle
  | sendWrite
  | sendRead
  | waitRead
  deriving DecidableEq, Repr

/-- An operation on the bus: its signals while `stb` and `cyc` are one. -/
structure Op where
  adr : BitVec 30
  datW : BitVec 32
  sel : BitVec 4
  we : Bool
  deriving DecidableEq

/-- The beat of `SEND_WRITE`. Undriven fields are zero. -/
def Op.writeBeat (o : Op) : MmapBeat Unit :=
  { we := true, count := 1, baseAddr := plain (o.adr ++ 0#2), be := o.sel, addr := plain 0, data := plain o.datW
    last := true }

/-- The beat of `SEND_READ`. -/
def Op.readBeat (o : Op) : MmapBeat Unit :=
  { we := false, count := 1, baseAddr := plain 0, be := o.sel, addr := plain 0, data := plain (o.adr ++ 0#2)
    last := true }

/-- `source`, which is valid in both sending states. -/
def Fsm.source (s : Fsm) (bus : Op) : Option (MmapBeat Unit) :=
  match s with
  | .sendWrite => some bus.writeBeat
  | .sendRead => some bus.readBeat
  | _ => none

/-- `sink.ready`. -/
def Fsm.sinkReady (s : Fsm) : Bool := s == .idle || s == .waitRead

/-- `bus.ack`. -/
def Fsm.ack (s : Fsm) (sourceReady : Bool) (sink : Option (MmapBeat Unit)) : Bool :=
  match s with
  | .sendWrite => sourceReady
  | .waitRead => sink.any (·.we)
  | _ => false

/-- `bus.dat_r`. -/
def Fsm.datR (s : Fsm) (sink : Option (MmapBeat Unit)) : BitVec 32 :=
  match s with
  | .waitRead => if sink.any (·.we) then sink.elim 0 (·.data.bits) else 0
  | _ => 0

/-- The state after a clock edge; `bus` is none while `stb` or `cyc` is zero. -/
def Fsm.next (s : Fsm) (bus : Option Op) (sourceReady : Bool) (sink : Option (MmapBeat Unit)) : Fsm :=
  match s with
  | .idle => bus.elim .idle fun o => if o.we then .sendWrite else .sendRead
  | .sendWrite => if sourceReady then .idle else .sendWrite
  | .sendRead => if sourceReady then .waitRead else .sendRead
  | .waitRead => if sink.any (·.we) then .idle else .waitRead

/-! ## Operations as beats -/

/-- The beat of an operation. -/
def Op.beat (o : Op) : MmapBeat Unit := if o.we then o.writeBeat else o.readBeat

/-- The state in which it is sent. -/
def Op.sending (o : Op) : Fsm := if o.we then .sendWrite else .sendRead

/-- What arrives of it at the other end. -/
def Op.asked (o : Op) : MmapBeat Unit := carried o.beat

/-- What comes back for a word. -/
def Op.returned (o : Op) (d : BitVec 32) : MmapBeat Unit := carried (Master.answer o.asked d)

/-- The operation on the remote bus. A read asks for no byte in particular. -/
def Op.access (o : Op) : Master.Bus where
  adr := o.adr
  datW := if o.we then o.datW else 0
  sel := if o.we then o.sel else 0
  stb := true
  we := o.we
  cyc := true

variable (o : Op) (d : BitVec 32)

theorem sending_source : o.sending.source o = some o.beat := by
  unfold Op.sending Op.beat
  cases o.we <;> rfl

theorem single_beat : Single o.beat := by
  unfold Op.beat
  cases o.we <;> exact ⟨rfl, rfl⟩

theorem asked_we : o.asked.we = o.we := by
  unfold Op.asked carried Op.beat
  cases o.we <;> rfl

theorem asked_last : o.asked.last = true := by
  unfold Op.asked carried Op.beat
  cases o.we <;> rfl

theorem adr_word : ((o.adr ++ 0#2) >>> 2).setWidth 30 = o.adr := by
  ext i hi
  simp only [BitVec.getElem_setWidth, BitVec.getLsbD_ushiftRight, BitVec.getLsbD_append]
  grind

/-- What arrives is carried out as it was asked for. -/
theorem access_asked : Master.access o.asked = o.access := by
  have hadr := adr_word o
  unfold Master.access Op.asked Op.access carried Op.beat
  cases o.we with
  | true =>
    simp only [if_true, Op.writeBeat, Burst.write, Burst.single, plain]
    simp [hadr]
  | false =>
    simp only [Bool.false_eq_true, if_false, Op.readBeat, Burst.read, Burst.single, plain]
    simp [hadr]

theorem single_answer : Single (Master.answer o.asked d) := by
  unfold Master.answer Op.asked carried Op.beat
  cases o.we <;> exact ⟨rfl, rfl⟩

/-- The word comes back as a write. -/
theorem returned_eq : (o.returned d).we = true ∧ (o.returned d).data.bits = d := ⟨rfl, rfl⟩

end Slave

end LiteEth.Frontend.Etherbone
