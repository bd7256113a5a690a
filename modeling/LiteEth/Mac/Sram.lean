/-
`mac/sram.py`: the SRAM writer of the MAC. Received packets are written into one of `nslots`
memories and reported through a status FIFO that software pops by clearing `ev.available`; the
writer never stalls its sink, so a packet that arrives while the FIFO is full has to be dropped.
-/
import LiteEth.Common
import LiteEth.Rtl.Machine
import LiteEth.Rtl.SyncFIFO

namespace LiteEth.Mac

open LiteEth.Rtl

/-- A beat of `eth_phy_description(dw)`. -/
structure PhyBeat (dw : Nat) where
  data : BitVec dw
  lastBe : BitVec (dw / 8)
  error : BitVec (dw / 8)
  last : Bool
  deriving DecidableEq

/-- The constructor arguments of the writer. -/
structure SRAMParams where
  dw : Nat
  depth : Nat
  nslots : Nat
  endianness : Endianness

/-- A writer with 32-bit words, the width its `last_be` constants are meant for. -/
abbrev wordParams (depth nslots : Nat) (e : Endianness) : SRAMParams :=
  { dw := 32, depth := depth, nslots := nslots, endianness := e }

/-- The writer as `LiteEthMACWishboneInterface` builds it: `sram_depth = eth_mtu//(dw//8)`, `dw = 32`. -/
abbrev wishboneParams (nrxslots : Nat) (e : Endianness) : SRAMParams := wordParams (ethMtu / (32 / 8)) nrxslots e

/-- The width of slot numbers. -/
def SRAMParams.slotbits (p : SRAMParams) : Nat := max (log2Int p.nslots) 1

/-- The width of the byte counter and of the reported length. -/
def lengthbits : Nat := 32

/-- An entry of the status FIFO; the timestamp type is `Unit` when no timestamp source is given. -/
structure StatEntry (τ : Type) where
  slot : Nat
  length : Nat
  timestamp : τ
  deriving DecidableEq

instance {τ : Type} [Inhabited τ] : Inhabited (StatEntry τ) := ⟨⟨0, 0, default⟩⟩

namespace Writer

/-- The states of the writer's FSM. -/
inductive Fsm
  | idle
  | write
  | discard
  | discardRemaining
  | terminate
  deriving DecidableEq, Repr

/-- The inputs of one cycle: the sink (`none` when `sink.valid = 0`), software clearing
`ev.available`, and the timestamp source. -/
structure In (dw : Nat) (τ : Type) where
  sink : Option (PhyBeat dw)
  clear : Bool
  timestamp : τ

variable {τ : Type} (p : SRAMParams) (F : SyncFIFO (StatEntry τ) p.nslots)

/-- The registers and the slot memories. -/
structure State where
  fsm : Fsm
  counter : Nat
  slot : Nat
  errors : Nat
  timestamp : τ
  statFifo : F.State
  mems : Nat → Nat → BitVec p.dw

/-- The registers and the memories after reset. -/
def State.init (t : τ) : State p F :=
  { fsm := .idle, counter := 0, slot := 0, errors := 0, timestamp := t, statFifo := F.reset,
    mems := fun _ _ => 0 }

/-- The bytes a beat counts for. The constants are those of a 32-bit sink, whatever `dw` is. -/
def inc (b : PhyBeat p.dw) : Nat :=
  match p.endianness with
  | .big =>
    if b.lastBe.toNat = 0b1000 then 1
    else if b.lastBe.toNat = 0b0100 then 2
    else if b.lastBe.toNat = 0b0010 then 3
    else 4
  | .little =>
    if b.lastBe.toNat = 0b0001 then 1
    else if b.lastBe.toNat = 0b0010 then 2
    else if b.lastBe.toNat = 0b0100 then 3
    else 4

/-- The error bit of a beat's last byte. -/
def hasError {dw : Nat} (b : PhyBeat dw) : Bool := b.error &&& b.lastBe != 0

/-- What the FSM drives in one cycle: its combinational outputs and the next values of the
registers it owns. -/
structure Drive where
  start : Bool
  ongoing : Bool
  slotCe : Bool
  statValid : Bool
  counter : Nat
  errors : Nat
  fsm : Fsm
  deriving DecidableEq

variable {p F}

/-- No output driven, every register kept. -/
def State.hold (s : State p F) : Drive :=
  { start := false, ongoing := false, slotCe := false, statValid := false, counter := s.counter,
    errors := s.errors, fsm := s.fsm }

/-- `fsm.act("WRITE", …)` on a valid beat. -/
def State.driveWrite (s : State p F) (b : PhyBeat p.dw) : Drive :=
  let d : Drive :=
    if s.counter = ethMtu then { s.hold with fsm := .discardRemaining }
    else { s.hold with counter := (s.counter + inc p b) % 2 ^ lengthbits, ongoing := true }
  if b.last then
    if hasError b then { d with fsm := .discard } else { d with fsm := .terminate }
  else d

/-- What the FSM drives in a state. -/
def State.drive (s : State p F) (i : In p.dw τ) : Drive :=
  match s.fsm, i.sink with
  | .idle, none => s.hold
  | .idle, some b =>
    if F.sinkReady s.statFifo then
      { s.hold with
        start := true, ongoing := true, counter := (s.counter + inc p b) % 2 ^ lengthbits, fsm := .write }
    else { s.hold with errors := (s.errors + 1) % 2 ^ 32, fsm := .discardRemaining }
  | .write, none => s.hold
  | .write, some b => s.driveWrite b
  | .discard, _ => { s.hold with counter := 0, fsm := .idle }
  | .discardRemaining, none => s.hold
  | .discardRemaining, some b => if b.last then { s.hold with fsm := .terminate } else s.hold
  | .terminate, _ => { s.hold with counter := 0, slotCe := true, statValid := true, fsm := .idle }

/-- An asserted write enable: the selected slot memory, the address on its port and the data. -/
structure Write (dw : Nat) where
  slot : Nat
  adr : Nat
  datW : BitVec dw
  deriving DecidableEq

/-- The memory port: `we` on the memory of `slot` while a packet is ongoing. The address is
`counter[2:]`, cut to the width of the port. -/
def State.write (s : State p F) (i : In p.dw τ) : Option (Write p.dw) :=
  match i.sink with
  | some b =>
    if (s.drive i).ongoing then
      some { slot := s.slot, adr := s.counter / 4 % 2 ^ bitsFor (p.depth - 1), datW := b.data }
    else none
  | none => none

/-- The status FIFO's sink. -/
def State.push (s : State p F) (i : In p.dw τ) : Option (StatEntry τ) :=
  if (s.drive i).statValid then some ⟨s.slot, s.counter, s.timestamp⟩ else none

/-- A memory of `depth` words ignores a write past its end. -/
def memWrite (depth : Nat) {dw : Nat} (mems : Nat → Nat → BitVec dw) (w : Write dw) : Nat → Nat → BitVec dw :=
  fun n a => if n = w.slot ∧ a = w.adr ∧ a < depth then w.datW else mems n a

/-- One cycle: the registers and the memories take what the FSM drives. -/
def State.next (s : State p F) (i : In p.dw τ) : State p F :=
  let d := s.drive i
  { fsm := d.fsm
    counter := d.counter
    slot := if d.slotCe then (s.slot + 1) % 2 ^ p.slotbits else s.slot
    errors := d.errors
    timestamp := if d.start then i.timestamp else s.timestamp
    statFifo := F.step s.statFifo (s.push i) i.clear
    mems := match s.write i with
      | some w => memWrite p.depth s.mems w
      | none => s.mems }

end Writer

/-- `LiteEthMACSRAMWriter`. -/
def writer {τ : Type} (p : SRAMParams) (F : SyncFIFO (StatEntry τ) p.nslots) (t : τ) :
    Machine (Writer.In p.dw τ) (Writer.State p F) where
  reset := Writer.State.init p F t
  step := Writer.State.next

namespace Writer

variable {τ : Type} {p : SRAMParams} {F : SyncFIFO (StatEntry τ) p.nslots} {t : τ}

@[simp] theorem writer_step (s : State p F) (i : In p.dw τ) : (writer p F t).step s i = s.next i := rfl

/-- The entries software has not acknowledged yet, oldest first. -/
def State.queued (s : State p F) : List (StatEntry τ) := F.contents s.statFifo

/-- The status FIFO can take an entry. -/
def State.room (s : State p F) : Prop := F.sinkReady s.statFifo = true

instance (s : State p F) : Decidable s.room := inferInstanceAs (Decidable (_ = _))

/-! ## What each state does -/

theorem inc_pos (b : PhyBeat p.dw) : 1 ≤ inc p b := by
  unfold inc; split <;> split_ifs <;> omega

theorem inc_le (b : PhyBeat p.dw) : inc p b ≤ 4 := by
  unfold inc; split <;> split_ifs <;> omega

/-- The state after a beat taken in `WRITE`: `f`, unless the packet ends. -/
def afterBeat {dw : Nat} (b : PhyBeat dw) (f : Fsm) : Fsm :=
  if b.last then if hasError b then .discard else .terminate else f

section Drive

variable {s : State p F} {i : In p.dw τ} {b : PhyBeat p.dw}

theorem drive_gap (hf : s.fsm = .idle ∨ s.fsm = .write ∨ s.fsm = .discardRemaining) (hb : i.sink = none) :
    s.drive i = s.hold := by
  unfold State.drive; rcases hf with hf | hf | hf <;> simp only [hf, hb]

theorem drive_start (hf : s.fsm = .idle) (hb : i.sink = some b) (hr : s.room) :
    s.drive i = { s.hold with
      start := true, ongoing := true, counter := (s.counter + inc p b) % 2 ^ lengthbits, fsm := .write } := by
  unfold State.room at hr
  unfold State.drive; simp only [hf, hb, hr, if_true]

theorem drive_refuse (hf : s.fsm = .idle) (hb : i.sink = some b) (hr : ¬ s.room) :
    s.drive i = { s.hold with errors := (s.errors + 1) % 2 ^ 32, fsm := .discardRemaining } := by
  unfold State.room at hr
  unfold State.drive; simp only [hf, hb]; rw [if_neg hr]

theorem drive_store (hf : s.fsm = .write) (hb : i.sink = some b) (hc : s.counter ≠ ethMtu) :
    s.drive i = { s.hold with
      ongoing := true, counter := (s.counter + inc p b) % 2 ^ lengthbits, fsm := afterBeat b .write } := by
  unfold State.drive State.driveWrite afterBeat
  simp only [hf, hb, hc, if_false]
  split_ifs <;> simp [State.hold, hf]

theorem drive_cut (hf : s.fsm = .write) (hb : i.sink = some b) (hc : s.counter = ethMtu) :
    s.drive i = { s.hold with fsm := afterBeat b .discardRemaining } := by
  unfold State.drive State.driveWrite afterBeat
  simp only [hf, hb, hc, if_true]
  split_ifs <;> rfl

theorem drive_skip (hf : s.fsm = .discardRemaining) (hb : i.sink = some b) :
    s.drive i = { s.hold with fsm := if b.last then .terminate else .discardRemaining } := by
  unfold State.drive; simp only [hf, hb]
  split
  · rfl
  · simp [State.hold, hf]

theorem drive_forget (hf : s.fsm = .discard) : s.drive i = { s.hold with counter := 0, fsm := .idle } := by
  unfold State.drive; rcases i.sink with _ | b <;> simp only [hf]

theorem drive_finish (hf : s.fsm = .terminate) :
    s.drive i = { s.hold with counter := 0, slotCe := true, statValid := true, fsm := .idle } := by
  unfold State.drive; rcases i.sink with _ | b <;> simp only [hf]

end Drive

/-- Everything the FSM can drive in one cycle, with the cycle it does so in. -/
inductive Cycle (s : State p F) (i : In p.dw τ) : Drive → Prop
  | gap (hf : s.fsm = .idle ∨ s.fsm = .write ∨ s.fsm = .discardRemaining) (hb : i.sink = none) :
    Cycle s i s.hold
  | start (b : PhyBeat p.dw) (hf : s.fsm = .idle) (hb : i.sink = some b) (hr : s.room) :
    Cycle s i { s.hold with
      start := true, ongoing := true, counter := (s.counter + inc p b) % 2 ^ lengthbits, fsm := .write }
  | refuse (b : PhyBeat p.dw) (hf : s.fsm = .idle) (hb : i.sink = some b) (hr : ¬ s.room) :
    Cycle s i { s.hold with errors := (s.errors + 1) % 2 ^ 32, fsm := .discardRemaining }
  | store (b : PhyBeat p.dw) (hf : s.fsm = .write) (hb : i.sink = some b) (hc : s.counter ≠ ethMtu) :
    Cycle s i { s.hold with
      ongoing := true, counter := (s.counter + inc p b) % 2 ^ lengthbits, fsm := afterBeat b .write }
  | cut (b : PhyBeat p.dw) (hf : s.fsm = .write) (hb : i.sink = some b) (hc : s.counter = ethMtu) :
    Cycle s i { s.hold with fsm := afterBeat b .discardRemaining }
  | skip (b : PhyBeat p.dw) (hf : s.fsm = .discardRemaining) (hb : i.sink = some b) :
    Cycle s i { s.hold with fsm := if b.last then .terminate else .discardRemaining }
  | forget (hf : s.fsm = .discard) : Cycle s i { s.hold with counter := 0, fsm := .idle }
  | finish (hf : s.fsm = .terminate) :
    Cycle s i { s.hold with counter := 0, slotCe := true, statValid := true, fsm := .idle }

theorem drive_cases (s : State p F) (i : In p.dw τ) : Cycle s i (s.drive i) := by
  cases hf : s.fsm with
  | idle =>
    rcases hb : i.sink with _ | b
    · rw [drive_gap (.inl hf) hb]; exact .gap (.inl hf) hb
    · by_cases hr : s.room
      · rw [drive_start hf hb hr]; exact .start b hf hb hr
      · rw [drive_refuse hf hb hr]; exact .refuse b hf hb hr
  | write =>
    rcases hb : i.sink with _ | b
    · rw [drive_gap (.inr (.inl hf)) hb]; exact .gap (.inr (.inl hf)) hb
    · by_cases hc : s.counter = ethMtu
      · rw [drive_cut hf hb hc]; exact .cut b hf hb hc
      · rw [drive_store hf hb hc]; exact .store b hf hb hc
  | discard => rw [drive_forget hf]; exact .forget hf
  | discardRemaining =>
    rcases hb : i.sink with _ | b
    · rw [drive_gap (.inr (.inr hf)) hb]; exact .gap (.inr (.inr hf)) hb
    · rw [drive_skip hf hb]; exact .skip b hf hb
  | terminate => rw [drive_finish hf]; exact .finish hf

theorem statValid_iff (s : State p F) (i : In p.dw τ) : (s.drive i).statValid = true ↔ s.fsm = .terminate := by
  have h := drive_cases s i
  generalize s.drive i = d at h
  cases h with
  | gap hf => rcases hf with hf | hf | hf <;> simp [State.hold, hf]
  | _ => simp_all [State.hold]

theorem slotCe_iff (s : State p F) (i : In p.dw τ) : (s.drive i).slotCe = true ↔ s.fsm = .terminate := by
  have h := drive_cases s i
  generalize s.drive i = d at h
  cases h with
  | gap hf => rcases hf with hf | hf | hf <;> simp [State.hold, hf]
  | _ => simp_all [State.hold]

/-- The queue after a cycle: popped by software, and extended in `TERMINATE` if it had room. -/
theorem queued_next (s : State p F) (i : In p.dw τ) :
    (s.next i).queued = (if i.clear then s.queued.tail else s.queued) ++
      (if s.fsm = .terminate ∧ s.room then [⟨s.slot, s.counter, s.timestamp⟩] else []) := by
  have hv := statValid_iff s i
  simp only [State.queued, State.next, F.contents_step, State.push, State.room]
  congr 1
  by_cases ht : s.fsm = .terminate <;> by_cases hr : F.sinkReady s.statFifo = true <;> simp_all

end Writer

end LiteEth.Mac
