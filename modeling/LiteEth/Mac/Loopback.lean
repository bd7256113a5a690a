/-
The MAC with its wishbone interface and the PHY looped back, as software sees it: software fills the slots of the reader
and queues commands, the line takes the words from the one clock domain to the other, through the PHY and back, and
software finds what was received in the slots of the writer. A step is one of any two clocks: the system clock has an edge
in it, or the clock of the line, or both.
-/
import LiteEth.Mac.SramWords
import LiteEth.Mac.Turn
import LiteEth.Rtl.Crossing

namespace LiteEth.Mac.Loopback

open LiteEth.Rtl Converter

/-- What the MAC is built of that is not its own: its FIFOs, its converters and its clock domain crossings. -/
structure Parts (e : Endianness) (nrxslots ntxslots : ℕ) (τ : Type) where
  cmdFifo : SyncFIFO (Reader.Command (wishboneParams ntxslots e)) ntxslots
  statFifo : SyncFIFO (StatEntry τ) nrxslots
  txCdc : ClockDomainCrossing (PhyBeat 32)
  rxCdc : ClockDomainCrossing (PhyBeat 32)
  converters : Converters e
  txBuffer : Fifo (fun _ : Unit => True) (PhyBeat 8)
  rxBuffer : Fifo (fun _ : Unit => True) (PhyBeat 8)
  crcFifo : SyncFIFO (PhyBeat 8) (CRCChecker.ratio 8 + 1)

variable {e : Endianness} {nrxslots ntxslots : ℕ} {τ : Type}

/-- What software does in a cycle of the system clock: it writes a command to `_start`, writes a word to a slot of the
reader, clears `ev.available`; and the timestamp source. -/
structure Access (e : Endianness) (ntxslots : ℕ) (τ : Type) where
  start : Option (Reader.Command (wishboneParams ntxslots e))
  write : Option (Writer.Write 32)
  clear : Bool
  timestamp : τ

/-- The edges of the clocks in a step. -/
structure In (e : Endianness) (ntxslots : ℕ) (τ : Type) where
  sys : Option (Access e ntxslots τ)
  eth : Bool

variable (P : Parts e nrxslots ntxslots τ)

/-- The stages between the crossings. -/
abbrev Parts.line : Stage Unit (PhyBeat 32) (PhyBeat 32) := Line.line P.converters P.txBuffer P.rxBuffer P.crcFifo

/-- The registers of the reader, the clock crossings, the line and the writer. -/
structure State where
  reader : Reader.State (wishboneParams ntxslots e) P.cmdFifo
  txCdc : P.txCdc.State
  line : P.line.State
  rxCdc : P.rxCdc.State
  writer : Writer.State (wishboneParams nrxslots e) P.statFifo

/-- The registers after reset. -/
def State.init (t : τ) : State P where
  reader := .init _ _
  txCdc := P.txCdc.reset
  line := P.line.reset
  rxCdc := P.rxCdc.reset
  writer := .init _ _ t

variable {P}

namespace State

variable (s : State P) (i : In e ntxslots τ)

/-- The word at the sink of the line. -/
def word : Option (PhyBeat 32) := P.txCdc.source s.txCdc

/-- `source.ready` of the line. -/
def ready : Bool := P.rxCdc.ready s.rxCdc

/-- What the reader sees of an access. -/
def readerIn (a : Access e ntxslots τ) : Reader.In (wishboneParams ntxslots e) :=
  { start := a.start, ready := P.txCdc.ready s.txCdc, write := a.write }

/-- What the writer sees of an access. -/
def writerIn (a : Access e ntxslots τ) : Writer.In 32 τ :=
  { sink := P.rxCdc.source s.rxCdc, clear := a.clear, timestamp := a.timestamp }

/-- The sink of the crossing to the line, in a step. -/
def txSink : Option (Option (PhyBeat 32)) := i.sys.map fun _ => s.reader.source

/-- The line takes the word, in a cycle of its clock. -/
def txReady : Option Bool := if i.eth then some (P.line.ready s.line () s.word s.ready) else none

/-- The sink of the crossing from the line. -/
def rxSink : Option (Option (PhyBeat 32)) := if i.eth then some (P.line.source s.line () s.word) else none

/-- The writer is always ready. -/
def rxReady (i : In e ntxslots τ) : Option Bool := i.sys.map fun _ => true

/-- A step with an edge of either clock or of both. -/
def next : State P where
  reader := i.sys.elim s.reader fun a => s.reader.next (s.readerIn a)
  txCdc := P.txCdc.step s.txCdc (s.txSink i) (s.txReady i)
  line := if i.eth then P.line.step s.line () s.word s.ready else s.line
  rxCdc := P.rxCdc.step s.rxCdc (s.rxSink i) (rxReady i)
  writer := i.sys.elim s.writer fun a => s.writer.next (s.writerIn a)

/-- The `error` outputs of the checkers, which their counters count. -/
def errors : List Unit :=
  if i.eth && (Line.preambleError s.line s.word || Line.crcError s.line s.word) then [()] else []

end State

variable (P) in
/-- The MAC, looped back. -/
def loopback (t : τ) : Machine (In e ntxslots τ) (State P) where
  reset := State.init P t
  step := State.next

/-! ## What software sees -/

/-- An entry of the writer's status FIFO, with what its slot holds. -/
abbrev Reception (τ : Type) := StatEntry τ × (ℕ → BitVec 32)

namespace State

variable (s : State P) (i : In e ntxslots τ)

/-- The command that software issues, with what its slot holds. -/
def issues : Option (Reader.Issued (wishboneParams ntxslots e)) := i.sys.bind fun a => s.reader.issues (s.readerIn a)

/-- The receptions that software has not acknowledged. -/
def pending : List (Reception τ) := s.writer.queued.map fun en => (en, s.writer.mems en.slot)

/-- The reception that software acknowledges. -/
def acknowledges : Option (Reception τ) := if i.sys.any (·.clear) then s.pending.head? else none

end State

section Runs

variable (P) (t : τ) (is : List (In e ntxslots τ))

/-- The commands issued in a run. -/
def transmissions : List (Reader.Issued (wishboneParams ntxslots e)) :=
  (loopback P t).log (fun s i => (s.issues i).toList) (loopback P t).reset is

/-- The receptions acknowledged in a run. -/
def acknowledged : List (Reception τ) :=
  (loopback P t).log (fun s i => (s.acknowledges i).toList) (loopback P t).reset is

/-- The receptions of a run. -/
def receptions : List (Reception τ) := acknowledged P t is ++ ((loopback P t).run is).pending

/-- The errors reported in a run. -/
def errors : List Unit := (loopback P t).log (fun s i => s.errors i) (loopback P t).reset is

/-- After a run software issues a command only if it has acknowledged the receptions of all those before it. The command
is for a slot, with a length of at least four bytes that fit in it; and software does not write to the slot of a command
in the queue. -/
structure Polite (i : In e ntxslots τ) : Prop where
  turn : ((loopback P t).run is).issues i ≠ none → (transmissions P t is).length = (acknowledged P t is).length
  fair : ∀ a, i.sys = some a → Reader.Fair ((loopback P t).run is).reader (((loopback P t).run is).readerIn a)
  long : ∀ q, ((loopback P t).run is).issues i = some q → q.Long

/-- Software is polite all along. -/
def PoliteRun : Prop := ∀ js i, js ++ [i] <+: is → Polite P t js i

end Runs

/-- The reception of the transmission number `k`: its slot is the next one, it has the length of the padded packet, and
its slot holds the bytes of the packet, and zeros behind them. -/
structure Receives (e : Endianness) (nrxslots k : ℕ) (q : Reader.Issued (wishboneParams ntxslots e)) (r : Reception τ) :
    Prop where
  slot : r.1.slot = k % nrxslots
  length : r.1.length = max q.1.length.toNat 60
  bytes : slotData e r.2 r.1.length = q.bytes ++ List.replicate (60 - q.1.length.toNat) 0

/-- Each reception is that of the transmission with its number. -/
def Answers (nrxslots : ℕ) (qs : List (Reader.Issued (wishboneParams ntxslots e))) (rs : List (Reception τ)) : Prop :=
  ∀ k r, rs[k]? = some r → ∃ q, qs[k]? = some q ∧ Receives e nrxslots k q r

/-- In a run each reception is that of its transmission, and no error is counted. When software has acknowledged all of
them, the reader can take the next command. -/
structure Correct (P : Parts e nrxslots ntxslots τ) (t : τ) (is : List (In e ntxslots τ)) : Prop where
  receives : Answers nrxslots (transmissions P t is) (receptions P t is)
  writer : ((loopback P t).run is).writer.errors = 0
  checkers : errors P t is = []
  ready : (transmissions P t is).length = (acknowledged P t is).length →
    P.cmdFifo.sinkReady ((loopback P t).run is).reader.cmdFifo = true

/-- The first steps of an unending run. -/
def upTo (js : ℕ → In e ntxslots τ) (n : ℕ) : List (In e ntxslots τ) := (List.range n).map js

/-- In an unending run each transmission is received in the end. -/
def Complete (P : Parts e nrxslots ntxslots τ) (t : τ) (js : ℕ → In e ntxslots τ) : Prop :=
  ∀ n, ∃ m ≥ n, (transmissions P t (upTo js n)).length ≤ (receptions P t (upTo js m)).length

/-- Both clocks have edges again and again. -/
structure Clocked (js : ℕ → In e ntxslots τ) : Prop where
  sys : ∀ n, ∃ m ≥ n, (js m).sys ≠ none
  eth : ∀ n, ∃ m ≥ n, (js m).eth = true

end LiteEth.Mac.Loopback
