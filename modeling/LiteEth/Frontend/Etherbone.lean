/-
`frontend/etherbone.py`: the receiver of Etherbone records. It takes the words of a record from a
packet FIFO and emits one memory-mapped beat for each word that is written or each address that is
read. Every word carries a tag that no module looks at: what the word comes from.
-/
import LiteEth.Rtl.Machine
import LiteEth.Rtl.PacketFIFO

namespace LiteEth.Frontend.Etherbone

open LiteEth.Rtl

variable {τ : Type}

/-- A 32-bit word and its tag. -/
structure Tagged (τ : Type) where
  bits : BitVec 32
  tag : τ
  deriving DecidableEq

/-- A beat of `eth_etherbone_record_description(32)`: a payload word of a record and the fields of
the record's header that the receiver reads. -/
structure Word (τ : Type) where
  wcount : BitVec 8
  rcount : BitVec 8
  byteEnable : BitVec 8
  data : Tagged τ
  last : Bool
  deriving DecidableEq

/-- The fields of `etherbone_record_header` that the receiver reads and the sender writes. -/
structure RecordHeader where
  wcount : BitVec 8
  rcount : BitVec 8
  byteEnable : BitVec 8
  deriving DecidableEq

/-- A payload word under a header. -/
def RecordHeader.word (h : RecordHeader) (last : Bool) (d : Tagged τ) : Word τ :=
  { wcount := h.wcount, rcount := h.rcount, byteEnable := h.byteEnable, data := d, last := last }

/-- A beat of `eth_etherbone_mmap_description(32)`. -/
structure MmapBeat (τ : Type) where
  we : Bool
  count : BitVec 8
  baseAddr : Tagged τ
  be : BitVec 4
  addr : Tagged τ
  data : Tagged τ
  last : Bool
  deriving DecidableEq

namespace Receiver

/-- The states of the receiver. -/
inductive Fsm
  | idle
  | receiveWrites
  | receiveBaseRetAddr
  | receiveReads
  deriving DecidableEq, Repr

/-- The registers of the receiver, without its FIFO. -/
structure Ctrl (τ : Type) where
  fsm : Fsm
  baseAddr : Tagged τ
  count : Nat
  deriving DecidableEq

/-- The FSM and its registers after reset. -/
def Ctrl.init (t : τ) : Ctrl τ := { fsm := .idle, baseAddr := ⟨0, t⟩, count := 0 }

/-- The beat of `RECEIVE_WRITES` for a word. Undriven fields are zero. -/
def Ctrl.writeBeat (c : Ctrl τ) (w : Word τ) : MmapBeat τ :=
  { we := true, count := w.wcount, be := w.byteEnable.setWidth 4
    last := c.count + 1 == w.wcount.toNat
    addr := ⟨c.baseAddr.bits >>> 2 + BitVec.ofNat 32 c.count, c.baseAddr.tag⟩
    data := w.data, baseAddr := ⟨0, w.data.tag⟩ }

/-- The beat of `RECEIVE_READS` for a word. -/
def Ctrl.readBeat (c : Ctrl τ) (w : Word τ) : MmapBeat τ :=
  { we := false, count := w.rcount, be := 0
    last := c.count + 1 == w.rcount.toNat
    addr := ⟨w.data.bits >>> 2, w.data.tag⟩
    data := ⟨0, w.data.tag⟩, baseAddr := c.baseAddr }

/-- `source`, given the word at the FIFO's source. -/
def Ctrl.source (c : Ctrl τ) (word : Option (Word τ)) : Option (MmapBeat τ) :=
  match c.fsm with
  | .receiveWrites => word.map c.writeBeat
  | .receiveReads => word.map c.readBeat
  | _ => none

/-- `fifo.source.ready`. -/
def Ctrl.ready (c : Ctrl τ) (sourceReady : Bool) : Bool :=
  match c.fsm with
  | .idle => true
  | .receiveBaseRetAddr => false
  | _ => sourceReady

/-- The registers after a clock edge. -/
def Ctrl.next (c : Ctrl τ) (word : Option (Word τ)) (sourceReady : Bool) : Ctrl τ :=
  match c.fsm, word with
  | .idle, none => { c with count := 0 }
  | .idle, some w =>
    { fsm := if w.wcount ≠ 0 then .receiveWrites else if w.rcount ≠ 0 then .receiveReads else .idle
      baseAddr := w.data, count := 0 }
  | .receiveWrites, some w =>
    if sourceReady then
      { c with
        count := (c.count + 1) % 512
        fsm :=
          if (c.writeBeat w).last then (if w.rcount ≠ 0 then .receiveBaseRetAddr else .idle)
          else .receiveWrites }
    else c
  | .receiveBaseRetAddr, none => { c with count := 0 }
  | .receiveBaseRetAddr, some w => { fsm := .receiveReads, baseAddr := w.data, count := 0 }
  | .receiveReads, some w =>
    if sourceReady then
      { c with count := (c.count + 1) % 512, fsm := if (c.readBeat w).last then .idle else .receiveReads }
    else c
  | _, none => c

/-- The inputs of one cycle: the word at the sink (if valid) and `source.ready`. -/
structure In (τ : Type) where
  sink : Option (Word τ)
  sourceReady : Bool

variable (F : PacketFIFO (Word τ) Word.last)

/-- The registers of the receiver. -/
structure State where
  ctrl : Ctrl τ
  fifo : F.State

variable {F}

/-- `source` of the receiver. -/
def State.source (s : State F) : Option (MmapBeat τ) := s.ctrl.source (F.source s.fifo)

/-- One cycle of the FSM and the buffer. -/
def State.next (s : State F) (i : In τ) : State F :=
  { ctrl := s.ctrl.next (F.source s.fifo) i.sourceReady
    fifo := F.step s.fifo i.sink (s.ctrl.ready i.sourceReady) }

variable (F) in
/-- The receiver as a clocked machine; the tag is that of the registers at reset. -/
def receiver (t : τ) : Machine (In τ) (State F) where
  reset := { ctrl := .init t, fifo := F.reset }
  step := State.next

/-! ## What the receiver makes of a list of words -/

/-- The registers that have taken the return base address, if that is what comes next. -/
def Ctrl.retBase (c : Ctrl τ) (w : Word τ) : Ctrl τ :=
  if c.fsm = .receiveBaseRetAddr then { fsm := .receiveReads, baseAddr := w.data, count := 0 } else c

/-- The registers once a word is consumed. -/
def Ctrl.take (c : Ctrl τ) (w : Word τ) : Ctrl τ := (c.retBase w).next (some w) true

/-- The FSM and its registers after some words. -/
def Ctrl.takes (c : Ctrl τ) (ws : List (Word τ)) : Ctrl τ := ws.foldl Ctrl.take c

/-- What `f` reports of the words of a list as they are consumed. -/
def Ctrl.logs {ε : Type} (f : Ctrl τ → Word τ → List ε) (c : Ctrl τ) : List (Word τ) → List ε
  | [] => []
  | w :: ws => f (c.retBase w) w ++ (c.take w).logs f ws

/-- The beat of a word. -/
def Ctrl.beat (c : Ctrl τ) (w : Word τ) : List (MmapBeat τ) := (c.source (some w)).toList

/-- The beats of a list of words. -/
abbrev Ctrl.beats (c : Ctrl τ) (ws : List (Word τ)) : List (MmapBeat τ) := c.logs Ctrl.beat ws

section Words

variable {ε : Type} {f : Ctrl τ → Word τ → List ε}

@[simp] theorem takes_nil (c : Ctrl τ) : c.takes [] = c := rfl

@[simp] theorem takes_cons (c : Ctrl τ) (w : Word τ) (ws : List (Word τ)) :
    c.takes (w :: ws) = (c.take w).takes ws := rfl

theorem takes_append (c : Ctrl τ) (ws vs : List (Word τ)) : c.takes (ws ++ vs) = (c.takes ws).takes vs :=
  List.foldl_append

@[simp] theorem logs_nil (c : Ctrl τ) : c.logs f [] = [] := rfl

@[simp] theorem logs_cons (c : Ctrl τ) (w : Word τ) (ws : List (Word τ)) :
    c.logs f (w :: ws) = f (c.retBase w) w ++ (c.take w).logs f ws := rfl

theorem logs_append (ws vs : List (Word τ)) (c : Ctrl τ) :
    c.logs f (ws ++ vs) = c.logs f ws ++ (c.takes ws).logs f vs := by
  induction ws generalizing c with
  | nil => rfl
  | cons w ws ih => rw [List.cons_append, logs_cons, logs_cons, ih, takes_cons, List.append_assoc]

@[simp] theorem beats_cons (c : Ctrl τ) (w : Word τ) (ws : List (Word τ)) :
    c.beats (w :: ws) = (c.retBase w).beat w ++ (c.take w).beats ws := rfl

theorem beats_append (c : Ctrl τ) (ws vs : List (Word τ)) :
    c.beats (ws ++ vs) = c.beats ws ++ (c.takes ws).beats vs := logs_append ws vs c

/-- Each beat is made with one of the words, a read with an address that is that word. -/
theorem mem_beats {ws : List (Word τ)} {c : Ctrl τ} {b : MmapBeat τ} (hb : b ∈ c.beats ws) :
    ∃ w ∈ ws, b.data.tag = w.data.tag ∧ (b.we = false → b.addr.tag = w.data.tag) := by
  induction ws generalizing c with
  | nil => cases hb
  | cons w ws ih =>
    rcases List.mem_append.1 hb with h | h
    · refine ⟨w, List.mem_cons_self, ?_⟩
      generalize c.retBase w = c' at h
      obtain ⟨fsm, _, _⟩ := c'
      cases fsm <;> simp [Ctrl.beat, Ctrl.source] at h <;> rw [h]
      · exact ⟨rfl, fun hwe => Bool.noConfusion hwe⟩
      · exact ⟨rfl, fun _ => rfl⟩
    · obtain ⟨v, hv, htag⟩ := ih h
      exact ⟨v, List.mem_cons_of_mem w hv, htag⟩

/-- Registers that act alike: `IDLE` and `RECEIVE_BASE_RET_ADDR` clear the count. -/
structure Same (a c : Ctrl τ) : Prop where
  fsm : a.fsm = c.fsm
  base : a.baseAddr = c.baseAddr
  count : a.fsm = .receiveWrites ∨ a.fsm = .receiveReads → a.count = c.count

theorem Same.refl (c : Ctrl τ) : Same c c := ⟨rfl, rfl, fun _ => rfl⟩

theorem Same.trans {a b c : Ctrl τ} (hab : Same a b) (hbc : Same b c) : Same a c :=
  ⟨hab.fsm.trans hbc.fsm, hab.base.trans hbc.base, fun h => (hab.count h).trans (hbc.count (hab.fsm ▸ h))⟩

theorem Same.take_eq {a c : Ctrl τ} (h : Same a c) (w : Word τ) : a.take w = c.take w := by
  obtain ⟨af, ab, an⟩ := a
  obtain ⟨cf, cb, cn⟩ := c
  obtain ⟨rfl, rfl, hc⟩ := h
  cases af with
  | idle => rfl
  | receiveBaseRetAddr => rfl
  | receiveWrites => rw [show an = cn from hc (.inl rfl)]
  | receiveReads => rw [show an = cn from hc (.inr rfl)]

/-- A report that does not look at a count that is going to be cleared. -/
def Blind (f : Ctrl τ → Word τ → List ε) : Prop := ∀ a c w, Same a c → f a w = f c w

theorem blind_beat : Blind (Ctrl.beat (τ := τ)) := by
  rintro ⟨af, ab, an⟩ ⟨cf, cb, cn⟩ w ⟨rfl, rfl, hc⟩
  cases af with
  | idle => rfl
  | receiveBaseRetAddr => rfl
  | receiveWrites => rw [show an = cn from hc (.inl rfl)]
  | receiveReads => rw [show an = cn from hc (.inr rfl)]

theorem Same.retBase {a c : Ctrl τ} (h : Same a c) (w : Word τ) : Same (a.retBase w) (c.retBase w) := by
  rw [Ctrl.retBase, Ctrl.retBase, h.fsm]
  split
  · exact .refl _
  · exact h

theorem Same.logs_eq (hf : Blind f) {a c : Ctrl τ} (h : Same a c) (ws : List (Word τ)) : a.logs f ws = c.logs f ws := by
  cases ws with
  | nil => rfl
  | cons w ws => rw [logs_cons, logs_cons, h.take_eq, hf _ _ w (h.retBase w)]

theorem Same.takes {a c : Ctrl τ} (h : Same a c) (ws : List (Word τ)) : Same (a.takes ws) (c.takes ws) := by
  cases ws with
  | nil => exact h
  | cons w ws => rw [takes_cons, takes_cons, h.take_eq]; exact .refl _

end Words

/-! ## The clocked receiver consumes its words as a list -/

section Cycle

variable {ε : Type} {f : Ctrl τ → Word τ → List ε} {s : State F}

/-- What `f` reports of the word that leaves the FIFO in this cycle. -/
def State.consumes (f : Ctrl τ → Word τ → List ε) (s : State F) (i : In τ) : List ε :=
  ((F.popped s.fifo (s.ctrl.ready i.sourceReady)).map (f s.ctrl)).getD []

/-- The beat that is emitted in this cycle. -/
def State.emits (s : State F) (i : In τ) : List (MmapBeat τ) := if i.sourceReady then s.source.toList else []

/-- The word that is accepted at the sink in this cycle. -/
def State.accepts (s : State F) (i : In τ) : List (Word τ) := (F.pushed s.fifo i.sink).toList

/-- Beats are emitted with the words they are made of. -/
theorem emits_eq (s : State F) (i : In τ) : s.emits i = s.consumes Ctrl.beat i := by
  unfold State.emits State.consumes State.source Ctrl.source PacketFIFO.popped Ctrl.ready Ctrl.beat Ctrl.source
  cases s.ctrl.fsm <;> cases F.source s.fifo <;> cases i.sourceReady <;> rfl

theorem log_emits (t : τ) (s : State F) (is : List (In τ)) :
    (receiver F t).log State.emits s is = (receiver F t).log (State.consumes Ctrl.beat) s is := by
  rw [funext₂ emits_eq]

/-- A word that leaves the FIFO is consumed. -/
theorem next_of_ready {c : Ctrl τ} {r : Bool} (h : c.ready r = true) (w : Word τ) :
    c.retBase w = c ∧ c.next (some w) r = c.take w := by
  obtain ⟨fsm, b, n⟩ := c
  cases fsm with
  | idle => exact ⟨rfl, rfl⟩
  | receiveBaseRetAddr => cases h
  | _ => rw [show r = true from h]; exact ⟨rfl, rfl⟩

/-- A word that stays is at most taken for the return base address. -/
theorem next_of_not_ready {c : Ctrl τ} {r : Bool} (h : c.ready r = false) (w : Word τ) :
    (c.next (some w) r).retBase w = c.retBase w := by
  obtain ⟨fsm, b, n⟩ := c
  cases fsm with
  | idle => cases h
  | receiveBaseRetAddr => rfl
  | _ => rw [show r = false from h]; rfl

theorem next_none (c : Ctrl τ) (r : Bool) : Same (c.next none r) c := by
  obtain ⟨fsm, b, n⟩ := c
  cases fsm with
  | idle => exact ⟨rfl, rfl, fun h => by simp [Ctrl.next] at h⟩
  | receiveBaseRetAddr => exact ⟨rfl, rfl, fun h => by simp [Ctrl.next] at h⟩
  | _ => exact .refl _

/-- What the cycle reports comes before what is stored, and a cycle that consumes nothing changes
nothing for what is stored. -/
theorem cycle_words (hf : Blind f) (s : State F) (i : In τ) :
    ∃ ws, (F.popped s.fifo (s.ctrl.ready i.sourceReady)).toList ++ ws = F.contents s.fifo ∧
      F.contents (s.next i).fifo = ws ++ s.accepts i ∧
      s.ctrl.logs f (F.contents s.fifo) = s.consumes f i ++ (s.next i).ctrl.logs f ws ∧
      Same ((s.next i).ctrl.takes ws) (s.ctrl.takes (F.contents s.fifo)) := by
  have hcont := F.popped_append_contents s.fifo i.sink (s.ctrl.ready i.sourceReady)
  have hstep := F.contents_step s.fifo i.sink (s.ctrl.ready i.sourceReady)
  have hpush : (if F.sinkReady s.fifo then i.sink.toList else []) = s.accepts i := by
    rw [State.accepts, PacketFIFO.pushed]
    cases F.sinkReady s.fifo <;> rfl
  rw [hpush] at hstep
  show ∃ ws, _ ∧ F.contents (F.step _ _ _) = _ ∧ _ = _ ++ (s.ctrl.next _ _).logs f ws ∧
    Same ((s.ctrl.next _ _).takes ws) _
  cases hx : F.source s.fifo with
  | none =>
    have hn := next_none s.ctrl i.sourceReady
    refine ⟨F.contents s.fifo, ?_, ?_, ?_, hn.takes _⟩
    · simp [PacketFIFO.popped, hx]
    · rw [hstep, hx]; rfl
    · rw [hn.logs_eq hf, State.consumes, PacketFIFO.popped, hx]
      cases s.ctrl.ready i.sourceReady <;> rfl
  | some w =>
    obtain ⟨ws, hws⟩ := F.source_eq _ _ hx
    rw [hx] at hstep
    cases hr : s.ctrl.ready i.sourceReady with
    | true =>
      obtain ⟨hret, hnext⟩ := next_of_ready hr w
      rw [hr] at hstep
      refine ⟨ws, ?_, ?_, ?_, ?_⟩
      · simp [PacketFIFO.popped, hx, hws]
      · rw [hstep, hws]; rfl
      · rw [hws, logs_cons, hret, hnext, State.consumes, PacketFIFO.popped, hr, hx]; rfl
      · rw [hws, takes_cons, hnext]; exact .refl _
    | false =>
      have hret := next_of_not_ready hr w
      have htake : (s.ctrl.next (some w) i.sourceReady).take w = s.ctrl.take w := by
        rw [Ctrl.take, hret]; rfl
      rw [hr] at hstep
      refine ⟨F.contents s.fifo, ?_, ?_, ?_, ?_⟩
      · simp [PacketFIFO.popped]
      · rw [hstep, Bool.and_false]; rfl
      · rw [hws, logs_cons, logs_cons, hret, htake, State.consumes, PacketFIFO.popped, hr]; rfl
      · rw [hws, takes_cons, takes_cons, htake]; exact .refl _

/-- After a run the reports, and what the stored words would add, are those of the words accepted,
consumed one by one. -/
theorem run_words (hf : Blind f) (t : τ) (is : List (In τ)) :
    let s := (receiver F t).run is
    let ws := (receiver F t).log State.accepts (receiver F t).reset is
    (receiver F t).log (State.consumes f) (receiver F t).reset is ++ s.ctrl.logs f (F.contents s.fifo) =
        (Ctrl.init t).logs f ws ∧
      Same (s.ctrl.takes (F.contents s.fifo)) ((Ctrl.init t).takes ws) := by
  refine (receiver F t).runFrom_logs_inv (R := fun s l ws =>
    l ++ s.ctrl.logs f (F.contents s.fifo) = (Ctrl.init t).logs f ws ∧
      Same (s.ctrl.takes (F.contents s.fifo)) ((Ctrl.init t).takes ws)) ?_ is _ [] [] ?_
  · rintro s i l ws ⟨hl, hs⟩
    obtain ⟨vs, -, hcont, hlog, htakes⟩ := cycle_words hf s i
    show _ ++ (s.next i).ctrl.logs f (F.contents (s.next i).fifo) = _ ∧
      Same ((s.next i).ctrl.takes (F.contents (s.next i).fifo)) _
    rw [hcont, logs_append, logs_append, takes_append, takes_append, ← hl, hlog,
      (htakes.trans hs).logs_eq hf]
    exact ⟨by simp only [List.append_assoc], (htakes.trans hs).takes _⟩
  · show [] ++ (Ctrl.init t).logs f (F.contents F.reset) = _ ∧ Same ((Ctrl.init t).takes (F.contents F.reset)) _
    rw [F.contents_reset]
    exact ⟨rfl, .refl _⟩

end Cycle

end Receiver

end LiteEth.Frontend.Etherbone
