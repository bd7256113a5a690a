/-
One packet at the sink of the SRAM writer: the cycles from its first beat to its last, with any
gaps between the beats, and what the writer makes of them from `WRITE` (byte counter, slot memory)
and from `DISCARD_REMAINING`.
-/
import LiteEth.Mac.Sram
import Mathlib.Tactic

namespace LiteEth.Mac.Writer

open LiteEth.Rtl

variable {τ : Type} {p : SRAMParams} {F : SyncFIFO (StatEntry τ) p.nslots} {t : τ}

/-! ## Packets on the sink -/

/-- The cycles the writer takes for one packet: from a beat it sees in `IDLE` to the next beat with
`last`. `IDLE` does not look at `last`, so the first beat of several may carry it as well. -/
structure Packet (dw : Nat) (τ : Type) where
  body : List (In dw τ)
  final : In dw τ
  lastBeat : PhyBeat dw
  final_sink : final.sink = some lastBeat
  last : lastBeat.last = true
  body_last : ∀ i ∈ body.tail, ∀ b, i.sink = some b → b.last = false
  body_head : ∀ i is, body = i :: is → i.sink ≠ none

/-- The cycles in order. -/
def Packet.cycles {dw : Nat} (k : Packet dw τ) : List (In dw τ) := k.body ++ [k.final]

/-- The beats of some cycles. -/
def beatsOf {dw : Nat} (is : List (In dw τ)) : List (PhyBeat dw) := is.filterMap In.sink

theorem beatsOf_gap {dw : Nat} {i : In dw τ} (h : i.sink = none) (is : List (In dw τ)) :
    beatsOf (i :: is) = beatsOf is := List.filterMap_cons_none h

theorem beatsOf_beat {dw : Nat} {i : In dw τ} {b : PhyBeat dw} (h : i.sink = some b) (is : List (In dw τ)) :
    beatsOf (i :: is) = b :: beatsOf is := List.filterMap_cons_some h

/-- The beats of a packet. -/
def Packet.beats {dw : Nat} (k : Packet dw τ) : List (PhyBeat dw) := beatsOf k.body ++ [k.lastBeat]

/-- A packet has one beat iff nothing comes before its last cycle. -/
theorem Packet.two_le_beats_iff {dw : Nat} (k : Packet dw τ) : 2 ≤ k.beats.length ↔ k.body ≠ [] := by
  unfold Packet.beats
  rcases hk : k.body with _ | ⟨i, is⟩
  · simp [beatsOf]
  · obtain ⟨b, hb⟩ := Option.ne_none_iff_exists'.1 (k.body_head i is hk)
    rw [beatsOf_beat hb]; simp

variable (p)

/-- The beats of some cycles, each with the byte offset it starts at, from offset `c`. -/
def offsets (c : Nat) : List (In p.dw τ) → List (Nat × PhyBeat p.dw)
  | [] => []
  | i :: is =>
    match i.sink with
    | none => offsets c is
    | some b => (c, b) :: offsets (c + inc p b) is

/-- The bytes of some cycles. -/
def byteCount : List (In p.dw τ) → Nat
  | [] => 0
  | i :: is =>
    match i.sink with
    | none => byteCount is
    | some b => inc p b + byteCount is

variable {p}

@[simp] theorem offsets_gap {i : In p.dw τ} (h : i.sink = none) (c : Nat) (is : List (In p.dw τ)) :
    offsets p c (i :: is) = offsets p c is := by rw [offsets, h]

@[simp] theorem offsets_beat {i : In p.dw τ} {b : PhyBeat p.dw} (h : i.sink = some b) (c : Nat)
    (is : List (In p.dw τ)) : offsets p c (i :: is) = (c, b) :: offsets p (c + inc p b) is := by rw [offsets, h]

@[simp] theorem byteCount_gap {i : In p.dw τ} (h : i.sink = none) (is : List (In p.dw τ)) :
    byteCount p (i :: is) = byteCount p is := by rw [byteCount, h]

@[simp] theorem byteCount_beat {i : In p.dw τ} {b : PhyBeat p.dw} (h : i.sink = some b)
    (is : List (In p.dw τ)) : byteCount p (i :: is) = inc p b + byteCount p is := by rw [byteCount, h]

theorem byteCount_append : ∀ is js : List (In p.dw τ), byteCount p (is ++ js) = byteCount p is + byteCount p js
  | [], js => by simp [byteCount]
  | i :: is, js => by
    rcases hb : i.sink with _ | b
    · rw [List.cons_append, byteCount_gap hb, byteCount_gap hb, byteCount_append is js]
    · rw [List.cons_append, byteCount_beat hb, byteCount_beat hb, byteCount_append is js, Nat.add_assoc]

theorem Packet.byteCount_cycles (k : Packet p.dw τ) :
    byteCount p k.cycles = byteCount p k.body + inc p k.lastBeat := by
  rw [Packet.cycles, byteCount_append, byteCount_beat k.final_sink]; rfl

/-! ## Reports -/

/-- The status entry queued in a cycle, with what its slot memory holds then. -/
def State.report (s : State p F) (i : In p.dw τ) : List (StatEntry τ × (Nat → BitVec p.dw)) :=
  match s.push i with
  | some e => if F.sinkReady s.statFifo then [(e, s.mems e.slot)] else []
  | none => []

theorem report_eq (s : State p F) (i : In p.dw τ) :
    s.report i = if s.fsm = .terminate ∧ s.room then [(⟨s.slot, s.counter, s.timestamp⟩, s.mems s.slot)] else [] := by
  have hv := statValid_iff s i
  unfold State.report State.push State.room
  by_cases ht : s.fsm = .terminate <;> simp_all

/-! ## The cycles of a packet -/

/-- The status FIFO in a cycle that queues nothing. -/
theorem next_statFifo {s : State p F} (hf : s.fsm ≠ .terminate) (i : In p.dw τ) :
    (s.next i).statFifo = F.step s.statFifo none i.clear := by
  have hv := statValid_iff s i
  simp only [State.next, State.push]
  rw [if_neg (fun h => hf (hv.1 h))]

theorem room_next {s : State p F} (h : s.room) {i : In p.dw τ} (hf : s.fsm ≠ .terminate) : (s.next i).room := by
  rw [State.room, next_statFifo hf]; exact F.sinkReady_step_none h _

theorem next_gap {s : State p F} {i : In p.dw τ} (hf : s.fsm = .idle ∨ s.fsm = .write ∨ s.fsm = .discardRemaining)
    (hb : i.sink = none) : s.next i = { s with statFifo := F.step s.statFifo none i.clear } := by
  simp [State.next, State.push, State.write, drive_gap hf hb, hb, State.hold]

/-- The address of the memory port. -/
def State.adr (s : State p F) : Nat := s.counter / 4 % 2 ^ bitsFor (p.depth - 1)

theorem next_start {s : State p F} {i : In p.dw τ} {b : PhyBeat p.dw} (hf : s.fsm = .idle)
    (hb : i.sink = some b) (hr : s.room) :
    s.next i = { s with
      fsm := .write
      counter := (s.counter + inc p b) % 2 ^ lengthbits
      timestamp := i.timestamp
      statFifo := F.step s.statFifo none i.clear
      mems := memWrite p.depth s.mems ⟨s.slot, s.adr, b.data⟩ } := by
  simp [State.next, State.push, State.write, drive_start hf hb hr, hb, State.hold, State.adr]

theorem next_refuse {s : State p F} {i : In p.dw τ} {b : PhyBeat p.dw} (hf : s.fsm = .idle)
    (hb : i.sink = some b) (hr : ¬ s.room) :
    s.next i = { s with
      fsm := .discardRemaining
      errors := (s.errors + 1) % 2 ^ 32
      statFifo := F.step s.statFifo none i.clear } := by
  simp [State.next, State.push, State.write, drive_refuse hf hb hr, hb, State.hold]

theorem next_store {s : State p F} {i : In p.dw τ} {b : PhyBeat p.dw} (hf : s.fsm = .write)
    (hb : i.sink = some b) (hc : s.counter ≠ ethMtu) :
    s.next i = { s with
      fsm := afterBeat b .write
      counter := (s.counter + inc p b) % 2 ^ lengthbits
      statFifo := F.step s.statFifo none i.clear
      mems := memWrite p.depth s.mems ⟨s.slot, s.adr, b.data⟩ } := by
  simp [State.next, State.push, State.write, drive_store hf hb hc, hb, State.hold, State.adr]

theorem next_cut {s : State p F} {i : In p.dw τ} {b : PhyBeat p.dw} (hf : s.fsm = .write)
    (hb : i.sink = some b) (hc : s.counter = ethMtu) :
    s.next i = { s with
      fsm := afterBeat b .discardRemaining, statFifo := F.step s.statFifo none i.clear } := by
  simp [State.next, State.push, State.write, drive_cut hf hb hc, hb, State.hold]

theorem next_skip {s : State p F} {i : In p.dw τ} {b : PhyBeat p.dw} (hf : s.fsm = .discardRemaining)
    (hb : i.sink = some b) :
    s.next i = { s with
      fsm := if b.last then .terminate else .discardRemaining
      statFifo := F.step s.statFifo none i.clear } := by
  simp [State.next, State.push, State.write, drive_skip hf hb, hb, State.hold]

theorem next_forget {s : State p F} {i : In p.dw τ} (hf : s.fsm = .discard) :
    s.next i = { s with fsm := .idle, counter := 0, statFifo := F.step s.statFifo none i.clear } := by
  rcases hb : i.sink with _ | b <;> simp [State.next, State.push, State.write, drive_forget hf, hb, State.hold]

theorem next_finish {s : State p F} {i : In p.dw τ} (hf : s.fsm = .terminate) :
    s.next i = { s with
      fsm := .idle
      counter := 0
      slot := (s.slot + 1) % 2 ^ p.slotbits
      statFifo := F.step s.statFifo (some ⟨s.slot, s.counter, s.timestamp⟩) i.clear } := by
  rcases hb : i.sink with _ | b <;> simp [State.next, State.push, State.write, drive_finish hf, hb, State.hold]

/-! ## The body of a packet -/

/-- What no cycle of a packet changes: the slot pointer, the error count, and the status FIFO's
room, which software can only enlarge. -/
structure Keeps (s s' : State p F) : Prop where
  slot : s'.slot = s.slot
  errors : s'.errors = s.errors
  room : s.room → s'.room

theorem Keeps.refl (s : State p F) : Keeps s s := ⟨rfl, rfl, id⟩

theorem Keeps.trans {s s' s'' : State p F} (h : Keeps s s') (h' : Keeps s' s'') : Keeps s s'' :=
  ⟨h'.slot.trans h.slot, h'.errors.trans h.errors, fun hr => h'.room (h.room hr)⟩

/-- No beat of these cycles carries `last`. -/
def NoLast {dw : Nat} (is : List (In dw τ)) : Prop := ∀ i ∈ is, ∀ b, i.sink = some b → b.last = false

theorem afterBeat_of_not_last {dw : Nat} {b : PhyBeat dw} (h : b.last = false) (f : Fsm) : afterBeat b f = f := by
  simp [afterBeat, h]

/-- A cycle outside `TERMINATE` reports nothing. -/
theorem report_nil {s : State p F} (hf : s.fsm ≠ .terminate) (i : In p.dw τ) : s.report i = [] := by
  rw [report_eq, if_neg fun h : _ ∧ _ => hf h.1]

/-- The slot memories after storing some beats, given with their offsets. -/
def storeAll (p : SRAMParams) (slot : Nat) (mems : Nat → Nat → BitVec p.dw) (xs : List (Nat × PhyBeat p.dw)) :
    Nat → Nat → BitVec p.dw :=
  xs.foldl (fun m x => memWrite p.depth m ⟨slot, x.1 / 4 % 2 ^ bitsFor (p.depth - 1), x.2.data⟩) mems

/-- The state after storing the beats of `is` from `WRITE`. -/
structure Stores (s : State p F) (is : List (In p.dw τ)) (s' : State p F) : Prop where
  fsm : s'.fsm = .write
  counter : s'.counter = s.counter + byteCount p is
  timestamp : s'.timestamp = s.timestamp
  mems : s'.mems = storeAll p s.slot s.mems (offsets p s.counter is)
  keeps : Keeps s s'

/-- From `WRITE`, the beats are stored and counted, as long as none of them starts at `eth_mtu`
and the count fits in the counter. -/
theorem write_body (is : List (In p.dw τ)) (s : State p F) (hf : s.fsm = .write) (hl : NoLast is)
    (ho : ∀ x ∈ offsets p s.counter is, x.1 ≠ ethMtu) (hc : s.counter + byteCount p is < 2 ^ lengthbits) :
    Stores s is ((writer p F t).runFrom s is) ∧ (writer p F t).log State.report s is = [] := by
  -- induction on the cycles; a gap or one more beat
  induction is generalizing s with
  | nil => exact ⟨⟨hf, rfl, rfl, rfl, Keeps.refl s⟩, rfl⟩
  | cons i is ih =>
    have hl' : NoLast is := fun j hj => hl j (List.mem_cons_of_mem _ hj)
    have hnt : s.fsm ≠ .terminate := by simp [hf]
    have hroom : s.room → (s.next i).room := fun hr => room_next hr hnt
    rw [Machine.runFrom_cons, Machine.log_cons, writer_step, report_nil hnt]
    rcases hb : i.sink with _ | b
    · rw [offsets_gap hb] at ho
      rw [byteCount_gap hb] at hc
      have hn := next_gap (.inr (.inl hf)) hb
      obtain ⟨h, hlog⟩ := ih (s.next i) (by rw [hn]; exact hf) hl' (by rw [hn]; exact ho) (by rw [hn]; exact hc)
      refine ⟨⟨h.fsm, ?_, ?_, ?_, Keeps.trans ⟨by rw [hn], by rw [hn], hroom⟩ h.keeps⟩, hlog⟩
      · rw [h.counter, hn, byteCount_gap hb]
      · rw [h.timestamp, hn]
      · rw [h.mems, hn, offsets_gap hb]
    · rw [offsets_beat hb] at ho
      rw [byteCount_beat hb] at hc
      have hlb := hl i (List.mem_cons_self ..) b hb
      have hn := next_store hf hb (ho _ (List.mem_cons_self ..))
      have hm : (s.counter + inc p b) % 2 ^ lengthbits = s.counter + inc p b := Nat.mod_eq_of_lt (by omega)
      rw [afterBeat_of_not_last hlb, hm] at hn
      obtain ⟨h, hlog⟩ := ih (s.next i) (by rw [hn]) hl'
        (by rw [hn]; exact fun x hx => ho x (List.mem_cons_of_mem _ hx)) (by rw [hn]; simp only; omega)
      refine ⟨⟨h.fsm, ?_, ?_, ?_, Keeps.trans ⟨by rw [hn], by rw [hn], hroom⟩ h.keeps⟩, hlog⟩
      · rw [h.counter, hn, byteCount_beat hb]; simp only; omega
      · rw [h.timestamp, hn]
      · rw [h.mems, hn, offsets_beat hb]; rfl

/-- From `DISCARD_REMAINING`, a packet's body is swallowed. -/
theorem discard_body (is : List (In p.dw τ)) (s : State p F) (hf : s.fsm = .discardRemaining) (hl : NoLast is) :
    ((writer p F t).runFrom s is).fsm = .discardRemaining ∧
      ((writer p F t).runFrom s is).counter = s.counter ∧
      ((writer p F t).runFrom s is).mems = s.mems ∧ Keeps s ((writer p F t).runFrom s is) ∧
      (writer p F t).log State.report s is = [] := by
  induction is generalizing s with
  | nil => exact ⟨hf, rfl, rfl, Keeps.refl s, rfl⟩
  | cons i is ih =>
    have hnt : s.fsm ≠ .terminate := by simp [hf]
    have hroom : s.room → (s.next i).room := fun hr => room_next hr hnt
    have hn : s.next i = { s with statFifo := F.step s.statFifo none i.clear } := by
      rcases hb : i.sink with _ | b
      · exact next_gap (.inr (.inr hf)) hb
      · rw [next_skip hf hb, hl i (List.mem_cons_self ..) b hb]; simp [hf]
    obtain ⟨h1, h2, h3, h4, h5⟩ := ih (s.next i) (by rw [hn]; exact hf) fun j hj => hl j (List.mem_cons_of_mem _ hj)
    rw [Machine.runFrom_cons, Machine.log_cons, writer_step, report_nil hnt]
    exact ⟨h1, by rw [h2, hn], by rw [h3, hn], Keeps.trans ⟨by rw [hn], by rw [hn], hroom⟩ h4, h5⟩

/-- Cycles without a beat change nothing but the status FIFO, which software pops. -/
theorem quiet_run (is : List (In p.dw τ)) (s : State p F)
    (hf : s.fsm = .idle ∨ s.fsm = .write ∨ s.fsm = .discardRemaining) (hq : ∀ i ∈ is, i.sink = none) :
    (∃ q, (writer p F t).runFrom s is = { s with statFifo := q }) ∧
      (writer p F t).log State.report s is = [] := by
  induction is generalizing s with
  | nil => exact ⟨⟨s.statFifo, rfl⟩, rfl⟩
  | cons i is ih =>
    have hn := next_gap hf (hq i (List.mem_cons_self ..))
    obtain ⟨⟨q, hr⟩, hlog⟩ := ih (s.next i) (by rw [hn]; exact hf) fun j hj => hq j (List.mem_cons_of_mem _ hj)
    have hnt : s.fsm ≠ .terminate := by rcases hf with hf | hf | hf <;> simp [hf]
    rw [Machine.runFrom_cons, Machine.log_cons, writer_step, report_nil hnt]
    exact ⟨⟨q, by rw [hr, hn]⟩, hlog⟩

/-! ## Between packets, in every run -/

theorem room_iff (s : State p F) : s.room ↔ s.queued.length < p.nslots := F.sinkReady_iff _

/-- The status FIFO never holds more than its capacity. -/
theorem queued_le_next {s : State p F} (h : s.queued.length ≤ p.nslots) (i : In p.dw τ) :
    (s.next i).queued.length ≤ p.nslots := by
  have hpop : (if i.clear then s.queued.tail else s.queued).length ≤ s.queued.length := by
    split
    · rw [List.length_tail]; omega
    · exact le_rfl
  rw [queued_next, List.length_append]
  by_cases hp : s.fsm = .terminate ∧ s.room
  · have := (room_iff s).1 hp.2
    rw [if_pos hp, List.length_singleton]; omega
  · rw [if_neg hp, List.length_nil]; omega

theorem queued_le_run (is : List (In p.dw τ)) : ((writer p F t).run is).queued.length ≤ p.nslots :=
  (writer p F t).runFrom_inv (P := fun s => s.queued.length ≤ p.nslots) (C := fun _ _ => True)
    (fun _ i hs _ => queued_le_next hs i) is _
    (by
      show (F.contents F.reset).length ≤ _
      rw [F.contents_reset]; exact Nat.zero_le _)
    ((writer p F t).along_trivial is _)


/-- In `IDLE` the byte counter is back at zero, in every run. -/
theorem idle_counter (is : List (In p.dw τ)) :
    ((writer p F t).run is).fsm = .idle → ((writer p F t).run is).counter = 0 := by
  refine (writer p F t).runFrom_inv (P := fun s => s.fsm = .idle → s.counter = 0) (C := fun _ _ => True)
    (fun s i hs _ hf => ?_) is _ (fun _ => rfl) ((writer p F t).along_trivial is _)
  have hd := drive_cases s i
  simp only [writer_step, State.next] at hf ⊢
  generalize s.drive i = d at hf hd
  cases hd with
  | gap => exact hs hf
  | store b | cut b => simp only [afterBeat] at hf; split_ifs at hf
  | skip b => simp only at hf; split_ifs at hf
  | start | refuse => cases hf
  | forget | finish => rfl

/-- A packet of `n + 1` full words 1, 2, … with no gaps, for a big-endian writer. -/
def countingPacket (n : Nat) : Packet 32 Unit where
  body := (List.range n).map fun j => ⟨some ⟨BitVec.ofNat 32 (j + 1), 0, 0, false⟩, false, ()⟩
  final := ⟨some ⟨BitVec.ofNat 32 (n + 1), 1, 0, true⟩, false, ()⟩
  lastBeat := ⟨BitVec.ofNat 32 (n + 1), 1, 0, true⟩
  final_sink := rfl
  last := rfl
  body_last := by
    intro i hi b hb
    obtain ⟨j, -, rfl⟩ := List.mem_map.1 (List.mem_of_mem_tail hi)
    cases hb; rfl
  body_head := by
    intro i is h hn
    have hi : i ∈ i :: is := List.mem_cons_self ..
    rw [← h] at hi
    obtain ⟨j, -, rfl⟩ := List.mem_map.1 hi
    cases hn

end LiteEth.Mac.Writer
