/-
What the SRAM writer stores: a packet of two beats or more that starts at an idle writer with room
in the status FIFO yields exactly one status entry, with its byte count, over a slot memory that
holds its words in order, or no entry if it ends with an error, and leaves the writer as it found
it. `IDLE` never looks at `last`, so a packet of a single beat leaves the writer in `WRITE`, where
the next packet is taken for its continuation.
-/
import LiteEth.Mac.SramPackets

namespace LiteEth.Mac.Writer

open LiteEth.Rtl

variable {τ : Type} {depth nslots : Nat} {e : Endianness}
  {F : SyncFIFO (StatEntry τ) (wordParams depth nslots e).nslots} {t : τ}

/-! ## Well-formed packets -/

/-- The bytes of the beat whose `last_be` marks bit `j`: with the first byte in the high lane, or
in the low one. -/
def lastBytes (e : Endianness) (j : Nat) : Nat :=
  match e with
  | .big => 4 - j
  | .little => j + 1

/-- Only the last beat carries `last`; `last_be` is 0 before it, and marks one byte of it. -/
structure WellFormed (k : Packet 32 τ) where
  body_last : ∀ i ∈ k.body, ∀ b, i.sink = some b → b.last = false
  body_be : ∀ i ∈ k.body, ∀ b, i.sink = some b → b.lastBe = 0
  lane : Nat
  lane_lt : lane < 4
  lastBe : k.lastBeat.lastBe = BitVec.ofNat 4 (2 ^ lane)

/-- The byte count of a packet. -/
def WellFormed.bytes {k : Packet 32 τ} (h : WellFormed k) (e : Endianness) : Nat :=
  4 * (k.beats.length - 1) + lastBytes e h.lane

theorem inc_body {b : PhyBeat 32} (h : b.lastBe = 0) : inc (wordParams depth nslots e) b = 4 := by
  unfold inc; rw [h]; cases e <;> rfl

theorem inc_last {k : Packet 32 τ} (h : WellFormed k) :
    inc (wordParams depth nslots e) k.lastBeat = lastBytes e h.lane := by
  obtain ⟨-, -, j, hj, hbe⟩ := h
  unfold inc lastBytes; rw [hbe]
  interval_cases j <;> cases e <;> rfl

/-- The beats of a body, at the offsets of their words. -/
theorem offsets_body (depth nslots : Nat) (e : Endianness) (n : Nat) :
    ∀ is : List (In 32 τ), (∀ i ∈ is, ∀ b, i.sink = some b → b.lastBe = 0) →
    offsets (wordParams depth nslots e) (4 * n) is =
      (beatsOf is).mapIdx (fun j b => (4 * (n + j), b))
  | [], _ => rfl
  | i :: is, h => by
    have ht : ∀ j ∈ is, ∀ b, j.sink = some b → b.lastBe = 0 := fun j hj => h j (List.mem_cons_of_mem _ hj)
    rcases hb : i.sink with _ | b
    · rw [offsets_gap hb, offsets_body depth nslots e n is ht, beatsOf_gap hb]
    · have h4 : 4 * n + inc (wordParams depth nslots e) b = 4 * (n + 1) := by
        rw [inc_body (h i (List.mem_cons_self ..) b hb)]; omega
      rw [offsets_beat hb, h4, offsets_body depth nslots e (n + 1) is ht, beatsOf_beat hb, List.mapIdx_cons]
      simp only [Nat.add_zero, List.cons.injEq, true_and]
      congr 1; funext j b'
      rw [Nat.add_right_comm, Nat.add_assoc]

theorem byteCount_body (depth nslots : Nat) (e : Endianness) :
    ∀ is : List (In 32 τ), (∀ i ∈ is, ∀ b, i.sink = some b → b.lastBe = 0) →
    byteCount (wordParams depth nslots e) is = 4 * (beatsOf is).length
  | [], _ => rfl
  | i :: is, h => by
    have ht : ∀ j ∈ is, ∀ b, j.sink = some b → b.lastBe = 0 := fun j hj => h j (List.mem_cons_of_mem _ hj)
    rcases hb : i.sink with _ | b
    · rw [byteCount_gap hb, byteCount_body depth nslots e is ht, beatsOf_gap hb]
    · rw [byteCount_beat hb, byteCount_body depth nslots e is ht, beatsOf_beat hb,
        inc_body (h i (List.mem_cons_self ..) b hb), List.length_cons]
      omega

/-! ## The words of a slot -/

/-- The memory of a slot starts with the words `ws`. -/
def Holds {dw : Nat} (m : Nat → BitVec dw) (ws : List (BitVec dw)) : Prop :=
  ∀ j (h : j < ws.length), m j = ws[j]

theorem Holds.nil {dw : Nat} (m : Nat → BitVec dw) : Holds m [] := fun j hj => absurd hj (Nat.not_lt_zero j)

/-- Writing one more word after those held. -/
theorem Holds.push {dw : Nat} {mems : Nat → Nat → BitVec dw} {slot : Nat} (depth : Nat) {ws : List (BitVec dw)}
    (h : Holds (mems slot) ws) (hd : ws.length < depth) (w : BitVec dw) :
    Holds (memWrite depth mems ⟨slot, ws.length, w⟩ slot) (ws ++ [w]) := by
  intro j hj
  rw [List.length_append, List.length_singleton] at hj
  unfold memWrite
  rcases Nat.lt_or_ge j ws.length with hlt | hge
  · rw [if_neg (by simp only; omega), List.getElem_append_left hlt]; exact h j hlt
  · have hje : j = ws.length := by omega
    subst hje
    rw [if_pos ⟨rfl, rfl, hd⟩]; simp

/-- The port's address is the word offset, for an offset inside the slot. -/
theorem port_adr {p : SRAMParams} {n : Nat} (h : n < p.depth) : 4 * n / 4 % 2 ^ bitsFor (p.depth - 1) = n := by
  have := lt_two_pow_bitsFor (p.depth - 1)
  rw [Nat.mul_div_cancel_left n (by decide)]
  exact Nat.mod_eq_of_lt (by omega)

theorem storeAll_holds (depth nslots : Nat) (e : Endianness) :
    ∀ (bs : List (PhyBeat 32)) (mems : Nat → Nat → BitVec 32) (slot : Nat)
    (ws : List (BitVec 32)), Holds (mems slot) ws → ws.length + bs.length ≤ depth →
    Holds (storeAll (wordParams depth nslots e) slot mems
      (bs.mapIdx (fun j b => (4 * (ws.length + j), b))) slot) (ws ++ bs.map (·.data))
  | [], _, _, _, h, _ => by rw [List.map_nil, List.append_nil]; exact h
  | b :: bs, mems, slot, ws, h, hd => by
    rw [List.length_cons] at hd
    have hadr := port_adr (p := wordParams depth nslots e) (n := ws.length) (show ws.length < depth by omega)
    have := storeAll_holds depth nslots e bs _ slot (ws ++ [b.data]) (h.push depth (by omega) b.data)
      (by rw [List.length_append, List.length_singleton]; omega)
    have hidx : (fun j (b : PhyBeat 32) => (4 * (ws.length + (j + 1)), b)) =
        fun j b => (4 * (ws.length + 1 + j), b) := by
      funext j b
      rw [Nat.add_assoc, Nat.add_comm 1 j]
    rw [List.mapIdx_cons, storeAll, List.foldl_cons, ← storeAll, Nat.add_zero, hadr, hidx, List.map_cons]
    simpa [List.append_assoc] using this

/-! ## One packet -/

/-- A well-formed packet, the cycle after its last beat, and further cycles without a beat. -/
structure Segment (τ : Type) where
  packet : Packet 32 τ
  wf : WellFormed packet
  after : In 32 τ
  gap : List (In 32 τ)
  after_quiet : after.sink = none
  gap_quiet : ∀ i ∈ gap, i.sink = none

/-- A packet and the cycles after it. -/
def Segment.cycles (g : Segment τ) : List (In 32 τ) := g.packet.cycles ++ g.after :: g.gap

/-- The packet ends with an error on its last byte. -/
def Segment.bad (g : Segment τ) : Prop := hasError g.packet.lastBeat = true

instance (g : Segment τ) : Decidable g.bad := inferInstanceAs (Decidable (_ = _))

/-- The packet of `g`, presented in state `s`, is stored exactly: one entry with its byte count
over a slot that holds its words, or none if it is bad; and the writer is ready for the next. -/
structure StoredExactly (t : τ) (s : State (wordParams depth nslots e) F) (g : Segment τ) : Prop where
  good : ¬ g.bad → ∃ en m, (writer _ F t).log State.report s g.cycles = [(en, m)] ∧
    en.slot = s.slot ∧ en.length = g.wf.bytes e ∧ Holds m (g.packet.beats.map (·.data)) ∧
    ((writer _ F t).runFrom s g.cycles).slot = (s.slot + 1) % 2 ^ (wordParams depth nslots e).slotbits
  bad : g.bad → (writer _ F t).log State.report s g.cycles = [] ∧
    ((writer _ F t).runFrom s g.cycles).slot = s.slot
  ready : ((writer _ F t).runFrom s g.cycles).fsm = .idle ∧ ((writer _ F t).runFrom s g.cycles).counter = 0

/-- The body of a packet, from an idle writer with room: its beats are counted and their words
are in the slot. -/
theorem body_stored {k : Packet 32 τ} (h : WellFormed k) (s : State (wordParams depth nslots e) F)
    (hf : s.fsm = .idle) (hc : s.counter = 0) (hr : s.room) (hne : k.body ≠ [])
    (hd : (beatsOf k.body).length ≤ depth) (hw : 4 * (beatsOf k.body).length < 2 ^ lengthbits) :
    let s' := (writer _ F t).runFrom s k.body
    s'.fsm = .write ∧ s'.counter = 4 * (beatsOf k.body).length ∧
      Holds (s'.mems s.slot) ((beatsOf k.body).map (·.data)) ∧ Keeps s s' ∧
      (writer _ F t).log State.report s k.body = [] := by
  intro s'
  obtain ⟨i, is, hk⟩ := List.exists_cons_of_ne_nil hne
  obtain ⟨b, hb⟩ := Option.ne_none_iff_exists'.1 (k.body_head i is hk)
  have hbe := h.body_be
  have hl := h.body_last
  have hs' : s' = (writer _ F t).runFrom s k.body := rfl
  rw [hk] at hbe hl hd hw hs' ⊢
  rw [beatsOf_beat hb, List.length_cons] at hd hw ⊢
  have hbe' : ∀ j ∈ is, ∀ b, j.sink = some b → b.lastBe = 0 := fun j hj => hbe j (List.mem_cons_of_mem _ hj)
  have hn := next_start hf hb hr
  have h4 : (s.counter + inc (wordParams depth nslots e) b) % 2 ^ lengthbits = 4 := by
    rw [hc, inc_body (hbe i (List.mem_cons_self ..) b hb)]; rfl
  have hadr : s.adr = 0 := by unfold State.adr; rw [hc]; exact Nat.zero_mod _
  rw [h4, hadr] at hn
  have hoff := offsets_body depth nslots e 1 is hbe'
  have hbytes := byteCount_body depth nslots e is hbe'
  -- the first word is stored in `IDLE`, the others in `WRITE`
  obtain ⟨hst, hlog⟩ := write_body (t := t) is (s.next i) (by rw [hn]) (fun j hj => hl j (List.mem_cons_of_mem _ hj))
    (by
      rw [hn]; simp only
      intro x hx
      rw [show 4 = 4 * 1 from rfl, hoff, List.mem_mapIdx] at hx
      obtain ⟨j, hj, rfl⟩ := hx
      simp only [ethMtu]; omega)
    (by rw [hn]; simp only; rw [hbytes]; omega)
  have hfirst : Holds (memWrite depth s.mems ⟨s.slot, 0, b.data⟩ s.slot) ([] ++ [b.data]) :=
    (Holds.nil (s.mems s.slot)).push depth (by rw [List.length_nil]; omega) b.data
  rw [Machine.runFrom_cons, writer_step] at hs'
  rw [Machine.log_cons, writer_step, hlog, report_nil (by simp [hf]), hs']
  refine ⟨hst.fsm, ?_, ?_, ?_, rfl⟩
  · rw [hst.counter, hn, hbytes]; simp only; omega
  · have := storeAll_holds depth nslots e (beatsOf is) _ s.slot [b.data] hfirst
      (by rw [List.length_singleton]; omega)
    rw [hst.mems, hn]
    simp only
    rw [show 4 = 4 * 1 from rfl, hoff]
    simpa using this
  · exact Keeps.trans ⟨by rw [hn], by rw [hn], fun hr => room_next hr (by simp [hf])⟩ hst.keeps

theorem beats_length {k : Packet 32 τ} : k.beats.length = (beatsOf k.body).length + 1 := by
  rw [Packet.beats, List.length_append, List.length_singleton]

theorem lastBytes_bounds (e : Endianness) {j : Nat} (hj : j < 4) : 1 ≤ lastBytes e j ∧ lastBytes e j ≤ 4 := by
  unfold lastBytes; cases e <;> simp only <;> omega

/-- The last beat of a packet whose body is stored: the counter has the byte count, the slot all
words, and the writer is about to report the packet or to forget it. -/
theorem last_stored {k : Packet 32 τ} (h : WellFormed k) (s : State (wordParams depth nslots e) F)
    (hf : s.fsm = .idle) (hc : s.counter = 0) (hr : s.room) (h2 : 2 ≤ k.beats.length)
    (hb : h.bytes e ≤ 4 * depth) (hd : 4 * depth < 2 ^ lengthbits) :
    let s' := (writer _ F t).runFrom s k.cycles
    s'.fsm = (if hasError k.lastBeat then .discard else .terminate) ∧ s'.counter = h.bytes e ∧
      Holds (s'.mems s.slot) (k.beats.map (·.data)) ∧ Keeps s s' ∧
      (writer _ F t).log State.report s k.cycles = [] := by
  have hlb := lastBytes_bounds e h.lane_lt
  have hbl := beats_length (k := k)
  unfold WellFormed.bytes at hb ⊢
  obtain ⟨h1, h2, h3, h4, h5⟩ := body_stored (t := t) h s hf hc hr (k.two_le_beats_iff.1 h2) (by omega) (by omega)
  -- the last beat is stored like the others, and it decides what follows
  have hcm : ((writer _ F t).runFrom s k.body).counter ≠ ethMtu := by rw [h2, ethMtu]; omega
  have hn := next_store h1 k.final_sink hcm
  rw [inc_last h, h2] at hn
  intro s'
  have hs' : s' = ((writer _ F t).runFrom s k.body).next k.final := (writer _ F t).runFrom_concat s k.body k.final
  have hadr : ((writer _ F t).runFrom s k.body).adr = (beatsOf k.body).length := by
    unfold State.adr; rw [h2]; exact port_adr (p := wordParams depth nslots e) (show _ < depth by omega)
  rw [hadr, h4.slot] at hn
  refine ⟨?_, ?_, ?_, ?_, ?_⟩
  · rw [hs', hn]; simp only [afterBeat, k.last, if_true]
  · rw [hs', hn]; simp only
    rw [Nat.mod_eq_of_lt (by omega)]; omega
  · have := h3.push depth (by rw [List.length_map]; omega) k.lastBeat.data
    rw [List.length_map] at this
    rw [hs', hn, Packet.beats, List.map_append]; exact this
  · refine h4.trans ?_
    rw [hs']
    exact ⟨by rw [hn, h4.slot], by rw [hn], fun hr => room_next hr (by simp [h1])⟩
  · rw [Packet.cycles, Machine.log_append, h5, Machine.log_cons, report_nil (by simp [h1])]; rfl

/-- A packet of two beats or more is stored exactly. -/
theorem segment_stored (g : Segment τ) (s : State (wordParams depth nslots e) F)
    (hf : s.fsm = .idle) (hc : s.counter = 0) (hr : s.room) (h2 : 2 ≤ g.packet.beats.length)
    (hb : g.wf.bytes e ≤ 4 * depth) (hd : 4 * depth < 2 ^ lengthbits) : StoredExactly t s g := by
  obtain ⟨h1, h2, h3, h4, h5⟩ := last_stored (t := t) g.wf s hf hc hr h2 hb hd
  have hrun : (writer _ F t).runFrom s g.cycles =
      (writer _ F t).runFrom (((writer _ F t).runFrom s g.packet.cycles).next g.after) g.gap :=
    (writer _ F t).runFrom_append s g.packet.cycles (g.after :: g.gap)
  have hlog : (writer _ F t).log State.report s g.cycles =
      ((writer _ F t).runFrom s g.packet.cycles).report g.after ++
        (writer _ F t).log State.report (((writer _ F t).runFrom s g.packet.cycles).next g.after) g.gap := by
    rw [Segment.cycles, Machine.log_append, h5, List.nil_append, Machine.log_cons]; rfl
  rw [report_eq] at hlog
  by_cases hbad : g.bad
  · have hdis : ((writer _ F t).runFrom s g.packet.cycles).fsm = .discard := by
      rw [h1]; exact if_pos hbad
    have hn := next_forget (i := g.after) hdis
    obtain ⟨⟨q, hq⟩, hgl⟩ := quiet_run (t := t) g.gap (((writer _ F t).runFrom s g.packet.cycles).next g.after)
      (by rw [hn]; exact .inl rfl) g.gap_quiet
    rw [hgl, hdis] at hlog
    rw [hq, hn] at hrun
    refine ⟨fun h => absurd hbad h, fun _ => ⟨by rw [hlog]; simp, ?_⟩, ?_, ?_⟩
    · rw [hrun, ← h4.slot]
    · rw [hrun]
    · rw [hrun]
  · have hter : ((writer _ F t).runFrom s g.packet.cycles).fsm = .terminate := by
      rw [h1]; exact if_neg hbad
    have hn := next_finish (i := g.after) hter
    obtain ⟨⟨q, hq⟩, hgl⟩ := quiet_run (t := t) g.gap (((writer _ F t).runFrom s g.packet.cycles).next g.after)
      (by rw [hn]; exact .inl rfl) g.gap_quiet
    rw [hgl, if_pos ⟨hter, h4.room hr⟩, List.append_nil] at hlog
    rw [hq, hn] at hrun
    refine ⟨fun _ => ⟨_, _, hlog, h4.slot, h2, ?_, ?_⟩, fun h => absurd h hbad, ?_, ?_⟩
    · rw [h4.slot]; exact h3
    · rw [hrun, ← h4.slot]
    · rw [hrun]
    · rw [hrun]

/-- A packet of one beat leaves the writer in `WRITE`. -/
theorem one_beat_in_write (g : Segment τ) (s : State (wordParams depth nslots e) F)
    (hf : s.fsm = .idle) (hr : s.room) (h1 : g.packet.beats.length < 2) :
    ((writer _ F t).runFrom s g.cycles).fsm = .write := by
  have hbody : g.packet.body = [] := by
    by_contra h; have := g.packet.two_le_beats_iff.2 h; omega
  have hn := next_start hf g.packet.final_sink hr
  obtain ⟨⟨q, hq⟩, -⟩ := quiet_run (t := t) (g.after :: g.gap) (s.next g.packet.final)
    (by rw [hn]; exact .inr (.inl rfl)) (by
      intro i hi
      rcases List.mem_cons.1 hi with rfl | hi
      · exact g.after_quiet
      · exact g.gap_quiet i hi)
  have hcyc : g.cycles = g.packet.final :: (g.after :: g.gap) := by
    rw [Segment.cycles, Packet.cycles, hbody]; rfl
  rw [hcyc, Machine.runFrom_cons, writer_step, hq, hn]

/-! ## Sequences of packets -/

/-- Every packet of the sequence starts with room in the status FIFO and fits in a slot. -/
def Presented (t : τ) : State (wordParams depth nslots e) F → List (Segment τ) → Prop
  | _, [] => True
  | s, g :: gs => s.room ∧ g.wf.bytes e ≤ 4 * depth ∧ Presented t ((writer _ F t).runFrom s g.cycles) gs

/-- Every packet of the sequence is stored exactly. -/
def AllStored (t : τ) : State (wordParams depth nslots e) F → List (Segment τ) → Prop
  | _, [] => True
  | s, g :: gs => StoredExactly t s g ∧ AllStored t ((writer _ F t).runFrom s g.cycles) gs

theorem allStored_iff (hd : 4 * depth < 2 ^ lengthbits) : ∀ (gs : List (Segment τ))
    (s : State (wordParams depth nslots e) F), s.fsm = .idle → s.counter = 0 → Presented t s gs →
    (AllStored t s gs ↔ ∀ g ∈ gs, 2 ≤ g.packet.beats.length)
  | [], _, _, _, _ => by simp [AllStored]
  | g :: gs, s, hf, hc, ⟨hr, hb, hp⟩ => by
    constructor
    · rintro ⟨h, hs⟩ g' hg'
      rcases List.mem_cons.1 hg' with rfl | hg'
      · by_contra h2
        have := one_beat_in_write (t := t) g' s hf hr (by omega)
        rw [h.ready.1] at this; cases this
      · exact (allStored_iff hd gs _ h.ready.1 h.ready.2 hp).1 hs g' hg'
    · intro h2
      have h := segment_stored (t := t) g s hf hc hr (h2 g (List.mem_cons_self ..)) hb hd
      exact ⟨h, (allStored_iff hd gs _ h.ready.1 h.ready.2 hp).2 fun g' hg' => h2 g' (List.mem_cons_of_mem _ hg')⟩

/-- For every sequence of packets presented to an idle writer with room, each is stored exactly
iff each has at least two beats. -/
theorem writer_stores_iff (hd : 4 * depth < 2 ^ lengthbits) (past : List (In 32 τ))
    (hidle : ((writer (wordParams depth nslots e) F t).run past).fsm = .idle) (gs : List (Segment τ))
    (hp : Presented t ((writer (wordParams depth nslots e) F t).run past) gs) :
    AllStored t ((writer (wordParams depth nslots e) F t).run past) gs ↔ ∀ g ∈ gs, 2 ≤ g.packet.beats.length :=
  allStored_iff hd gs _ hidle (idle_counter (p := wordParams depth nslots e) past hidle) hp

/-- `countingPacket` and two idle cycles. -/
def countingSegment (n : Nat) : Segment Unit where
  packet := countingPacket n
  wf := {
    body_last := by
      intro i hi b hb
      obtain ⟨j, -, rfl⟩ := List.mem_map.1 hi
      cases hb; rfl
    body_be := by
      intro i hi b hb
      obtain ⟨j, -, rfl⟩ := List.mem_map.1 hi
      cases hb; rfl
    lane := 0
    lane_lt := by decide
    lastBe := rfl }
  after := ⟨none, false, ()⟩
  gap := [⟨none, false, ()⟩]
  after_quiet := rfl
  gap_quiet := by simp

theorem writer_stores_two_packets :
    AllStored (F := SyncFIFO.queue _ 2) () ((writer (wordParams 382 2 .big) (SyncFIFO.queue _ 2) ()).run [])
      [countingSegment 1, countingSegment 2] ↔
        ∀ g ∈ [countingSegment 1, countingSegment 2], 2 ≤ g.packet.beats.length :=
  writer_stores_iff (by decide) [] rfl _ ⟨by decide, by decide, by decide, by decide, trivial⟩

/-- A packet of a single beat, from reset: no entry is queued and the writer is not ready. -/
theorem writer_loses_one_beat_packet :
    ¬ AllStored (F := SyncFIFO.queue _ 2) () ((writer (wordParams 382 2 .big) (SyncFIFO.queue _ 2) ()).run [])
      [countingSegment 0] := by
  intro h
  exact absurd h.1.ready.1 (by decide)

end LiteEth.Mac.Writer
