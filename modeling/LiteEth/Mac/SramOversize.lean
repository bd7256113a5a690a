/-
Oversize packets at the SRAM writer of the wishbone interface. `WRITE` compares the byte counter
with `eth_mtu` for equality, while the counter moves in steps of 1 to 4 and a slot holds
`4 * (eth_mtu // 4) < eth_mtu` bytes, so a packet of full words runs past the slot, and a packet
cut off at `eth_mtu` is still reported. A longer packet is harmless only when it ends with an error
before or at the cut, or when it was refused and the status FIFO stayed full.
-/
import LiteEth.Mac.SramPackets

namespace LiteEth.Mac.Writer

open LiteEth.Rtl

variable {τ : Type} {nslots : Nat} {e : Endianness}
  {F : SyncFIFO (StatEntry τ) (wishboneParams nslots e).nslots} {t : τ}

/-- The bytes a slot holds. -/
def slotBytes : Nat := 4 * (ethMtu / (32 / 8))

theorem slotBytes_eq : slotBytes = 1528 := rfl

/-! ## The property -/

/-- In this cycle no write enable is asserted past the end of the slot memory. -/
def InSlot (s : State (wishboneParams nslots e) F) (i : In 32 τ) : Prop :=
  ∀ w, s.write i = some w → w.adr < (wishboneParams nslots e).depth

/-- The packet that has just ended is queued as received at the next clock edge (`report_eq`). -/
def Reported (s : State (wishboneParams nslots e) F) : Prop := s.fsm = .terminate ∧ s.room

/-- The packet `k`, presented in state `s`, is written inside its slot only, and is not reported if
it is longer than a slot. -/
def OversizeSafe (t : τ) (s : State (wishboneParams nslots e) F) (k : Packet 32 τ) : Prop :=
  (writer _ F t).Along InSlot s k.cycles ∧
    (slotBytes < byteCount (wishboneParams nslots e) k.cycles → ¬ Reported ((writer _ F t).runFrom s k.cycles))

/-- The packets the writer handles: those that fit in a slot; of the longer ones that are taken,
those that end with an error on a beat starting in the slot or at the cut, all earlier beats
starting in the slot; of the longer ones that are refused, those during which software pops
nothing. -/
def SizeHandled (e : Endianness) (nslots : Nat) (room : Prop) (k : Packet 32 τ) : Prop :=
  let p := wishboneParams nslots e
  byteCount p k.cycles ≤ slotBytes ∨
    (room ∧ hasError k.lastBeat = true ∧ (∀ x ∈ offsets p 0 k.body, x.1 < slotBytes) ∧
      (byteCount p k.body < slotBytes ∨ byteCount p k.body = ethMtu)) ∨
    (¬ room ∧ ∀ i ∈ k.cycles, i.clear = false)

/-! ## Packets that are taken -/

/-- A beat stored from a byte offset inside the slot is written inside the slot; one stored from the
words after it is not. -/
theorem inSlot_store {s : State (wishboneParams nslots e) F} {i : In 32 τ} {b : PhyBeat 32}
    (hb : i.sink = some b) (hs : s.fsm = .idle ∧ s.room ∨ s.fsm = .write ∧ s.counter ≠ ethMtu)
    (hc : s.counter < slotBytes + 4) : InSlot s i ↔ s.counter < slotBytes := by
  have hw : s.write i = some ⟨s.slot, s.adr, b.data⟩ := by
    unfold State.write
    rcases hs with ⟨hf, hr⟩ | ⟨hf, hm⟩
    · rw [drive_start hf hb hr]; simp only [hb]; rfl
    · rw [drive_store hf hb hm]; simp only [hb]; rfl
  have hadr : s.adr = s.counter / 4 := Nat.mod_eq_of_lt (by
    rw [slotBytes_eq] at hc
    have : bitsFor 381 = 9 := by decide
    show _ < 2 ^ bitsFor 381
    rw [this]; omega)
  unfold InSlot; rw [hw]
  simp only [Option.some.injEq, forall_eq', hadr, slotBytes_eq]
  show s.counter / 4 < 382 ↔ _
  omega

theorem inSlot_of_no_write {s : State (wishboneParams nslots e) F} {i : In 32 τ} (h : s.write i = none) :
    InSlot s i := by
  intro w hw; rw [h] at hw; cases hw

theorem inSlot_gap {s : State (wishboneParams nslots e) F} {i : In 32 τ} (hb : i.sink = none) : InSlot s i :=
  inSlot_of_no_write (by unfold State.write; rw [hb])

/-- While every beat starts in the slot, the byte count stays just past its end. -/
theorem byteCount_le_of_offsets {p : SRAMParams} {lim : Nat} : ∀ (is : List (In p.dw τ)) (c : Nat),
    (∀ x ∈ offsets p c is, x.1 < lim) → c < lim + 4 → c + byteCount p is < lim + 4
  | [], c, _, hc => by simpa [byteCount] using hc
  | i :: is, c, h, hc => by
    rcases hb : i.sink with _ | b
    · rw [offsets_gap hb] at h; rw [byteCount_gap hb]
      exact byteCount_le_of_offsets is c h hc
    · rw [offsets_beat hb] at h; rw [byteCount_beat hb, ← Nat.add_assoc]
      have hlim : c < lim := h _ (List.mem_cons_self ..)
      have := inc_le b
      exact byteCount_le_of_offsets is _ (fun x hx => h x (List.mem_cons_of_mem _ hx)) (by omega)

/-- A beat that starts at or after the end of the slot makes the byte count exceed it. -/
theorem lt_byteCount_of_offset {p : SRAMParams} {lim : Nat} : ∀ (is : List (In p.dw τ)) (c : Nat),
    (¬ ∀ x ∈ offsets p c is, x.1 < lim) → lim < c + byteCount p is
  | [], c, h => absurd (fun x hx => by cases hx) h
  | i :: is, c, h => by
    rcases hb : i.sink with _ | b
    · rw [offsets_gap hb] at h; rw [byteCount_gap hb]
      exact lt_byteCount_of_offset is c h
    · rw [offsets_beat hb] at h; rw [byteCount_beat hb, ← Nat.add_assoc]
      have := inc_pos b
      by_cases hc : c < lim
      · refine lt_byteCount_of_offset is _ fun h' => h fun x hx => ?_
        rcases List.mem_cons.1 hx with rfl | hx
        · exact hc
        · exact h' x hx
      · omega

/-- A body whose beats all start in the slot is written inside it. -/
theorem write_body_inSlot (is : List (In 32 τ)) (s : State (wishboneParams nslots e) F) (hf : s.fsm = .write)
    (hl : NoLast is) (ho : ∀ x ∈ offsets (wishboneParams nslots e) s.counter is, x.1 < slotBytes) :
    (writer _ F t).Along InSlot s is := by
  induction is generalizing s with
  | nil => trivial
  | cons i is ih =>
    have hl' : NoLast is := fun j hj => hl j (List.mem_cons_of_mem _ hj)
    rcases hb : i.sink with _ | b
    · have hn := next_gap (.inr (.inl hf)) hb
      rw [offsets_gap hb] at ho
      exact ⟨inSlot_gap hb, ih _ (by rw [writer_step, hn]; exact hf) hl' (by rw [writer_step, hn]; exact ho)⟩
    · rw [offsets_beat hb] at ho
      have hc : s.counter < slotBytes := ho _ (List.mem_cons_self ..)
      have hm : s.counter ≠ ethMtu := by rw [slotBytes_eq] at hc; rw [ethMtu]; omega
      have hn := next_store hf hb hm
      have hinc := inc_le (p := wishboneParams nslots e) b
      rw [afterBeat_of_not_last (hl i (List.mem_cons_self ..) b hb),
        Nat.mod_eq_of_lt (by rw [slotBytes_eq] at hc; rw [lengthbits]; omega)] at hn
      exact ⟨(inSlot_store hb (.inr ⟨hf, hm⟩) (by omega)).2 hc,
        ih _ (by rw [writer_step, hn]) hl'
          (by rw [writer_step, hn]; exact fun x hx => ho x (List.mem_cons_of_mem _ hx))⟩

/-- A body with a beat past the end of the slot is written past it, or cut off at `eth_mtu`. -/
theorem write_body_overrun (is : List (In 32 τ)) (s : State (wishboneParams nslots e) F) (hf : s.fsm = .write)
    (hl : NoLast is) (hc : s.counter < slotBytes + 4)
    (ho : ¬ ∀ x ∈ offsets (wishboneParams nslots e) s.counter is, x.1 < slotBytes) :
    ¬ (writer _ F t).Along InSlot s is ∨
      ((writer _ F t).runFrom s is).fsm = .discardRemaining ∧ Keeps s ((writer _ F t).runFrom s is) := by
  induction is generalizing s with
  | nil => exact absurd (fun x hx => by cases hx) ho
  | cons i is ih =>
    have hl' : NoLast is := fun j hj => hl j (List.mem_cons_of_mem _ hj)
    have hroom : s.room → (s.next i).room := fun hr => room_next hr (by simp [hf])
    rw [Machine.runFrom_cons, writer_step]
    rcases hb : i.sink with _ | b
    · have hn := next_gap (.inr (.inl hf)) hb
      rw [offsets_gap hb] at ho
      rcases ih (s.next i) (by rw [hn]; exact hf) hl' (by rw [hn]; exact hc) (by rw [hn]; exact ho) with h | ⟨h1, h2⟩
      · exact .inl fun ha => h ha.2
      · exact .inr ⟨h1, Keeps.trans ⟨by rw [hn], by rw [hn], hroom⟩ h2⟩
    · have hlast := hl i (List.mem_cons_self ..) b hb
      by_cases hm : s.counter = ethMtu
      · -- the cut: the rest of the body is swallowed
        have hn := next_cut hf hb hm
        rw [afterBeat_of_not_last hlast] at hn
        obtain ⟨h1, -, -, h4, -⟩ := discard_body (t := t) is (s.next i) (by rw [hn]) hl'
        exact .inr ⟨h1, Keeps.trans ⟨by rw [hn], by rw [hn], hroom⟩ h4⟩
      · by_cases hlt : s.counter < slotBytes
        · have hn := next_store hf hb hm
          have hinc := inc_le (p := wishboneParams nslots e) b
          rw [afterBeat_of_not_last hlast,
            Nat.mod_eq_of_lt (by rw [slotBytes_eq] at hlt; rw [lengthbits]; omega)] at hn
          rw [offsets_beat hb] at ho
          have ho' : ¬ ∀ x ∈ offsets (wishboneParams nslots e) (s.counter + inc (wishboneParams nslots e) b) is,
              x.1 < slotBytes := fun h => ho fun x hx => by
            rcases List.mem_cons.1 hx with rfl | hx
            · exact hlt
            · exact h x hx
          rcases ih (s.next i) (by rw [hn]) hl' (by rw [hn]; simp only; omega) (by rw [hn]; exact ho') with h | ⟨h1, h2⟩
          · exact .inl fun ha => h ha.2
          · exact .inr ⟨h1, Keeps.trans ⟨by rw [hn], by rw [hn], hroom⟩ h2⟩
        · exact .inl fun ha => hlt ((inSlot_store hb (.inr ⟨hf, hm⟩) hc).1 ha.1)

/-- The last cycle of a packet taken in `WRITE`, with all earlier beats starting in the slot. -/
theorem final_write {k : Packet 32 τ} {s : State (wishboneParams nslots e) F} (hf : s.fsm = .write) (hr : s.room)
    (hc : s.counter < slotBytes + 4) :
    (InSlot s k.final ↔ s.counter < slotBytes ∨ s.counter = ethMtu) ∧
      (Reported (s.next k.final) ↔ hasError k.lastBeat = false) := by
  have hroom : (s.next k.final).room := room_next hr (by simp [hf])
  have hfsm : (s.next k.final).fsm = if hasError k.lastBeat then .discard else .terminate := by
    by_cases hm : s.counter = ethMtu
    · rw [next_cut hf k.final_sink hm]; simp [afterBeat, k.last]
    · rw [next_store hf k.final_sink hm]; simp [afterBeat, k.last]
  constructor
  · by_cases hm : s.counter = ethMtu
    · have hnw : s.write k.final = none := by
        unfold State.write; rw [drive_cut hf k.final_sink hm, k.final_sink]; rfl
      exact ⟨fun _ => .inr hm, fun _ => inSlot_of_no_write hnw⟩
    · rw [inSlot_store k.final_sink (.inr ⟨hf, hm⟩) hc]
      exact ⟨.inl, fun h => h.resolve_right hm⟩
  · unfold Reported
    rw [hfsm]
    cases hasError k.lastBeat <;> simp [hroom]

/-- From `WRITE`, at a byte offset in the slot: the rest of the packet is safe iff it stays in the
slot, or ends with an error on a beat that starts in the slot or at the cut. -/
theorem write_tail_safe_iff (k : Packet 32 τ) (is : List (In 32 τ)) (s : State (wishboneParams nslots e) F)
    (hf : s.fsm = .write) (hr : s.room) (hl : NoLast is) (hc : s.counter < slotBytes) :
    ((writer _ F t).Along InSlot s (is ++ [k.final]) ∧
      (slotBytes < s.counter + byteCount (wishboneParams nslots e) is + inc (wishboneParams nslots e) k.lastBeat →
        ¬ Reported (((writer _ F t).runFrom s is).next k.final))) ↔
    (s.counter + byteCount (wishboneParams nslots e) is + inc (wishboneParams nslots e) k.lastBeat ≤ slotBytes ∨
      hasError k.lastBeat = true ∧ (∀ x ∈ offsets (wishboneParams nslots e) s.counter is, x.1 < slotBytes) ∧
        (s.counter + byteCount (wishboneParams nslots e) is < slotBytes ∨
          s.counter + byteCount (wishboneParams nslots e) is = ethMtu)) := by
  have hinc := inc_le (p := wishboneParams nslots e) k.lastBeat
  have hpos := inc_pos (p := wishboneParams nslots e) k.lastBeat
  rw [Machine.along_append, Machine.along_cons, and_iff_left (Machine.along_nil _ _ _)]
  by_cases ho : ∀ x ∈ offsets (wishboneParams nslots e) s.counter is, x.1 < slotBytes
  · -- all beats of `is` start in the slot: the last one decides
    have hle := byteCount_le_of_offsets (p := wishboneParams nslots e) is _ ho (by omega)
    obtain ⟨hst, -⟩ := write_body (t := t) is s hf hl
      (fun x hx => by have := ho x hx; rw [slotBytes_eq] at this; rw [ethMtu]; omega)
      (by rw [slotBytes_eq] at hle; rw [lengthbits]; omega)
    have hin := write_body_inSlot (t := t) is s hf hl ho
    obtain ⟨hi, hrep⟩ := final_write (k := k) hst.fsm (hst.keeps.room hr) (by rw [hst.counter]; exact hle)
    rw [hi, hrep, hst.counter, Bool.not_eq_false, and_iff_right hin]
    constructor
    · rintro ⟨h1, h2⟩
      by_cases h3 : slotBytes < s.counter + byteCount (wishboneParams nslots e) is +
          inc (wishboneParams nslots e) k.lastBeat
      · exact .inr ⟨h2 h3, ho, h1⟩
      · exact .inl (by omega)
    · rintro (h | ⟨h1, -, h2⟩)
      · exact ⟨.inl (by omega), fun h3 => by omega⟩
      · exact ⟨h2, fun _ => h1⟩
  · -- a beat starts past the slot: the packet is written past it, or cut and then reported
    have hgt := lt_byteCount_of_offset (p := wishboneParams nslots e) is _ ho
    constructor
    · rintro ⟨⟨h1, -⟩, h2⟩
      rcases write_body_overrun (t := t) is s hf hl (by omega) ho with h | ⟨h3, h4⟩
      · exact absurd h1 h
      · refine absurd ⟨?_, room_next (h4.room hr) (by simp [h3])⟩ (h2 (by omega))
        rw [next_skip h3 k.final_sink, if_pos k.last]
    · rintro (h | ⟨-, h, -⟩)
      · omega
      · exact absurd h ho

/-- Packets taken by an idle writer with room. -/
theorem oversizeSafe_taken_iff (k : Packet 32 τ) (s : State (wishboneParams nslots e) F) (hf : s.fsm = .idle)
    (hc : s.counter = 0) (hr : s.room) : OversizeSafe t s k ↔ SizeHandled e nslots s.room k := by
  have hbytes := k.byteCount_cycles (p := wishboneParams nslots e)
  have hinc := inc_le (p := wishboneParams nslots e) k.lastBeat
  -- the first beat is stored at the start of the slot
  have h0 : ∀ {i : In 32 τ} {b : PhyBeat 32}, i.sink = some b → InSlot s i := fun hb =>
    (inSlot_store hb (.inl ⟨hf, hr⟩) (by rw [hc, slotBytes_eq]; omega)).2 (by rw [hc, slotBytes_eq]; omega)
  unfold OversizeSafe SizeHandled
  simp only [hr, not_true_eq_false, false_and, or_false, true_and]
  rw [hbytes, Packet.cycles, Machine.runFrom_concat, writer_step]
  rcases hk : k.body with _ | ⟨i, is⟩
  · -- it is also the last, and `IDLE` does not end a packet
    rw [byteCount, Nat.zero_add, slotBytes_eq]
    refine ⟨fun _ => .inl (by omega), fun _ => ⟨⟨h0 k.final_sink, trivial⟩, fun h => by omega⟩⟩
  · obtain ⟨b, hb⟩ := Option.ne_none_iff_exists'.1 (k.body_head i is hk)
    have hl : NoLast is := fun j hj => k.body_last j (by rw [hk]; exact hj)
    have hb1 := inc_le (p := wishboneParams nslots e) b
    have hn := next_start hf hb hr
    rw [hc, Nat.zero_add, Nat.mod_eq_of_lt (by rw [lengthbits]; omega)] at hn
    have hcnt : (s.next i).counter = inc (wishboneParams nslots e) b := by rw [hn]
    have h := write_tail_safe_iff (t := t) k is (s.next i) (by rw [hn]) (room_next hr (by simp [hf])) hl
      (by rw [hcnt, slotBytes_eq]; omega)
    rw [hcnt] at h
    rw [List.cons_append, Machine.along_cons, Machine.runFrom_cons, writer_step, and_iff_right (h0 hb),
      byteCount_beat hb, offsets_beat hb, Nat.zero_add, List.forall_mem_cons,
      and_iff_right (show (0, b).1 < slotBytes by rw [slotBytes_eq]; omega)]
    exact h

/-! ## Packets that are refused -/

/-- Without a report the queue only loses the entries software pops. -/
theorem queued_runFrom {p : SRAMParams} {F : SyncFIFO (StatEntry τ) p.nslots} (is : List (In p.dw τ)) (s : State p F)
    (h : (writer p F t).Along (fun s _ => s.fsm ≠ .terminate) s is) :
    ((writer p F t).runFrom s is).queued = s.queued.drop (is.filter (·.clear)).length := by
  induction is generalizing s with
  | nil => rfl
  | cons i is ih =>
    obtain ⟨h1, h2⟩ := h
    rw [Machine.runFrom_cons, ih _ h2, writer_step, queued_next, if_neg (fun h : _ ∧ _ => h1 h.1), List.append_nil]
    cases hcl : i.clear with
    | false => rw [List.filter_cons_of_neg (by simp [hcl])]; rfl
    | true => rw [List.filter_cons_of_pos hcl, if_pos rfl, List.length_cons, List.drop_tail, Nat.add_comm]

theorem discard_along {p : SRAMParams} {F : SyncFIFO (StatEntry τ) p.nslots} (is : List (In p.dw τ)) (s : State p F)
    (hf : s.fsm = .discardRemaining) (hl : NoLast is) :
    (writer p F t).Along (fun s _ => s.fsm = .discardRemaining) s is := by
  induction is generalizing s with
  | nil => trivial
  | cons i is ih =>
    refine ⟨hf, ih _ ?_ fun j hj => hl j (List.mem_cons_of_mem _ hj)⟩
    rw [writer_step]
    rcases hb : i.sink with _ | b
    · rw [next_gap (.inr (.inr hf)) hb]; exact hf
    · rw [next_skip hf hb, hl i (List.mem_cons_self ..) b hb]; rfl

/-- Packets refused by an idle writer, its status FIFO full. -/
theorem oversizeSafe_refused_iff (hn0 : 0 < nslots) (k : Packet 32 τ) (s : State (wishboneParams nslots e) F)
    (hf : s.fsm = .idle) (hq : s.queued.length = nslots) (hr : ¬ s.room) :
    OversizeSafe t s k ↔ SizeHandled e nslots s.room k := by
  have hinc := inc_le (p := wishboneParams nslots e) k.lastBeat
  have hbytes := k.byteCount_cycles (p := wishboneParams nslots e)
  have hno : ∀ {s : State (wishboneParams nslots e) F} {i : In 32 τ}, s.fsm = .discardRemaining → InSlot s i := by
    intro s i hf
    refine inSlot_of_no_write ?_
    unfold State.write
    rcases hb : i.sink with _ | b
    · rfl
    · rw [drive_skip hf hb]; rfl
  have h0 : ∀ {i : In 32 τ} {b : PhyBeat 32}, i.sink = some b → InSlot s i := fun hb =>
    inSlot_of_no_write (by unfold State.write; rw [drive_refuse hf hb hr, hb]; rfl)
  unfold OversizeSafe SizeHandled
  simp only [hr, not_false_eq_true, false_and, false_or, true_and]
  rcases hk : k.body with _ | ⟨i, is⟩
  · -- `IDLE` does not end a packet: nothing is reported yet
    have hcyc : k.cycles = [k.final] := by rw [Packet.cycles, hk]; rfl
    have hle : byteCount (wishboneParams nslots e) k.cycles ≤ slotBytes := by
      rw [hbytes, hk, byteCount, slotBytes_eq]; omega
    refine ⟨fun _ => .inl hle, fun _ => ⟨?_, fun h => absurd h (by omega)⟩⟩
    rw [hcyc]; exact ⟨h0 k.final_sink, trivial⟩
  · obtain ⟨b, hb⟩ := Option.ne_none_iff_exists'.1 (k.body_head i is hk)
    have hl : NoLast is := fun j hj => k.body_last j (by rw [hk]; exact hj)
    have hcyc : k.cycles = i :: (is ++ [k.final]) := by rw [Packet.cycles, hk]; rfl
    have hd : (s.next i).fsm = .discardRemaining := by rw [next_refuse hf hb hr]
    have hal := discard_along (t := t) is (s.next i) hd hl
    obtain ⟨h1, -⟩ := discard_body (t := t) is (s.next i) hd hl
    -- swallowing the packet reports nothing, and ends in `TERMINATE`
    have hnt : (writer _ F t).Along (fun s _ => s.fsm ≠ .terminate) s k.cycles := by
      rw [hcyc]
      refine ⟨by simp [hf], ((writer _ F t).along_append _ _ _ _).2 ⟨?_, ?_⟩⟩
      · exact Machine.Along.imp _ (fun s _ h => by simp [h]) hal
      · exact ⟨fun h => absurd (h1.symm.trans h) (by decide), trivial⟩
    have hin : (writer _ F t).Along InSlot s k.cycles := by
      rw [hcyc]
      refine ⟨h0 hb, ((writer _ F t).along_append _ _ _ _).2 ⟨?_, ?_⟩⟩
      · exact Machine.Along.imp _ (fun s i h => hno h) hal
      · exact ⟨hno (by rw [writer_step]; exact h1), trivial⟩
    have hend : ((writer _ F t).runFrom s k.cycles).fsm = .terminate := by
      rw [hcyc, Machine.runFrom_cons, Machine.runFrom_concat, writer_step, writer_step, next_skip h1 k.final_sink,
        if_pos k.last]
    have hroom : ((writer _ F t).runFrom s k.cycles).room ↔ ¬ ∀ i ∈ k.cycles, i.clear = false := by
      rw [room_iff, queued_runFrom k.cycles s hnt, List.length_drop, hq]
      have : (k.cycles.filter (·.clear)).length = 0 ↔ ∀ i ∈ k.cycles, i.clear = false := by
        rw [List.length_eq_zero_iff, List.filter_eq_nil_iff]
        simp only [Bool.not_eq_true]
      rw [← this]
      generalize (k.cycles.filter (·.clear)).length = n
      show nslots - n < nslots ↔ ¬ n = 0
      omega
    unfold Reported
    rw [hend, hroom, and_iff_right hin]
    constructor
    · intro h
      by_cases hlt : slotBytes < byteCount (wishboneParams nslots e) k.cycles
      · exact .inr (by by_contra hc; exact h hlt ⟨rfl, hc⟩)
      · exact .inl (by omega)
    · rintro (h | h) hlt ⟨-, hc⟩
      · omega
      · exact hc h

/-! ## Every packet -/

/-- After every run that leaves the writer idle, every packet it takes is written inside its slot and
reported only if it fits, iff it is one of those `SizeHandled` describes. -/
theorem writer_oversize_iff (hn : 0 < nslots) (past : List (In 32 τ))
    (hidle : ((writer (wishboneParams nslots e) F t).run past).fsm = .idle) (k : Packet 32 τ) :
    OversizeSafe t ((writer (wishboneParams nslots e) F t).run past) k ↔
      SizeHandled e nslots ((writer (wishboneParams nslots e) F t).run past).room k := by
  by_cases hr : ((writer (wishboneParams nslots e) F t).run past).room
  · exact oversizeSafe_taken_iff k _ hidle (idle_counter (p := wishboneParams nslots e) past hidle) hr
  · have hle := queued_le_run (p := wishboneParams nslots e) (F := F) (t := t) past
    have hge := (F.not_sinkReady_iff _).1 (Bool.not_eq_true _ ▸ hr)
    exact oversizeSafe_refused_iff hn k _ hidle (Nat.le_antisymm hle hge) hr

theorem writer_oversize_three_words :
    OversizeSafe () ((writer (wishboneParams 2 .big) (SyncFIFO.queue _ 2) ()).run []) (countingPacket 2) ↔
      SizeHandled .big 2 ((writer (wishboneParams 2 .big) (SyncFIFO.queue _ 2) ()).run []).room (countingPacket 2) :=
  writer_oversize_iff (by decide) [] rfl (countingPacket 2)

/-- A packet of 383 words (1532 bytes) is written past its slot of 382 words. -/
theorem writer_overruns_slot :
    ¬ OversizeSafe () ((writer (wishboneParams 2 .big) (SyncFIFO.queue _ 2) ()).run []) (countingPacket 382) := by
  rw [oversizeSafe_taken_iff _ _ rfl rfl (by decide)]
  rintro (h | ⟨-, h, -⟩ | ⟨h, -⟩)
  · revert h; decide +kernel
  · cases h
  · exact h (by decide)

end LiteEth.Mac.Writer
