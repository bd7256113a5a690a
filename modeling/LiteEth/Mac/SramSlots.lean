/-
Ownership of the slot memories. The slots of the queued status entries are consecutive ring
positions that end right before the slot pointer, as long as the slot pointer never advances
without an entry being queued; then a write enable is never asserted on a slot software still
owns. The pointer does advance alone when a packet that was dropped for want of a slot ends while
the status FIFO is still full, and the next received packet overwrites a queued one.
-/
import LiteEth.Mac.SramPackets
import LiteEth.Rtl.Ring

namespace LiteEth.Mac.Writer

open LiteEth.Rtl

variable {τ : Type} {p : SRAMParams} {F : SyncFIFO (StatEntry τ) p.nslots} {t : τ}

/-! ## The slot pointer and the room for a packet being written -/

theorem slot_next (s : State p F) (i : In p.dw τ) :
    (s.next i).slot = if s.fsm = .terminate then (s.slot + 1) % 2 ^ p.slotbits else s.slot := by
  have h := slotCe_iff s i
  simp only [State.next]
  split_ifs <;> simp_all

/-- `WRITE` is entered from `IDLE` with room in the status FIFO. -/
theorem fsm_next_write {s : State p F} {i : In p.dw τ} (h : (s.next i).fsm = .write) :
    s.fsm = .write ∨ s.fsm = .idle ∧ s.room := by
  have hd := drive_cases s i
  simp only [State.next] at h
  generalize s.drive i = d at h hd
  cases hd with
  | gap => exact .inl h
  | start b hf hb hr => exact .inr ⟨hf, hr⟩
  | store b hf | cut b hf => exact .inl hf
  | skip b hf => simp only at h; split at h <;> cases h
  | refuse | forget | finish => cases h

/-- A write enable is asserted in `IDLE` with room or in `WRITE`, on the memory of the slot
pointer. -/
theorem write_some {s : State p F} {i : In p.dw τ} {w : Write p.dw} (h : s.write i = some w) :
    w.slot = s.slot ∧ (s.fsm = .write ∨ s.fsm = .idle ∧ s.room) := by
  have hd := drive_cases s i
  unfold State.write at h
  split at h
  · split at h
    · rename_i ho
      cases h
      refine ⟨rfl, ?_⟩
      generalize s.drive i = d at ho hd
      cases hd with
      | start b hf hb hr => exact .inr ⟨hf, hr⟩
      | store b hf => exact .inl hf
      | _ => simp [State.hold] at ho
    · cases h
  · cases h

/-! ## The ring invariant -/

/-- The queued slots are the ring positions right before the slot pointer, at most all of them, and
the packet being written has a free one. -/
structure SlotInv (s : State p F) : Prop where
  le : s.queued.length ≤ p.nslots
  ring : ∃ r, s.queued.map (·.slot) = Ring.slots p.nslots r s.queued.length ∧
    s.slot = (r + s.queued.length) % p.nslots
  room : s.fsm = .write → s.room

/-- A packet ends with room in the status FIFO for its entry. -/
def EndsWithRoom (s : State p F) (_ : In p.dw τ) : Prop := s.fsm = .terminate → s.room

instance (s : State p F) (i : In p.dw τ) : Decidable (EndsWithRoom s i) := inferInstanceAs (Decidable (_ → _))

theorem slotInv_init : SlotInv (State.init p F t) := by
  have h : (State.init p F t).queued = [] := F.contents_reset
  refine ⟨by rw [h]; exact Nat.zero_le _, ⟨0, ?_⟩, fun h => by cases h⟩
  rw [h]
  simp [State.init]

theorem slotInv_next (hn : 2 ^ p.slotbits = p.nslots) (s : State p F) (i : In p.dw τ) (h : SlotInv s)
    (hc : EndsWithRoom s i) : SlotInv (s.next i) := by
  obtain ⟨hle, ⟨r, hr, hs⟩, hroom⟩ := h
  refine ⟨?_, ?_, fun hf => ?_⟩
  · exact queued_le_next hle i
  · -- software's pop moves the read pointer
    have hpop : ∃ r', (if i.clear then s.queued.tail else s.queued).map (·.slot) =
          Ring.slots p.nslots r' (if i.clear then s.queued.tail else s.queued).length ∧
        s.slot = (r' + (if i.clear then s.queued.tail else s.queued).length) % p.nslots := by
      rcases hq : s.queued with _ | ⟨e, q⟩
      · rw [hq] at hs; exact ⟨r, by simp, by simpa using hs⟩
      · by_cases hcl : i.clear
        · refine ⟨r + 1, ?_, ?_⟩
          · have := congrArg List.tail hr
            rw [hq, Ring.slots_tail] at this
            simpa [hcl] using this
          · rw [hq] at hs
            rw [hs]; simp only [hcl, if_true, List.tail_cons, List.length_cons]
            congr 1; omega
        · rw [hq] at hr hs
          exact ⟨r, by simpa [hcl] using hr, by simpa [hcl] using hs⟩
    obtain ⟨r', hr', hs'⟩ := hpop
    rw [queued_next, slot_next, hn]
    generalize (if i.clear then s.queued.tail else s.queued) = q at hr' hs'
    -- an entry is queued exactly when the slot pointer advances
    by_cases ht : s.fsm = .terminate
    · refine ⟨r', ?_, ?_⟩
      · simp only [ht, hc ht, and_self, if_true, List.map_append, hr', List.map_cons, List.map_nil,
          List.length_append, List.length_cons, List.length_nil, Nat.zero_add]
        rw [hs', Ring.slots_push]
      · simp only [ht, hc ht, and_self, if_true, List.length_append, List.length_cons, List.length_nil]
        rw [hs', Nat.mod_add_mod]; congr 1
    · exact ⟨r', by simpa [ht] using hr', by simpa [ht] using hs'⟩
  · have hnt : s.fsm ≠ .terminate := by
      rcases fsm_next_write hf with h | ⟨h, -⟩ <;> rw [h] <;> simp
    rcases fsm_next_write hf with h | ⟨-, h⟩
    · exact room_next (hroom h) hnt
    · exact room_next h hnt

/-- With a free slot, the slot pointer names none of the queued ones. -/
theorem SlotInv.slot_free {s : State p F} (h : SlotInv s) (hr : s.room) :
    ∀ e ∈ s.queued, e.slot ≠ s.slot := by
  obtain ⟨-, ⟨r, hq, hs⟩, -⟩ := h
  intro e he heq
  refine Ring.write_not_mem (r := r) ((room_iff s).1 hr) ?_
  rw [← hs, ← heq, ← hq]
  exact List.mem_map_of_mem he

/-! ## Received packets are never overwritten -/

/-- In this cycle no write enable is asserted on the memory of a queued slot. -/
def KeepsQueued (s : State p F) (i : In p.dw τ) : Prop :=
  ∀ w, s.write i = some w → ∀ e ∈ s.queued, e.slot ≠ w.slot

theorem SlotInv.keepsQueued {s : State p F} (h : SlotInv s) (i : In p.dw τ) : KeepsQueued s i := by
  intro w hw
  obtain ⟨hslot, hf⟩ := write_some hw
  rw [hslot]
  refine h.slot_free ?_
  rcases hf with hf | ⟨-, hf⟩
  · exact h.room hf
  · exact hf

theorem slotbits_of_two_pow {k : Nat} (hk : 1 ≤ k) (hn : p.nslots = 2 ^ k) : 2 ^ p.slotbits = p.nslots := by
  rw [SRAMParams.slotbits, hn, log2Int_two_pow, Nat.max_eq_left hk]

/-- In every run in which no packet ends while the status FIFO is full, a slot whose entry is
queued is never written. -/
theorem writer_keeps_queued {k : Nat} (hk : 1 ≤ k) (hn : p.nslots = 2 ^ k) (is : List (In p.dw τ))
    (hc : (writer p F t).Along EndsWithRoom (writer p F t).reset is) (i : In p.dw τ) :
    KeepsQueued ((writer p F t).run is) i :=
  ((writer p F t).runFrom_inv (fun s i => slotInv_next (slotbits_of_two_pow hk hn) s i) is _
    slotInv_init hc).keepsQueued i

/-- The condition is exact: once a packet ends while the status FIFO is full, software popping one
entry and one more beat overwrite a queued slot. -/
theorem overwrites_after_full_end {k : Nat} (hk : 1 ≤ k) (hn : p.nslots = 2 ^ k) (s : State p F)
    (h : SlotInv s) (hf : s.fsm = .terminate) (hr : ¬ s.room) (b : PhyBeat p.dw) :
    ¬ KeepsQueued ((writer p F t).runFrom s [⟨none, true, t⟩]) ⟨some b, false, t⟩ := by
  obtain ⟨hle, ⟨r, hq, hs⟩, -⟩ := h
  have h2 : 2 ≤ p.nslots :=
    calc 2 = 2 ^ 1 := rfl
      _ ≤ p.nslots := by rw [hn]; exact Nat.pow_le_pow_right (by decide) hk
  have hfull : s.queued.length = p.nslots := by rw [room_iff] at hr; omega
  have hnext := next_finish (i := ⟨none, true, t⟩) hf
  have hqn : (s.next ⟨none, true, t⟩).queued = s.queued.tail := by
    rw [queued_next, if_neg (fun h : _ ∧ _ => hr h.2)]; simp
  have hroom : (s.next ⟨none, true, t⟩).room := by
    rw [room_iff, hqn, List.length_tail]; omega
  -- the pointer is now at the oldest entry left
  have hslot : (s.next ⟨none, true, t⟩).slot = (r + 1) % p.nslots := by
    rw [hnext]; simp only
    rw [slotbits_of_two_pow hk hn, hs, hfull, Nat.mod_add_mod]
    rw [show r + p.nslots + 1 = r + 1 + p.nslots by omega, Nat.add_mod_right]
  have htail : s.queued.tail.map (·.slot) = Ring.slots p.nslots (r + 1) (p.nslots - 1) := by
    rw [List.map_tail, hq, hfull, Ring.slots_tail]
  have hmem : (r + 1) % p.nslots ∈ s.queued.tail.map (·.slot) := by
    rw [htail, Ring.slots]
    exact List.mem_map.2 ⟨0, List.mem_range.2 (by omega), rfl⟩
  obtain ⟨e, he, hes⟩ := List.mem_map.1 hmem
  intro hkeep
  have hw : (s.next ⟨none, true, t⟩).write ⟨some b, false, t⟩ =
      some ⟨(s.next ⟨none, true, t⟩).slot, (s.next ⟨none, true, t⟩).adr, b.data⟩ := by
    unfold State.write
    rw [drive_start (b := b) (by rw [hnext]) rfl hroom]; rfl
  exact hkeep _ hw e (by rw [Machine.runFrom_cons, Machine.runFrom_nil, writer_step, hqn]; exact he)
    (by rw [hes, hslot])

/-- A cycle with one beat of data. -/
def dataCycle (last : Bool) : In 32 Unit := ⟨some ⟨0, if last then 1 else 0, 0, last⟩, false, ()⟩

/-- A cycle without a beat, in which software may pop the status FIFO. -/
def idleCycle (clear : Bool) : In 32 Unit := ⟨none, clear, ()⟩

/-- A packet of two beats and an idle cycle. -/
def twoBeats : List (In 32 Unit) := [dataCycle false, dataCycle true, idleCycle false]

/-- The writer of an interface with two receive slots, over a FIFO kept as a list. -/
abbrev twoSlotWriter : Machine (In 32 Unit) (State (wishboneParams 2 .big) (SyncFIFO.queue (StatEntry Unit) 2)) :=
  writer (wishboneParams 2 .big) (SyncFIFO.queue _ 2) ()

theorem writer_keeps_queued_two_packets :
    KeepsQueued (twoSlotWriter.run (twoBeats ++ twoBeats)) (dataCycle false) := by
  have hc : twoSlotWriter.Along EndsWithRoom twoSlotWriter.reset (twoBeats ++ twoBeats) := by decide
  exact writer_keeps_queued (k := 1) (by decide) rfl _ hc _

/-- Two packets fill the status FIFO, a third one is dropped, software pops the first: the next
packet is written over the second one, still queued. -/
theorem writer_overwrites_queued :
    ¬ KeepsQueued (twoSlotWriter.run (twoBeats ++ twoBeats ++ twoBeats ++ [idleCycle true])) (dataCycle false) := by
  intro h
  exact h ⟨1, 0, 0⟩ (by decide) ⟨1, 8, ()⟩ (by decide) rfl

end LiteEth.Mac.Writer
