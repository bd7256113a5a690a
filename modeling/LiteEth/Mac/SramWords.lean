/-
The bytes in the slots of the SRAM: the reader sends words that carry the bytes of a command's slot, and the writer stores
the words of a packet so that its slot has the bytes they carry, with their number in the status entry.
-/
import LiteEth.Mac.Converter
import LiteEth.Mac.SramReader
import LiteEth.Mac.SramStore

namespace LiteEth.Mac

open LiteEth.Rtl Converter

/-- The first `n` bytes of a slot. -/
def slotData (e : Endianness) (m : ℕ → BitVec 32) (n : ℕ) : List (BitVec 8) :=
  ((List.range ((n + 3) / 4)).flatMap fun k => dataBytes e (m k)).take n

theorem length_flatMap_dataBytes (e : Endianness) (ws : List (BitVec 32)) :
    (ws.flatMap (dataBytes e)).length = 4 * ws.length := by
  induction ws with
  | nil => rfl
  | cons w ws ih =>
    rw [List.flatMap_cons, List.length_append, length_dataBytes, ih, List.length_cons]
    omega

theorem length_slotData (e : Endianness) (m : ℕ → BitVec 32) (n : ℕ) : (slotData e m n).length = n := by
  have h := length_flatMap_dataBytes e ((List.range ((n + 3) / 4)).map m)
  rw [List.flatMap_map, List.length_map, List.length_range] at h
  unfold slotData
  rw [List.length_take, h]
  omega

/-- The bytes that words carry are those of their data, up to the mark. -/
theorem Converter.Carries.bytes {e : Endianness} {ds : List (BitVec 8)} {ws : List (PhyBeat 32)} (h : Carries e ds ws) :
    ds = (ws.flatMap fun w => dataBytes e w.data).take ds.length := by
  induction h with
  | last n hn w hl hbe herr =>
    rw [List.flatMap_singleton, List.length_take, length_dataBytes, Nat.min_eq_left (by omega)]
  | word w hl hbe h ih =>
    rw [List.flatMap_cons, List.length_append, List.take_length_add_append, ← ih]

/-- A slot that holds the words has the bytes. -/
theorem Writer.Holds.slotData_eq {e : Endianness} {ds : List (BitVec 8)} {ws : List (PhyBeat 32)} (h : Carries e ds ws)
    {m : ℕ → BitVec 32} (hm : Writer.Holds m (ws.map (·.data))) : slotData e m ds.length = ds := by
  have hwords : (List.range ws.length).map m = ws.map (·.data) := by
    refine List.ext_getElem (by simp) fun j hj hj' => ?_
    rw [List.getElem_map, List.getElem_range]
    exact hm j hj'
  have hflat : ((List.range ws.length).flatMap fun k => dataBytes e (m k)) = ws.flatMap fun w => dataBytes e w.data := by
    rw [← List.flatMap_map m (dataBytes e), hwords, List.flatMap_map]
  conv_rhs => rw [h.bytes]
  unfold slotData
  rw [← h.length.2, hflat]

/-! ## The words of a command -/

namespace Reader

variable {e : Endianness} {ntxslots : ℕ}

namespace Issued

variable {q : Issued (wishboneParams ntxslots e)}

/-- The words of a packet. -/
def packet (q : Issued (wishboneParams ntxslots e)) : List (PhyBeat 32) := (List.range q.words).map q.word

/-- The bytes of a packet. -/
def bytes (q : Issued (wishboneParams ntxslots e)) : List (BitVec 8) := slotData e q.2 q.1.length.toNat

theorem mark_eq (e : Endianness) (j : ℕ) : Reader.mark 32 e j = Converter.mark e j := by cases e <;> rfl

theorem error_packet : ∀ w ∈ q.packet, w.error = 0 := by
  intro w hw
  obtain ⟨k, -, rfl⟩ := List.mem_map.1 hw
  rfl

/-- The words from one of them on carry the bytes from there on. -/
theorem carries_from (q : Issued (wishboneParams ntxslots e)) (h : 1 ≤ q.1.length.toNat) {k d : ℕ}
    (hk : k + d + 1 = q.words) : Carries e
      (((List.range' k (d + 1)).flatMap fun j => dataBytes e (q.2 j)).take (q.1.length.toNat - 4 * k))
      ((List.range' k (d + 1)).map q.word) := by
  have hwords : q.words = (q.1.length.toNat + 3) / 4 := rfl
  induction d generalizing k with
  | zero =>
    have hlast : k + 1 = q.words := hk
    have hlen : q.1.length.toNat - 4 * k = (q.1.length.toNat - 1) % 4 + 1 := by omega
    let w : PhyBeat 32 := q.word k
    have hbe : w.lastBe = Converter.mark e ((q.1.length.toNat - 1) % 4) := (if_pos hlast).trans (mark_eq e _)
    rw [hlen]
    exact .last _ (Nat.mod_lt _ (by decide)) w (decide_eq_true hlast) hbe BitVec.zero_and
  | succ d ih =>
    have hne : k + 1 ≠ q.words := by omega
    rw [List.range'_succ, List.flatMap_cons, List.map_cons, List.take_append, length_dataBytes,
      List.take_of_length_le (by rw [length_dataBytes]; omega),
      show q.1.length.toNat - 4 * k - 4 = q.1.length.toNat - 4 * (k + 1) by omega]
    exact .word (q.word k) (decide_eq_false hne) (if_neg hne) (ih (by omega))

/-- The words of a packet carry its bytes. -/
theorem carries (q : Issued (wishboneParams ntxslots e)) (h : 1 ≤ q.1.length.toNat) : Carries e q.bytes q.packet := by
  have hwords : q.words = (q.1.length.toNat + 3) / 4 := rfl
  have hcarry := carries_from q h (k := 0) (d := q.words - 1) (by omega)
  rw [show q.words - 1 + 1 = q.words by omega, ← List.range_eq_range'] at hcarry
  exact hcarry

theorem packet_drop {k : ℕ} (hk : k < q.words) : q.packet.drop k = q.word k :: q.packet.drop (k + 1) := by
  rw [List.drop_eq_getElem_cons (by simpa [packet] using hk)]
  simp [packet]

theorem packet_drop_words : q.packet.drop q.words = [] := by simp [packet]

end Issued

variable {F : SyncFIFO (Command (wishboneParams ntxslots e)) ntxslots} {s : State (wishboneParams ntxslots e) F}
  {i : In (wishboneParams ntxslots e)} {q : Issued (wishboneParams ntxslots e)} {unsent : List (PhyBeat 32)}

/-- The command that is issued is the one that software starts. -/
theorem start_of_issues (h : s.issues i = some q) : i.start = some q.1 := by
  unfold State.issues at h
  split_ifs at h
  obtain ⟨c, hc, rfl⟩ := Option.map_eq_some_iff.1 h
  exact hc

/-- The reader has nothing to send. -/
structure Idle (s : State (wishboneParams ntxslots e) F) : Prop where
  queued : Queued s []
  fsm : s.fsm = .idle

/-- The reader is about to send, or sends, the packet of its only command. -/
inductive Sending (s : State (wishboneParams ntxslots e) F) (q : Issued (wishboneParams ntxslots e)) :
    List (PhyBeat 32) → Prop
  | wait (hs : Queued s [q]) (hf : s.fsm = .idle) : Sending s q q.packet
  | send (hs : Queued s [q]) (k : ℕ) (hf : s.fsm = .send) (hk : k < q.words) (hc : s.counter.toNat = 4 * k)
      (ha : s.adr = k) : Sending s q (q.packet.drop k)
  | «end» (hs : Queued s [q]) (hf : s.fsm = .end) : Sending s q []
  | idle (h : Idle s) : Sending s q []

/-- The word at the source. -/
theorem source_word (hs : Queued s [q]) {k : ℕ} (hf : s.fsm = .send) (hq : q.Long) (hk : k < q.words)
    (hc : s.counter.toNat = 4 * k) (ha : s.adr = k) : s.source = some (q.word k) := by
  have hevents := (events_word (i := quiet) hs hf hq hk hc ha).2
  rw [events_send hf] at hevents
  unfold State.source
  rw [hf]
  exact congrArg some (Event.beat.inj (List.singleton_inj.1 hevents))

theorem source_none (hf : s.fsm ≠ .send) : s.source = none := by
  unfold State.source
  cases h : s.fsm with
  | send => exact absurd h hf
  | idle | «end» => rfl

theorem Idle.next (h : Idle s) (hi : Fair s i) (hissue : s.issues i = none) : Idle (s.next i) := by
  have hqueued := h.queued.next hi
  rw [hissue, Option.toList_none, List.append_nil, List.tail_nil, ite_self] at hqueued
  have hv : F.sourceValid s.cmdFifo = false := by
    rw [← Bool.not_eq_true, F.sourceValid_iff, h.queued.contents]
    simp
  refine ⟨hqueued, ?_⟩
  rw [(begin_next h.fsm i).1, hv]
  rfl

/-- A command is issued. -/
theorem Idle.issue (h : Idle s) (hi : Fair s i) (hissue : s.issues i = some q) : Sending (s.next i) q q.packet := by
  have hqueued := h.queued.next hi
  rw [hissue, Option.toList_some, List.tail_nil, ite_self, List.nil_append] at hqueued
  have hv : F.sourceValid s.cmdFifo = false := by
    rw [← Bool.not_eq_true, F.sourceValid_iff, h.queued.contents]
    simp
  refine .wait hqueued ?_
  rw [(begin_next h.fsm i).1, hv]
  rfl

/-- The reader sends its packet word by word, and is idle in the end. -/
theorem Sending.next (h : Sending s q unsent) (hq : q.Long) (hi : Fair s i) (hissue : s.issues i = none) :
    ∃ unsent', unsent = (if i.ready then s.source else none).toList ++ unsent' ∧ Sending (s.next i) q unsent' ∧
      (unsent' ≠ [] → (s.next i).source ≠ none) ∧ (unsent = [] → Idle (s.next i)) := by
  have hkeep : s.done = false → ∀ {qs}, Queued s qs → Queued (s.next i) qs := fun hd qs hs => by
    have hnext := hs.next hi
    rwa [hd, hissue, Option.toList_none, List.append_nil] at hnext
  cases h with
  | wait hs hf =>
    have hnext := hkeep (by simp [State.done, hf]) hs
    obtain ⟨hfsm, hc, ha⟩ := begin_next hf i
    have hv : F.sourceValid s.cmdFifo = true := by
      rw [F.sourceValid_iff, hs.contents]
      simp
    rw [hv, if_pos rfl] at hfsm
    have hpos := Issued.words_pos (hs.proper q List.mem_cons_self)
    have hsource := source_none (s := s) (by simp [hf])
    -- the first word is shown as soon as the command is taken
    refine ⟨q.packet, ?_, .send hnext 0 hfsm hpos hc ha, fun _ => ?_, fun hnil => ?_⟩
    · rw [hsource, ite_self]
      rfl
    · rw [source_word hnext hfsm hq hpos hc ha]
      exact Option.some_ne_none _
    · exact absurd (congrArg List.length hnil) (by simp [Issued.packet]; omega)
  | send hs k hf hk hc ha =>
    have hnext := hkeep (by simp [State.done, hf]) hs
    have hsource := source_word hs hf hq hk hc ha
    rw [hsource, Issued.packet_drop hk]
    rcases send_next hs hf hq hk hc ha i with ⟨hr, hw, hend⟩ | ⟨k', hk', hsend, hlt, hc', ha'⟩
    · rw [hr, if_pos rfl, hw, Issued.packet_drop_words]
      exact ⟨[], rfl, .end hnext hend, fun h => absurd rfl h, fun h => absurd h (List.cons_ne_nil _ _)⟩
    · have hunsent : q.word k :: q.packet.drop (k + 1) =
          (if i.ready then some (q.word k) else none).toList ++ q.packet.drop k' := by
        rw [hk']
        cases i.ready
        · exact (Issued.packet_drop hk).symm
        · rfl
      refine ⟨q.packet.drop k', hunsent, .send hnext k' hsend hlt hc' ha', fun _ => ?_,
        fun h => absurd h (List.cons_ne_nil _ _)⟩
      rw [source_word hnext hsend hq hlt hc' ha']
      exact Option.some_ne_none _
  | «end» hs hf =>
    have hnext := hs.next hi
    rw [(done_iff s).2 hf, if_pos rfl, List.tail_cons, hissue, Option.toList_none, List.append_nil] at hnext
    have hidle : Idle (s.next i) := ⟨hnext, by simp [State.next, hf]⟩
    have hsource := source_none (s := s) (by simp [hf])
    rw [hsource, ite_self]
    exact ⟨[], rfl, .idle hidle, fun h => absurd rfl h, fun _ => hidle⟩
  | idle hs =>
    have hidle := hs.next hi hissue
    have hsource := source_none (s := s) (by simp [hs.fsm])
    rw [hsource, ite_self]
    exact ⟨[], rfl, .idle hidle, fun h => absurd rfl h, fun _ => hidle⟩

end Reader

/-! ## The words that are stored -/

namespace Writer

variable {τ : Type} {e : Endianness} {nrxslots : ℕ} {F : SyncFIFO (StatEntry τ) (wishboneParams nrxslots e).nslots}
  {s : State (wishboneParams nrxslots e) F} {i : In 32 τ} {ws : List (PhyBeat 32)} {w : PhyBeat 32}

/-- The first words of a packet have been stored. -/
structure Storing (s : State (wishboneParams nrxslots e) F) (ws : List (PhyBeat 32)) : Prop where
  fsm : s.fsm = if ws = [] then .idle else .write
  counter : s.counter = 4 * ws.length
  holds : Holds (s.mems s.slot) (ws.map (·.data))
  queued : s.queued = []

/-- A packet of the bytes `ds` has been stored, and is to be reported. -/
structure Stored (s : State (wishboneParams nrxslots e) F) (ds : List (BitVec 8)) : Prop where
  fsm : s.fsm = .terminate
  counter : s.counter = ds.length
  holds : slotData e (s.mems s.slot) ds.length = ds
  queued : s.queued = []

theorem queued_next_nil (hf : s.fsm ≠ .terminate) (hq : s.queued = []) : (s.next i).queued = [] := by
  rw [queued_next, hq, if_neg fun h : _ ∧ _ => hf h.1, List.append_nil]
  exact ite_self _

theorem room_of_nil (hn : 0 < nrxslots) (hq : s.queued = []) : s.room := by
  rw [room_iff, hq]
  exact hn

theorem Storing.ne_terminate (h : Storing s ws) : s.fsm ≠ .terminate := by
  rw [h.fsm]
  split_ifs <;> exact nofun

theorem Storing.gap (h : Storing s ws) (hb : i.sink = none) :
    Storing (s.next i) ws ∧ (s.next i).slot = s.slot ∧ (s.next i).errors = s.errors := by
  have hf : s.fsm = .idle ∨ s.fsm = .write ∨ s.fsm = .discardRemaining := by
    rw [h.fsm]
    split_ifs
    · exact .inl rfl
    · exact .inr (.inl rfl)
  have hqueued := queued_next_nil (i := i) h.ne_terminate h.queued
  rw [next_gap hf hb] at hqueued ⊢
  exact ⟨⟨h.fsm, h.counter, h.holds, hqueued⟩, rfl, rfl⟩

theorem adr_eq (hc : s.counter = 4 * ws.length) (hlen : ws.length < 382) : s.adr = ws.length := by
  unfold State.adr
  rw [hc]
  exact port_adr (p := wishboneParams nrxslots e) hlen

theorem Holds.word {mems : ℕ → ℕ → BitVec 32} {slot : ℕ} (h : Holds (mems slot) (ws.map (·.data)))
    (hlen : ws.length < 382) (w : PhyBeat 32) :
    Holds (memWrite 382 mems ⟨slot, ws.length, w.data⟩ slot) ((ws ++ [w]).map (·.data)) := by
  have hpush := h.push 382 (by rwa [List.length_map]) w.data
  rw [List.length_map] at hpush
  rw [List.map_append]
  exact hpush

/-- A word of a packet, from where it goes on. -/
theorem Storing.word (h : Storing s ws) (hn : 0 < nrxslots) (hlen : ws.length < 382) (hb : i.sink = some w)
    (hl : w.last = false) (hbe : w.lastBe = 0) :
    Storing (s.next i) (ws ++ [w]) ∧ (s.next i).slot = s.slot ∧ (s.next i).errors = s.errors := by
  have hqueued := queued_next_nil (i := i) h.ne_terminate h.queued
  have hinc : inc (wishboneParams nrxslots e) w = 4 := inc_body hbe
  have hcounter : (s.counter + inc (wishboneParams nrxslots e) w) % 2 ^ lengthbits = 4 * (ws ++ [w]).length := by
    rw [h.counter, hinc, List.length_append, List.length_singleton]
    exact Nat.mod_eq_of_lt (by unfold lengthbits; omega)
  have hholds := h.holds.word hlen w
  have hne : ws ++ [w] ≠ [] := List.append_ne_nil_of_right_ne_nil _ (List.cons_ne_nil _ _)
  have hf := h.fsm
  split_ifs at hf with hws
  · rw [next_start hf hb (room_of_nil hn h.queued), adr_eq h.counter hlen, hcounter] at hqueued ⊢
    exact ⟨⟨(if_neg hne).symm, rfl, hholds, hqueued⟩, rfl, rfl⟩
  · have hmtu : s.counter ≠ ethMtu := by
      rw [h.counter]
      unfold ethMtu
      omega
    rw [next_store hf hb hmtu, adr_eq h.counter hlen, hcounter, afterBeat_of_not_last hl] at hqueued ⊢
    exact ⟨⟨(if_neg hne).symm, rfl, hholds, hqueued⟩, rfl, rfl⟩

theorem inc_mark {n : ℕ} (hn : n < 4) (hbe : w.lastBe = mark e n) : inc (wishboneParams nrxslots e) w = n + 1 := by
  unfold inc
  rw [hbe]
  interval_cases n <;> cases e <;> rfl

/-- The last word of a packet. -/
theorem Storing.last {ds : List (BitVec 8)} (h : Storing s ws) (hne : ws ≠ []) (hlen : ws.length < 382)
    (hb : i.sink = some w) {n : ℕ} (hn : n < 4) (hl : w.last = true) (hbe : w.lastBe = mark e n)
    (herr : w.error &&& w.lastBe = 0) (hds : Carries e ds (ws ++ [w])) (hlength : ds.length = 4 * ws.length + (n + 1)) :
    Stored (s.next i) ds ∧ (s.next i).slot = s.slot ∧ (s.next i).errors = s.errors := by
  -- the counter is the number of bytes, below the limit
  have hqueued := queued_next_nil (i := i) h.ne_terminate h.queued
  have hcounter : (s.counter + inc (wishboneParams nrxslots e) w) % 2 ^ lengthbits = ds.length := by
    rw [h.counter, inc_mark hn hbe, hlength]
    exact Nat.mod_eq_of_lt (by unfold lengthbits; omega)
  have hholds := h.holds.word hlen w
  have hf := h.fsm
  rw [if_neg hne] at hf
  have hmtu : s.counter ≠ ethMtu := by
    rw [h.counter]
    unfold ethMtu
    omega
  -- the last word has no error, so that the frame is finished and not dropped
  have hafter : afterBeat w .write = .terminate := by
    have hclean : hasError w = false := by
      unfold hasError
      rw [herr]
      rfl
    unfold afterBeat
    rw [hl, hclean]
    rfl
  rw [next_store hf hb hmtu, adr_eq h.counter hlen, hcounter, hafter] at hqueued ⊢
  exact ⟨⟨rfl, rfl, hholds.slotData_eq hds, hqueued⟩, rfl, rfl⟩

/-- The entry `en` is queued. -/
structure Announced (s : State (wishboneParams nrxslots e) F) (en : StatEntry τ) : Prop where
  fsm : s.fsm = .idle
  counter : s.counter = 0
  queued : s.queued = [en]

/-- A stored packet is reported. -/
theorem Stored.report {ds : List (BitVec 8)} (h : Stored s ds) (hn : 0 < nrxslots) (i : In 32 τ) :
    (∃ t, Announced (s.next i) ⟨s.slot, ds.length, t⟩) ∧
      (s.next i).slot = (s.slot + 1) % 2 ^ (wishboneParams nrxslots e).slotbits ∧ (s.next i).errors = s.errors ∧
      (s.next i).mems = s.mems := by
  have hqueued := queued_next s i
  rw [h.queued, List.tail_nil, ite_self, List.nil_append, if_pos ⟨h.fsm, room_of_nil hn h.queued⟩, h.counter] at hqueued
  rw [next_finish h.fsm] at hqueued ⊢
  exact ⟨⟨s.timestamp, rfl, rfl, hqueued⟩, rfl, rfl, rfl⟩

/-- Software acknowledges an entry, or not yet. -/
theorem Announced.next {en : StatEntry τ} (h : Announced s en) (hb : i.sink = none) :
    (if i.clear then Storing (s.next i) [] else Announced (s.next i) en) ∧ (s.next i).slot = s.slot ∧
      (s.next i).errors = s.errors ∧ (s.next i).mems = s.mems := by
  have hne : s.fsm ≠ .terminate := by
    rw [h.fsm]
    exact nofun
  have hqueued := queued_next s i
  rw [h.queued, if_neg fun hf : _ ∧ _ => hne hf.1, List.append_nil] at hqueued
  rw [next_gap (.inl h.fsm) hb] at hqueued ⊢
  refine ⟨?_, rfl, rfl, rfl⟩
  split_ifs at hqueued ⊢
  · exact ⟨h.fsm, h.counter, Holds.nil _, hqueued⟩
  · exact ⟨h.fsm, h.counter, hqueued⟩

end Writer

end LiteEth.Mac
