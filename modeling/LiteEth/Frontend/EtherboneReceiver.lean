/-
What the record receiver makes of records. A record with writes only or reads only is decoded beat
by beat; after the writes of a record that also has reads, the return base address is taken from
the FIFO's source but left there, so that it is read again as the first read address and the last
read address is left for the next record.
-/
import LiteEth.Frontend.Etherbone

namespace LiteEth.Frontend.Etherbone

open LiteEth.Rtl Receiver

variable {τ : Type}

/-! ## Records as lists of words -/

/-- The payload of a packet under a header, the last word marked. -/
def RecordHeader.words (h : RecordHeader) : List (Tagged τ) → List (Word τ)
  | [] => []
  | d :: ds => h.word ds.isEmpty d :: h.words ds

theorem retBase_unmarked (h : RecordHeader) (c : Ctrl τ) (b : Bool) (d : Tagged τ) :
    c.retBase (h.word b d) = c.retBase (h.word false d) := rfl

theorem take_unmarked (h : RecordHeader) (c : Ctrl τ) (b : Bool) (d : Tagged τ) :
    c.take (h.word b d) = c.take (h.word false d) := by
  obtain ⟨fsm, _, _⟩ := c
  cases fsm <;> rfl

/-- The receiver does not look at `last`. -/
theorem words_unmarked {ε : Type} {f : Ctrl τ → Word τ → List ε} (h : RecordHeader)
    (hf : ∀ c b d, f c (h.word b d) = f c (h.word false d)) (ds : List (Tagged τ)) (c : Ctrl τ) :
    c.logs f (h.words ds) = c.logs f (ds.map (h.word false)) ∧
      c.takes (h.words ds) = c.takes (ds.map (h.word false)) := by
  induction ds generalizing c with
  | nil => exact ⟨rfl, rfl⟩
  | cons d ds ih =>
    obtain ⟨hl, ht⟩ := ih (c.take (h.word false d))
    rw [RecordHeader.words, List.map_cons, logs_cons, logs_cons, takes_cons, takes_cons, take_unmarked,
      retBase_unmarked, hf]
    exact ⟨congrArg _ hl, ht⟩

theorem beat_unmarked (h : RecordHeader) (c : Ctrl τ) (b : Bool) (d : Tagged τ) :
    c.beat (h.word b d) = c.beat (h.word false d) := by
  obtain ⟨fsm, _, _⟩ := c
  cases fsm <;> rfl

section Stretch

variable (h : RecordHeader)

/-- Payload words in `IDLE`. -/
theorem take_idle {c : Ctrl τ} (hc : c.fsm = .idle) (d : Tagged τ) :
    c.beat (h.word false d) = [] ∧ c.retBase (h.word false d) = c ∧ c.take (h.word false d) =
      { fsm := if h.wcount ≠ 0 then .receiveWrites else if h.rcount ≠ 0 then .receiveReads else .idle
        baseAddr := d, count := 0 } := by
  obtain ⟨fsm, _, _⟩ := c
  cases hc
  exact ⟨rfl, rfl, rfl⟩

/-- The beats of a stretch of words that are written. -/
def writeStretch (c : Ctrl τ) (ds : List (Tagged τ)) : List (MmapBeat τ) :=
  (ds.zipIdx c.count).map fun x => Ctrl.writeBeat { c with count := x.2 } (h.word false x.1)

/-- The beats of a stretch of addresses that are read. -/
def readStretch (c : Ctrl τ) (ds : List (Tagged τ)) : List (MmapBeat τ) :=
  (ds.zipIdx c.count).map fun x => Ctrl.readBeat { c with count := x.2 } (h.word false x.1)

theorem take_write {c : Ctrl τ} (hc : c.fsm = .receiveWrites) (d : Tagged τ) :
    c.beat (h.word false d) = [c.writeBeat (h.word false d)] ∧ c.retBase (h.word false d) = c ∧
      c.take (h.word false d) =
        { c with
          count := (c.count + 1) % 512
          fsm :=
            if c.count + 1 = h.wcount.toNat then (if h.rcount ≠ 0 then .receiveBaseRetAddr else .idle)
            else .receiveWrites } := by
  obtain ⟨fsm, _, n⟩ := c
  cases hc
  refine ⟨rfl, rfl, ?_⟩
  simp [Ctrl.take, Ctrl.retBase, Ctrl.next, Ctrl.writeBeat, RecordHeader.word]

theorem take_read {c : Ctrl τ} (hc : c.fsm = .receiveReads) (d : Tagged τ) :
    c.beat (h.word false d) = [c.readBeat (h.word false d)] ∧ c.retBase (h.word false d) = c ∧
      c.take (h.word false d) =
        { c with
          count := (c.count + 1) % 512
          fsm := if c.count + 1 = h.rcount.toNat then .idle else .receiveReads } := by
  obtain ⟨fsm, _, n⟩ := c
  cases hc
  refine ⟨rfl, rfl, ?_⟩
  simp [Ctrl.take, Ctrl.retBase, Ctrl.next, Ctrl.readBeat, RecordHeader.word]

/-- Up to `n` words in a state `f` that counts them and is left for `g` with the `n`-th. -/
theorem takes_stretch {f g : Fsm} {n : ℕ} (hn : n < 512) {mk : Ctrl τ → Word τ → MmapBeat τ}
    (hword : ∀ b k d, (⟨f, b, k⟩ : Ctrl τ).beat (h.word false d) = [mk ⟨f, b, k⟩ (h.word false d)] ∧
      (⟨f, b, k⟩ : Ctrl τ).retBase (h.word false d) = ⟨f, b, k⟩ ∧
      (⟨f, b, k⟩ : Ctrl τ).take (h.word false d) = ⟨if k + 1 = n then g else f, b, (k + 1) % 512⟩)
    (ds : List (Tagged τ)) (b : Tagged τ) (k : ℕ) (hlt : k < n) (hle : k + ds.length ≤ n) :
    (⟨f, b, k⟩ : Ctrl τ).beats (ds.map (h.word false)) =
        (ds.zipIdx k).map (fun x => mk ⟨f, b, x.2⟩ (h.word false x.1)) ∧
      (⟨f, b, k⟩ : Ctrl τ).takes (ds.map (h.word false)) =
        ⟨if k + ds.length = n then g else f, b, k + ds.length⟩ := by
  induction ds generalizing k with
  | nil =>
    rw [List.length_nil, Nat.add_zero, if_neg hlt.ne]
    exact ⟨rfl, rfl⟩
  | cons d ds ih =>
    rw [List.length_cons] at hle
    obtain ⟨hb, hr, ht⟩ := hword b k d
    rw [Nat.mod_eq_of_lt (by omega)] at ht
    rw [List.map_cons, beats_cons, takes_cons, hr, hb, ht]
    by_cases hlast : k + 1 = n
    · obtain rfl : ds = [] := List.length_eq_zero_iff.1 (by omega)
      exact ⟨rfl, rfl⟩
    · obtain ⟨ihb, iht⟩ := ih (k + 1) (by omega) (by omega)
      rw [if_neg hlast, ihb, iht, List.length_cons, Nat.add_right_comm, Nat.add_assoc]
      exact ⟨rfl, rfl⟩

/-- Up to `wcount` words in `RECEIVE_WRITES`. -/
theorem takes_writes (ds : List (Tagged τ)) (c : Ctrl τ) (hc : c.fsm = .receiveWrites)
    (hlt : c.count < h.wcount.toNat) (hle : c.count + ds.length ≤ h.wcount.toNat) :
    c.beats (ds.map (h.word false)) = writeStretch h c ds ∧ c.takes (ds.map (h.word false)) =
      { c with
        count := c.count + ds.length
        fsm :=
          if c.count + ds.length = h.wcount.toNat then (if h.rcount ≠ 0 then .receiveBaseRetAddr else .idle)
          else .receiveWrites } := by
  obtain ⟨fsm, b, k⟩ := c
  cases hc
  exact takes_stretch h (h.wcount.isLt.trans (by decide)) (fun _ _ d => take_write h rfl d) ds b k hlt hle

/-- Up to `rcount` words in `RECEIVE_READS`. -/
theorem takes_reads (ds : List (Tagged τ)) (c : Ctrl τ) (hc : c.fsm = .receiveReads)
    (hlt : c.count < h.rcount.toNat) (hle : c.count + ds.length ≤ h.rcount.toNat) :
    c.beats (ds.map (h.word false)) = readStretch h c ds ∧ c.takes (ds.map (h.word false)) =
      { c with
        count := c.count + ds.length
        fsm := if c.count + ds.length = h.rcount.toNat then .idle else .receiveReads } := by
  obtain ⟨fsm, b, k⟩ := c
  cases hc
  exact takes_stretch h (h.rcount.isLt.trans (by decide)) (fun _ _ d => take_read h rfl d) ds b k hlt hle

/-- A packet that starts with writes: its first word is the base address. -/
theorem starts_writes {c : Ctrl τ} (hc : c.fsm = .idle) (hw : h.wcount ≠ 0) (d : Tagged τ)
    (ds : List (Tagged τ)) (hle : ds.length ≤ h.wcount.toNat) :
    c.beats ((d :: ds).map (h.word false)) = writeStretch h ⟨.receiveWrites, d, 0⟩ ds ∧
      c.takes ((d :: ds).map (h.word false)) =
        { fsm :=
            if ds.length = h.wcount.toNat then (if h.rcount ≠ 0 then .receiveBaseRetAddr else .idle)
            else .receiveWrites
          baseAddr := d, count := ds.length } := by
  obtain ⟨hb, hr, ht⟩ := take_idle h hc d
  rw [if_pos hw] at ht
  have hpos : 0 < h.wcount.toNat := Nat.pos_of_ne_zero fun h0 => hw (BitVec.toNat_inj.1 h0)
  obtain ⟨hbs, hts⟩ := takes_writes h ds ⟨.receiveWrites, d, 0⟩ rfl hpos (by simpa using hle)
  rw [List.map_cons, beats_cons, takes_cons, hr, hb, ht, hbs, hts]
  exact ⟨rfl, by simp only [Nat.zero_add]⟩

/-- A packet that starts with reads: its first word is the return base address. -/
theorem starts_reads {c : Ctrl τ} (hc : c.fsm = .idle) (hw : h.wcount = 0) (hr : h.rcount ≠ 0) (d : Tagged τ)
    (ds : List (Tagged τ)) (hle : ds.length ≤ h.rcount.toNat) :
    c.beats ((d :: ds).map (h.word false)) = readStretch h ⟨.receiveReads, d, 0⟩ ds ∧
      c.takes ((d :: ds).map (h.word false)) =
        { fsm := if ds.length = h.rcount.toNat then .idle else .receiveReads
          baseAddr := d, count := ds.length } := by
  obtain ⟨hb, hret, ht⟩ := take_idle h hc d
  rw [if_neg (by simpa using hw), if_pos hr] at ht
  have hpos : 0 < h.rcount.toNat := Nat.pos_of_ne_zero fun h0 => hr (BitVec.toNat_inj.1 h0)
  obtain ⟨hbs, hts⟩ := takes_reads h ds ⟨.receiveReads, d, 0⟩ rfl hpos (by simpa using hle)
  rw [List.map_cons, beats_cons, takes_cons, hret, hb, ht, hbs, hts]
  exact ⟨rfl, by simp only [Nat.zero_add]⟩

end Stretch

/-! ## Well-formed records -/

/-- A word without a tag. -/
def plain (b : BitVec 32) : Tagged Unit := ⟨b, ()⟩

/-- An Etherbone record: what is written from a base address on, and the addresses that are read for
a return base address. -/
structure Record where
  byteEnable : BitVec 8
  base : BitVec 32
  writes : List (BitVec 32)
  retBase : BitVec 32
  reads : List (BitVec 32)

namespace Record

/-- The counts fit the header, and there is something to do. -/
structure WellFormed (r : Record) : Prop where
  writes : r.writes.length ≤ 255
  reads : r.reads.length ≤ 255
  some : r.writes ≠ [] ∨ r.reads ≠ []

instance (r : Record) : Decidable r.WellFormed :=
  decidable_of_iff (r.writes.length ≤ 255 ∧ r.reads.length ≤ 255 ∧ (r.writes ≠ [] ∨ r.reads ≠ []))
    ⟨fun ⟨h1, h2, h3⟩ => ⟨h1, h2, h3⟩, fun ⟨h1, h2, h3⟩ => ⟨h1, h2, h3⟩⟩

variable (r : Record)

/-- The header of a record: its counts and its byte enables. -/
def header : RecordHeader :=
  { wcount := BitVec.ofNat 8 r.writes.length, rcount := BitVec.ofNat 8 r.reads.length, byteEnable := r.byteEnable }

/-- The payload: each part that is there, behind its base address. -/
def payload : List (BitVec 32) :=
  (if r.writes = [] then [] else r.base :: r.writes) ++ (if r.reads = [] then [] else r.retBase :: r.reads)

/-- The packet of the record. -/
def words : List (Word Unit) := r.header.words (r.payload.map plain)

/-- The `i`-th write of the record. -/
def write (x : BitVec 32 × Nat) : MmapBeat Unit :=
  { we := true, count := BitVec.ofNat 8 r.writes.length, baseAddr := plain 0, be := r.byteEnable.setWidth 4
    addr := plain (r.base >>> 2 + BitVec.ofNat 32 x.2), data := plain x.1, last := x.2 + 1 == r.writes.length }

/-- The `j`-th read of the record. -/
def read (x : BitVec 32 × Nat) : MmapBeat Unit :=
  { we := false, count := BitVec.ofNat 8 r.reads.length, baseAddr := plain r.retBase, be := 0
    addr := plain (x.1 >>> 2), data := plain 0, last := x.2 + 1 == r.reads.length }

/-- The beats the record asks for. -/
def beats : List (MmapBeat Unit) := r.writes.zipIdx.map r.write ++ r.reads.zipIdx.map r.read

/-- A record with both writes and reads. -/
def Mixed : Prop := r.writes ≠ [] ∧ r.reads ≠ []

instance : Decidable r.Mixed := inferInstanceAs (Decidable (_ ∧ _))

end Record

section Decode

variable {r : Record}

theorem wcount_toNat (hr : r.WellFormed) : r.header.wcount.toNat = r.writes.length := by
  have := hr.writes
  rw [Record.header, BitVec.toNat_ofNat]
  omega

theorem rcount_toNat (hr : r.WellFormed) : r.header.rcount.toNat = r.reads.length := by
  have := hr.reads
  rw [Record.header, BitVec.toNat_ofNat]
  omega

theorem wcount_eq_zero (hr : r.WellFormed) : r.header.wcount = 0 ↔ r.writes = [] := by
  rw [← BitVec.toNat_inj, wcount_toNat hr, ← List.length_eq_zero_iff]
  rfl

theorem rcount_eq_zero (hr : r.WellFormed) : r.header.rcount = 0 ↔ r.reads = [] := by
  rw [← BitVec.toNat_inj, rcount_toNat hr, ← List.length_eq_zero_iff]
  rfl

/-- The words of the record without their marks. -/
theorem words_eq (r : Record) (c : Ctrl Unit) :
    c.beats r.words = c.beats ((r.payload.map plain).map (r.header.word false)) ∧
      c.takes r.words = c.takes ((r.payload.map plain).map (r.header.word false)) :=
  words_unmarked r.header (beat_unmarked r.header) _ c

/-- The base address and the writes, from `IDLE`. -/
theorem decode_writes (hr : r.WellFormed) (hw : r.writes ≠ []) {c : Ctrl Unit} (hc : c.fsm = .idle) :
    c.beats (((r.base :: r.writes).map plain).map (r.header.word false)) = r.writes.zipIdx.map r.write ∧
      (c.takes (((r.base :: r.writes).map plain).map (r.header.word false))).fsm =
        if r.reads = [] then .idle else .receiveBaseRetAddr := by
  have hwc := wcount_toNat hr
  obtain ⟨hb, ht⟩ := starts_writes r.header hc ((wcount_eq_zero hr).not.2 hw) (plain r.base)
    (r.writes.map plain) (by simp [hwc])
  rw [List.map_cons, hb, ht]
  constructor
  · rw [writeStretch, List.zipIdx_map, List.map_map]
    refine List.map_congr_left fun x _ => ?_
    simp only [Function.comp, Prod.map, Record.write, Ctrl.writeBeat, RecordHeader.word, hwc]
    rfl
  · have := rcount_eq_zero hr
    by_cases hreads : r.reads = [] <;> simp_all

/-- The return base address and the reads of a record without writes, from `IDLE`. -/
theorem decode_reads (hr : r.WellFormed) (hw : r.writes = []) {c : Ctrl Unit} (hc : c.fsm = .idle) :
    c.beats (((r.retBase :: r.reads).map plain).map (r.header.word false)) = r.reads.zipIdx.map r.read ∧
      (c.takes (((r.retBase :: r.reads).map plain).map (r.header.word false))).fsm = .idle := by
  have hrc := rcount_toNat hr
  have hreads : r.reads ≠ [] := hr.some.resolve_left (not_not.2 hw)
  obtain ⟨hb, ht⟩ := starts_reads r.header hc ((wcount_eq_zero hr).2 hw) ((rcount_eq_zero hr).not.2 hreads)
    (plain r.retBase) (r.reads.map plain) (by simp [hrc])
  rw [List.map_cons, hb, ht]
  constructor
  · rw [readStretch, List.zipIdx_map, List.map_map]
    refine List.map_congr_left fun x _ => ?_
    simp only [Function.comp, Prod.map, Record.read, Ctrl.readBeat, RecordHeader.word, hrc]
    rfl
  · simp [hrc]

/-- A record that is not mixed is decoded as it should be, from `IDLE` to `IDLE`. -/
theorem decode_unmixed (hr : r.WellFormed) (hm : ¬ r.Mixed) {c : Ctrl Unit} (hc : c.fsm = .idle) :
    c.beats r.words = r.beats ∧ (c.takes r.words).fsm = .idle := by
  obtain ⟨hbw, htw⟩ := words_eq r c
  rw [hbw, htw, Record.payload, Record.beats]
  by_cases hw : r.writes = []
  · obtain ⟨hb, ht⟩ := decode_reads hr hw hc
    have hreads : r.reads ≠ [] := hr.some.resolve_left (not_not.2 hw)
    rw [if_pos hw, if_neg hreads, List.nil_append, hb, ht]
    simp [hw]
  · obtain ⟨hb, ht⟩ := decode_writes hr hw hc
    have hreads : r.reads = [] := by
      by_contra hne
      exact hm ⟨hw, hne⟩
    rw [if_neg hw, if_pos hreads, List.append_nil, hb, ht]
    simp [hreads]

end Decode

/-! ## Mixed records

A return base address that is taken from the FIFO but left there shows in the balance of words and
beats: a word that is consumed is a beat or opens a part of a record, and a part that ends, which
`last` marks, was opened by a word unless it is the reads behind some writes. -/

/-- A report of each word with which the receiver comes to `RECEIVE_BASE_RET_ADDR`. -/
def entersRetBase (c : Ctrl τ) (w : Word τ) : List Unit :=
  if (c.next (some w) true).fsm = .receiveBaseRetAddr then [()] else []

/-- One for a receiver within a record. -/
def Receiver.Ctrl.within (c : Ctrl τ) : Nat := if c.fsm = .idle then 0 else 1

theorem balance_word (c : Ctrl τ) (w : Word τ) (hw : w.wcount ≠ 0 ∨ w.rcount ≠ 0) :
    1 + (entersRetBase (c.retBase w) w).length + c.within =
      ((c.retBase w).beat w).length + ((c.retBase w).beat w).countP (·.last) + (c.take w).within := by
  have hret : c.within = (c.retBase w).within := by
    obtain ⟨fsm, _, _⟩ := c
    cases fsm <;> rfl
  -- behind the return address the state is another one
  have hnot : (c.retBase w).fsm ≠ .receiveBaseRetAddr := by
    obtain ⟨fsm, _, _⟩ := c
    cases fsm <;> simp [Ctrl.retBase]
  rw [hret, Ctrl.take]
  generalize c.retBase w = c at hnot
  obtain ⟨fsm, b, n⟩ := c
  -- each state gives at most one beat, and the last of a run ends it
  cases fsm with
  | idle =>
    by_cases h0 : w.wcount = 0#8
    · have h1 : w.rcount ≠ 0#8 := hw.resolve_left (not_not.2 h0)
      simp [entersRetBase, Ctrl.next, Ctrl.within, Ctrl.beat, Ctrl.source, h0, h1]
    · simp [entersRetBase, Ctrl.next, Ctrl.within, Ctrl.beat, Ctrl.source, h0]
  | receiveBaseRetAddr => exact absurd rfl hnot
  | receiveWrites =>
    cases hl : (Ctrl.writeBeat ⟨.receiveWrites, b, n⟩ w).last with
    | false => simp [entersRetBase, Ctrl.next, Ctrl.within, Ctrl.beat, Ctrl.source, hl]
    | true =>
      by_cases h1 : w.rcount = 0#8 <;>
        simp [entersRetBase, Ctrl.next, Ctrl.within, Ctrl.beat, Ctrl.source, hl, h1]
  | receiveReads =>
    cases hl : (Ctrl.readBeat ⟨.receiveReads, b, n⟩ w).last <;>
      simp [entersRetBase, Ctrl.next, Ctrl.within, Ctrl.beat, Ctrl.source, hl]

theorem balance (ws : List (Word τ)) (hws : ∀ w ∈ ws, w.wcount ≠ 0 ∨ w.rcount ≠ 0) (c : Ctrl τ) :
    ws.length + (c.logs entersRetBase ws).length + c.within =
      (c.beats ws).length + (c.beats ws).countP (·.last) + (c.takes ws).within := by
  induction ws generalizing c with
  | nil => simp
  | cons w ws ih =>
    have h1 := balance_word c w (hws w List.mem_cons_self)
    have h2 := ih (fun v hv => hws v (List.mem_cons_of_mem w hv)) (c.take w)
    rw [beats_cons, logs_cons, takes_cons, List.length_cons, List.length_append, List.length_append,
      List.countP_append]
    omega

theorem words_length (h : RecordHeader) (ds : List (Tagged τ)) : (h.words ds).length = ds.length := by
  induction ds with
  | nil => rfl
  | cons d ds ih => rw [RecordHeader.words, List.length_cons, List.length_cons, ih]

theorem mem_words {h : RecordHeader} {ds : List (Tagged τ)} {w : Word τ} (hw : w ∈ h.words ds) :
    w.wcount = h.wcount ∧ w.rcount = h.rcount ∧ w.data ∈ ds := by
  induction ds with
  | nil => cases hw
  | cons d ds ih =>
    rcases List.mem_cons.1 hw with rfl | hw
    · exact ⟨rfl, rfl, List.mem_cons_self⟩
    · obtain ⟨h1, h2, h3⟩ := ih hw
      exact ⟨h1, h2, List.mem_cons_of_mem d h3⟩

/-- One of a number of beats is the last. -/
theorem countP_last (xs : List (BitVec 32)) (k : Nat) :
    (xs.zipIdx k).countP (fun x => x.2 + 1 == k + xs.length) = if xs = [] then 0 else 1 := by
  induction xs generalizing k with
  | nil => rfl
  | cons x xs ih =>
    have h := ih (k + 1)
    rw [show k + 1 + xs.length = k + (x :: xs).length by rw [List.length_cons]; omega] at h
    rw [List.zipIdx_cons, List.countP_cons, h]
    cases xs with
    | nil => simp
    | cons y ys => simp

theorem countP_writes (r : Record) :
    (r.writes.zipIdx.map r.write).countP (·.last) = if r.writes = [] then 0 else 1 := by
  have h := countP_last r.writes 0
  rw [Nat.zero_add] at h
  rw [List.countP_map]
  exact h

theorem countP_reads (r : Record) :
    (r.reads.zipIdx.map r.read).countP (·.last) = if r.reads = [] then 0 else 1 := by
  have h := countP_last r.reads 0
  rw [Nat.zero_add] at h
  rw [List.countP_map]
  exact h

/-- The balance of a record as it should be decoded. -/
theorem balance_record (r : Record) : r.words.length = r.beats.length + r.beats.countP (·.last) := by
  rw [Record.words, words_length, Record.beats, List.countP_append, countP_writes, countP_reads, Record.payload]
  by_cases h1 : r.writes = [] <;> by_cases h2 : r.reads = [] <;> simp [h1, h2]
  omega

/-- The writes of a mixed record end in `RECEIVE_BASE_RET_ADDR`. -/
theorem entersRetBase_mixed {r : Record} (hr : r.WellFormed) (hm : r.Mixed) {c : Ctrl Unit} (hc : c.fsm = .idle) :
    0 < (c.logs entersRetBase r.words).length := by
  obtain ⟨hw, hreads⟩ := hm
  have hlog : c.logs entersRetBase r.words =
      c.logs entersRetBase ((r.payload.map plain).map (r.header.word false)) := by
    refine (words_unmarked r.header (fun c b d => ?_) _ c).1
    obtain ⟨fsm, _, _⟩ := c
    cases fsm <;> rfl
  rw [hlog, Record.payload, if_neg hw, List.map_append, List.map_append, logs_append, List.length_append]
  obtain ⟨hb, ht⟩ := decode_writes hr hw hc
  have hbal := balance (((r.base :: r.writes).map plain).map (r.header.word false)) (fun w hmem => ?_) c
  · rw [hb, countP_writes, if_neg hw, Ctrl.within, Ctrl.within, ht, if_pos hc, if_neg hreads] at hbal
    simp only [List.length_map, List.length_cons, List.length_zipIdx, reduceCtorEq, if_false] at hbal
    omega
  · obtain ⟨d, -, rfl⟩ := List.mem_map.1 hmem
    exact .inl ((wcount_eq_zero hr).not.2 hw)

/-- A list of records that is decoded without `RECEIVE_BASE_RET_ADDR` has no mixed record. -/
theorem unmixed_of_not_enters (rs : List Record) (hrs : ∀ r ∈ rs, r.WellFormed) {c : Ctrl Unit} (hc : c.fsm = .idle)
    (h : (c.logs entersRetBase (rs.flatMap Record.words)).length = 0) : ∀ r ∈ rs, ¬ r.Mixed := by
  induction rs generalizing c with
  | nil => simp
  | cons r rs ih =>
    have hwf := hrs r List.mem_cons_self
    rw [List.flatMap_cons, logs_append, List.length_append] at h
    have hm : ¬ r.Mixed := fun hm => by
      have := entersRetBase_mixed hwf hm hc
      omega
    rw [List.forall_mem_cons]
    exact ⟨hm, ih (fun r' hr' => hrs r' (List.mem_cons_of_mem r hr')) (decode_unmixed hwf hm hc).2 (by omega)⟩

theorem decode_records (rs : List Record) (hrs : ∀ r ∈ rs, r.WellFormed) (hm : ∀ r ∈ rs, ¬ r.Mixed) {c : Ctrl Unit}
    (hc : c.fsm = .idle) :
    c.beats (rs.flatMap Record.words) = rs.flatMap Record.beats ∧ (c.takes (rs.flatMap Record.words)).fsm = .idle := by
  induction rs generalizing c with
  | nil => exact ⟨rfl, hc⟩
  | cons r rs ih =>
    obtain ⟨hb, ht⟩ := decode_unmixed (hrs r List.mem_cons_self) (hm r List.mem_cons_self) hc
    obtain ⟨hbs, hts⟩ := ih (fun r' hr' => hrs r' (List.mem_cons_of_mem r hr'))
      (fun r' hr' => hm r' (List.mem_cons_of_mem r hr')) ht
    rw [List.flatMap_cons, List.flatMap_cons, beats_append, takes_append, hb, hbs]
    exact ⟨rfl, hts⟩

/-- A list of records decoded as it should be, from `IDLE` to `IDLE`, has no mixed record. -/
theorem unmixed_of_decode (rs : List Record) (hrs : ∀ r ∈ rs, r.WellFormed) {c : Ctrl Unit} (hc : c.fsm = .idle)
    (hb : c.beats (rs.flatMap Record.words) = rs.flatMap Record.beats)
    (ht : (c.takes (rs.flatMap Record.words)).fsm = .idle) : ∀ r ∈ rs, ¬ r.Mixed := by
  refine unmixed_of_not_enters rs hrs hc ?_
  have hbal := balance (rs.flatMap Record.words) (fun w hw => ?_) c
  · have hlen : (rs.flatMap Record.words).length =
        (rs.flatMap Record.beats).length + (rs.flatMap Record.beats).countP (·.last) := by
      clear hb ht hbal hrs
      induction rs with
      | nil => rfl
      | cons r rs ih =>
        have := balance_record r
        rw [List.flatMap_cons, List.flatMap_cons, List.length_append, List.length_append, List.countP_append]
        omega
    rw [hb, Ctrl.within, Ctrl.within, if_pos hc, if_pos ht] at hbal
    omega
  · obtain ⟨r, hr, hw⟩ := List.mem_flatMap.1 hw
    obtain ⟨h1, h2, -⟩ := mem_words hw
    rw [h1, h2, Ne, Ne, wcount_eq_zero (hrs r hr), rcount_eq_zero (hrs r hr)]
    exact (hrs r hr).some

/-- The cycles that bring in a packet and those in which it is consumed. -/
def exchange (ws : List (Word τ)) (n : Nat) : List (In τ) :=
  ws.map (fun w => ⟨some w, true⟩) ++ List.replicate n ⟨none, true⟩

end LiteEth.Frontend.Etherbone
