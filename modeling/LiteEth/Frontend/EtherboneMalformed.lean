/-
What the record receiver makes of packets whose number of payload words disagrees with the counts of
their header. The receiver counts words and does not look at `last`: what a packet leaves open of
its counts is taken from the next packet, and the word after the last one counted opens the packet
once more.
-/
import LiteEth.Frontend.EtherboneReceiver

namespace LiteEth.Frontend.Etherbone

open LiteEth.Rtl Receiver

/-! ## Packets and where their words come from -/

/-- A packet at the receiver's sink, with any counts: its first payload word and the others. -/
structure RecordPacket where
  header : RecordHeader
  base : BitVec 32
  rest : List (BitVec 32)
  deriving DecidableEq

namespace RecordPacket

/-- The payload of the `k`-th packet. The tag of a word is its packet and its place there. -/
def payload (p : RecordPacket) (k : ℕ) : List (Tagged (ℕ × ℕ)) :=
  ⟨p.base, (k, 0)⟩ :: p.rest.zipIdx.map fun x => ⟨x.1, (k, x.2 + 1)⟩

/-- The words of a record packet, with the tags of the `k`th. -/
def words (p : RecordPacket) (k : ℕ) : List (Word (ℕ × ℕ)) := p.header.words (p.payload k)

/-- The header announces neither writes nor reads. -/
def NoCounts (p : RecordPacket) : Prop := p.header.wcount = 0 ∧ p.header.rcount = 0

/-- The receiver is back in `IDLE` after the packet: one word for the base address, one for each
word written and one for each word read. -/
def Settled (p : RecordPacket) : Prop :=
  p.NoCounts ∨ p.rest.length = p.header.wcount.toNat + p.header.rcount.toNat

/-- At most one word opens the packet once more. -/
def Bounded (p : RecordPacket) : Prop :=
  p.NoCounts ∨ p.rest.length ≤ p.header.wcount.toNat + p.header.rcount.toNat + 1

instance (p : RecordPacket) : Decidable p.NoCounts := inferInstanceAs (Decidable (_ ∧ _))
instance (p : RecordPacket) : Decidable p.Settled := inferInstanceAs (Decidable (_ ∨ _))
instance (p : RecordPacket) : Decidable p.Bounded := inferInstanceAs (Decidable (_ ∨ _))

theorem Settled.bounded {p : RecordPacket} (h : p.Settled) : p.Bounded := h.imp_right (by omega)

end RecordPacket

/-- The words of a sequence of packets, the first of which is the `k`-th. -/
def packetWords (k : ℕ) : List RecordPacket → List (Word (ℕ × ℕ))
  | [] => []
  | p :: ps => p.words k ++ packetWords (k + 1) ps

/-- The beat is made of words of the `k`-th packet. -/
structure OfPacket (k : ℕ) (b : MmapBeat (ℕ × ℕ)) : Prop where
  baseAddr : b.baseAddr.tag.1 = k
  addr : b.addr.tag.1 = k
  data : b.data.tag.1 = k

instance (k : ℕ) (b : MmapBeat (ℕ × ℕ)) : Decidable (OfPacket k b) :=
  decidable_of_iff (b.baseAddr.tag.1 = k ∧ b.addr.tag.1 = k ∧ b.data.tag.1 = k)
    ⟨fun ⟨h1, h2, h3⟩ => ⟨h1, h2, h3⟩, fun ⟨h1, h2, h3⟩ => ⟨h1, h2, h3⟩⟩

/-- The writes among the beats that are made with a word of the `k`-th packet. -/
def writesOf (k : ℕ) (bs : List (MmapBeat (ℕ × ℕ))) : ℕ := bs.countP fun b => b.we && b.data.tag.1 == k

/-- The reads among the beats that are made with a word of the `k`-th packet. -/
def readsOf (k : ℕ) (bs : List (MmapBeat (ℕ × ℕ))) : ℕ := bs.countP fun b => !b.we && b.data.tag.1 == k

/-- The state in which the first word of a packet is consumed. -/
def opensIn (c : Ctrl (ℕ × ℕ)) (w : Word (ℕ × ℕ)) : List Fsm := if w.data.tag.2 = 0 then [c.fsm] else []

/-- What is emitted for packets from the `k`-th on, and the states in which their first words are
consumed: only `IDLE` takes a word for the base address. -/
structure Contained (k : ℕ) (ps : List RecordPacket) (bs : List (MmapBeat (ℕ × ℕ))) (opened : List Fsm) : Prop where
  onePacket : ∀ b ∈ bs, OfPacket b.data.tag.1 b
  writes : ∀ x ∈ ps.zipIdx k, writesOf x.2 bs ≤ x.1.header.wcount.toNat
  reads : ∀ x ∈ ps.zipIdx k, readsOf x.2 bs ≤ x.1.header.rcount.toNat
  opened : ∀ f ∈ opened, f = .idle

instance (k : ℕ) (ps : List RecordPacket) (bs : List (MmapBeat (ℕ × ℕ))) (opened : List Fsm) :
    Decidable (Contained k ps bs opened) :=
  decidable_of_iff ((∀ b ∈ bs, OfPacket b.data.tag.1 b) ∧
      (∀ x ∈ ps.zipIdx k, writesOf x.2 bs ≤ x.1.header.wcount.toNat) ∧
      (∀ x ∈ ps.zipIdx k, readsOf x.2 bs ≤ x.1.header.rcount.toNat) ∧ ∀ f ∈ opened, f = .idle)
    ⟨fun ⟨h1, h2, h3, h4⟩ => ⟨h1, h2, h3, h4⟩, fun ⟨h1, h2, h3, h4⟩ => ⟨h1, h2, h3, h4⟩⟩

/-- A packet that another one follows leaves the receiver in `IDLE`; the last one need not. -/
def Settles (ps : List RecordPacket) : Prop := (∀ p ∈ ps.dropLast, p.Settled) ∧ ∀ p ∈ ps.getLast?, p.Bounded

instance (ps : List RecordPacket) : Decidable (Settles ps) := inferInstanceAs (Decidable (_ ∧ _))

theorem settles_cons_cons (p q : RecordPacket) (ps : List RecordPacket) :
    Settles (p :: q :: ps) ↔ p.Settled ∧ Settles (q :: ps) := by
  rw [Settles, Settles, List.dropLast_cons_cons, List.forall_mem_cons, List.getLast?_cons_cons, and_assoc]

theorem settles_singleton (p : RecordPacket) : Settles [p] ↔ p.Bounded := by simp [Settles]

/-! ## Rounds of the state machine -/

section Round

variable {τ : Type} (h : RecordHeader)

theorem countP_writeStretch (c : Ctrl τ) (ds : List (Tagged τ)) :
    (writeStretch h c ds).countP (·.we) = ds.length ∧ (writeStretch h c ds).countP (!·.we) = 0 := by
  simp only [writeStretch, List.countP_map]
  constructor
  · exact (List.countP_eq_length.2 fun _ _ => rfl).trans List.length_zipIdx
  · exact List.countP_eq_zero.2 fun _ _ => Bool.false_ne_true

theorem countP_readStretch (c : Ctrl τ) (ds : List (Tagged τ)) :
    (readStretch h c ds).countP (·.we) = 0 ∧ (readStretch h c ds).countP (!·.we) = ds.length := by
  simp only [readStretch, List.countP_map]
  constructor
  · exact List.countP_eq_zero.2 fun _ _ => Bool.false_ne_true
  · exact (List.countP_eq_length.2 fun _ _ => rfl).trans List.length_zipIdx

/-- Without counts every word stays in `IDLE`. -/
theorem round_no_counts (hw : h.wcount = 0) (hr : h.rcount = 0) (ds : List (Tagged τ)) {c : Ctrl τ}
    (hc : c.fsm = .idle) : c.beats (ds.map (h.word false)) = [] ∧ (c.takes (ds.map (h.word false))).fsm = .idle := by
  induction ds generalizing c with
  | nil => exact ⟨rfl, hc⟩
  | cons d ds ih =>
    obtain ⟨hb, hret, ht⟩ := take_idle h hc d
    rw [if_neg (by simpa using hw), if_neg (by simpa using hr)] at ht
    rw [List.map_cons, beats_cons, takes_cons, hret, hb, ht]
    exact ih rfl

/-- The first word in `RECEIVE_BASE_RET_ADDR` is the return base address and the first read. -/
theorem takes_retBase {c : Ctrl τ} (hc : c.fsm = .receiveBaseRetAddr) (d : Tagged τ) (ds : List (Tagged τ)) :
    c.beats ((d :: ds).map (h.word false)) =
        (⟨.receiveReads, d, 0⟩ : Ctrl τ).beats ((d :: ds).map (h.word false)) ∧
      c.takes ((d :: ds).map (h.word false)) =
        (⟨.receiveReads, d, 0⟩ : Ctrl τ).takes ((d :: ds).map (h.word false)) := by
  obtain ⟨fsm, _, _⟩ := c
  cases hc
  exact ⟨rfl, rfl⟩

/-- The words of one round: those written, then those read. -/
theorem round (hne : ¬ (h.wcount = 0 ∧ h.rcount = 0)) {c : Ctrl τ} (hc : c.fsm = .idle) (d : Tagged τ)
    (ds : List (Tagged τ)) (hle : ds.length ≤ h.wcount.toNat + h.rcount.toNat) :
    (c.beats ((d :: ds).map (h.word false))).countP (·.we) = min ds.length h.wcount.toNat ∧
      (c.beats ((d :: ds).map (h.word false))).countP (!·.we) = ds.length - h.wcount.toNat ∧
      ((c.takes ((d :: ds).map (h.word false))).fsm = .idle ↔ ds.length = h.wcount.toNat + h.rcount.toNat) := by
  have hrc : h.rcount = 0 ↔ h.rcount.toNat = 0 := BitVec.toNat_inj.symm
  by_cases hw : h.wcount = 0
  · have hw0 : h.wcount.toNat = 0 := congrArg BitVec.toNat hw
    obtain ⟨hb, ht⟩ := starts_reads h hc hw (fun hr => hne ⟨hw, hr⟩) d ds (by omega)
    obtain ⟨h1, h2⟩ := countP_readStretch h ⟨.receiveReads, d, 0⟩ ds
    rw [hb, ht, h1, h2, hw0]
    refine ⟨by omega, rfl, ?_⟩
    rw [Nat.zero_add]
    split <;> simp_all
  by_cases hlen : ds.length ≤ h.wcount.toNat
  · obtain ⟨hb, ht⟩ := starts_writes h hc hw d ds hlen
    obtain ⟨h1, h2⟩ := countP_writeStretch h ⟨.receiveWrites, d, 0⟩ ds
    rw [hb, ht, h1, h2]
    refine ⟨by omega, by omega, ?_⟩
    split_ifs with h3 h4
    · rw [Ne, hrc] at h4
      simp only [false_iff]
      omega
    · rw [Ne, hrc, not_not] at h4
      simp only [true_iff]
      omega
    · simp only [false_iff]
      omega
  -- more words than are written: one of them is the return base address and is read all the same
  · have htake : (ds.take h.wcount.toNat).length = h.wcount.toNat := by rw [List.length_take]; omega
    obtain ⟨e, es, hes⟩ : ∃ e es, ds.drop h.wcount.toNat = e :: es :=
      List.exists_cons_of_length_pos (by rw [List.length_drop]; omega)
    have hlen2 : (e :: es).length = ds.length - h.wcount.toNat := by rw [← hes, List.length_drop]
    obtain ⟨hb, ht⟩ := starts_writes h hc hw d (ds.take h.wcount.toNat) htake.le
    rw [if_pos htake, if_pos (by rw [Ne, hrc]; omega)] at ht
    obtain ⟨hb2, ht2⟩ := takes_retBase h (c := ⟨.receiveBaseRetAddr, d, (ds.take h.wcount.toNat).length⟩) rfl e es
    obtain ⟨hb3, ht3⟩ := takes_reads h (e :: es) ⟨.receiveReads, e, 0⟩ rfl (by show 0 < _; omega)
      (by rw [hlen2]; show 0 + _ ≤ _; omega)
    obtain ⟨h1, h2⟩ := countP_writeStretch h ⟨.receiveWrites, d, 0⟩ (ds.take h.wcount.toNat)
    obtain ⟨h3, h4⟩ := countP_readStretch h ⟨.receiveReads, e, 0⟩ (e :: es)
    have hds : (d :: ds).map (h.word false) =
        (d :: ds.take h.wcount.toNat).map (h.word false) ++ (e :: es).map (h.word false) := by
      rw [← List.map_append, List.cons_append, ← hes, List.take_append_drop]
    rw [hds, beats_append, takes_append, hb, ht, hb2, ht2, hb3, ht3, List.countP_append, List.countP_append,
      h1, h2, h3, h4, htake, hlen2]
    refine ⟨by omega, by omega, ?_⟩
    rw [Nat.zero_add]
    split_ifs with h5
    · simp only [true_iff]
      omega
    · simp only [false_iff]
      omega

theorem counts_pos (hne : ¬ (h.wcount = 0 ∧ h.rcount = 0)) : 0 < h.wcount.toNat + h.rcount.toNat := by
  by_contra hz
  exact hne ⟨BitVec.toNat_inj.1 (by simp; omega), BitVec.toNat_inj.1 (by simp; omega)⟩

/-- The word after a round opens another one. -/
theorem round_again (hne : ¬ (h.wcount = 0 ∧ h.rcount = 0)) {c : Ctrl τ} (hc : c.fsm = .idle) (e : Tagged τ) :
    c.beats [h.word false e] = [] ∧ (c.takes [h.word false e]).fsm ≠ .idle := by
  obtain ⟨hb, hret, -⟩ := take_idle h hc e
  have hidle := (round h hne hc e [] (by simp)).2.2
  refine ⟨by rw [beats_cons, hret, hb]; rfl, fun hi => ?_⟩
  exact absurd (hidle.1 hi) (counts_pos h hne).ne

/-- The writes and reads are no more than the counts as long as at most one word is left after the
round; the receiver is back in `IDLE` if none is. -/
theorem rounds (hne : ¬ (h.wcount = 0 ∧ h.rcount = 0)) {c : Ctrl τ} (hc : c.fsm = .idle) (d : Tagged τ)
    (ds : List (Tagged τ)) :
    ((c.beats ((d :: ds).map (h.word false))).countP (·.we) ≤ h.wcount.toNat ∧
        (c.beats ((d :: ds).map (h.word false))).countP (!·.we) ≤ h.rcount.toNat ↔
      ds.length ≤ h.wcount.toNat + h.rcount.toNat + 1) ∧
    (ds.length ≤ h.wcount.toNat + h.rcount.toNat + 1 →
      ((c.takes ((d :: ds).map (h.word false))).fsm = .idle ↔ ds.length = h.wcount.toNat + h.rcount.toNat)) := by
  by_cases hle : ds.length ≤ h.wcount.toNat + h.rcount.toNat
  · obtain ⟨hw, hr, hidle⟩ := round h hne hc d ds hle
    rw [hw, hr]
    exact ⟨by omega, fun _ => hidle⟩
  generalize hn : h.wcount.toNat + h.rcount.toNat = n at hle ⊢
  have htake : (ds.take n).length = n := by rw [List.length_take]; omega
  obtain ⟨e, vs, hes⟩ : ∃ e vs, ds.drop n = e :: vs :=
    List.exists_cons_of_length_pos (by rw [List.length_drop]; omega)
  have hlen : (e :: vs).length = ds.length - n := by rw [← hes, List.length_drop]
  rw [List.length_cons] at hlen
  obtain ⟨hw, hr, hidle⟩ := round h hne hc d (ds.take n) (by omega)
  have hmid := hidle.2 (by omega)
  have hds : (d :: ds).map (h.word false) = (d :: ds.take n).map (h.word false) ++ (e :: vs).map (h.word false) := by
    rw [← List.map_append, List.cons_append, ← hes, List.take_append_drop]
  rw [hds, beats_append, takes_append, List.countP_append, List.countP_append, hw, hr]
  cases vs with
  | nil =>
    obtain ⟨hb, ht⟩ := round_again h hne hmid e
    rw [List.length_nil] at hlen
    rw [List.map_singleton, hb, List.countP_nil, List.countP_nil]
    exact ⟨by omega, fun _ => iff_of_false ht (by omega)⟩
  | cons v vs =>
    -- the second word left over makes a write or a read too many
    obtain ⟨hw2, hr2, -⟩ := round h hne hmid e [v] (counts_pos h hne)
    rw [List.length_cons] at hlen
    rw [show (e :: v :: vs).map (h.word false) = [e, v].map (h.word false) ++ vs.map (h.word false) from rfl,
      beats_append, List.countP_append, List.countP_append, hw2, hr2, List.length_singleton]
    exact ⟨by omega, by omega⟩

end Round

/-! ## Packets in sequence -/

section Sequence

variable {p : RecordPacket} {k : ℕ} {c : Ctrl (ℕ × ℕ)}

theorem packet_unmarked (p : RecordPacket) (k : ℕ) (c : Ctrl (ℕ × ℕ)) :
    c.beats (p.words k) = c.beats ((p.payload k).map (p.header.word false)) ∧
      c.takes (p.words k) = c.takes ((p.payload k).map (p.header.word false)) :=
  words_unmarked p.header (beat_unmarked p.header) _ c

/-- A packet stays within its counts if it is bounded, and then leaves the receiver in `IDLE` if it is
settled. -/
theorem packet_counts (hc : c.fsm = .idle) :
    ((c.beats (p.words k)).countP (·.we) ≤ p.header.wcount.toNat ∧
        (c.beats (p.words k)).countP (!·.we) ≤ p.header.rcount.toNat ↔ p.Bounded) ∧
      (p.Bounded → ((c.takes (p.words k)).fsm = .idle ↔ p.Settled)) := by
  obtain ⟨hb, ht⟩ := packet_unmarked p k c
  rw [hb, ht]
  by_cases hno : p.NoCounts
  · obtain ⟨hb0, ht0⟩ := round_no_counts p.header hno.1 hno.2 (p.payload k) hc
    rw [hb0, ht0]
    exact ⟨by simp [RecordPacket.Bounded, hno], fun _ => by simp [RecordPacket.Settled, hno]⟩
  · have h := rounds p.header hno hc ⟨p.base, (k, 0)⟩ (p.rest.zipIdx.map fun x => ⟨x.1, (k, x.2 + 1)⟩)
    rw [List.length_map, List.length_zipIdx] at h
    rw [RecordPacket.Bounded, RecordPacket.Settled, or_iff_right hno, or_iff_right hno]
    exact h

theorem mem_packet {w : Word (ℕ × ℕ)} (hw : w ∈ p.words k) : w.data.tag.1 = k := by
  obtain ⟨-, -, hd⟩ := mem_words hw
  rcases List.mem_cons.1 hd with h | h
  · rw [h]
  · obtain ⟨x, -, hx⟩ := List.mem_map.1 h
    rw [← hx]

theorem mem_packetWords {ps : List RecordPacket} {w : Word (ℕ × ℕ)} (hw : w ∈ packetWords k ps) :
    k ≤ w.data.tag.1 := by
  induction ps generalizing k with
  | nil => cases hw
  | cons p ps ih =>
    rcases List.mem_append.1 hw with h | h
    · exact (mem_packet h).ge
    · exact Nat.le_of_succ_le (ih h)

/-- A base address that is in use is of the `k`-th packet. -/
def BaseOf (k : ℕ) (c : Ctrl (ℕ × ℕ)) : Prop :=
  c.fsm = .receiveWrites ∨ c.fsm = .receiveReads → c.baseAddr.tag.1 = k

theorem BaseOf.retBase (hc : BaseOf k c) {w : Word (ℕ × ℕ)} (hw : w.data.tag.1 = k) : BaseOf k (c.retBase w) := by
  unfold Ctrl.retBase
  split
  · exact fun _ => hw
  · exact hc

theorem BaseOf.take (hc : BaseOf k c) {w : Word (ℕ × ℕ)} (hw : w.data.tag.1 = k) : BaseOf k (c.take w) := by
  have h := hc.retBase hw
  rw [Ctrl.take]
  generalize c.retBase w = c at h
  obtain ⟨fsm, b, n⟩ := c
  cases fsm with
  | idle => exact fun _ => hw
  | receiveBaseRetAddr => exact fun _ => hw
  | receiveWrites => exact fun _ => h (.inl rfl)
  | receiveReads => exact fun _ => h (.inr rfl)

theorem BaseOf.beat (hc : BaseOf k c) {w : Word (ℕ × ℕ)} (hw : w.data.tag.1 = k) : ∀ b ∈ c.beat w, OfPacket k b := by
  obtain ⟨fsm, b, n⟩ := c
  rintro x hx
  cases fsm with
  | idle => cases hx
  | receiveBaseRetAddr => cases hx
  | receiveWrites =>
    rw [List.mem_singleton.1 hx]
    exact ⟨hw, hc (.inl rfl), hw⟩
  | receiveReads =>
    rw [List.mem_singleton.1 hx]
    exact ⟨hc (.inr rfl), hw, hw⟩

/-- Words of one packet make beats of that packet. -/
theorem BaseOf.beats {ws : List (Word (ℕ × ℕ))} (hws : ∀ w ∈ ws, w.data.tag.1 = k) (hc : BaseOf k c) :
    ∀ b ∈ c.beats ws, OfPacket k b := by
  induction ws generalizing c with
  | nil => rintro b ⟨⟩
  | cons w ws ih =>
    have hw := hws w List.mem_cons_self
    intro b hb
    rcases List.mem_append.1 hb with h | h
    · exact (hc.retBase hw).beat hw b h
    · exact ih (fun v hv => hws v (List.mem_cons_of_mem w hv)) (hc.take hw) b h

theorem countP_same {q : MmapBeat (ℕ × ℕ) → Bool} {bs : List (MmapBeat (ℕ × ℕ))} (h : ∀ b ∈ bs, b.data.tag.1 = k) :
    bs.countP (fun b => q b && b.data.tag.1 == k) = bs.countP q :=
  List.countP_congr fun b hb => by simp [h b hb]

theorem countP_other {q : MmapBeat (ℕ × ℕ) → Bool} {bs : List (MmapBeat (ℕ × ℕ))} (h : ∀ b ∈ bs, b.data.tag.1 ≠ k) :
    bs.countP (fun b => q b && b.data.tag.1 == k) = 0 :=
  List.countP_eq_zero.2 fun b hb => by simp [h b hb]

/-- What is emitted for the `k`-th packet, and what is emitted for later ones. -/
theorem contained_cons {ps : List RecordPacket} {bs vs : List (MmapBeat (ℕ × ℕ))} {ss ts : List Fsm}
    (hbs : ∀ b ∈ bs, OfPacket k b) (hvs : ∀ b ∈ vs, k < b.data.tag.1) :
    Contained k (p :: ps) (bs ++ vs) (ss ++ ts) ↔
      (bs.countP (·.we) ≤ p.header.wcount.toNat ∧ bs.countP (!·.we) ≤ p.header.rcount.toNat) ∧
        (∀ f ∈ ss, f = .idle) ∧ Contained (k + 1) ps vs ts := by
  -- the beats of the first packet count for it alone, the later ones not at all
  have hfirst (q : MmapBeat (ℕ × ℕ) → Bool) :
      (bs ++ vs).countP (fun b => q b && b.data.tag.1 == k) = bs.countP q := by
    rw [List.countP_append, countP_same fun b hb => (hbs b hb).data, countP_other fun b hb => (hvs b hb).ne']
    rfl
  have hlater (q : MmapBeat (ℕ × ℕ) → Bool) (x : RecordPacket × ℕ) (hx : x ∈ ps.zipIdx (k + 1)) :
      (bs ++ vs).countP (fun b => q b && b.data.tag.1 == x.2) = vs.countP (fun b => q b && b.data.tag.1 == x.2) := by
    have hk := List.le_snd_of_mem_zipIdx hx
    rw [List.countP_append, countP_other fun b hb => by rw [(hbs b hb).data]; omega, Nat.zero_add]
  constructor
  · -- what holds of all packets holds of the first, and of the others with their own numbers
    rintro ⟨hone, hw, hr, ho⟩
    rw [List.zipIdx_cons, List.forall_mem_cons] at hw hr
    rw [List.forall_mem_append] at hone ho
    refine ⟨⟨(hfirst _).symm.trans_le hw.1, (hfirst _).symm.trans_le hr.1⟩, ho.1, hone.2, ?_, ?_, ho.2⟩
    · exact fun x hx => (hlater _ x hx).symm.trans_le (hw.2 x hx)
    · exact fun x hx => (hlater _ x hx).symm.trans_le (hr.2 x hx)
  · rintro ⟨⟨hw, hr⟩, ho, hrest⟩
    refine ⟨?_, ?_, ?_, ?_⟩
    · refine List.forall_mem_append.2 ⟨fun b hb => ?_, hrest.onePacket⟩
      rw [(hbs b hb).data]
      exact hbs b hb
    · rw [List.zipIdx_cons, List.forall_mem_cons]
      exact ⟨(hfirst _).trans_le hw, fun x hx => (hlater _ x hx).trans_le (hrest.writes x hx)⟩
    · rw [List.zipIdx_cons, List.forall_mem_cons]
      exact ⟨(hfirst _).trans_le hr, fun x hx => (hlater _ x hx).trans_le (hrest.reads x hx)⟩
    · exact List.forall_mem_append.2 ⟨ho, hrest.opened⟩

/-- What holds of all that is emitted holds of what is emitted so far. -/
theorem Contained.mono {ps : List RecordPacket} {bs bs' : List (MmapBeat (ℕ × ℕ))} {ss ss' : List Fsm}
    (h : Contained k ps bs' ss') (hb : bs <+: bs') (hs : ss <+: ss') : Contained k ps bs ss where
  onePacket b hmem := h.onePacket b (hb.subset hmem)
  writes x hx := (hb.sublist.countP_le).trans (h.writes x hx)
  reads x hx := (hb.sublist.countP_le).trans (h.reads x hx)
  opened f hf := h.opened f (hs.subset hf)

theorem opens_rest {ws : List (Word (ℕ × ℕ))} (hws : ∀ w ∈ ws, w.data.tag.2 ≠ 0) (c : Ctrl (ℕ × ℕ)) :
    c.logs opensIn ws = [] := by
  induction ws generalizing c with
  | nil => rfl
  | cons w ws ih =>
    rw [logs_cons, ih fun v hv => hws v (List.mem_cons_of_mem w hv), opensIn, if_neg (hws w List.mem_cons_self)]
    rfl

theorem opens_packet (p : RecordPacket) (k : ℕ) (c : Ctrl (ℕ × ℕ)) :
    (∀ f ∈ c.logs opensIn (p.words k), f = .idle) ↔ c.fsm = .idle := by
  have hrest : ∀ w ∈ p.header.words (p.rest.zipIdx.map fun x => (⟨x.1, (k, x.2 + 1)⟩ : Tagged (ℕ × ℕ))),
      w.data.tag.2 ≠ 0 := by
    intro w hw
    obtain ⟨x, -, hx⟩ := List.mem_map.1 (mem_words hw).2.2
    rw [← hx]
    exact Nat.succ_ne_zero _
  rw [RecordPacket.words, RecordPacket.payload, RecordHeader.words, logs_cons, opens_rest hrest, List.append_nil,
    opensIn, RecordHeader.word, if_pos rfl]
  simp only [List.mem_singleton, forall_eq]
  obtain ⟨fsm, _, _⟩ := c
  cases fsm <;> simp [Ctrl.retBase]

/-- From `IDLE`, packets are contained exactly when they settle. -/
theorem contained_iff (ps : List RecordPacket) (k : ℕ) {c : Ctrl (ℕ × ℕ)} (hc : c.fsm = .idle) :
    Contained k ps (c.beats (packetWords k ps)) (c.logs opensIn (packetWords k ps)) ↔ Settles ps := by
  induction ps generalizing k c with
  | nil => exact iff_of_true ⟨by simp [packetWords], by simp, by simp, by simp [packetWords]⟩ (by simp [Settles])
  | cons p ps ih =>
    obtain ⟨hcounts, hidle⟩ := packet_counts (p := p) (k := k) hc
    have hof : ∀ b ∈ c.beats (p.words k), OfPacket k b :=
      BaseOf.beats (fun w hw => mem_packet hw) (by simp [BaseOf, hc])
    have hlater : ∀ b ∈ (c.takes (p.words k)).beats (packetWords (k + 1) ps), k < b.data.tag.1 := by
      intro b hb
      obtain ⟨w, hw, htag, -⟩ := mem_beats hb
      rw [htag]
      exact mem_packetWords hw
    rw [packetWords, beats_append, logs_append, contained_cons hof hlater, hcounts, opens_packet, and_iff_right hc]
    -- the last packet may leave the receiver anywhere
    cases ps with
    | nil =>
      rw [settles_singleton]
      exact and_iff_left ⟨by simp [packetWords], by simp, by simp, by simp [packetWords]⟩
    | cons q ps =>
      rw [settles_cons_cons]
      constructor
      · rintro ⟨hbounded, hrest⟩
        have hopen := hrest.opened
        rw [packetWords, logs_append, List.forall_mem_append, opens_packet] at hopen
        exact ⟨(hidle hbounded).1 hopen.1, (ih (k + 1) hopen.1).1 hrest⟩
      · rintro ⟨hsettled, hrest⟩
        exact ⟨hsettled.bounded, (ih (k + 1) ((hidle hsettled.bounded).2 hsettled)).2 hrest⟩

end Sequence

/-! ## Runs of the receiver -/

theorem blind_opensIn : Blind opensIn := by
  intro a c w h
  rw [opensIn, opensIn, h.fsm]

section Run

variable (F : PacketFIFO (Word (ℕ × ℕ)) Word.last)

/-- In every run whose sink is fed from a sequence of packets, the packets are contained if they
settle; once all of them are consumed, only if they settle. -/
theorem receiver_contains_iff (ps : List RecordPacket) (t : ℕ × ℕ) (is : List (In (ℕ × ℕ)))
    (more : List (Word (ℕ × ℕ)))
    (hsink : (receiver F t).log State.accepts (receiver F t).reset is ++ more = packetWords 0 ps) :
    (Settles ps → Contained 0 ps ((receiver F t).log State.emits (receiver F t).reset is)
        ((receiver F t).log (State.consumes opensIn) (receiver F t).reset is)) ∧
      (F.contents ((receiver F t).run is).fifo ++ more = [] →
        Contained 0 ps ((receiver F t).log State.emits (receiver F t).reset is)
          ((receiver F t).log (State.consumes opensIn) (receiver F t).reset is) → Settles ps) := by
  obtain ⟨hbeats, -⟩ := run_words (F := F) blind_beat t is
  obtain ⟨hopens, -⟩ := run_words (F := F) blind_opensIn t is
  have hiff := contained_iff ps 0 (c := Ctrl.init t) rfl
  rw [← hsink, beats_append, logs_append] at hiff
  rw [log_emits]
  constructor
  · intro hs
    refine (hiff.2 hs).mono ?_ ?_
    · exact ⟨_, (List.append_assoc _ _ _).symm.trans (congrArg (· ++ _) hbeats)⟩
    · exact ⟨_, (List.append_assoc _ _ _).symm.trans (congrArg (· ++ _) hopens)⟩
  · intro hdone hcont
    obtain ⟨hempty, rfl⟩ := List.append_eq_nil_iff.1 hdone
    simp only [hempty, logs_nil, List.append_nil] at hbeats hopens
    rw [hbeats, hopens] at hcont
    simp only [logs_nil, List.append_nil] at hiff
    exact hiff.1 hcont

end Run

/-- A receiver with a buffer of four words of packets. -/
abbrev packetReceiver : Machine (In (ℕ × ℕ)) (State (PacketFIFO.queue (Word.last (τ := ℕ × ℕ)) 4 1)) :=
  receiver (PacketFIFO.queue Word.last 4 1) (0, 0)

/-- Two words without counts, one word written, and one of two addresses to be read. -/
def settlingPackets : List RecordPacket :=
  [⟨⟨0, 0, 0xf⟩, 0x1000, [7]⟩, ⟨⟨1, 0, 0xf⟩, 0x2000, [8]⟩, ⟨⟨0, 2, 0xf⟩, 0x3000, [0x4000]⟩]

theorem receiver_contains_settling :
    let is := exchange (packetWords 0 settlingPackets) 6
    Contained 0 settlingPackets (packetReceiver.log State.emits packetReceiver.reset is)
      (packetReceiver.log (State.consumes opensIn) packetReceiver.reset is) :=
  (receiver_contains_iff _ settlingPackets (0, 0) _ [] (by decide)).1 (by decide)

/-- A packet with one of the two words it is to write: the base address of the next packet is
written behind that word. -/
theorem receiver_writes_next_base :
    let ps : List RecordPacket := [⟨⟨2, 0, 0xf⟩, 0x1000, [7]⟩, ⟨⟨2, 0, 0xf⟩, 0x2000, [8, 9]⟩]
    let is := exchange (packetWords 0 ps) 6
    packetReceiver.log State.accepts packetReceiver.reset is = packetWords 0 ps ∧
      ¬ Contained 0 ps (packetReceiver.log State.emits packetReceiver.reset is)
        (packetReceiver.log (State.consumes opensIn) packetReceiver.reset is) := by
  decide

end LiteEth.Frontend.Etherbone
