/-
The header checksums of the packets that `LiteEthIPTX` sends. The engine is restarted when the last
beat of a packet is sent, not when that of a dropped one is consumed: the packet after a dropped
one finds the engine done and is sent with the checksum of the dropped one.
-/
import LiteEth.Core.Ip
import LiteEth.Rtl.Machine

namespace LiteEth.Core.Ip.Tx

open LiteEth.Rtl Checksum

variable (p : Params) (P : Packetizer Header p.dw)

/-- The transmitter and what an observer of its sink knows: the packet that is at the sink, and the
first one presented since a packet was last sent to its end. -/
structure Watched where
  tx : State p P
  cur : Option UserParams
  owner : Option UserParams

variable {p P}

/-- The last beat of a packet is sent in this cycle. -/
def Watched.completes (s : Watched p P) (i : In p.dw) : Bool := isLast (s.tx.source i) && i.sourceReady

/-- One cycle of the transmitter, with the parameters of the packet at the sink and of the one it works on. -/
def Watched.next (s : Watched p P) (i : In p.dw) : Watched p P :=
  { tx := s.tx.next i
    cur := if i.sinkValid then (if i.beat.last && s.tx.sinkReady i then none else some i.params) else s.cur
    owner := if s.completes i then none else s.owner.or (if i.sinkValid then some i.params else none) }

variable (p P) in
/-- The transmitter as a clocked machine. -/
def iptx : Machine (In p.dw) (Watched p P) where
  reset := { tx := .init p P, cur := none, owner := none }
  step := Watched.next

/-- The parameters are held while a packet is at the sink. -/
def StableParams (s : Watched p P) (i : In p.dw) : Prop := ∀ q, s.cur = some q → i.sinkValid = true → i.params = q

instance (s : Watched p P) (i : In p.dw) : Decidable (StableParams s i) :=
  decidable_of_iff (∀ q ∈ s.cur, i.sinkValid = true → i.params = q) Iff.rfl

/-- The header of the packet at `source`, if a beat of one is presented: the one that is being sent,
or would be from this beat on. -/
def Watched.sent (s : Watched p P) (i : In p.dw) : Option Header :=
  (s.tx.source i).map fun _ => (P.header s.tx.packetizer).getD (s.tx.header i.params)

/-- The words of a header but its checksum. -/
def otherWords : List Nat := (List.range (ipv4HeaderLength / 2)).filter (· ≠ checksumByte / 2)

/-- The header carries the Internet checksum of its other words. -/
def Correct (h : Header) : Prop := h.checksum = internetChecksum h.bytes otherWords

instance (h : Header) : Decidable (Correct h) := inferInstanceAs (Decidable (_ = _))

/-- Every packet that is being sent carries its own checksum. -/
def SendsCorrect (s : Watched p P) (i : In p.dw) : Prop := ∀ h, s.sent i = some h → Correct h

/-- Every packet that is being sent has the same checksum as the first one presented since the last
packet sent. -/
def SendsFirst (s : Watched p P) (i : In p.dw) : Prop :=
  ∀ h q, s.sent i = some h → s.owner = some q →
    internetChecksum h.bytes otherWords = internetChecksum (summed p q) otherWords

instance (s : Watched p P) (i : In p.dw) : Decidable (SendsFirst s i) :=
  decidable_of_iff (∀ h ∈ s.sent i, ∀ q ∈ s.owner,
    internetChecksum h.bytes otherWords = internetChecksum (summed p q) otherWords)
    ⟨fun hf h q hs ho => hf h hs q ho, fun hf h hs q ho => hf h q hs ho⟩

/-! ## The engine of the transmitter -/

theorem addedWords_engine : addedWords engine = otherWords := by decide

theorem nCycles_engine : nCycles engine = 9 := by decide

/-- The value is that of the last word's register. -/
theorem value_engine (s : Checksum.State) (h h' : HeaderBytes) : s.value engine h = s.value engine h' := by
  have hb : ∀ h, s.before engine h (9 + 1) = s.stages 9 := by
    intro h
    rw [Checksum.State.before, if_neg (by decide), if_pos (by decide)]
  simp only [Checksum.State.value, ipv4HeaderLength, Nat.reduceDiv]
  rw [hb h, hb h']

theorem not_done_of_zero {s : State p P} (h : s.checksum.counter = 0) : s.done = false := by
  rw [State.done, Checksum.State.done, nCycles_engine, h]; rfl

/-! ## The invariant -/

/-- Unless its counter is zero, the engine adds up the header of the first packet presented, which
stays at the sink until the engine is done; only a done engine lets a packet through. -/
structure Inv (s : Watched p P) : Prop where
  restarted : s.owner = none → s.tx.checksum.counter = 0
  computes : ∀ q, s.owner = some q → Computes engine s.tx.checksum (summed p q)
  current : ∀ q, s.owner = some q → s.tx.done = false → s.cur = some q
  idle : s.tx.fsm ≠ .send → s.tx.fsm ≠ .drop → P.header s.tx.packetizer = none
  done : P.header s.tx.packetizer ≠ none → s.tx.done = true
  sampled : ∀ h q, P.header s.tx.packetizer = some h → s.owner = some q →
    h.checksum = internetChecksum (summed p q) otherWords

section Step

variable {s : Watched p P} {i : In p.dw}

theorem Inv.owner_of_done (h : Inv s) (hd : s.tx.done = true) : ∃ q, s.owner = some q := by
  cases ho : s.owner with
  | none => rw [not_done_of_zero (h.restarted ho)] at hd; cases hd
  | some q => exact ⟨q, rfl⟩

/-- The checksum shown by a done engine is that of the first packet. -/
theorem Inv.header_checksum (h : Inv s) {q : UserParams} (ho : s.owner = some q) (hd : s.tx.done = true)
    (q' : UserParams) : (s.tx.header q').checksum = internetChecksum (summed p q) otherWords := by
  rw [← addedWords_engine]
  exact (value_engine _ _ _).trans ((h.computes q ho).value engine hd)

/-- An idle packetizer shows a packet only when it is at the sink and the engine is done. -/
theorem valid_of_packet (hh : P.header s.tx.packetizer = none) (hpk : (s.tx.packet i).isSome = true) :
    i.sinkValid = true ∧ s.tx.done = true := by
  rw [State.packet, (P.source_idle _ _ _ hh).1, State.sinkBeat] at hpk
  split_ifs at hpk with hv
  · exact (Bool.and_eq_true _ _).mp hv
  · cases hpk

theorem packet_of_source {x : Beat p.dw} (hx : s.tx.source i = some x) : (s.tx.packet i).isSome = true := by
  rw [State.source] at hx
  split_ifs at hx
  rw [hx]; rfl

/-- What is sent is sent with a done engine and the checksum of the first packet. -/
theorem Inv.sent_checksum (h : Inv s) {hd : Header} (hs : s.sent i = some hd) : s.tx.done = true ∧
    ∀ q, s.owner = some q → hd.checksum = internetChecksum (summed p q) otherWords := by
  obtain ⟨x, hx, rfl⟩ := Option.map_eq_some_iff.1 hs
  cases hh : P.header s.tx.packetizer with
  | some h' => exact ⟨h.done (by simp [hh]), fun q ho => h.sampled h' q hh ho⟩
  | none =>
    have hd := (valid_of_packet hh (packet_of_source hx)).2
    exact ⟨hd, fun q ho => h.header_checksum ho hd _⟩

/-- What is sent is correct exactly when the first packet has the same checksum. -/
theorem Inv.sendsCorrect_iff (h : Inv s) : SendsCorrect s i ↔ SendsFirst s i := by
  constructor
  · intro hc hd q hs ho
    rw [← (h.sent_checksum hs).2 q ho]
    exact (hc hd hs).symm
  · intro hf hd hs
    obtain ⟨hdone, hck⟩ := h.sent_checksum hs
    obtain ⟨q, ho⟩ := h.owner_of_done hdone
    rw [Correct, hck q ho, hf hd q hs ho]

/-- A busy engine lets nothing through. -/
theorem Inv.nothing_of_busy (h : Inv s) (hd : s.tx.done = false) : P.header s.tx.packetizer = none ∧
    s.tx.packet i = none := by
  have hh : P.header s.tx.packetizer = none := by
    by_contra hne
    rw [h.done hne] at hd
    cases hd
  refine ⟨hh, ?_⟩
  have := (P.source_idle s.tx.packetizer (s.tx.header i.params) (s.tx.sinkBeat i) hh).1
  rw [State.sinkBeat, hd, Bool.and_false] at this
  rw [State.packet, State.sinkBeat, hd, Bool.and_false]
  simpa using this

/-- The packetizer's header after the cycle. -/
theorem header_next : P.header (s.next i).tx.packetizer =
    if (s.tx.packet i).isSome && s.tx.packetReady i then
      (if isLast (s.tx.packet i) then none else some ((P.header s.tx.packetizer).getD (s.tx.header i.params)))
    else P.header s.tx.packetizer := P.header_step _ _ _ _

/-- The packetizer is idle after the last beat of a packet. -/
theorem header_of_completes (hc : s.completes i = true) : P.header (s.next i).tx.packetizer = none := by
  rw [Watched.completes, State.source, Bool.and_eq_true] at hc
  split_ifs at hc with hf
  · simp [header_next, isSome_of_isLast hc.1, hc.1, State.packetReady, hf, hc.2]
  · cases hc.1

theorem checksum_next : (s.next i).tx.checksum =
    s.tx.checksum.next engine i.sinkValid (s.completes i) (summed p i.params) := rfl

theorem owner_next : (s.next i).owner =
    if s.completes i then none else s.owner.or (if i.sinkValid then some i.params else none) := rfl

theorem Inv.next_busy (h : Inv s) (hk : StableParams s i) (hd : s.tx.done = false) : Inv (s.next i) := by
  obtain ⟨hh, hpk⟩ := h.nothing_of_busy hd (i := i)
  have hcomp : s.completes i = false := by
    rw [Watched.completes, State.source, hpk]
    split <;> rfl
  have hh' : P.header (s.next i).tx.packetizer = none := by rw [header_next, hpk, hh]; rfl
  have hready : s.tx.sinkReady i = false := by rw [State.sinkReady, hd, Bool.and_false]
  have hcheck : (s.next i).tx.checksum = s.tx.checksum.next engine i.sinkValid false (summed p i.params) := by
    rw [checksum_next, hcomp]
  have howner : (s.next i).owner = s.owner.or (if i.sinkValid then some i.params else none) := by
    rw [owner_next, hcomp]; rfl
  cases hv : i.sinkValid with
  | false =>
    have hcur : (s.next i).cur = s.cur := by show (if i.sinkValid then _ else _) = _; rw [hv]; rfl
    rw [hv, next_hold] at hcheck
    rw [hv, if_neg (by decide), Option.or_none] at howner
    refine ⟨?_, ?_, ?_, fun _ _ => hh', fun hne => absurd hh' hne, fun hd q hs => ?_⟩
    · rw [howner, hcheck]; exact h.restarted
    · rw [howner, hcheck]; exact h.computes
    · rw [howner, hcur]
      exact fun q ho _ => h.current q ho hd
    · rw [hh'] at hs; cases hs
  | true =>
    have hcur : (s.next i).cur = some i.params := by
      show (if i.sinkValid then (if i.beat.last && s.tx.sinkReady i then _ else _) else _) = _
      rw [hv, hready, Bool.and_false]; rfl
    -- the header that is added up is the one of the first packet
    have hfirst : (s.next i).owner = some i.params ∧ Computes engine s.tx.checksum (summed p i.params) := by
      rw [howner, hv]
      cases ho : s.owner with
      | none => exact ⟨rfl, computes_start _ _ (h.restarted ho)⟩
      | some q =>
        have hq := hk q (h.current q ho hd) hv
        exact ⟨by rw [hq]; rfl, by rw [hq]; exact h.computes q ho⟩
    rw [hv] at hcheck
    refine ⟨fun ho => ?_, fun q ho => ?_, fun q ho _ => ?_, fun _ _ => hh', fun hne => absurd hh' hne,
      fun hd q hs => ?_⟩
    · rw [hfirst.1] at ho; cases ho
    · rw [hfirst.1] at ho
      cases ho
      rw [hcheck]
      exact hfirst.2.next engine hd
    · rw [hfirst.1] at ho
      rw [hcur, ho]
    · rw [hh'] at hs; cases hs

/-- Away from `SEND` and `DROP` the packetizer is idle. -/
theorem Inv.idle_next (h : Inv s) (hc : s.completes i = false) (hs : (s.next i).tx.fsm ≠ .send)
    (hdr : (s.next i).tx.fsm ≠ .drop) : P.header (s.next i).tx.packetizer = none := by
  have hidle : s.tx.fsm ≠ .send → s.tx.fsm ≠ .drop → P.header (s.next i).tx.packetizer = none := by
    intro h1 h2
    have hr : s.tx.packetReady i = false := by
      rw [State.packetReady]
      cases hf : s.tx.fsm <;> simp_all
    rw [header_next, hr, Bool.and_false, h.idle h1 h2]
    rfl
  cases hf : s.tx.fsm with
  | send =>
    refine absurd ?_ hs
    show (s.tx.next i).fsm = .send
    rw [Watched.completes] at hc
    simp only [State.next, hf, hc, Bool.false_eq_true, if_false]
  | drop =>
    have hl : isLast (s.tx.packet i) = true := by
      by_contra hl
      refine hdr ?_
      show (s.tx.next i).fsm = .drop
      simp only [State.next, hf, hl, if_false]
    simp [header_next, isSome_of_isLast hl, hl, State.packetReady, hf]
  | _ => exact hidle (by simp [hf]) (by simp [hf])

theorem Inv.next_done (h : Inv s) (hd : s.tx.done = true) : Inv (s.next i) := by
  obtain ⟨q, ho⟩ := h.owner_of_done hd
  cases hc : s.completes i with
  | true =>
    -- the engine is restarted with the packetizer
    have hcnt : (s.next i).tx.checksum.counter = 0 := by rw [checksum_next, hc]; rfl
    have hown : (s.next i).owner = none := by rw [owner_next, hc]; rfl
    have hh := header_of_completes hc
    refine ⟨fun _ => hcnt, fun q hq => ?_, fun q hq => ?_, fun _ _ => hh, fun hne => absurd hh hne, fun hd q hs => ?_⟩
    · rw [hown] at hq; cases hq
    · rw [hown] at hq; cases hq
    · rw [hh] at hs; cases hs
  | false =>
    have hcheck : (s.next i).tx.checksum = s.tx.checksum := by
      rw [checksum_next, hc]
      exact Checksum.next_done engine hd _ _
    have hd' : (s.next i).tx.done = true := by rw [State.done, hcheck]; exact hd
    have hown : (s.next i).owner = some q := by rw [owner_next, hc, ho]; rfl
    refine ⟨fun hq => ?_, ?_, fun q' _ hb => ?_, fun hs hdr => ?_, fun _ => hd', fun hdr q' hs hq' => ?_⟩
    · rw [hown] at hq; cases hq
    · rw [hown, hcheck, ← ho]
      exact h.computes
    · rw [hd'] at hb; cases hb
    · exact h.idle_next hc hs hdr
    · rw [hown] at hq'
      cases hq'
      rw [header_next] at hs
      split_ifs at hs with h1 h2
      · cases hs
        cases hh : P.header s.tx.packetizer with
        | none => exact h.header_checksum ho hd _
        | some h' => exact h.sampled h' q hh ho
      · exact h.sampled hdr q hs ho

end Step

theorem inv_reset : Inv (iptx p P).reset := by
  refine ⟨fun _ => rfl, fun q h => (by cases h), fun q h => (by cases h), fun _ _ => P.header_reset,
    fun h => absurd P.header_reset h, fun h q hh => ?_⟩
  rw [show P.header (iptx p P).reset.tx.packetizer = none from P.header_reset] at hh
  cases hh

/-- Along every run with stable parameters, every packet is sent with its own checksum exactly when
every packet sent has the same checksum as the first one presented since the last packet sent: a
dropped packet counts as presented, not as sent. -/
theorem iptx_checksum_iff (is : List (In p.dw)) (hk : (iptx p P).Along StableParams (iptx p P).reset is) :
    (iptx p P).Along SendsCorrect (iptx p P).reset is ↔ (iptx p P).Along SendsFirst (iptx p P).reset is := by
  refine (iptx p P).along_iff (P := Inv) (fun s i h hk _ => ?_) (fun s i h _ => h.sendsCorrect_iff) is _ ?_ hk
  · cases hd : s.tx.done with
    | true => exact h.next_done hd
    | false => exact h.next_busy hk hd
  · exact inv_reset

/-- Our host, with 8-bit streams. -/
abbrev ours : Params := { macAddress := 0x12345678abcd, ipAddress := 0x12345678, dw := 8 }

/-- The transmitter of our host. -/
abbrev ourIptx : Machine (In 8) (Watched ours (.words 20 Header.bytes)) := iptx ours (.words 20 Header.bytes)

/-- A cycle in which a one-byte packet to an address is offered and every handshake succeeds; the
table may have no address for it. -/
def offer (ip : BitVec 32) (failed : Bool) : In 8 :=
  { sinkValid := true, params := { length := 1, protocol := 17, ipAddress := ip }
    beat := { data := 0, lastBe := 1, error := 0, last := true }
    sourceReady := true, requestReady := true, responseValid := true, responseFailed := failed, responseMac := 7 }

theorem iptx_checksum_two_packets : ourIptx.Along SendsCorrect ourIptx.reset
    (List.replicate 33 (offer 5 false) ++ List.replicate 31 (offer 0xe0000001 false)) := by
  have hk : ourIptx.Along StableParams ourIptx.reset
      (List.replicate 33 (offer 5 false) ++ List.replicate 31 (offer 0xe0000001 false)) := by decide +kernel
  exact (iptx_checksum_iff _ hk).2 (by decide +kernel)

/-- The packet after one that is dropped is sent with the checksum of the dropped one. -/
theorem iptx_sends_dropped_checksum :
    ourIptx.Along StableParams ourIptx.reset
        (List.replicate 33 (offer 5 true) ++ List.replicate 2 (offer 0xe0000001 false)) ∧
      ¬ ourIptx.Along SendsCorrect ourIptx.reset
        (List.replicate 33 (offer 5 true) ++ List.replicate 2 (offer 0xe0000001 false)) := by
  refine ⟨by decide +kernel, ?_⟩
  rw [Machine.along_append]
  rintro ⟨-, -, h, -⟩
  exact absurd (h (header ours { length := 1, protocol := 17, ipAddress := 0xe0000001 } 0xd227) (by decide +kernel))
    (by decide +kernel)

/-! ## Without dropped packets -/

/-- The table says that it has no address for the packet. -/
def Drops (s : Watched p P) (i : In p.dw) : Prop := s.tx.targetUnreachable i = true

/-- Without dropped packets the first packet presented is the one that is sent. -/
structure Single (s : Watched p P) : Prop where
  inv : Inv s
  undropped : s.tx.fsm ≠ .drop
  current : ∀ q, s.owner = some q → P.header s.tx.packetizer = none → s.cur = some q
  sampled : ∀ h, P.header s.tx.packetizer = some h → ∃ q c, s.owner = some q ∧ h = header p q c

theorem bytes_header (q : UserParams) (c : BitVec 16) {k : Nat} (h1 : k ≠ 10) (h2 : k ≠ 11) :
    (header p q c).bytes k = summed p q k := by
  unfold summed Header.bytes
  split <;> first | rfl | contradiction

/-- The checksum of the other words does not depend on the checksum field. -/
theorem internetChecksum_header (q : UserParams) (c : BitVec 16) :
    internetChecksum (header p q c).bytes otherWords = internetChecksum (summed p q) otherWords := by
  have hw : otherWords.map (word (header p q c).bytes) = otherWords.map (word (summed p q)) := by
    refine List.map_congr_left fun i hi => ?_
    have hi' : i ≠ 5 := by
      rintro rfl
      exact absurd hi (by decide)
    rw [word, word, bytes_header q c (by omega) (by omega), bytes_header q c (by omega) (by omega)]
  rw [internetChecksum, internetChecksum, hw]

section Single

variable {s : Watched p P} {i : In p.dw}

theorem Single.sendsFirst (h : Single s) (hk : StableParams s i) : SendsFirst s i := by
  intro hd q hs ho
  obtain ⟨x, hx, rfl⟩ := Option.map_eq_some_iff.1 hs
  cases hh : P.header s.tx.packetizer with
  | some h' =>
    obtain ⟨q', c, ho', rfl⟩ := h.sampled h' hh
    rw [ho] at ho'
    cases ho'
    exact internetChecksum_header q c
  | none =>
    have hv := (valid_of_packet hh (packet_of_source hx)).1
    rw [hk q (h.current q ho hh) hv]
    exact internetChecksum_header q _

/-- An idle packetizer takes nothing from the sink. -/
theorem cur_next (hh : P.header s.tx.packetizer = none) :
    (s.next i).cur = if i.sinkValid then some i.params else s.cur := by
  have hr : i.sinkValid = true → s.tx.sinkReady i = false := by
    intro hv
    rw [State.sinkReady, State.sinkBeat, hv]
    cases hd : s.tx.done with
    | false => exact Bool.and_false _
    | true => rw [if_pos (by rfl), P.sinkReady_idle _ _ _ _ hh]; rfl
  show (if i.sinkValid then (if i.beat.last && s.tx.sinkReady i then _ else _) else _) = _
  cases hv : i.sinkValid with
  | false => rfl
  | true => rw [hr hv, Bool.and_false]; rfl

theorem Single.next (h : Single s) (hk : StableParams s i) (hd : ¬ Drops s i) : Single (s.next i) := by
  have hinv : Inv (s.next i) := by
    cases hdone : s.tx.done with
    | true => exact h.inv.next_done hdone
    | false => exact h.inv.next_busy hk hdone
  refine ⟨hinv, ?_, ?_, ?_⟩
  · show (s.tx.next i).fsm ≠ .drop
    rw [Drops, State.targetUnreachable] at hd
    have hu := h.undropped
    unfold State.next
    cases hf : s.tx.fsm with
    | waitMacAddressResponse =>
      dsimp only
      split_ifs with h1 h2
      · simp [hf, h1, h2] at hd
      · simp
      · simp
    | drop => exact absurd hf hu
    | _ => dsimp only; split_ifs <;> simp
  · intro q ho hh'
    have hc : s.completes i = false := by
      rw [← Bool.not_eq_true]
      intro hc
      rw [owner_next, hc] at ho
      cases ho
    rw [owner_next, hc, if_neg (by simp)] at ho
    cases hh : P.header s.tx.packetizer with
    | none =>
      rw [cur_next hh]
      cases hv : i.sinkValid with
      | false =>
        rw [hv, if_neg (by simp), Option.or_none] at ho
        exact h.current q ho hh
      | true =>
        cases ho' : s.owner with
        | none => rw [ho', hv] at ho; exact ho
        | some q' =>
          rw [ho'] at ho
          cases ho
          rw [hk q (h.current q ho' hh) hv]; rfl
    | some h' =>
      -- the packetizer ends a packet only by sending its last beat
      rw [header_next, hh] at hh'
      split_ifs at hh' with h1 h2
      rw [Bool.and_eq_true] at h1
      have hf : s.tx.fsm = .send := by
        have hr := h1.2
        rw [State.packetReady] at hr
        cases hf : s.tx.fsm with
        | send => rfl
        | drop => exact absurd hf h.undropped
        | _ => rw [hf] at hr; cases hr
      rw [Watched.completes, State.source, if_pos hf, h2, Bool.true_and] at hc
      rw [State.packetReady, hf, hc] at h1
      cases h1.2
  · intro h' hh'
    have hc : s.completes i = false := by
      rw [← Bool.not_eq_true]
      intro hc
      rw [header_of_completes hc] at hh'
      cases hh'
    obtain ⟨q, c, ho, rfl⟩ : ∃ q c, s.owner = some q ∧ h' = header p q c := by
      rw [header_next] at hh'
      split_ifs at hh' with h1 h2
      · cases hh'
        cases hh : P.header s.tx.packetizer with
        | some h' => exact h.sampled h' hh
        | none =>
          obtain ⟨hv, hdone⟩ := valid_of_packet hh (Bool.and_eq_true _ _ ▸ h1).1
          obtain ⟨q, ho⟩ := h.inv.owner_of_done hdone
          refine ⟨q, s.tx.checksum.value engine (summed p i.params), ho, ?_⟩
          rw [← hk q (h.current q ho hh) hv]
          rfl
      · exact h.sampled h' hh'
    exact ⟨q, c, by rw [owner_next, hc, ho]; rfl, rfl⟩

end Single

/-- In every run in which no packet is dropped, every packet is sent with its own checksum. -/
theorem iptx_correct_without_drops (is : List (In p.dw)) (hk : (iptx p P).Along StableParams (iptx p P).reset is)
    (hd : (iptx p P).Along (fun s i => ¬ Drops s i) (iptx p P).reset is) :
    (iptx p P).Along SendsCorrect (iptx p P).reset is := by
  have hreset : Single (iptx p P).reset := by
    refine ⟨inv_reset, fun h => (by cases h), fun q h => (by cases h), fun h hh => ?_⟩
    rw [show P.header (iptx p P).reset.tx.packetizer = none from P.header_reset] at hh
    cases hh
  refine (iptx p P).along_of_inv (P := Single) (C := fun s i => StableParams s i ∧ ¬ Drops s i)
    (fun s i h hc => h.next hc.1 hc.2) (fun s i h hc => h.inv.sendsCorrect_iff.2 (h.sendsFirst hc.1)) is _ hreset ?_
  exact ((iptx p P).along_and _ _).2 ⟨hk, hd⟩

end LiteEth.Core.Ip.Tx
