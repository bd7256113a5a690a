/-
How much of a packet the UDP receiver delivers. It ends the datagram when its 16-bit count of bytes
equals the length field: with a length that is not a whole number of words, or none at all, the count
never meets it, and the padding of the packet is delivered as data.
-/
import LiteEth.Core.Udp
import LiteEth.Rtl.Machine
import LiteEth.Rtl.Stream

namespace LiteEth.Core.Udp.Rx

open LiteEth.Rtl

variable {dw : ℕ} (D : Depacketizer Header dw)

/-! ## Packets -/

/-- The receiver and what an observer of its sink knows: whether the packet is a UDP packet. -/
structure Watched where
  rx : State D
  udp : Bool

variable {D} in
/-- One cycle of the receiver, with whether the packet it works on is one of UDP. -/
def Watched.next (s : Watched D) (i : In dw) : Watched D where
  rx := s.rx.next i
  udp := if s.rx.fsm = .idle ∧ (s.rx.packet i).isSome then i.params.protocol = protocol else s.udp

/-- The receiver as a clocked machine. -/
def udprx : Machine (In dw) (Watched D) where
  reset := { rx := .init D, udp := false }
  step := Watched.next

/-- A beat after the UDP header, taken from the depacketizer: the length field, whether the packet is a UDP
packet, and the beat accepted at `source` in the same cycle. -/
structure Taken (dw : ℕ) where
  length : BitVec 16
  udp : Bool
  beat : Beat dw
  delivered : Option (UserParams × Beat dw)

variable {D} in
/-- The beat accepted at `source`. -/
def Watched.gives (s : Watched D) (i : In dw) : Option (UserParams × Beat dw) :=
  if i.sourceReady then s.rx.source i else none

variable {D} in
/-- What the receiver takes of the depacketizer, and whether it gives it. -/
def Watched.taken (s : Watched D) (i : In dw) : Option (Taken dw) :=
  if s.rx.packetReady i then
    (s.rx.packet i).map fun x =>
      { length := (D.header s.rx.depacketizer).length, udp := s.udp, beat := x, delivered := s.gives i }
  else none

/-- The beats taken in a run. -/
def beatsTaken (is : List (In dw)) : List (Taken dw) :=
  (udprx D).log (fun s i => (s.taken i).toList) (udprx D).reset is

/-- The packets of a run, with what has been taken of the one that is not at its end. -/
def packets (is : List (In dw)) : List (List (Taken dw)) :=
  let fp := frames (·.beat.last) (beatsTaken D is)
  (fp.1 ++ [fp.2]).filter fun f => !f.isEmpty

/-- The length field of a packet. -/
def lengthField (f : List (Taken dw)) : BitVec 16 := f.head?.elim 0 (·.length)

/-- The packet is a UDP packet. -/
def isUdp (f : List (Taken dw)) : Bool := f.head?.any (·.udp)

/-- The beats of a packet that are delivered. -/
def delivered (f : List (Taken dw)) : List (UserParams × Beat dw) := f.filterMap (·.delivered)

/-! ## What is delivered of a packet -/

/-- The beats of a datagram of length field `length`. -/
def beatsOf (dw : ℕ) (length : BitVec 16) : ℕ := (length.toNat - headerLength + (dw / 8 - 1)) / (dw / 8)

/-- After `m` beats the count has met the length. -/
def Ends (dw : ℕ) (length : BitVec 16) (m : ℕ) : Prop :=
  BitVec.ofNat 16 (m * (dw / 8)) = length - BitVec.ofNat 16 headerLength

instance (length : BitVec 16) (m : ℕ) : Decidable (Ends dw length m) := inferInstanceAs (Decidable (_ = _))

/-- The beats delivered of the first `n` of a UDP packet: all of them, until the count meets the length. -/
def cut (dw : ℕ) (length : BitVec 16) : ℕ → ℕ
  | 0 => 0
  | n + 1 => if cut dw length n = n ∧ ¬ (1 ≤ n ∧ Ends dw length n) then n + 1 else cut dw length n

/-- The beats delivered of the first `n` of a packet. -/
def delivers (dw : ℕ) (udp : Bool) (length : BitVec 16) (n : ℕ) : ℕ := if udp then cut dw length n else 0

/-- The datagram is trimmed. -/
structure Trimmed (f : List (Taken dw)) : Prop where
  /-- No more beats than it has. -/
  bounded : (delivered f).length ≤ beatsOf dw (lengthField f)
  /-- The rest is consumed and not delivered. -/
  silent : (delivered f).map (·.2.data) = (f.take (delivered f).length).map (·.beat.data)
  /-- How much is delivered is up to the packet alone. -/
  clean : (delivered f).length = delivers dw (isUdp f) (lengthField f) f.length

/-- The packet is not longer than its datagram, or the count meets the length in time. -/
def Meets (f : List (Taken dw)) : Prop :=
  isUdp f = true → f.length ≤ beatsOf dw (lengthField f) ∨
    ∃ m, 1 ≤ m ∧ m ≤ beatsOf dw (lengthField f) ∧ Ends dw (lengthField f) m

section Cut

variable (length : BitVec 16)

theorem cut_le (n : ℕ) : cut dw length n ≤ n := by
  induction n with
  | zero => exact le_rfl
  | succ n ih =>
    rw [cut]
    split_ifs
    · exact le_rfl
    · omega

/-- What ends a datagram early is the count. -/
theorem ends_of_cut_lt {n : ℕ} (h : cut dw length n < n) : 1 ≤ cut dw length n ∧ Ends dw length (cut dw length n) := by
  induction n with
  | zero => exact absurd h (Nat.not_lt_zero _)
  | succ n ih =>
    rw [cut] at h ⊢
    split_ifs at h ⊢ with hc
    · exact absurd h (lt_irrefl _)
    · rcases (cut_le length n).lt_or_eq with hlt | heq
      · exact ih hlt
      · have := heq ▸ not_and_not_right.1 hc heq
        exact this

/-- Nothing is delivered after the count has met the length. -/
theorem cut_le_of_ends {m : ℕ} (hm : 1 ≤ m) (he : Ends dw length m) (n : ℕ) : cut dw length n ≤ m := by
  induction n with
  | zero => exact Nat.zero_le _
  | succ n ih =>
    rw [cut]
    split_ifs with hc
    · have hne : n ≠ m := by
        rintro rfl
        exact hc.2 ⟨hm, he⟩
      omega
    · exact ih

/-- No more beats than `c` are delivered iff there are no more, or the count meets the length in time. -/
theorem cut_le_iff (n c : ℕ) : cut dw length n ≤ c ↔ n ≤ c ∨ ∃ m, 1 ≤ m ∧ m ≤ c ∧ Ends dw length m := by
  constructor
  · intro h
    rcases (cut_le length n).lt_or_eq with hlt | heq
    · obtain ⟨h1, h2⟩ := ends_of_cut_lt length hlt
      exact .inr ⟨_, h1, h, h2⟩
    · exact .inl (heq ▸ h)
  · rintro (h | ⟨m, h1, h2, h3⟩)
    · exact (cut_le length n).trans h
    · exact (cut_le_of_ends length h1 h3 n).trans h2

/-- The count meets the length in time iff the datagram is a whole number of words, and not empty. -/
theorem ends_iff_dvd (hk : dw / 8 ≤ 2 ^ 16) : (∃ m, 1 ≤ m ∧ m ≤ beatsOf dw length ∧ Ends dw length m) ↔
    headerLength < length.toNat ∧ dw / 8 ∣ length.toNat - headerLength := by
  have hends : ∀ m, headerLength ≤ length.toNat →
      (Ends dw length m ↔ m * (dw / 8) % 2 ^ 16 = length.toNat - headerLength) := by
    -- the length field never wraps below the header's eight bytes
    intro m hl
    have hlt := length.isLt
    have hsub : (length - BitVec.ofNat 16 headerLength).toNat = length.toNat - headerLength :=
      BitVec.toNat_sub_of_le (by simpa [BitVec.le_def, headerLength] using hl)
    unfold Ends
    rw [← BitVec.toNat_inj, BitVec.toNat_ofNat, hsub]
  -- when the count reaches the length it does so without a wrap
  constructor
  · rintro ⟨m, h1, h2, h3⟩
    have hk0 : 0 < dw / 8 := by
      by_contra hc
      rw [beatsOf, Nat.eq_zero_of_not_pos hc, Nat.div_zero] at h2
      omega
    have hm : m * (dw / 8) ≤ length.toNat - headerLength + (dw / 8 - 1) := (Nat.le_div_iff_mul_le hk0).1 h2
    have hl : headerLength < length.toNat := by
      by_contra hc
      have := Nat.le_mul_of_pos_left (dw / 8) (show 0 < m from h1)
      omega
    rw [hends m hl.le] at h3
    have hmk : m * (dw / 8) = length.toNat - headerLength := by
      have := length.isLt
      omega
    exact ⟨hl, Dvd.intro_left m hmk⟩
  · -- the number of beats that divides up the length is the one
    rintro ⟨hl, m, hm⟩
    have hk0 : 0 < dw / 8 := Nat.pos_of_ne_zero fun hc => by rw [hc, Nat.zero_mul] at hm; omega
    refine ⟨m, Nat.pos_of_ne_zero fun hc => by rw [hc, Nat.mul_zero] at hm; omega, ?_, ?_⟩
    · rw [beatsOf, hm, Nat.le_div_iff_mul_le hk0, Nat.mul_comm]
      exact Nat.le_add_right _ _
    · rw [hends m hl.le, hm, Nat.mul_comm m, ← hm]
      exact Nat.mod_eq_of_lt (by have := length.isLt; omega)

end Cut

/-! ## One packet -/

/-- After `n` beats of a packet more of them are delivered. -/
def Full (dw : ℕ) (udp : Bool) (length : BitVec 16) (n : ℕ) : Prop :=
  udp = true ∧ cut dw length n = n ∧ ¬ (1 ≤ n ∧ Ends dw length n)

instance (udp : Bool) (length : BitVec 16) (n : ℕ) : Decidable (Full dw udp length n) :=
  inferInstanceAs (Decidable (_ ∧ _))

/-- The beats of a packet that were taken: the first of them have been delivered. -/
structure Handled (udp : Bool) (length : BitVec 16) (f : List (Taken dw)) : Prop where
  same : ∀ t ∈ f, t.length = length ∧ t.udp = udp
  shape : ∃ g h, f = g ++ h ∧ g.length = delivers dw udp length f.length ∧
    (∀ t ∈ g, ∃ b, t.delivered = some b ∧ b.2.data = t.beat.data) ∧ ∀ t ∈ h, t.delivered = none

section Packet

variable {udp : Bool} {length : BitVec 16} {f : List (Taken dw)}

theorem delivers_succ (udp : Bool) (length : BitVec 16) (n : ℕ) :
    delivers dw udp length (n + 1) = if Full dw udp length n then n + 1 else delivers dw udp length n := by
  cases udp with
  | false => simp [delivers, Full]
  | true => simp only [delivers, Full, if_true, cut, true_and]

theorem handled_nil : Handled udp length ([] : List (Taken dw)) := by
  refine ⟨nofun, [], [], rfl, ?_, nofun, nofun⟩
  cases udp <;> rfl

/-- One more beat is delivered. -/
theorem Handled.deliver (h : Handled udp length f) (hfull : Full dw udp length f.length) {t : Taken dw}
    (ht : t.length = length ∧ t.udp = udp) {b : UserParams × Beat dw} (hb : t.delivered = some b)
    (hdata : b.2.data = t.beat.data) : Handled udp length (f ++ [t]) := by
  obtain ⟨hsame, g, d, hf, hlen, hg, hd⟩ := h
  have hn : g.length = f.length := by
    obtain ⟨rfl, hcut, -⟩ := hfull
    rw [hlen]
    exact hcut
  have hd0 : d = [] := by
    rw [hf, List.length_append] at hn
    exact List.eq_nil_of_length_eq_zero (by omega)
  rw [hd0, List.append_nil] at hf
  subst hf
  refine ⟨List.forall_mem_append.2 ⟨hsame, List.forall_mem_singleton.2 ht⟩, f ++ [t], [], (List.append_nil _).symm, ?_,
    List.forall_mem_append.2 ⟨hg, List.forall_mem_singleton.2 ⟨b, hb, hdata⟩⟩, nofun⟩
  rw [List.length_append, List.length_singleton, delivers_succ, if_pos hfull]

/-- One more beat is dropped. -/
theorem Handled.drop (h : Handled udp length f) (hfull : ¬ Full dw udp length f.length) {t : Taken dw}
    (ht : t.length = length ∧ t.udp = udp) (hb : t.delivered = none) : Handled udp length (f ++ [t]) := by
  obtain ⟨hsame, g, d, hf, hlen, hg, hd⟩ := h
  refine ⟨List.forall_mem_append.2 ⟨hsame, List.forall_mem_singleton.2 ht⟩, g, d ++ [t], by rw [hf, List.append_assoc], ?_, hg,
    List.forall_mem_append.2 ⟨hd, List.forall_mem_singleton.2 hb⟩⟩
  rw [List.length_append, List.length_singleton, delivers_succ, if_neg hfull, hlen]

theorem filterMap_delivered {l : List (Taken dw)} (hl : ∀ t ∈ l, ∃ b, t.delivered = some b ∧ b.2.data = t.beat.data) :
    (l.filterMap (·.delivered)).map (·.2.data) = l.map (·.beat.data) := by
  induction l with
  | nil => rfl
  | cons t l ih =>
    obtain ⟨b, hb, hdata⟩ := hl t List.mem_cons_self
    rw [List.filterMap_cons_some hb, List.map_cons, List.map_cons, hdata, ih fun x hx => hl x (List.mem_cons_of_mem t hx)]

/-- What is delivered of a packet. -/
theorem Handled.trimmed_iff (h : Handled udp length f) (hne : f ≠ []) : Trimmed f ↔ Meets f := by
  obtain ⟨hsame, g, d, rfl, hlen, hg, hd⟩ := h
  obtain ⟨hlength, hudp⟩ : lengthField (g ++ d) = length ∧ isUdp (g ++ d) = udp := by
    cases hl : g ++ d with
    | nil => exact absurd hl hne
    | cons t l => exact hsame t (hl ▸ List.mem_cons_self)
  -- what was dropped adds nothing to what was delivered
  have hdel : delivered (g ++ d) = g.filterMap (·.delivered) := by
    unfold delivered
    rw [List.filterMap_append, List.filterMap_eq_nil_iff.2 hd, List.append_nil]
  have hdata := filterMap_delivered hg
  have hcount : (delivered (g ++ d)).length = delivers dw udp length (g ++ d).length := by
    rw [hdel, ← hlen, ← List.length_map (·.2.data), hdata, List.length_map]
  have hsilent : (delivered (g ++ d)).map (·.2.data) = ((g ++ d).take (delivered (g ++ d)).length).map (·.beat.data) := by
    rw [hcount, ← hlen, List.take_left, hdel, hdata]
  -- the bound decides, the rest holds of every packet
  have hbound : (delivered (g ++ d)).length ≤ beatsOf dw (lengthField (g ++ d)) ↔ Meets (g ++ d) := by
    unfold Meets
    rw [hcount, hlength, hudp]
    cases udp with
    | false => simp [delivers]
    | true =>
      simp only [delivers, if_true, true_imp_iff]
      exact cut_le_iff length _ _
  constructor
  · intro ht
    exact hbound.1 ht.bounded
  · intro hm
    refine ⟨hbound.2 hm, hsilent, ?_⟩
    rw [hcount, hlength, hudp]

end Packet

/-! ## Runs -/

variable {D}

/-- The state while the beats `f` of a packet have been taken. -/
structure Inv (s : Watched D) (f : List (Taken dw)) : Prop where
  idle : s.rx.fsm = .idle → f = []
  opened : s.rx.fsm ≠ .idle → D.inHeader s.rx.depacketizer = false
  handled : s.rx.fsm ≠ .idle → Handled s.udp (D.header s.rx.depacketizer).length f
  receive : s.rx.fsm = .receive →
    Full dw s.udp (D.header s.rx.depacketizer).length f.length ∧ s.rx.count = BitVec.ofNat 16 (f.length * (dw / 8))
  drop : s.rx.fsm = .drop → ¬ Full dw s.udp (D.header s.rx.depacketizer).length f.length

theorem inv_reset : Inv (udprx D).reset [] :=
  ⟨fun _ => rfl, fun h => absurd rfl h, fun h => absurd rfl h, nofun, nofun⟩

/-- Between packets nothing is known. -/
theorem inv_idle {s : Watched D} (h : s.rx.fsm = .idle) : Inv s [] :=
  ⟨fun _ => rfl, fun h' => absurd h h', fun h' => absurd h h', fun h' => absurd (h.symm.trans h') nofun,
    fun h' => absurd (h.symm.trans h') nofun⟩

/-- While a packet is open its header stays. -/
theorem header_next {s : Watched D} (h : D.inHeader s.rx.depacketizer = false) (i : In dw) :
    D.header (s.next i).rx.depacketizer = D.header s.rx.depacketizer :=
  D.header_step _ _ _ (.inl h)

/-- It stays open unless its last beat is taken. -/
theorem opened_next {s : Watched D} (h : D.inHeader s.rx.depacketizer = false) {i : In dw}
    (hl : (isLast (s.rx.packet i) && s.rx.packetReady i) = false) : D.inHeader (s.next i).rx.depacketizer = false :=
  (D.inHeader_step _ _ _ h).trans hl

/-- The count meets the length with this beat. -/
theorem ends_succ (length : BitVec 16) (n : ℕ) :
    Ends dw length (n + 1) ↔ BitVec.ofNat 16 (n * (dw / 8)) = length - BitVec.ofNat 16 headerLength - step dw := by
  unfold Ends step
  rw [Nat.succ_mul, BitVec.ofNat_add]
  constructor
  · intro h
    rw [← h, BitVec.add_sub_cancel]
  · intro h
    rw [h, BitVec.sub_add_cancel]

/-- A cycle between packets. -/
theorem Inv.step_idle {s : Watched D} (hs : s.rx.fsm = .idle) (i : In dw) : s.taken i = none ∧ Inv (s.next i) [] := by
  refine ⟨by simp [Watched.taken, State.packetReady, hs], ?_⟩
  cases hp : s.rx.packet i with
  | none =>
    apply inv_idle
    simp [Watched.next, State.next, hs, hp]
  | some x =>
    have hopen : D.inHeader s.rx.depacketizer = false := by
      by_contra hc
      rw [Bool.not_eq_false] at hc
      rw [State.packet, D.source_inHeader _ _ hc] at hp
      cases hp
    have hudp : (s.next i).udp = decide (i.params.protocol = protocol) := by simp [Watched.next, hs, hp]
    have hfsm : (s.next i).rx.fsm = if i.params.protocol = protocol then .receive else .drop := by
      simp [Watched.next, State.next, hs, hp]
    have hcount : (s.next i).rx.count = 0 := by simp [Watched.next, State.next, hs]
    refine ⟨fun _ => rfl, fun _ => opened_next hopen (by simp [State.packetReady, hs]), fun _ => handled_nil, ?_, ?_⟩
    · intro h
      rw [hfsm] at h
      split_ifs at h with hpr
      refine ⟨⟨by rw [hudp]; simpa using hpr, rfl, by simp⟩, ?_⟩
      rw [hcount]; simp
    · intro h hfull
      rw [hfsm] at h
      split_ifs at h with hpr
      have := hfull.1
      rw [hudp] at this
      simp [hpr] at this

/-- A cycle of an open packet in which no beat is taken. -/
theorem Inv.step_wait {s : Watched D} {f : List (Taken dw)} (h : Inv s f) (hs : s.rx.fsm ≠ .idle) {i : In dw}
    (hw : s.rx.packet i = none ∨ s.rx.packetReady i = false) : s.taken i = none ∧ Inv (s.next i) f := by
  have hopen := h.opened hs
  have hudp : (s.next i).udp = s.udp := by simp [Watched.next, hs]
  have hnext : (s.next i).rx.fsm = s.rx.fsm ∧ (s.next i).rx.count = s.rx.count := by
    rcases hw with hw | hw
    · cases hf : s.rx.fsm <;> simp [Watched.next, State.next, hf, hw, isLast]
      exact absurd hf hs
    · cases hf : s.rx.fsm with
      | idle => exact absurd hf hs
      | drop => simp [State.packetReady, hf] at hw
      | receive =>
        have hready : i.sourceReady = false := by simpa [State.packetReady, hf] using hw
        cases hx : s.rx.packet i <;> simp [Watched.next, State.next, hf, hready, hx]
  have hopen' : D.inHeader (s.next i).rx.depacketizer = false :=
    opened_next hopen (by rcases hw with hw | hw <;> simp [hw, isLast])
  refine ⟨by rcases hw with hw | hw <;> simp [Watched.taken, hw], ?_⟩
  constructor
  · exact fun h' => absurd (hnext.1.symm.trans h') hs
  · exact fun _ => hopen'
  · intro _
    rw [hudp, header_next hopen]
    exact h.handled hs
  · intro h'
    rw [hudp, header_next hopen, hnext.2]
    exact h.receive (hnext.1.symm.trans h')
  · intro h'
    rw [hudp, header_next hopen]
    exact h.drop (hnext.1.symm.trans h')

/-- The last beat of a packet is taken. -/
theorem inv_last {s : Watched D} {i : In dw} {x : Beat dw} (hx : s.rx.packet i = some x) (hs : s.rx.fsm ≠ .idle)
    (hr : s.rx.packetReady i = true) (hl : x.last = true) : Inv (s.next i) [] := by
  apply inv_idle
  cases hf : s.rx.fsm with
  | idle => exact absurd hf hs
  | receive =>
    have hready : i.sourceReady = true := by simpa [State.packetReady, hf] using hr
    simp [Watched.next, State.next, hf, hx, hl, hready]
  | drop => simp [Watched.next, State.next, hf, hx, hl, isLast]

section Take

variable {s : Watched D} {f : List (Taken dw)} (h : Inv s f) {i : In dw} {x : Beat dw} (hx : s.rx.packet i = some x)

include h hx

/-- What is taken, as it is handled. -/
theorem Inv.handled_take (hs : s.rx.fsm ≠ .idle) (hr : s.rx.packetReady i = true) :
    ∃ t, s.taken i = some t ∧ t.beat = x ∧ Handled s.udp (D.header s.rx.depacketizer).length (f ++ [t]) := by
  refine ⟨{ length := (D.header s.rx.depacketizer).length, udp := s.udp, beat := x, delivered := s.gives i },
    by simp [Watched.taken, hx, hr], rfl, ?_⟩
  cases hf : s.rx.fsm with
  | idle => exact absurd hf hs
  | receive =>
    have hready : i.sourceReady = true := by simpa [State.packetReady, hf] using hr
    exact (h.handled hs).deliver (h.receive hf).1 ⟨rfl, rfl⟩
      (b := (s.rx.params i, { x with lastBe := 0, last := s.rx.last i x }))
      (by simp [Watched.gives, State.source, hready, hf, hx]) rfl
  | drop => exact (h.handled hs).drop (h.drop hf) ⟨rfl, rfl⟩ (by simp [Watched.gives, State.source, hf])

variable (hl : x.last = false) {t : Taken dw}
  (ht : Handled s.udp (D.header s.rx.depacketizer).length (f ++ [t]))

include hl ht

/-- A beat of the padding is taken. -/
theorem Inv.step_drop (hf : s.rx.fsm = .drop) : Inv (s.next i) (f ++ [t]) := by
  have hs : s.rx.fsm ≠ .idle := hf ▸ nofun
  have hopen := h.opened hs
  have hudp : (s.next i).udp = s.udp := by simp [Watched.next, hf]
  have hnext : (s.next i).rx.fsm = .drop := by simp [Watched.next, State.next, hf, hx, hl, isLast]
  refine ⟨fun h' => absurd (hnext.symm.trans h') nofun, fun _ => opened_next hopen (by simp [hx, hl, isLast]),
    fun _ => ?_, fun h' => absurd (hnext.symm.trans h') nofun, fun _ => ?_⟩
  · rw [hudp, header_next hopen]
    exact ht
  · rw [hudp, header_next hopen, List.length_append, List.length_singleton]
    rintro ⟨h1, h2, -⟩
    rw [cut] at h2
    split_ifs at h2 with hc
    · exact h.drop hf ⟨h1, hc⟩
    · have : cut dw _ f.length ≤ f.length := cut_le (D.header s.rx.depacketizer).length f.length
      omega

/-- A beat of the datagram is taken. -/
theorem Inv.step_receive (hf : s.rx.fsm = .receive) (hready : i.sourceReady = true) : Inv (s.next i) (f ++ [t]) := by
  have hs : s.rx.fsm ≠ .idle := hf ▸ nofun
  have hopen := h.opened hs
  have hudp : (s.next i).udp = s.udp := by simp [Watched.next, hf]
  obtain ⟨hfull, hcount⟩ := h.receive hf
  have hends : s.rx.last i x = true ↔ Ends dw (D.header s.rx.depacketizer).length (f.length + 1) := by
    rw [ends_succ, ← hcount, State.last, hl, Bool.false_or, beq_iff_eq]
    rfl
  have hnext : (s.next i).rx.fsm = if s.rx.last i x then .drop else .receive := by
    simp [Watched.next, State.next, hf, hx, hl, hready]
  -- the count reaches the length in this beat, or stays below it
  refine ⟨fun h' => ?_, fun _ => opened_next hopen (by simp [hx, hl, isLast]), fun _ => ?_, fun h' => ?_, fun h' => ?_⟩
  · rw [hnext] at h'
    split_ifs at h'
  · rw [hudp, header_next hopen]
    exact ht
  · rw [hnext] at h'
    split_ifs at h' with hend
    have hcut : cut dw (D.header s.rx.depacketizer).length (f.length + 1) = f.length + 1 := by
      rw [cut, if_pos hfull.2]
    have hstep : (s.next i).rx.count = s.rx.count + step dw := by
      simp [Watched.next, State.next, hf, hx, hready]
    rw [hudp, header_next hopen, List.length_append, List.length_singleton]
    refine ⟨⟨hfull.1, hcut, fun hc => hend (hends.2 hc.2)⟩, ?_⟩
    rw [hstep, hcount, Nat.succ_mul, BitVec.ofNat_add]; rfl
  · rw [hnext] at h'
    split_ifs at h' with hend
    rw [hudp, header_next hopen, List.length_append, List.length_singleton]
    exact fun hc => hc.2.2 ⟨by omega, hends.1 hend⟩

end Take

/-- One cycle. -/
theorem Inv.step {s : Watched D} {f : List (Taken dw)} (h : Inv s f) (i : In dw) :
    (s.taken i = none ∧ Inv (s.next i) f) ∨ ∃ t, s.taken i = some t ∧
      Handled s.udp (D.header s.rx.depacketizer).length (f ++ [t]) ∧
      Inv (s.next i) (if t.beat.last then [] else f ++ [t]) := by
  by_cases hs : s.rx.fsm = .idle
  · rw [h.idle hs]
    exact .inl (Inv.step_idle hs i)
  · cases hx : s.rx.packet i with
    | none => exact .inl (h.step_wait hs (.inl hx))
    | some x =>
      cases hr : s.rx.packetReady i with
      | false => exact .inl (h.step_wait hs (.inr hr))
      | true =>
        obtain ⟨t, ht, rfl, hhandled⟩ := h.handled_take hx hs hr
        refine .inr ⟨t, ht, hhandled, ?_⟩
        cases hl : t.beat.last with
        | true => exact inv_last hx hs hr hl
        | false =>
          cases hf : s.rx.fsm with
          | idle => exact absurd hf hs
          | receive => exact h.step_receive hx hl hhandled hf (by simpa [State.packetReady, hf] using hr)
          | drop => exact h.step_drop hx hl hhandled hf

/-- Every packet of a run is handled alike. -/
theorem run_inv (is : List (In dw)) :
    Inv ((udprx D).run is) (frames (·.beat.last) (beatsTaken D is)).2 ∧
      ∀ f ∈ packets D is, ∃ udp length, Handled udp length f := by
  -- packets that are complete and the one that has begun, told apart at the end
  suffices h : Inv ((udprx D).run is) (frames (·.beat.last) (beatsTaken D is)).2 ∧
      ∀ f ∈ (frames (·.beat.last) (beatsTaken D is)).1, ∃ udp length, Handled udp length f by
    refine ⟨h.1, fun f hf => ?_⟩
    obtain ⟨hf, hne⟩ := List.mem_filter.1 hf
    rcases List.mem_append.1 hf with hf | hf
    · exact h.2 f hf
    · rw [List.mem_singleton.1 hf] at hne ⊢
      by_cases hidle : ((udprx D).run is).rx.fsm = .idle
      · rw [h.1.idle hidle] at hne
        cases hne
      · exact ⟨_, _, h.1.handled hidle⟩
  -- induction on the run from its end, the invariant carries the open packet
  induction is using List.reverseRecOn with
  | nil => exact ⟨inv_reset, nofun⟩
  | append_singleton is i ih =>
    obtain ⟨hinv, hall⟩ := ih
    have hlog : beatsTaken D (is ++ [i]) = beatsTaken D is ++ (((udprx D).run is).taken i).toList := by
      unfold beatsTaken
      rw [Machine.log_concat]; rfl
    have hrun : (udprx D).run (is ++ [i]) = ((udprx D).run is).next i := (udprx D).runFrom_concat _ is i
    rw [hlog, hrun]
    rcases hinv.step i with ⟨ht, h⟩ | ⟨t, ht, hhandled, h⟩
    · rw [ht, Option.toList_none, List.append_nil]
      exact ⟨h, hall⟩
    · rw [ht, Option.toList_some, frames_concat, frameStep]
      cases hl : t.beat.last with
      | true =>
        rw [hl] at h
        refine ⟨h, fun f hf => ?_⟩
        rcases List.mem_append.1 hf with hf | hf
        · exact hall f hf
        · rw [List.mem_singleton.1 hf]
          exact ⟨_, _, hhandled⟩
      | false =>
        rw [hl] at h
        exact ⟨h, hall⟩

/-- In every run, the datagrams are trimmed if and only if each packet meets its length. -/
theorem datagrams_trimmed_iff (is : List (In dw)) :
    (∀ f ∈ packets D is, Trimmed f) ↔ ∀ f ∈ packets D is, Meets f := by
  have h := (run_inv (D := D) is).2
  refine forall₂_congr fun f hf => ?_
  obtain ⟨udp, length, hf'⟩ := h f hf
  apply hf'.trimmed_iff
  rintro rfl
  simp [packets] at hf

/-- A byte of the IP packets from `sender`, offered while the consumer is ready. -/
def byteCycle (d : BitVec 8) (last : Bool) : In 8 where
  params := { length := 26, protocol := protocol, ipAddress := 0 }
  sink := some { data := d, lastBe := 0, error := 0, last := last }
  sourceReady := true

/-- A datagram without data, in a packet with the padding of the least Ethernet frame. -/
def emptyDatagram : List (In 8) :=
  [0, 1, 0, 2, 0, 8, 0, 0].map (byteCycle · false) ++ List.replicate 18 (byteCycle 0 false) ++ [byteCycle 0 true]

/-- Its padding is delivered as data. -/
theorem padding_of_empty_datagram_delivered :
    ¬ ∀ f ∈ packets (Depacketizer.words 8 (by decide) Header.ofBytes) emptyDatagram, Trimmed f := by
  intro h
  have hall : ∀ f ∈ packets (Depacketizer.words 8 (by decide) Header.ofBytes) emptyDatagram,
      (delivered f).length ≤ beatsOf 8 (lengthField f) := fun f hf => (h f hf).bounded
  exact absurd hall (by decide +kernel)

end LiteEth.Core.Udp.Rx
