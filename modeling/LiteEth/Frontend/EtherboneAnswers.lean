/-
What `LiteEthEtherbone` gives in a run. At any time the record module has been given a beginning of the packets that are no
probes, and the UDP port a beginning of the datagrams with the answers and with the record module's packets, each of them
whole. Nothing stays behind: once every datagram and every packet of the record module has been offered with its end, ready
consumers are given all of them.
-/
import LiteEth.Frontend.EtherboneDispatch

namespace LiteEth.Frontend.Etherbone

open LiteEth.Rtl LiteEth.Core

namespace Port

variable {N : Port}

/-! ## Runs -/

/-- The master of a beat at the transmitter is the probe or the record module. -/
theorem master_lt {s : N.Run} {i : In} {x : ℕ × PacketBeat} (hx : N.arbiter.source s.arbiter (s.masters i) = some x) :
    x.1 < 2 := by
  obtain ⟨y, hy, rfl⟩ := Option.map_eq_some_iff.1 hx
  show N.arbiter.grant s.arbiter < 2
  generalize N.arbiter.grant s.arbiter = g at hy
  rcases g with _ | _ | g
  · exact Nat.two_pos
  · exact Nat.one_lt_two
  · cases hy

theorem accepted_lt (is : List In) : ∀ x ∈ N.accepted is, x.1 < 2 := by
  induction is using List.reverseRecOn with
  | nil => exact List.forall_mem_nil _
  | append_singleton is i ih =>
    rw [accepted_concat]
    rintro x hx
    rcases List.mem_append.1 hx with hx | hx
    · exact ih x hx
    · have haccepts : (N.machine.run is).accepts i = some x := Option.mem_toList.1 hx
      unfold Run.accepts Arbiter.gives at haccepts
      split_ifs at haccepts
      exact master_lt haccepts

variable (N) in
/-- The beats the record module has offered. -/
def recordOffered (is : List In) : List PacketBeat := N.recordTaken is ++ (N.machine.run is).held.toList

/-- A packet that goes on at a master has begun with the beats accepted from it, or is still offered. -/
structure GoesOn (s : N.Run) (accepted : List (ℕ × PacketBeat)) : Prop where
  probe : N.arbiter.ongoing s.arbiter 0 = true →
    (frames (·.2.last) (ofMark 0 accepted)).2 ≠ [] ∨ ∀ i, s.masters i 0 ≠ none
  record : N.arbiter.ongoing s.arbiter 1 = true → (frames (·.2.last) (ofMark 1 accepted)).2 ≠ [] ∨ s.held ≠ none

variable (N) in
/-- The invariant of a run, and where the beats of the front have gone. -/
structure RunHolds (is : List In) (given : List (ℕ × PacketBeat)) (o : N.Owed) : Prop where
  holds : N.Holds (N.machine.run is) (N.arrivals is) given (N.accepted is) (N.sent is) o
  record : ofMark 1 given = N.toRecord is
  probe : ofMark 0 given = ofMark 0 (N.accepted is)
  taken : ofMark 1 (N.accepted is) = N.recordTaken is
  grant : N.arbiter.grant (N.machine.run is).arbiter < 2
  goesOn : GoesOn (N.machine.run is) (N.accepted is)

theorem GoesOn.next {s : N.Run} {arrived : List (Udp.UserParams × Beat 32)} {given accepted : List (ℕ × PacketBeat)}
    {sent : List (Udp.UserParams × Beat 32)} {o : N.Owed} (h : N.Holds s arrived given accepted sent o)
    (hon : GoesOn s accepted) (i : In) : GoesOn (s.next i) (accepted ++ (s.accepts i).toList) := by
  have htakes : ∀ j, (N.arbiter.takes s.arbiter (s.masters i) (s.packetReady i) j).toList =
      ofMark j (s.accepts i).toList := Arbiter.takes_toList _ _ _ _
  constructor
  · intro hnext
    rw [ofMark_append, ← htakes]
    rcases Arbiter.ongoing_next (fun hc => (hon.probe hc).imp_right fun hall => hall i) hnext with hopen | ⟨hb, hwaits⟩
    · exact .inl hopen
    · obtain ⟨y, hy⟩ := Option.ne_none_iff_exists'.1 hb
      refine .inr fun j => ?_
      rw [h.answer_stays i hy ?_ j]
      · exact Option.some_ne_none y
      · -- the answer is not taken
        unfold Run.slaveReady
        rw [eq_of_beatFor hy, Option.any_some, beq_self_eq_true, if_pos rfl, Bool.and_eq_false_iff]
        by_cases hg : N.arbiter.grant s.arbiter = 0
        · right
          by_contra hready
          rw [Bool.not_eq_false] at hready
          have htake : N.arbiter.takes s.arbiter (s.masters i) (s.packetReady i) 0 = s.masters i 0 := if_pos ⟨hg, hready⟩
          rw [htake] at hwaits
          exact hb hwaits
        · exact .inl (beq_false_of_ne hg)
  · intro hnext
    rw [ofMark_append, ← htakes]
    have hrecord : N.arbiter.ongoing s.arbiter 1 = true →
        (frames (·.2.last) (ofMark 1 accepted)).2 ≠ [] ∨ s.masters i 1 ≠ none := fun hc =>
      (hon.record hc).imp_right fun hheld => by
        obtain ⟨y, hy⟩ := Option.ne_none_iff_exists'.1 hheld
        show s.held.or i.record ≠ none
        rw [hy]
        exact Option.some_ne_none y
    rcases Arbiter.ongoing_next hrecord hnext with hopen | ⟨hb, hwaits⟩
    · exact .inl hopen
    · right
      show (if N.arbiter.grant s.arbiter = 1 ∧ s.packetReady i = true then none else s.held.or i.record) ≠ none
      rw [if_neg]
      · exact hb
      · intro hc
        have htake : N.arbiter.takes s.arbiter (s.masters i) (s.packetReady i) 1 = s.masters i 1 := if_pos hc
        rw [htake] at hwaits
        exact hb hwaits

theorem RunHolds.next {is : List In} {given : List (ℕ × PacketBeat)} {o : N.Owed} (h : N.RunHolds is given o) (i : In) :
    ∃ o', N.Moves (N.machine.run is) i o o' ∧
      N.RunHolds (is ++ [i]) (given ++ ((N.machine.run is).front.gives ((N.machine.run is).frontIn i)).toList) o' := by
  obtain ⟨o', hmoves, hnext⟩ := h.holds.next i
  obtain ⟨hone, hzero⟩ := marks_given (N.machine.run is) i
  have htakes : ((N.machine.run is).recordTakes i).toList = ofMark 1 ((N.machine.run is).accepts i).toList :=
    Arbiter.takes_toList _ _ _ _ _
  refine ⟨o', hmoves, ?_, ?_, ?_, ?_, ?_, ?_⟩
  · rw [run_concat, arrivals_concat, accepted_concat, sent_concat]
    exact hnext
  · rw [toRecord_concat, ofMark_append, h.record, ofMark_toList, hone]
  · rw [accepted_concat, ofMark_append, ofMark_append, h.probe, ofMark_toList, ofMark_toList, hzero]
  · rw [accepted_concat, recordTaken_concat, ofMark_append, h.taken, htakes]
  · rw [run_concat]
    exact (N.arbiter.grant_step _ _ _).trans_lt (roundRobin_lt h.grant)
  · rw [run_concat, accepted_concat]
    exact h.goesOn.next h.holds i

theorem run_holds (is : List In) : ∃ given o, N.RunHolds is given o := by
  induction is using List.reverseRecOn with
  | nil =>
    obtain ⟨o, -, h⟩ := N.holds_reset
    refine ⟨[], o, h, rfl, rfl, rfl, ?_, ?_, ?_⟩
    · exact N.arbiter.grant_reset.trans_lt Nat.two_pos
    · exact fun hc => Bool.noConfusion ((N.arbiter.ongoing_reset 0).symm.trans hc)
    · exact fun hc => Bool.noConfusion ((N.arbiter.ongoing_reset 1).symm.trans hc)
  | append_singleton is i ih =>
    obtain ⟨given, o, h⟩ := ih
    obtain ⟨o', -, h'⟩ := h.next i
    exact ⟨_, o', h'⟩

/-! ## Ready consumers -/

/-- A cycle in which nothing is offered and all consumers are ready. -/
def settle : In := ⟨none, true, none, true⟩

/-- A bound for the beats that the transmitter is still offered: two cycles for each, one to offer it and one to take it. -/
def Owed.bound (o : N.Owed) (s : N.Run) : ℕ := 2 * (o.p.length + s.held.toList.length) + if o.b.isSome then 0 else 1

/-- The beats that are left, and the bounds for the next of them. -/
def Owed.rank (o : N.Owed) (s : N.Run) : ℕ ×ₗ ℕ ×ₗ N.sendsBack.W ×ₗ ℕ ×ₗ N.servesFront.W :=
  toLex (o.bound s, toLex (o.p'.length, toLex (o.w', toLex (s.front.held.toList.length, o.w))))

section Settle

variable {s : N.Run} {arrived : List (Udp.UserParams × Beat 32)} {given accepted : List (ℕ × PacketBeat)}
  {sent : List (Udp.UserParams × Beat 32)} {o o' : N.Owed}

theorem arrives_settle (s : N.Run) : s.front.arrives (s.frontIn settle) = none := ite_self _

theorem masters_settle (s : N.Run) : s.masters settle 1 = s.held := Option.or_none

/-- The record module's beat is taken, or kept. -/
theorem held_settle (s : N.Run) : (s.recordTakes settle).toList ++ (s.next settle).held.toList = s.held.toList := by
  unfold Run.recordTakes Arbiter.takes
  rw [masters_settle]
  show _ ++ (if N.arbiter.grant s.arbiter = 1 ∧ s.packetReady settle = true then none else s.held.or none).toList = _
  rw [Option.or_none]
  split_ifs
  · exact List.append_nil _
  · rfl

/-- What the front and the record module have left. -/
theorem Moves.length (hm : N.Moves s settle o o') : o'.p.length + (s.next settle).held.toList.length +
    (s.front.gives (s.frontIn settle)).toList.length + (s.recordTakes settle).toList.length =
      o.p.length + s.held.toList.length := by
  obtain ⟨hp, -⟩ := hm.front (arrives_settle s)
  have h1 := congrArg List.length hp
  have h2 := congrArg List.length (held_settle s)
  rw [List.length_append] at h1 h2
  omega

/-- A beat that is accepted was given by the front, or taken from the record module. -/
theorem gives_of_accepts {i : In} {x : ℕ × PacketBeat} (hx : s.accepts i = some x) :
    1 ≤ (s.front.gives (s.frontIn i)).toList.length + (s.recordTakes i).toList.length := by
  obtain ⟨-, hzero⟩ := marks_given s i
  have htakes : (s.recordTakes i).toList = ofMark 1 (s.accepts i).toList := Arbiter.takes_toList _ _ _ _ _
  have hlt : x.1 < 2 := by
    unfold Run.accepts Arbiter.gives at hx
    split_ifs at hx
    exact master_lt hx
  rw [htakes, hx, ofMark_toList]
  obtain ⟨j, a⟩ := x
  rcases j with _ | _ | j
  · rw [hx] at hzero
    have hfirst : Probe.beatFor 0 (some (0, a)) = some a := rfl
    rw [eq_of_beatFor (hzero.trans hfirst)]
    exact Nat.le_add_right 1 _
  · exact Nat.le_add_left 1 _
  · omega

/-- The bound does not grow, and it shrinks with each beat that is given, and when one is offered to the transmitter. -/
theorem Moves.bound_le (h : N.Holds s arrived given accepted sent o)
    (hm : N.Moves s settle o o') : o'.bound (s.next settle) ≤ o.bound s ∧
      (s.front.gives (s.frontIn settle) ≠ none ∨ s.accepts settle ≠ none ∨
        (o.b = none ∧ N.arbiter.source s.arbiter (s.masters settle) ≠ none) →
          o'.bound (s.next settle) < o.bound s) := by
  have hlen := hm.length
  have hwaits := hm.waits
  unfold Owed.bound
  cases hx : N.arbiter.source s.arbiter (s.masters settle) with
  | none =>
    -- nothing is offered to the transmitter
    have hb : o.b = none := by
      by_contra hne
      obtain ⟨x, hb⟩ := Option.ne_none_iff_exists'.1 hne
      rw [h.stays x hb] at hx
      cases hx
    rw [hx, ite_self] at hwaits
    have haccepts : s.accepts settle = none := by
      unfold Run.accepts Arbiter.gives
      rw [hx]
      exact ite_self _
    rw [hb, hwaits]
    refine ⟨by omega, fun hc => ?_⟩
    rcases hc with hc | hc | ⟨-, hc⟩
    · obtain ⟨y, hy⟩ := Option.ne_none_iff_exists'.1 hc
      rw [hy, Option.toList_some, List.length_singleton] at hlen
      omega
    · exact absurd haccepts hc
    · exact absurd rfl hc
  | some x =>
    cases hr : s.packetReady settle with
    | true =>
      have haccepts : s.accepts settle = some x := by
        unfold Run.accepts Arbiter.gives
        rw [if_pos hr, hx]
      have hone := gives_of_accepts haccepts
      rw [hr, if_pos rfl] at hwaits
      rw [hwaits, Option.isSome_none, if_neg Bool.false_ne_true]
      have : (if o.b.isSome = true then 0 else 1) ≥ 0 := Nat.zero_le _
      exact ⟨by omega, fun _ => by omega⟩
    | false =>
      have haccepts : s.accepts settle = none := if_neg (by rw [hr]; exact Bool.false_ne_true)
      rw [hr, if_neg Bool.false_ne_true, hx] at hwaits
      rw [hwaits, Option.isSome_some, if_pos rfl]
      refine ⟨by omega, fun hc => ?_⟩
      rcases hc with hc | hc | ⟨hb, -⟩
      · obtain ⟨y, hy⟩ := Option.ne_none_iff_exists'.1 hc
        rw [hy, Option.toList_some, List.length_singleton] at hlen
        omega
      · exact absurd haccepts hc
      · rw [hb, Option.isSome_none, if_neg Bool.false_ne_true]
        omega

/-- The record module is ready: a beat that waits at the probe's source is an answer. -/
theorem shown_of_slaveReady (hshown : s.shown settle ≠ none) (hslave : s.slaveReady settle = false) :
    ∃ a, s.shown settle = some (0, a) := by
  obtain ⟨⟨j, a⟩, hx⟩ := Option.ne_none_iff_exists'.1 hshown
  unfold Run.slaveReady at hslave
  rw [hx, Option.any_some] at hslave
  split_ifs at hslave with hj
  · obtain rfl : j = 0 := eq_of_beq hj
    exact ⟨a, hx⟩
  · cases hslave

/-- Nothing is left. -/
structure Owed.Done (o : N.Owed) (s : N.Run) : Prop where
  front : s.front.held = none ∧ o.p = []
  record : s.held = none
  back : o.b = none ∧ o.p' = []

/-- A master waits for the grant, and the one that has it offers nothing. -/
structure Run.Waits (s : N.Run) (j : ℕ) : Prop where
  lt : j < 2
  offers : ∃ a, s.masters settle j = some a
  silent : s.masters settle (N.arbiter.grant s.arbiter) = none

/-- A settling cycle: fewer beats are left, or the next of them is nearer, or everything is done; else a master waits. -/
theorem Moves.rank (h : N.Holds s arrived given accepted sent o) (hg : N.arbiter.grant s.arbiter < 2)
    (hm : N.Moves s settle o o') : o'.rank (s.next settle) < o.rank s ∨ o.Done s ∨
      (o'.b = none ∧ o'.bound (s.next settle) ≤ o.bound s ∧
        ((s.front.held = none ∧ o.p = [] ∧ s.Waits 1) ∨ (s.held = none ∧ s.Waits 0))) := by
  obtain ⟨hle, hlt⟩ := hm.bound_le h
  -- the bound decides, then what is left, then the bounds for the next beat
  unfold Owed.rank
  simp only [Prod.Lex.toLex_lt_toLex']
  by_cases hmove : s.front.gives (s.frontIn settle) ≠ none ∨ s.accepts settle ≠ none ∨
      (o.b = none ∧ N.arbiter.source s.arbiter (s.masters settle) ≠ none)
  · have hbound := hlt hmove
    exact .inl ⟨hle, fun heq => absurd heq hbound.ne⟩
  · rw [not_or, not_or, not_not, not_not, not_and, not_not] at hmove
    obtain ⟨hgives, haccepts, hsource⟩ := hmove
    have hpacket : s.packet settle = o.b.map Prod.snd := by
      unfold Run.packet
      cases hb : o.b with
      | none => rw [hsource hb]
      | some x => rw [h.stays x hb]
    obtain ⟨hp', hback⟩ := hm.back hpacket
    have hlen' := congrArg List.length hp'
    rw [List.length_append] at hlen'
    cases hsends : s.sends settle with
    | some x =>
      rw [hsends, Option.toList_some, List.length_singleton] at hlen'
      exact .inl ⟨hle, fun _ => ⟨by omega, fun heq => by omega⟩⟩
    | none =>
      rw [hsends, Option.toList_none, List.length_nil, Nat.zero_add] at hlen'
      rcases hback haccepts hsends with ⟨hb, hnil, hw'⟩ | hready | hw'
      · -- the transmitter has nothing to do
        have hsilent : s.masters settle (N.arbiter.grant s.arbiter) = none := Option.map_eq_none_iff.1 (hsource hb)
        have hidle : o'.b = none := by rw [hm.waits, hsource hb, ite_self]
        obtain ⟨hp, hfront⟩ := hm.front (arrives_settle s)
        have hheld := Stage.Run.arrives_held s.front (s.frontIn settle)
        rw [arrives_settle, Option.toList_none, List.append_nil] at hheld
        have hlen := congrArg List.length hheld
        rw [List.length_append] at hlen
        cases htakes : s.front.takes (s.frontIn settle) with
        | some x =>
          rw [htakes, Option.toList_some, List.length_singleton] at hlen
          refine .inl ⟨hle, fun _ => ⟨hlen'.ge, fun _ => ⟨hw', fun _ => ⟨?_, ?_⟩⟩⟩⟩
          · show (s.front.next (s.frontIn settle)).held.toList.length ≤ _
            omega
          · intro heq
            have heq' : (s.front.next (s.frontIn settle)).held.toList.length = s.front.held.toList.length := heq
            omega
        | none =>
          rw [htakes, Option.toList_none, List.length_nil, Nat.zero_add] at hlen
          rcases hfront htakes hgives with ⟨hnone, hempty, -⟩ | ⟨hshown, hslave⟩ | hw
          · by_cases hrecord : s.held = none
            · exact .inr (.inl ⟨⟨hnone, hempty⟩, hrecord, hb, hnil⟩)
            · -- the record module waits
              obtain ⟨y, hy⟩ := Option.ne_none_iff_exists'.1 hrecord
              exact .inr (.inr ⟨hidle, hle, .inl ⟨hnone, hempty, Nat.one_lt_two, ⟨y, (masters_settle s).trans hy⟩, hsilent⟩⟩)
          · -- an answer waits
            obtain ⟨a, ha⟩ := shown_of_slaveReady hshown hslave
            have hoffers : s.masters settle 0 = some a := congrArg (Probe.beatFor 0) ha
            have hgrant : N.arbiter.grant s.arbiter = 1 := by
              have hne : N.arbiter.grant s.arbiter ≠ 0 := by
                rintro hzero
                rw [hzero, hoffers] at hsilent
                cases hsilent
              omega
            have hrecord : s.held = none := by
              rw [hgrant, masters_settle] at hsilent
              exact hsilent
            exact .inr (.inr ⟨hidle, hle, .inr ⟨hrecord, Nat.two_pos, ⟨a, hoffers⟩, hsilent⟩⟩)
          · refine .inl ⟨hle, fun _ => ⟨hlen'.ge, fun _ => ⟨hw', fun _ => ⟨hlen.ge, fun _ => hw⟩⟩⟩⟩
      · cases hready
      · exact .inl ⟨hle, fun _ => ⟨hlen'.ge, fun _ => ⟨hw'.le, fun heq => absurd heq hw'.ne⟩⟩⟩

end Settle

/-! ## Everything is given -/

theorem ofMark_flatMap (j : ℕ) (g : List (Udp.UserParams × Beat 32) → List (ℕ × PacketBeat))
    (fs : List (List (Udp.UserParams × Beat 32))) : ofMark j (fs.flatMap g) = fs.flatMap fun f => ofMark j (g f) := by
  induction fs with
  | nil => rfl
  | cons f fs ih => rw [List.flatMap_cons, ofMark_append, ih, List.flatMap_cons]

theorem answers_whole {f : List (Udp.UserParams × Beat 32)} (hf : IsFrame (·.2.last) f) (hlen : 2 < f.length) :
    answers f = [] ∨ IsFrame (·.2.last) (answers f) := by
  unfold answers
  split_ifs
  · exact .inr (IsFrame.map (g := fun a => Probe.response (PacketRx.out (PacketRx.header f, a))) (fun _ => rfl)
      (hf.drop hlen))
  · exact .inl rfl

variable (N) in
/-- What has been offered: datagrams that are longer than the header, and packets of the record module, each with its end. -/
structure Whole (is : List In) : Prop where
  long : ∀ f ∈ (frames (·.2.last) (N.arrivals is)).1, 2 < f.length
  datagrams : (frames (·.2.last) (N.arrivals is)).2 = []
  packets : (frames (·.2.last) (N.recordOffered is)).2 = []

theorem arrivals_settles (is : List In) (n : ℕ) : N.arrivals (is ++ List.replicate n settle) = N.arrivals is := by
  induction n with
  | zero => rw [List.replicate_zero, List.append_nil]
  | succ n ih =>
    rw [List.replicate_succ', ← List.append_assoc, arrivals_concat, arrives_settle, Option.toList_none, List.append_nil, ih]

theorem recordOffered_settles (is : List In) (n : ℕ) :
    N.recordOffered (is ++ List.replicate n settle) = N.recordOffered is := by
  induction n with
  | zero => rw [List.replicate_zero, List.append_nil]
  | succ n ih =>
    rw [← ih, List.replicate_succ', ← List.append_assoc]
    unfold recordOffered
    rw [recordTaken_concat, run_concat, List.append_assoc, held_settle]

theorem Whole.settles {is : List In} (h : N.Whole is) (n : ℕ) : N.Whole (is ++ List.replicate n settle) := by
  obtain ⟨hlong, hdatagrams, hpackets⟩ := h
  rw [← arrivals_settles is n] at hlong hdatagrams
  rw [← recordOffered_settles is n] at hpackets
  exact ⟨hlong, hdatagrams, hpackets⟩

section Drain

variable {is : List In} {given : List (ℕ × PacketBeat)} {o : N.Owed}

/-- The answers of whole datagrams are whole. -/
theorem RunHolds.answers_end (h : N.RunHolds is given o) (hwhole : N.Whole is) (hp : o.p = []) :
    (frames (·.2.last) (ofMark 0 (N.accepted is))).2 = [] := by
  have hframes := (frames_spec (fun a : Udp.UserParams × Beat 32 => a.2.last) (N.arrivals is)).1
  have hgiven := h.holds.given
  rw [hp, List.append_nil, serves_packets hwhole.long, packets, hwhole.datagrams] at hgiven
  rw [← h.probe, ← hgiven, ofMark_flatMap]
  simp only [(ofMark_served _).1]
  rw [List.flatMap_append, List.flatMap_singleton]
  have hnone : answers [] = [] := by
    unfold answers
    exact ite_self _
  rw [hnone, List.append_nil]
  exact frames_flatMap _ fun f hf => answers_whole (hframes f hf) (hwhole.long f hf)

/-- A master that waits has the grant in the next cycle. -/
theorem RunHolds.granted (h : N.RunHolds is given o) (hwhole : N.Whole is) {j : ℕ} (hwaits : (N.machine.run is).Waits j)
    (hdone : (j = 1 ∧ o.p = []) ∨ (j = 0 ∧ (N.machine.run is).held = none)) :
    N.arbiter.grant ((N.machine.run is).next settle).arbiter = j ∧ ((N.machine.run is).next settle).masters settle j ≠ none := by
  obtain ⟨hlt, ⟨a, ha⟩, hsilent⟩ := hwaits
  have hne : N.arbiter.grant (N.machine.run is).arbiter ≠ j := by
    rintro heq
    rw [heq, ha] at hsilent
    cases hsilent
  have hg := h.grant
  have hongoing : N.arbiter.ongoing (N.machine.run is).arbiter (N.arbiter.grant (N.machine.run is).arbiter) = false := by
    by_contra hon
    rw [Bool.not_eq_false] at hon
    rcases hdone with ⟨rfl, hp⟩ | ⟨rfl, hheld⟩
    · -- the answers have all been taken, each with its end
      have hzero : N.arbiter.grant (N.machine.run is).arbiter = 0 := by omega
      rw [hzero] at hon hsilent
      rcases h.goesOn.probe hon with hbegun | hoffers
      · exact hbegun (h.answers_end hwhole hp)
      · exact hoffers settle hsilent
    · -- so have the packets of the record module
      have hone : N.arbiter.grant (N.machine.run is).arbiter = 1 := by omega
      rw [hone] at hon
      have hall : N.recordOffered is = ofMark 1 (N.accepted is) := by
        rw [recordOffered, hheld, h.taken]
        exact List.append_nil _
      rcases h.goesOn.record hon with hbegun | hoffers
      · exact hbegun (hall ▸ hwhole.packets)
      · exact hoffers hheld
  refine ⟨Arbiter.grant_moves _ h.grant hlt (by rw [ha]; exact Option.some_ne_none a) hsilent hongoing, ?_⟩
  rcases hdone with ⟨rfl, -⟩ | ⟨rfl, -⟩
  · have hkept : ((N.machine.run is).next settle).held = some a := (if_neg fun hc => hne hc.1).trans ha
    show ((N.machine.run is).next settle).held.or none ≠ none
    rw [hkept]
    exact Option.some_ne_none a
  · have hslave : (N.machine.run is).slaveReady settle = false := by
      unfold Run.slaveReady
      rw [eq_of_beatFor ha, Option.any_some, beq_self_eq_true, if_pos rfl, beq_false_of_ne hne, Bool.false_and]
    rw [h.holds.answer_stays settle ha hslave settle]
    exact Option.some_ne_none a

/-- Everything is done, or fewer beats are left after one cycle or two. -/
theorem RunHolds.nearer (h : N.RunHolds is given o) (hwhole : N.Whole is) : o.Done (N.machine.run is) ∨
    ∃ n given' o', N.RunHolds (is ++ List.replicate n settle) given' o' ∧
      o'.rank (N.machine.run (is ++ List.replicate n settle)) < o.rank (N.machine.run is) := by
  obtain ⟨o', hmoves, h'⟩ := h.next settle
  rcases hmoves.rank h.holds h.grant with hlt | hdone | ⟨hidle, hle, hwaits⟩
  · refine .inr ⟨1, _, o', h', ?_⟩
    rw [List.replicate_one, run_concat]
    exact hlt
  · exact .inl hdone
  · -- the grant goes to the master that waits, and its beat to the transmitter
    obtain ⟨j, hgrant, hoffers⟩ : ∃ j, N.arbiter.grant ((N.machine.run is).next settle).arbiter = j ∧
        ((N.machine.run is).next settle).masters settle j ≠ none := by
      rcases hwaits with ⟨-, hp, hwaits⟩ | ⟨hheld, hwaits⟩
      · exact ⟨1, h.granted hwhole hwaits (.inl ⟨rfl, hp⟩)⟩
      · exact ⟨0, h.granted hwhole hwaits (.inr ⟨rfl, hheld⟩)⟩
    obtain ⟨o'', hmoves', h''⟩ := h'.next settle
    obtain ⟨-, hlt⟩ := hmoves'.bound_le h'.holds
    rw [run_concat] at hlt
    have hsource : N.arbiter.source ((N.machine.run is).next settle).arbiter
        (((N.machine.run is).next settle).masters settle) ≠ none := by
      unfold Arbiter.source
      rw [hgrant]
      exact fun hc => hoffers (Option.map_eq_none_iff.1 hc)
    refine .inr ⟨2, _, o'', by rw [List.append_assoc] at h''; exact h'', ?_⟩
    have hbound := (hlt (.inr (.inr ⟨hidle, hsource⟩))).trans_le hle
    rw [show List.replicate 2 settle = [settle] ++ [settle] from rfl, ← List.append_assoc, run_concat, run_concat]
    exact Prod.Lex.toLex_lt_toLex.2 (.inl hbound)

/-- Ready consumers are given everything. -/
theorem RunHolds.drain (h : N.RunHolds is given o) (hwhole : N.Whole is) : ∃ n given' o',
    N.RunHolds (is ++ List.replicate n settle) given' o' ∧ o'.Done (N.machine.run (is ++ List.replicate n settle)) := by
  -- by induction on the beats that are left, and on the bounds for the next of them
  induction hr : o.rank (N.machine.run is) using WellFoundedLT.induction generalizing is given o with
  | ind r ih =>
    subst hr
    rcases h.nearer hwhole with hdone | ⟨n, given', o', h', hlt⟩
    · refine ⟨0, given, o, ?_⟩
      rw [List.replicate_zero, List.append_nil]
      exact ⟨h, hdone⟩
    · obtain ⟨m, given'', o'', h'', hdone⟩ := ih _ hlt h' (hwhole.settles n) rfl
      rw [List.append_assoc, ← List.replicate_add] at h'' hdone
      exact ⟨n + m, given'', o'', h'', hdone⟩

end Drain

/-! ## The answers -/

variable (N) in
/-- What has been given in a run `js` that goes on from `is`, with nothing more offered: the record module has been given the
packets that are no probes, and the transmitter the answers to the probes and the record module's packets, each of one side;
it has sent all of them. -/
structure Answered (is js : List In) : Prop where
  toRecord : N.toRecord js = (frames (·.2.last) (N.arrivals is)).1.flatMap records
  answers : ofMark 0 (N.accepted js) = (frames (·.2.last) (N.arrivals is)).1.flatMap answers
  record : ofMark 1 (N.accepted js) = N.recordOffered is
  one : ∀ f ∈ packets (·.2.2.last) (N.accepted js), ∃ j < 2, ∀ x ∈ f, x.1 = j
  sent : N.sent js = (packets (·.2.2.last) (N.accepted js)).flatMap fun f => PacketTx.datagram N.udpPort (f.map Prod.snd)

variable (N) in
/-- A run, by the datagrams that have been offered: the record module is given the packets that are no probes, in order. The
transmitter is offered whole packets, each of them the answer to a probe or one of the record module's, in order on each
side; it sends them as datagrams. Nothing stays behind once everything has been offered with its end. -/
structure Answers (is : List In) : Prop where
  toRecord : N.toRecord is <+: (packets (·.2.last) (N.arrivals is)).flatMap records
  sent : ∃ offered, N.accepted is <+: offered ∧
    (∀ f ∈ packets (·.2.2.last) offered, ∃ j < 2, ∀ x ∈ f, x.1 = j) ∧
    ofMark 0 offered <+: (packets (·.2.last) (N.arrivals is)).flatMap answers ∧
    ofMark 1 offered <+: N.recordOffered is ∧
    N.sent is <+: (packets (·.2.2.last) offered).flatMap fun f => PacketTx.datagram N.udpPort (f.map Prod.snd)
  complete : (frames (·.2.last) (N.arrivals is)).2 = [] → (frames (·.2.last) (N.recordOffered is)).2 = [] →
    ∃ n, N.Answered is (is ++ List.replicate n settle)

/-- A cycle in which nothing is offered and nobody is ready. -/
def quiet : In := ⟨none, false, none, false⟩

/-- The answer that waits at the transmitter is the next one the front gives. -/
theorem Holds.front_waiting {s : N.Run} {arrived : List (Udp.UserParams × Beat 32)} {given accepted : List (ℕ × PacketBeat)}
    {sent : List (Udp.UserParams × Beat 32)} {o : N.Owed} (h : N.Holds s arrived given accepted sent o) :
    ofMark 0 o.b.toList <+: ofMark 0 o.p := by
  rcases hb : o.b with _ | ⟨g, a⟩
  · exact List.nil_prefix
  · by_cases hg : g = 0
    · subst hg
      obtain ⟨z, hz, hza⟩ := Option.map_eq_some_iff.1 (h.stays _ hb quiet)
      have hmaster : s.masters quiet 0 = some a := by
        rw [(Prod.mk.inj hza).1, (Prod.mk.inj hza).2] at hz
        exact hz
      have hshown : s.shown quiet = some (0, a) := eq_of_beatFor hmaster
      have hnone : s.front.arrives (s.frontIn quiet) = none := ite_self _
      obtain ⟨p', hp'⟩ := N.servesFront.head h.front (s.frontIn quiet) (serves_oks _ _)
      have hsource : s.front.source (s.frontIn quiet) = some (0, a) := hshown
      rw [hnone, hsource, Option.toList_none, Transducer.outs_nil, List.append_nil] at hp'
      rw [hp', ofMark_append]
      exact List.prefix_append _ _
    · have hnil : ofMark 0 (some (g, a)).toList = [] := by simp [ofMark, hg]
      rw [hnil]
      exact List.nil_prefix

/-- The record module's beat that waits at the transmitter is the one it offers. -/
theorem Holds.record_waiting {s : N.Run} {arrived : List (Udp.UserParams × Beat 32)} {given accepted : List (ℕ × PacketBeat)}
    {sent : List (Udp.UserParams × Beat 32)} {o : N.Owed} (h : N.Holds s arrived given accepted sent o) :
    ofMark 1 o.b.toList <+: s.held.toList := by
  rcases hb : o.b with _ | ⟨g, a⟩
  · exact List.nil_prefix
  · by_cases hg : g = 1
    · subst hg
      obtain ⟨z, hz, hza⟩ := Option.map_eq_some_iff.1 (h.stays _ hb quiet)
      have hmaster : s.held.or none = some a := by
        rw [(Prod.mk.inj hza).1, (Prod.mk.inj hza).2] at hz
        exact hz
      rw [Option.or_none] at hmaster
      rw [hmaster]
      exact List.prefix_rfl
    · have hnil : ofMark 1 (some (g, a)).toList = [] := by simp [ofMark, hg]
      rw [hnil]
      exact List.nil_prefix

section Given

variable {is : List In} {given : List (ℕ × PacketBeat)} {o : N.Owed}

/-- What the front has given of the datagrams, and what is still to come. -/
theorem RunHolds.served (h : N.RunHolds is given o) (hlong : ∀ f ∈ (frames (·.2.last) (N.arrivals is)).1, 2 < f.length)
    (j : ℕ) : (packets (·.2.last) (N.arrivals is)).flatMap (fun f => ofMark j (Port.served f)) =
      ofMark j given ++ ofMark j o.p := by
  rw [← ofMark_flatMap, ← serves_packets hlong, h.holds.given, ofMark_append]

/-- What is offered to the transmitter is in packets of one side. -/
theorem RunHolds.one (h : N.RunHolds is given o) :
    ∀ f ∈ packets (·.2.2.last) (N.accepted is ++ o.b.toList), ∃ j < 2, ∀ x ∈ f, x.1 = j := by
  cases hb : o.b with
  | none =>
    rw [Option.toList_none, List.append_nil]
    exact one_lt Nat.two_pos (accepted_lt is) h.holds.arbiter.one
  | some x =>
    have hx := h.holds.stays x hb quiet
    refine one_lt Nat.two_pos ?_ (h.holds.arbiter.waiting hx)
    rintro y hy
    rcases List.mem_append.1 hy with hy | hy
    · exact accepted_lt is y hy
    · rw [List.mem_singleton.1 hy]
      exact master_lt hx

/-- Once it is done, everything has been given. -/
theorem RunHolds.answered {js : List In} (h : N.RunHolds js given o) (hwhole : N.Whole js)
    (hdone : o.Done (N.machine.run js)) (harrivals : N.arrivals js = N.arrivals is)
    (hrecord : N.recordOffered js = N.recordOffered is) : N.Answered is js := by
  obtain ⟨⟨-, hp⟩, hheld, hb, hp'⟩ := hdone
  have hnone : ∀ j, ofMark j (Port.served []) = [] := fun j => by
    rw [served_eq, answers, records, List.drop_nil, List.map_nil, List.map_nil, ite_self, ite_self]
    rfl
  have hserved : ∀ j, (frames (·.2.last) (N.arrivals is)).1.flatMap (fun f => ofMark j (Port.served f)) = ofMark j given := by
    intro j
    have hall := h.served hwhole.long j
    rw [packets, hwhole.datagrams, List.flatMap_append, List.flatMap_singleton, hnone, List.append_nil, harrivals, hp] at hall
    exact hall.trans (List.append_nil _)
  have hone := h.one
  have hsent := h.holds.sent
  rw [hb, Option.toList_none, List.append_nil] at hone hsent
  rw [hp', List.append_nil, sendsPackets_packets] at hsent
  refine ⟨?_, ?_, ?_, hone, hsent.symm⟩
  · rw [← h.record, ← hserved 1]
    simp only [(ofMark_served _).2]
  · rw [← h.probe, ← hserved 0]
    simp only [(ofMark_served _).1]
  · rw [h.taken, ← hrecord, recordOffered, hheld]
    exact (List.append_nil _).symm

end Given

/-- In every run in which the datagrams are longer than the header. -/
theorem probes_answered (is : List In) (hlong : ∀ f ∈ (frames (·.2.last) (N.arrivals is)).1, 2 < f.length) :
    N.Answers is := by
  obtain ⟨given, o, h⟩ := N.run_holds is
  refine ⟨?_, ⟨N.accepted is ++ o.b.toList, List.prefix_append _ _, h.one, ?_, ?_, ?_⟩, fun hdatagrams hpackets => ?_⟩
  · have hone := h.served hlong 1
    simp only [(ofMark_served _).2, h.record] at hone
    rw [hone]
    exact List.prefix_append _ _
  · have hzero := h.served hlong 0
    simp only [(ofMark_served _).1, h.probe] at hzero
    rw [hzero, ofMark_append, List.prefix_append_right_inj]
    exact h.holds.front_waiting
  · rw [recordOffered, ofMark_append, h.taken, List.prefix_append_right_inj]
    exact h.holds.record_waiting
  · rw [← N.sendsPackets_packets, h.holds.sent]
    exact List.prefix_append _ _
  · -- whatever has been offered is given
    have hwhole : N.Whole is := ⟨hlong, hdatagrams, hpackets⟩
    obtain ⟨n, given', o', h', hdone⟩ := h.drain hwhole
    exact ⟨n, h'.answered (hwhole.settles n) hdone (arrivals_settles is n) (recordOffered_settles is n)⟩

/-- Port 1234, with the registers of each part. -/
def plain : Port where
  udpPort := 1234
  depacketizer := .words 2 Nat.two_pos PacketHeader.ofWords
  strips := Depacketizer.stripsWords_words 2 Nat.two_pos PacketHeader.ofWords
  dispatcher := .oneHot (fun a : PacketBeat => a.2.last) 2
  arbiter := .status PacketBeat (·.2.last) 2
  packetizer := .words 2 fun h k => h.words.getD k 0
  prepends := Packetizer.prependsWords_words 2 Nat.two_pos fun (h : PacketHeader) k => h.words.getD k 0
  idleUser := ⟨0, 0, 0, 0⟩
  idleSel := 0
  idlePacket := (⟨false, false, false, 0, 0⟩, .ofWord 0)

/-- A probe of one word from 10.0.0.2, while the record module offers a packet to 10.0.0.3, and then some cycles. -/
def probeArrives : List In :=
  ([(0x44116f4e, false), (0, false), (0x2a, true)].map fun x : BitVec 32 × Bool =>
    ⟨some (⟨1234, 1234, 0x0a000002, 12⟩, ⟨x.1, 0, 0, x.2⟩), true,
      some (⟨false, false, false, 0x0a000003, 4⟩, ⟨0x17, 0, 0, true⟩), true⟩) ++ List.replicate 12 settle

theorem probes_answered_plain : plain.Answers probeArrives := probes_answered probeArrives (by decide +kernel)

/-- The record module's packet, and the answer. -/
example : plain.sent probeArrives =
    ([(0x44106f4e, false), (0, false), (0x17, true)].map fun x : BitVec 32 × Bool =>
      (⟨1234, 1234, 0x0a000003, 12⟩, ⟨x.1, 0, 0, x.2⟩)) ++
    [(0x44126f4e, false), (0, false), (0x2a, true)].map fun x : BitVec 32 × Bool =>
      (⟨1234, 1234, 0x0a000002, 12⟩, ⟨x.1, 0, 0, x.2⟩) := by decide +kernel

end Port

end LiteEth.Frontend.Etherbone
