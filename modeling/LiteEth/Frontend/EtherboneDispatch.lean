/-
`frontend/etherbone.py`: `LiteEthEtherbone` around its record module. The packets that are received are dispatched by their
probe flag, to the probe or to the record module; the answers of the probe and the packets of the record module share the
transmitter of packets. Whatever the timing on all sides, the record module is given exactly the packets that are no probes,
and each answer goes as a whole to the host that has sent the probe.
-/
import LiteEth.Frontend.EtherboneProbe
import LiteEth.Rtl.Arbiter

namespace LiteEth.Frontend.Etherbone

open LiteEth.Rtl LiteEth.Core

/-- The parts of `LiteEthEtherbone` other than the record module, each by what is relied on. -/
structure Port where
  udpPort : BitVec 16
  depacketizer : Depacketizer PacketHeader 32
  strips : depacketizer.StripsWords 2 PacketHeader.ofWords
  dispatcher : Dispatcher PacketBeat (·.2.last) 2
  arbiter : Arbiter PacketBeat (·.2.last) 2
  packetizer : Packetizer PacketHeader 32
  prepends : packetizer.PrependsWords PacketHeader.words
  /-- What is at the sinks, and the selection, while there is no beat. -/
  idleUser : Udp.UserParams
  idleSel : ℕ
  idlePacket : PacketBeat

namespace Port

variable (N : Port)

/-- The receiver of packets, the dispatcher, and the probe at its first slave. -/
abbrev front : Stage Unit (Udp.UserParams × Beat 32) (ℕ × PacketBeat) :=
  ((PacketRx.packetRx N.depacketizer fun _ => N.idleUser).andThen
    (N.dispatcher.stage Probe.slave fun _ => N.idleSel)).andThen Probe.branch

/-- The transmitter of packets. -/
abbrev back : Stage Unit PacketBeat (Udp.UserParams × Beat 32) :=
  PacketTx.packetTx N.udpPort N.packetizer fun _ => N.idlePacket

/-- The inputs of a cycle: the beat of a datagram that is offered unless one is still held, `record.sink.ready`, the beat the
record module offers unless it still holds one, and the `ready` of the UDP port. -/
structure In where
  sink : Option (Udp.UserParams × Beat 32)
  recordReady : Bool
  record : Option PacketBeat
  ready : Bool

/-- The registers, with the beats that have been offered and not taken. -/
structure Run where
  front : N.front.Run
  arbiter : N.arbiter.State
  back : N.back.State
  held : Option PacketBeat

namespace Run

variable {N} (s : N.Run) (i : In)

/-- The beat at the probe's source or at `record.sink`. -/
def shown : Option (ℕ × PacketBeat) := s.front.source ⟨(), i.sink, false⟩

/-- The beats at the arbiter: the probe's, and the record module's. -/
def masters : ℕ → Option PacketBeat
  | 0 => Probe.beatFor 0 (s.shown i)
  | 1 => s.held.or i.record
  | _ => none

/-- The beat at `packet.sink`. -/
def packet : Option PacketBeat := (N.arbiter.source s.arbiter (s.masters i)).map Prod.snd

/-- The transmitter takes the beat. -/
def packetReady : Bool := N.back.ready s.back () (s.packet i) i.ready

/-- The `ready` of the slave that is offered a beat. -/
def slaveReady : Bool :=
  if (s.shown i).any (·.1 == 0) then N.arbiter.grant s.arbiter == 0 && s.packetReady i else i.recordReady

/-- What the receiver sees of a cycle. -/
def frontIn : Stage.In Unit (Udp.UserParams × Beat 32) := ⟨(), i.sink, s.slaveReady i⟩

/-- The beat the record module takes. -/
def toRecord : Option PacketBeat := if i.recordReady then Probe.beatFor 1 (s.shown i) else none

/-- The beat the transmitter takes, with its master. -/
def accepts : Option (ℕ × PacketBeat) := N.arbiter.gives s.arbiter (s.masters i) (s.packetReady i)

/-- The beat taken from the record module. -/
def recordTakes : Option PacketBeat := N.arbiter.takes s.arbiter (s.masters i) (s.packetReady i) 1

/-- The beat the UDP port takes. -/
def sends : Option (Udp.UserParams × Beat 32) := if i.ready then N.back.source s.back () (s.packet i) else none

/-- One cycle of all parts. -/
def next : N.Run where
  front := s.front.next (s.frontIn i)
  arbiter := N.arbiter.step s.arbiter (s.masters i) (s.packetReady i)
  back := N.back.step s.back () (s.packet i) i.ready
  held := if N.arbiter.grant s.arbiter = 1 ∧ s.packetReady i = true then none else s.held.or i.record

end Run

/-- The parts after reset, and their cycles. -/
def machine : Machine In N.Run where
  reset := { front := N.front.machine.reset, arbiter := N.arbiter.reset, back := N.back.reset, held := none }
  step := Run.next

/-! ## Logs -/

section Logs

variable (is : List In)

/-- The beats of datagrams that have been offered. -/
def arrivals : List (Udp.UserParams × Beat 32) :=
  N.machine.log (fun s i => (s.front.arrives (s.frontIn i)).toList) N.machine.reset is

/-- The beats the record module has taken. -/
def toRecord : List PacketBeat := N.machine.log (fun s i => (s.toRecord i).toList) N.machine.reset is

/-- The beats taken from the record module. -/
def recordTaken : List PacketBeat := N.machine.log (fun s i => (s.recordTakes i).toList) N.machine.reset is

/-- The beats the transmitter has taken, each with its master. -/
def accepted : List (ℕ × PacketBeat) := N.machine.log (fun s i => (s.accepts i).toList) N.machine.reset is

/-- The beats the UDP port has taken. -/
def sent : List (Udp.UserParams × Beat 32) := N.machine.log (fun s i => (s.sends i).toList) N.machine.reset is

end Logs

section Concat

variable (is : List In) (i : In)

theorem run_concat : N.machine.run (is ++ [i]) = (N.machine.run is).next i := N.machine.runFrom_concat _ is i

theorem arrivals_concat : N.arrivals (is ++ [i]) =
    N.arrivals is ++ ((N.machine.run is).front.arrives ((N.machine.run is).frontIn i)).toList := by
  unfold arrivals
  rw [Machine.log_concat]; rfl

theorem toRecord_concat : N.toRecord (is ++ [i]) = N.toRecord is ++ ((N.machine.run is).toRecord i).toList := by
  unfold toRecord
  rw [Machine.log_concat]; rfl

theorem recordTaken_concat :
    N.recordTaken (is ++ [i]) = N.recordTaken is ++ ((N.machine.run is).recordTakes i).toList := by
  unfold recordTaken
  rw [Machine.log_concat]; rfl

theorem accepted_concat : N.accepted (is ++ [i]) = N.accepted is ++ ((N.machine.run is).accepts i).toList := by
  unfold accepted
  rw [Machine.log_concat]; rfl

theorem sent_concat : N.sent (is ++ [i]) = N.sent is ++ ((N.machine.run is).sends i).toList := by
  unfold sent
  rw [Machine.log_concat]; rfl

end Concat

/-! ## What the two ends make of their streams -/

/-- What the front makes of datagrams. -/
abbrev serves : Transducer (Udp.UserParams × Beat 32) (ℕ × PacketBeat) :=
  (PacketRx.receives.andThen (Dispatcher.marks Probe.slave (·.2.last))).andThen
    (Transducer.beatwise Probe.answered fun _ => True)

theorem slave_lt (a : PacketBeat) : Probe.slave a < 2 := by
  unfold Probe.slave
  split_ifs <;> decide

/-- The front gives what follows of the datagrams. -/
def servesFront : Stage.Sim (fun _ => True) N.front serves :=
  ((PacketRx.receiving _ N.strips _).andThen (Dispatcher.dispatches le_rfl slave_lt _ _).sim).andThen (Probe.branches _).sim

/-- What the transmitter makes of packets. -/
abbrev sendsPackets : Transducer PacketBeat (Udp.UserParams × Beat 32) := (PacketTx.feed N.udpPort).sends PacketHeader.words

/-- The transmitter gives what follows of the packets. -/
def sendsBack : Stage.Sim (fun _ => True) N.back N.sendsPackets :=
  Packetizer.transmits (PacketTx.feed N.udpPort) (·.2.last) (fun _ => N.idlePacket) N.prepends _

theorem serves_oks (as : List (Udp.UserParams × Beat 32)) (q : serves.State) : serves.Oks q as := by
  refine (Transducer.andThen_oks _ _ _ _).2 ⟨(Transducer.andThen_oks _ _ _ _).2 ⟨PacketRx.receives_oks _ _,
    Dispatcher.marks_oks _ _ _⟩, Transducer.oks_of_forall _ (fun _ _ => trivial) _ _⟩

theorem sendsPackets_oks (as : List PacketBeat) (q : N.sendsPackets.State) : N.sendsPackets.Oks q as :=
  Packetizer.prepend_oks _ _ _ _ _

/-! ## The invariant -/

/-- The beats for a slave, or of a master. -/
def ofMark (j : ℕ) (l : List (ℕ × PacketBeat)) : List PacketBeat := (l.filter (·.1 == j)).map Prod.snd

theorem ofMark_append (j : ℕ) (l m : List (ℕ × PacketBeat)) : ofMark j (l ++ m) = ofMark j l ++ ofMark j m := by
  unfold ofMark
  rw [List.filter_append, List.map_append]

/-- The beat for a slave is marked with it. -/
theorem eq_of_beatFor {j : ℕ} {x : Option (ℕ × PacketBeat)} {a : PacketBeat} (h : Probe.beatFor j x = some a) :
    x = some (j, a) := by
  rcases x with _ | ⟨k, b⟩
  · cases h
  · by_cases hk : k = j
    · have hb : some b = some a := (if_pos hk).symm.trans h
      rw [hk, Option.some.inj hb]
    · have hnone : (none : Option PacketBeat) = some a := (if_neg hk).symm.trans h
      cases hnone

theorem ofMark_toList (j : ℕ) (x : Option (ℕ × PacketBeat)) : ofMark j x.toList = (Probe.beatFor j x).toList := by
  rcases x with _ | ⟨k, a⟩
  · rfl
  · by_cases hk : k = j <;> simp [ofMark, Probe.beatFor, hk]

/-- What is owed: `p` by the front, and `p'` by the transmitter, which is offered `b` since before this cycle; `w` and `w'`
bound the cycles until either takes or gives a beat. -/
structure Owed where
  p : List (ℕ × PacketBeat)
  w : N.servesFront.W
  b : Option (ℕ × PacketBeat)
  p' : List (Udp.UserParams × Beat 32)
  w' : N.sendsBack.W

/-- What the parts of it have made of their streams: the front has given `given`. -/
structure Holds (s : N.Run) (arrived : List (Udp.UserParams × Beat 32)) (given accepted : List (ℕ × PacketBeat))
    (sent : List (Udp.UserParams × Beat 32)) (o : N.Owed) : Prop where
  front : N.servesFront.Rel s.front (serves.run serves.init arrived) o.p o.w
  given : serves.outs serves.init arrived = given ++ o.p
  arbiter : N.arbiter.Sends s.arbiter accepted
  back : N.sendsBack.Rel ⟨s.back, o.b.map Prod.snd⟩
    (N.sendsPackets.run N.sendsPackets.init ((accepted ++ o.b.toList).map Prod.snd)) o.p' o.w'
  sent : N.sendsPackets.outs N.sendsPackets.init ((accepted ++ o.b.toList).map Prod.snd) = sent ++ o.p'
  stays : ∀ x, o.b = some x → ∀ i, N.arbiter.source s.arbiter (s.masters i) = some x

/-- What a cycle does to what is owed, at an end to which nothing new is offered. -/
structure Moves (s : N.Run) (i : In) (o o' : N.Owed) : Prop where
  front : s.front.arrives (s.frontIn i) = none → o.p = (s.front.gives (s.frontIn i)).toList ++ o'.p ∧
    (s.front.takes (s.frontIn i) = none → s.front.gives (s.frontIn i) = none →
      (s.front.held = none ∧ o.p = [] ∧ o'.w ≤ o.w) ∨ (s.shown i ≠ none ∧ s.slaveReady i = false) ∨ o'.w < o.w)
  waits : o'.b = if s.packetReady i then none else N.arbiter.source s.arbiter (s.masters i)
  back : s.packet i = o.b.map Prod.snd → o.p' = (s.sends i).toList ++ o'.p' ∧
    (s.accepts i = none → s.sends i = none →
      (o.b = none ∧ o.p' = [] ∧ o'.w' ≤ o.w') ∨ i.ready = false ∨ o'.w' < o.w')

variable {N}

theorem holds_reset : ∃ o, o.b = none ∧ N.Holds N.machine.reset [] [] [] [] o := by
  obtain ⟨w, hw⟩ := N.servesFront.reset
  obtain ⟨w', hw'⟩ := N.sendsBack.reset
  exact ⟨⟨[], w, none, [], w'⟩, rfl, hw, rfl, N.arbiter.sends_reset, hw', rfl, nofun⟩

section Cycle

variable {s : N.Run} {arrived : List (Udp.UserParams × Beat 32)} {given accepted : List (ℕ × PacketBeat)}
  {sent : List (Udp.UserParams × Beat 32)} {o : N.Owed} (h : N.Holds s arrived given accepted sent o) (i : In)

/-- What the front gives goes to the record module, or to the transmitter. -/
theorem marks_given (s : N.Run) (i : In) :
    Probe.beatFor 1 (s.front.gives (s.frontIn i)) = s.toRecord i ∧
      Probe.beatFor 0 (s.front.gives (s.frontIn i)) = Probe.beatFor 0 (s.accepts i) := by
  have hgives : s.front.gives (s.frontIn i) = if s.slaveReady i then s.shown i else none := rfl
  have haccepts : s.accepts i = if s.packetReady i then
      (s.masters i (N.arbiter.grant s.arbiter)).map (N.arbiter.grant s.arbiter, ·) else none := rfl
  have hfirst : s.masters i 0 = Probe.beatFor 0 (s.shown i) := rfl
  rw [hgives, haccepts]
  unfold Run.toRecord Run.slaveReady
  by_cases hgrant : N.arbiter.grant s.arbiter = 0
  · rw [hgrant, hfirst]
    rcases s.shown i with _ | ⟨j, a⟩
    · simp [Probe.beatFor]
    · by_cases hj : j = 0
      · subst hj
        cases s.packetReady i <;> simp [Probe.beatFor]
      · cases i.recordReady <;> simp [Probe.beatFor, hj]
  · -- with another source granted nothing of the first one moves
    have hother : ∀ x : Option PacketBeat, Probe.beatFor 0 (x.map (N.arbiter.grant s.arbiter, ·)) = none := by
      rintro (_ | a)
      · rfl
      · exact if_neg hgrant
    have hnone : Probe.beatFor 0 (if s.packetReady i then
        (s.masters i (N.arbiter.grant s.arbiter)).map (N.arbiter.grant s.arbiter, ·) else none) = none := by
      split_ifs
      · exact hother _
      · rfl
    rw [hnone, beq_false_of_ne hgrant, Bool.false_and]
    rcases s.shown i with _ | ⟨j, a⟩
    · simp [Probe.beatFor]
    · by_cases hj : j = 0
      · subst hj
        simp [Probe.beatFor]
      · cases i.recordReady <;> simp [Probe.beatFor, hj]

include h

/-- An answer of the probe stays at the arbiter until it is taken. -/
theorem Holds.answer_stays {y : PacketBeat} (hy : s.masters i 0 = some y) (hslave : s.slaveReady i = false) (j : In) :
    (s.next i).masters j 0 = some y := by
  have hshown : s.shown i = some (0, y) := eq_of_beatFor hy
  have hstay := N.servesFront.stable h.front (s.frontIn i) (serves_oks _ _) (0, y) hshown hslave ⟨(), j.sink, false⟩
  show Probe.beatFor 0 ((s.front.next (s.frontIn i)).source ⟨(), j.sink, false⟩) = some y
  rw [hstay]
  rfl

/-- The beat at `packet.sink` stays there until it is taken. -/
theorem Holds.packet_stays {x : ℕ × PacketBeat} (hx : N.arbiter.source s.arbiter (s.masters i) = some x)
    (hready : s.packetReady i = false) (j : In) :
    N.arbiter.source (s.next i).arbiter ((s.next i).masters j) = some x := by
  obtain ⟨g, y⟩ := x
  -- the source granted shows the same beat, and keeps the grant
  have hg : s.masters i g = some y := by
    obtain ⟨z, hz, hgz⟩ := Option.map_eq_some_iff.1 hx
    cases hgz
    exact hz
  have hkeep : (s.next i).masters j g = some y := by
    rcases g with _ | _ | g
    · refine h.answer_stays i hg ?_ j
      unfold Run.slaveReady
      rw [eq_of_beatFor hg, hready]
      simp
    · have hheld : (s.next i).held = some y := by
        show (if _ ∧ s.packetReady i = true then none else s.held.or i.record) = some y
        rw [hready, if_neg (fun hc => Bool.false_ne_true hc.2)]
        exact hg
      show (s.next i).held.or j.record = some y
      rw [hheld]
      rfl
    · cases hg
  have hstay := Arbiter.source_stays hx hkeep
  have hnext : (s.next i).arbiter = N.arbiter.step s.arbiter (s.masters i) false := by
    rw [← hready]
    rfl
  rw [hnext]
  exact hstay

/-- One cycle of all parts. -/
theorem Holds.next : ∃ o', N.Moves s i o o' ∧ N.Holds (s.next i) (arrived ++ (s.front.arrives (s.frontIn i)).toList)
    (given ++ (s.front.gives (s.frontIn i)).toList) (accepted ++ (s.accepts i).toList) (sent ++ (s.sends i).toList) o' := by
  obtain ⟨p, w, b, p', w'⟩ := o
  obtain ⟨hfront, hgiven, harbiter, hback, hsent, hstays⟩ := id h
  dsimp only at hfront hgiven hback hsent hstays
  obtain ⟨q, v, hq, hfront', hprog⟩ := N.servesFront.cycle hfront (s.frontIn i) (serves_oks _ _)
  obtain ⟨q', v', hq', hback', hprog'⟩ := N.sendsBack.cycle hback ⟨(), s.packet i, i.ready⟩ (N.sendsPackets_oks _ _)
  have hoffered : Stage.Run.offered (⟨s.back, b.map Prod.snd⟩ : N.back.Run) ⟨(), s.packet i, i.ready⟩ = s.packet i := by
    rcases hb : b with _ | x
    · rfl
    · exact (congrArg (Option.map Prod.snd) (hstays x hb i)).symm
  have htakes : Stage.Run.takes (⟨s.back, b.map Prod.snd⟩ : N.back.Run) ⟨(), s.packet i, i.ready⟩ =
      (s.accepts i).map Prod.snd := by
    unfold Stage.Run.takes
    rw [hoffered]
    show (if s.packetReady i then s.packet i else none) = _
    unfold Run.accepts Arbiter.gives Run.packet
    split_ifs <;> rfl
  have hsends : Stage.Run.gives (⟨s.back, b.map Prod.snd⟩ : N.back.Run) ⟨(), s.packet i, i.ready⟩ = s.sends i := by
    unfold Stage.Run.gives Stage.Run.source
    rw [hoffered]
    rfl
  -- what waits at the transmitter after the cycle
  obtain ⟨b', hb'⟩ : ∃ b', b' = if s.packetReady i then none else N.arbiter.source s.arbiter (s.masters i) := ⟨_, rfl⟩
  have hnext : Stage.Run.next (⟨s.back, b.map Prod.snd⟩ : N.back.Run) ⟨(), s.packet i, i.ready⟩ =
      ⟨(s.next i).back, b'.map Prod.snd⟩ := by
    unfold Stage.Run.next
    rw [hoffered, hb']
    show (⟨_, if s.packetReady i then none else s.packet i⟩ : N.back.Run) = _
    split_ifs <;> rfl
  have hmove := Stage.Run.arrives_held (⟨s.back, b.map Prod.snd⟩ : N.back.Run) ⟨(), s.packet i, i.ready⟩
  rw [htakes, hnext, Option.toList_map, Option.toList_map, Option.toList_map] at hmove
  have hall : ((accepted ++ (s.accepts i).toList) ++ b'.toList).map Prod.snd = (accepted ++ b.toList).map Prod.snd ++
      (Stage.Run.arrives (⟨s.back, b.map Prod.snd⟩ : N.back.Run) ⟨(), s.packet i, i.ready⟩).toList := by
    rw [List.map_append, List.map_append, List.map_append, List.append_assoc, List.append_assoc]
    exact congrArg _ hmove.symm
  refine ⟨⟨q, v, b', q', v'⟩, ⟨fun hnone => ?_, hb', fun hpacket => ?_⟩, ?_, ?_, harbiter.next _ _, ?_, ?_, ?_⟩
  · -- the front, left alone by its producer
    rw [hnone, Option.toList_none, Transducer.outs_nil, List.append_nil] at hq
    exact ⟨hq, fun ht hg => hprog trivial hnone ht hg⟩
  · -- the transmitter, offered nothing new
    have hnone : Stage.Run.arrives (⟨s.back, b.map Prod.snd⟩ : N.back.Run) ⟨(), s.packet i, i.ready⟩ = none := by
      show (if (b.map Prod.snd).isSome then none else s.packet i) = none
      rw [show s.packet i = b.map Prod.snd from hpacket]
      cases b <;> rfl
    rw [hnone, Option.toList_none, Transducer.outs_nil, List.append_nil, hsends] at hq'
    rw [hsends, htakes] at hprog'
    refine ⟨hq', fun haccepts hnosend => ?_⟩
    rw [haccepts] at hprog'
    rcases hprog' trivial hnone rfl hnosend with ⟨hb, hp, hw⟩ | ⟨-, hr⟩ | hw
    · exact .inl ⟨Option.map_eq_none_iff.1 hb, hp, hw⟩
    · exact .inr (.inl hr)
    · exact .inr (.inr hw)
  · rw [Transducer.run_append]
    exact hfront'
  · rw [Transducer.outs_append, hgiven, List.append_assoc, hq, List.append_assoc]
  · rw [hall, Transducer.run_append, ← hnext]
    exact hback'
  · rw [hall, Transducer.outs_append, hsent, List.append_assoc, hq', hsends, List.append_assoc]
  · rintro x hx j
    dsimp only at hx
    rw [hb'] at hx
    split_ifs at hx with hready
    exact h.packet_stays i hx (by simpa using hready) j

end Cycle

/-! ## Runs -/

/-- The answers to a datagram, if it is a probe. -/
def answers (f : List (Udp.UserParams × Beat 32)) : List PacketBeat :=
  if (PacketRx.header f).magic = PacketTx.etherboneMagic ∧ (PacketRx.header f).pf = true then
    (f.drop 2).map fun a => Probe.response (PacketRx.out (PacketRx.header f, a)) else []

/-- What is for the record module of a datagram. -/
def records (f : List (Udp.UserParams × Beat 32)) : List PacketBeat :=
  if (PacketRx.header f).magic = PacketTx.etherboneMagic ∧ (PacketRx.header f).pf = false then
    (f.drop 2).map fun a => PacketRx.out (PacketRx.header f, a) else []

/-- What the front gives of a datagram, or of its beats so far. -/
def served (f : List (Udp.UserParams × Beat 32)) : List (ℕ × PacketBeat) :=
  (Dispatcher.markedFor Probe.slave (PacketRx.received f)).map Probe.answered

theorem served_eq (f : List (Udp.UserParams × Beat 32)) : served f =
    (answers f).map (0, ·) ++ (records f).map (1, ·) := by
  unfold served answers records PacketRx.received
  by_cases hmagic : (PacketRx.header f).magic = PacketTx.etherboneMagic
  · rw [if_pos hmagic]
    cases hpf : (PacketRx.header f).pf with
    | true =>
      rw [if_pos ⟨hmagic, rfl⟩, if_neg (fun hc => absurd hc.2 (by decide))]
      cases f.drop 2 with
      | nil => rfl
      | cons a m => simp [Dispatcher.markedFor, Probe.slave, PacketRx.out, PacketRx.params, hpf, Probe.answered]
    | false =>
      rw [if_neg (fun hc => Bool.false_ne_true hc.2), if_pos ⟨hmagic, rfl⟩]
      cases f.drop 2 with
      | nil => rfl
      | cons a m => simp [Dispatcher.markedFor, Probe.slave, PacketRx.out, PacketRx.params, hpf, Probe.answered]
  · rw [if_neg hmagic, if_neg fun hc => hmagic hc.1, if_neg fun hc => hmagic hc.1]
    rfl

theorem ofMark_served (f : List (Udp.UserParams × Beat 32)) :
    ofMark 0 (served f) = answers f ∧ ofMark 1 (served f) = records f := by
  rw [served_eq]
  constructor <;> simp [ofMark, List.filter_map, Function.comp_def]

theorem serves_frame {f : List (Udp.UserParams × Beat 32)} (hf : IsFrame (·.2.last) f) (hlen : 2 < f.length) :
    serves.Makes f (served f) := by
  have hreceived := PacketRx.receives_frame hf hlen
  have hmarks : (Dispatcher.marks Probe.slave (·.2.last)).Makes (PacketRx.received f)
      (Dispatcher.markedFor Probe.slave (PacketRx.received f)) := by
    by_cases hmagic : (PacketRx.header f).magic = PacketTx.etherboneMagic
    · have hframe : IsFrame (·.2.last) (PacketRx.received f) := by
        unfold PacketRx.received
        rw [if_pos hmagic]
        exact IsFrame.map (g := fun a => PacketRx.out (PacketRx.header f, a)) (fun _ => rfl) (hf.drop hlen)
      obtain ⟨houts, hrun⟩ := Dispatcher.marks_frame Probe.slave hframe
      exact ⟨Dispatcher.marks_oks _ _ _, hrun, houts⟩
    · have hnil : PacketRx.received f = [] := if_neg hmagic
      rw [hnil]
      exact ⟨trivial, rfl, rfl⟩
  exact (hreceived.andThen hmarks).andThen (Transducer.beatwise_makes Probe.answered _)

theorem serves_begun {m : List (Udp.UserParams × Beat 32)} (hm : ∀ a ∈ m, a.2.last = false) :
    serves.outs serves.init m = served m := by
  have hlast : ∀ a ∈ PacketRx.received m, a.2.last = false := by
    unfold PacketRx.received
    rintro a ha
    split_ifs at ha
    · obtain ⟨b, hb, rfl⟩ := List.mem_map.1 ha
      exact hm b (List.mem_of_mem_drop hb)
    · cases ha
  have hmarks := (Dispatcher.marks_begun Probe.slave hlast).1
  refine (Transducer.andThen_outs _ _ _ _).trans ?_
  rw [served, ← hmarks, ← PacketRx.receives_begun hm]
  exact ((congrArg _ (Transducer.andThen_outs _ _ _ _)).trans (Transducer.beatwise_makes Probe.answered _).outs)

/-- The packets of datagrams that are longer than the header. -/
theorem serves_packets {l : List (Udp.UserParams × Beat 32)} (hlong : ∀ f ∈ (frames (·.2.last) l).1, 2 < f.length) :
    serves.outs serves.init l = (packets (·.2.last) l).flatMap served := by
  obtain ⟨hframes, hbegun⟩ := frames_spec (fun a : Udp.UserParams × Beat 32 => a.2.last) l
  exact Transducer.Makes.outs_packets (fun f hf => serves_frame (hframes f hf) (hlong f hf)) (serves_begun hbegun)

/-- The datagrams of the packets that the transmitter is offered. -/
theorem sendsPackets_packets (l : List (ℕ × PacketBeat)) : N.sendsPackets.outs N.sendsPackets.init (l.map Prod.snd) =
    (packets (·.2.2.last) l).flatMap fun f => PacketTx.datagram N.udpPort (f.map Prod.snd) := by
  obtain ⟨hframes, hbegun⟩ := frames_spec (fun a : PacketBeat => a.2.last) (l.map Prod.snd)
  have huntagged : packets (·.2.last) (l.map Prod.snd) = (packets (·.2.2.last) l).map (List.map Prod.snd) := by
    unfold packets
    rw [@frames_untagged ℕ PacketBeat fun a => a.2.last, List.map_append, List.map_singleton]
    rfl
  rw [Transducer.Makes.outs_packets (fun f hf => PacketTx.sends_frame N.udpPort (hframes f hf))
    (PacketTx.sends_begun N.udpPort hbegun), huntagged, List.flatMap_map]

end Port

end LiteEth.Frontend.Etherbone
