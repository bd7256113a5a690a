/-
`core/ip.py`: the IPv4 receiver. It holds a packet at the depacketizer until the engine has summed its
header, and then passes all of it on, or drops all of it. The engine is restarted in every cycle in which
no beat of a packet is shown, so that it always sums the header of the packet that waits.
-/
import LiteEth.Core.Ip
import LiteEth.Rtl.PacketSim

namespace LiteEth.Core.Ip

open LiteEth.Rtl

namespace Rx

/-- The engine of the receiver. -/
def engine : Checksum.Params := { wordsPerClockCycle := 1, skipChecksum := false }

/-- The states of the receiver. -/
inductive Fsm
  | idle
  | receive
  | drop
  deriving DecidableEq, Repr

variable (p : Params) (D : Depacketizer HeaderBytes p.dw)

/-- The registers of the receiver. -/
structure State where
  fsm : Fsm
  checksum : Checksum.State
  depacketizer : D.State

/-- The registers after reset. -/
def State.init : State p D := { fsm := .idle, checksum := .init, depacketizer := D.reset }

variable {p D} (s : State p D) (b : Option (Beat p.dw)) (r : Bool)

/-- `depacketizer.header`. -/
def State.bytes : HeaderBytes := D.header s.depacketizer

/-- The decoded fields of it. -/
def State.header : Header := .ofBytes s.bytes

/-- The beat at the depacketizer's source. -/
def State.packet : Option (Beat p.dw) := D.source s.depacketizer b

/-- `checksum.done`. -/
def State.done : Bool := s.checksum.done engine

/-- The condition for `RECEIVE`. -/
def State.valid : Bool :=
  s.header.targetIp == p.ipAddress && s.header.version == 0x4 && s.header.ihl == 0x5 &&
    s.checksum.value engine s.bytes == 0

/-- The parameters driven at `source`. -/
def params (h : Header) : UserParams :=
  { length := h.totalLength - BitVec.ofNat 16 (0x5 * 4), protocol := h.protocol, ipAddress := h.senderIp }

/-- The beat at the source, with the parameters of the packet. -/
def State.source : Option (UserParams × Beat p.dw) :=
  match s.fsm with
  | .receive => (s.packet b).map (params s.header, ·)
  | _ => none

/-- `depacketizer.source.ready`. -/
def State.packetReady : Bool :=
  match s.fsm with
  | .idle => false
  | .receive => r
  | .drop => true

/-- The depacketizer takes the beat. -/
def State.sinkReady : Bool := D.sinkReady s.depacketizer b (s.packetReady r)

/-- One cycle of the receiver: the decision waits for the checksum. -/
def State.next : State p D where
  fsm := match s.fsm with
    | .idle => if (s.packet b).isSome && s.done then (if s.valid then .receive else .drop) else .idle
    | .receive => if isLast (s.packet b) && r then .idle else .receive
    | .drop => if isLast (s.packet b) then .idle else .drop
  checksum := s.checksum.next engine true (s.packet b).isNone s.bytes
  depacketizer := D.step s.depacketizer b (s.packetReady r)

end Rx

/-- `LiteEthIPRX`. -/
abbrev iprx {ε : Type} (p : Params) (D : Depacketizer HeaderBytes p.dw) :
    Stage ε (Beat p.dw) (UserParams × Beat p.dw) where
  State := Rx.State p D
  reset := .init p D
  source s _ b := s.source b
  ready s _ b r := s.sinkReady b r
  step s _ b r := s.next b r

namespace Rx

/-! ## What is delivered -/

/-- The packet is for us, and its header is sound. -/
def Accepts (p : Params) (b : HeaderBytes) : Prop :=
  (Header.ofBytes b).targetIp = p.ipAddress ∧ (Header.ofBytes b).version = 4 ∧ (Header.ofBytes b).ihl = 5 ∧
    OnesComplement.sum 16 ((List.range 10).map (word b)) = 0xffff

instance (p : Params) (b : HeaderBytes) : Decidable (Accepts p b) := inferInstanceAs (Decidable (_ ∧ _))

/-- The beats of the packets that are accepted pass; the state tells whether the packet that has begun is. -/
abbrev filter (p : Params) : Transducer (HeaderBytes × Beat p.dw) (UserParams × Beat p.dw) where
  State := Option Bool
  init := none
  next v x := if x.2.last then none else some (v.getD (Accepts p x.1))
  out v x := if v.getD (Accepts p x.1) then [(params (.ofBytes x.1), x.2)] else []
  ok _ _ := True

/-- The receiver's part of a packet of header `b` and payload `bs`. -/
def delivery (p : Params) (b : HeaderBytes) (bs : List (Beat p.dw)) : List (UserParams × Beat p.dw) :=
  if Accepts p b then bs.map (params (.ofBytes b), ·) else []

theorem filter_oks {p : Params} (xs : List (HeaderBytes × Beat p.dw)) : ∀ v, (filter p).Oks v xs := by
  induction xs with
  | nil => exact fun _ => trivial
  | cons x xs ih => exact fun _ => ⟨trivial, ih _⟩

/-- The verdict is that on the first beat. -/
theorem filter_begun {p : Params} (b : HeaderBytes) {bs : List (Beat p.dw)} (hbs : ∀ x ∈ bs, x.last = false)
    {v : Option Bool} (hv : v.getD (Accepts p b) = decide (Accepts p b)) :
    (filter p).outs v (bs.map (b, ·)) = delivery p b bs ∧
      ((filter p).run v (bs.map (b, ·))).getD (Accepts p b) = decide (Accepts p b) := by
  induction bs generalizing v with
  | nil =>
    refine ⟨?_, hv⟩
    unfold delivery
    simp
  | cons x bs ih =>
    have hx := hbs x List.mem_cons_self
    obtain ⟨h1, h2⟩ := ih (fun y hy => hbs y (List.mem_cons_of_mem x hy)) (v := some (Accepts p b)) rfl
    rw [List.map_cons, Transducer.outs_cons, Transducer.run_cons]
    simp only [hx, hv, Bool.false_eq_true, if_false, h1, h2]
    refine ⟨?_, trivial⟩
    unfold delivery
    by_cases h : Accepts p b <;> simp [h]

/-- A packet passes, or is dropped, as a whole. -/
theorem filter_frame {p : Params} (b : HeaderBytes) {bs : List (Beat p.dw)} (hbs : IsFrame (·.last) bs) :
    (filter p).outs none (bs.map (b, ·)) = delivery p b bs ∧ (filter p).run none (bs.map (b, ·)) = none := by
  obtain ⟨m, l, hm, hl⟩ := hbs
  obtain ⟨h1, h2⟩ := filter_begun b hm (v := none) rfl
  rw [List.map_append, Transducer.outs_append, Transducer.run_append, h1, List.map_singleton, Transducer.outs_cons,
    Transducer.run_cons]
  simp only [h2, hl, if_true, Transducer.outs_nil, Transducer.run_nil, and_true, List.append_nil]
  unfold delivery
  by_cases h : Accepts p b <;> simp [h]

/-! ## The receiver -/

variable {ε : Type} {p : Params} {D : Depacketizer HeaderBytes p.dw}

/-- The depacketizer of a receiver, and what it sees of a cycle. -/
abbrev inside (s : (iprx (ε := ε) p D).Run) : (D.stage (ε := ε)).Run := ⟨s.state.depacketizer, s.held⟩

/-- What the depacketizer inside sees of a cycle. -/
def insideIn (s : (iprx (ε := ε) p D).Run) (i : Stage.In ε (Beat p.dw)) : Stage.In ε (Beat p.dw) :=
  { i with ready := s.state.packetReady i.ready }

/-- The beat that is shown in a cycle. -/
abbrev shown (s : (iprx (ε := ε) p D).Run) (i : Stage.In ε (Beat p.dw)) : Option (Beat p.dw) :=
  s.state.packet (s.offered i)

theorem inside_gives (s : (iprx (ε := ε) p D).Run) (i : Stage.In ε (Beat p.dw)) : (inside s).gives (insideIn s i) =
    if s.state.packetReady i.ready then (shown s i).map (s.state.bytes, ·) else none := rfl

/-- What the FSM and the engine know: the verdict `v` on the packet of which beats have been taken, and the sum
of the header of the packet that waits. -/
structure Knows (s : (iprx (ε := ε) p D).Run) (v : Option Bool) : Prop where
  idle : s.state.fsm = .idle → v = none
  sums : s.state.fsm = .idle → D.inHeader s.state.depacketizer = false → s.state.checksum.counter ≠ 0 →
    Checksum.Computes engine s.state.checksum s.state.bytes ∧ ∀ i, shown s i ≠ none
  opened : s.state.fsm ≠ .idle → D.inHeader s.state.depacketizer = false
  receive : s.state.fsm = .receive → v.getD (Accepts p s.state.bytes) = true
  drop : s.state.fsm = .drop → v.getD (Accepts p s.state.bytes) = false

theorem knows_reset : Knows (⟨(iprx (ε := ε) p D).reset, none⟩ : (iprx (ε := ε) p D).Run) none :=
  ⟨fun _ => rfl, fun _ _ h => absurd rfl h, fun h => absurd rfl h, nofun, nofun⟩

/-- A beat is shown only outside the header. -/
theorem opened_of_shown {s : (iprx (ε := ε) p D).Run} {i : Stage.In ε (Beat p.dw)} (h : shown s i ≠ none) :
    D.inHeader s.state.depacketizer = false := by
  by_contra hc
  exact h (D.source_inHeader _ _ (by simpa using hc))

/-- The engine sums the header that is shown. -/
theorem Knows.computes {s : (iprx (ε := ε) p D).Run} {v : Option Bool} (h : Knows s v) (hs : s.state.fsm = .idle)
    {i : Stage.In ε (Beat p.dw)} (hx : shown s i ≠ none) : Checksum.Computes engine s.state.checksum s.state.bytes := by
  by_cases hc : s.state.checksum.counter = 0
  · exact Checksum.computes_start engine _ hc
  · exact (h.sums hs (opened_of_shown hx) hc).1

/-- The condition of the FSM, once the sum is there. -/
theorem valid_iff {s : State p D} (hc : Checksum.Computes engine s.checksum s.bytes) (hd : s.done = true) :
    s.valid = true ↔ Accepts p s.bytes := by
  have hvalue : s.checksum.value engine s.bytes = internetChecksum s.bytes (List.range 10) := hc.value _ hd
  unfold State.valid Accepts State.header
  rw [hvalue]
  simp only [Bool.and_eq_true, beq_iff_eq, Checksum.internetChecksum_eq_zero_iff, and_assoc]

section Cycle

variable {s : (iprx (ε := ε) p D).Run} {v : Option Bool} (h : Knows s v) (i : Stage.In ε (Beat p.dw))

include h

/-- A cycle that shows no beat. -/
theorem Knows.wait (hx : shown s i = none) : Knows (s.next i) v := by
  have hfsm : (s.next i).state.fsm = s.state.fsm := by
    show (s.state.next (s.offered i) i.ready).fsm = _
    cases hf : s.state.fsm <;> simp [State.next, hf, hx, isLast]
  have hcounter : (s.next i).state.checksum.counter = 0 := by
    show (s.state.next (s.offered i) i.ready).checksum.counter = 0
    simp [State.next, Checksum.State.next, hx]
  have hheader : s.state.fsm ≠ .idle → D.header (s.next i).state.depacketizer = D.header s.state.depacketizer :=
    fun hf => D.header_step _ _ _ (.inl (h.opened hf))
  refine ⟨fun hf => h.idle (hfsm ▸ hf), fun _ _ hc => absurd hcounter hc, fun hf => ?_, fun hf => ?_, fun hf => ?_⟩
  · rw [hfsm] at hf
    refine (D.inHeader_step _ _ _ (h.opened hf)).trans ?_
    show (isLast (shown s i) && _) = false
    rw [hx]; rfl
  · rw [hfsm] at hf
    rw [State.bytes, hheader (by rw [hf]; decide)]
    exact h.receive hf
  · rw [hfsm] at hf
    rw [State.bytes, hheader (by rw [hf]; decide)]
    exact h.drop hf

/-- A cycle in which a beat is shown and not taken; it will be shown in the next one. -/
theorem Knows.hold {x : Beat p.dw} (hx : shown s i = some x) (hr : s.state.packetReady i.ready = false)
    (hstay : ∀ j, shown (s.next i) j ≠ none) : Knows (s.next i) v := by
  have hopen := opened_of_shown (s := s) (i := i) (by rw [hx]; nofun)
  have hopen' : D.inHeader (s.next i).state.depacketizer = false := by
    refine (D.inHeader_step _ _ _ hopen).trans ?_
    rw [hr, Bool.and_false]
  have hbytes : (s.next i).state.bytes = s.state.bytes := D.header_step _ _ _ (.inl hopen)
  -- the decision is reached only from idle
  cases hf : s.state.fsm with
  | idle =>
    have hv := h.idle hf
    have hcomp := h.computes hf (i := i) (by rw [hx]; nofun)
    have hnext : (s.next i).state.checksum = s.state.checksum.next engine true false s.state.bytes := by
      show (s.state.next (s.offered i) i.ready).checksum = _
      simp [State.next, hx]
    cases hd : s.state.done with
    | false =>
      have hfsm : (s.next i).state.fsm = .idle := by
        show (s.state.next (s.offered i) i.ready).fsm = _
        simp [State.next, hf, hd]
      refine ⟨fun _ => hv, fun _ _ _ => ⟨?_, hstay⟩, fun hc => absurd hfsm hc, fun hc => absurd (hfsm.symm.trans hc) nofun,
        fun hc => absurd (hfsm.symm.trans hc) nofun⟩
      rw [hnext, hbytes]
      exact hcomp.next engine hd
    | true =>
      have hfsm : (s.next i).state.fsm = if s.state.valid then .receive else .drop := by
        show (s.state.next (s.offered i) i.ready).fsm = _
        simp [State.next, hf, hd, hx]
      have hvalid := valid_iff hcomp hd
      rw [hv]
      refine ⟨fun _ => rfl, fun hc => ?_, fun _ => hopen', fun hc => ?_, fun hc => ?_⟩
      · rw [hfsm] at hc
        split_ifs at hc
      · rw [hfsm] at hc
        split_ifs at hc with hval
        rw [hbytes]
        simpa using hvalid.1 hval
      · rw [hfsm] at hc
        split_ifs at hc with hval
        rw [hbytes]
        simpa using fun ha => hval (hvalid.2 ha)
  -- decided already, and nothing of the decision moves
  | receive =>
    have hready : i.ready = false := by simpa [State.packetReady, hf] using hr
    have hfsm : (s.next i).state.fsm = .receive := by
      show (s.state.next (s.offered i) i.ready).fsm = _
      simp [State.next, hf, hready]
    refine ⟨fun hc => absurd (hfsm.symm.trans hc) nofun, fun hc => absurd (hfsm.symm.trans hc) nofun, fun _ => hopen',
      fun _ => ?_, fun hc => absurd (hfsm.symm.trans hc) nofun⟩
    rw [hbytes]
    exact h.receive hf
  | drop => simp [State.packetReady, hf] at hr

/-- A cycle in which a beat is taken. -/
theorem Knows.take {x : Beat p.dw} (hx : shown s i = some x) (hr : s.state.packetReady i.ready = true) :
    (s.gives i).toList = (filter p).out v (s.state.bytes, x) ∧
      Knows (s.next i) ((filter p).next v (s.state.bytes, x)) := by
  have hopen := opened_of_shown (s := s) (i := i) (by rw [hx]; nofun)
  -- a beat is taken only once the packet is decided
  have hne : s.state.fsm ≠ .idle := fun hf => by simp [State.packetReady, hf] at hr
  have hbytes : (s.next i).state.bytes = s.state.bytes := D.header_step _ _ _ (.inl hopen)
  have hopen' : D.inHeader (s.next i).state.depacketizer = x.last := by
    refine (D.inHeader_step _ _ _ hopen).trans ?_
    show (isLast (shown s i) && _) = _
    rw [hx, hr, Bool.and_true]; rfl
  have hready : s.state.fsm = .receive → i.ready = true := fun hf => by simpa [State.packetReady, hf] using hr
  have hfsm : (s.next i).state.fsm = if x.last then .idle else s.state.fsm := by
    show (s.state.next (s.offered i) i.ready).fsm = _
    cases hf : s.state.fsm with
    | idle => exact absurd hf hne
    | receive => simp [State.next, hf, hx, isLast, hready hf]
    | drop => simp [State.next, hf, hx, isLast]
  have hsource : s.gives i = if s.state.fsm = .receive then some (params s.state.header, x) else none := by
    have hg : s.gives i = if i.ready then s.state.source (s.offered i) else none := rfl
    rw [hg]
    cases hf : s.state.fsm with
    | idle => exact absurd hf hne
    | receive => simp [State.source, hf, hx, hready hf]
    | drop => simp [State.source, hf]
  constructor
  · rw [hsource]
    cases hf : s.state.fsm with
    | idle => exact absurd hf hne
    | receive => simp [h.receive hf, State.header]
    | drop => simp [h.drop hf]
  · cases hl : x.last with
    | true =>
      rw [hl] at hopen' hfsm
      refine ⟨fun _ => by simp [hl], fun _ hc => ?_, fun hc => absurd hfsm hc, fun hc => absurd (hfsm.symm.trans hc) nofun,
        fun hc => absurd (hfsm.symm.trans hc) nofun⟩
      rw [hopen'] at hc
      cases hc
    | false =>
      rw [hl] at hopen' hfsm
      refine ⟨fun hc => absurd (hfsm.symm.trans hc) hne, fun hc => absurd (hfsm.symm.trans hc) hne, fun _ => hopen',
        fun hc => ?_, fun hc => ?_⟩
      · simpa [hl, hbytes] using h.receive (hfsm.symm.trans hc)
      · simpa [hl, hbytes] using h.drop (hfsm.symm.trans hc)

end Cycle

/-! ## The simulation -/

variable {C : ε → Prop} (S : D.Strips C)

/-- A bound for the cycles until the FSM decides. -/
def waiting (s : (iprx (ε := ε) p D).Run) : ℕ :=
  if s.state.fsm = .idle then
    Checksum.nCycles engine + 1 - (if D.inHeader s.state.depacketizer then 0 else s.state.checksum.counter)
  else 0

/-- The relation: the depacketizer still owes `ps`. -/
structure Rel (s : (iprx (ε := ε) p D).Run) (q : (S.strip.andThen (filter p)).State)
    (o : List (UserParams × Beat p.dw)) (w : ℕ ×ₗ ℕ ×ₗ S.sim.W) (v : Option Bool)
    (ps : List (HeaderBytes × Beat p.dw)) (wD : S.sim.W) : Prop where
  strips : S.sim.Rel (inside s) q.1 ps wD
  knows : Knows s v
  state : q.2 = (filter p).run v ps
  owed : o = (filter p).outs v ps
  rank : w = toLex (ps.length, toLex (waiting s, wD))

/-- While nothing is shown the wait is as long as it gets. -/
theorem waiting_wait {s : (iprx (ε := ε) p D).Run} {v : Option Bool} (h : Knows s v) {i : Stage.In ε (Beat p.dw)}
    (hx : shown s i = none) : waiting (s.next i) = waiting s := by
  have hfsm : (s.next i).state.fsm = s.state.fsm := by
    show (s.state.next (s.offered i) i.ready).fsm = _
    cases hf : s.state.fsm <;> simp [State.next, hf, hx, isLast]
  have hcounter : (s.next i).state.checksum.counter = 0 := by
    show (s.state.next (s.offered i) i.ready).checksum.counter = 0
    simp [State.next, Checksum.State.next, hx]
  unfold waiting
  rw [hfsm, hcounter, ite_self]
  by_cases hs : s.state.fsm = .idle
  · rw [if_pos hs, if_pos hs]
    by_cases hh : D.inHeader s.state.depacketizer = true
    · rw [if_pos hh]
    · rw [if_neg hh]
      by_cases hc : s.state.checksum.counter = 0
      · rw [hc]
      · exact absurd hx ((h.sums hs (by simpa using hh) hc).2 i)
  · rw [if_neg hs, if_neg hs]

/-- While the packet waits for the FSM, the wait gets shorter. -/
theorem waiting_hold {s : (iprx (ε := ε) p D).Run} {v : Option Bool} (h : Knows s v) {i : Stage.In ε (Beat p.dw)}
    (hs : s.state.fsm = .idle) {x : Beat p.dw} (hx : shown s i = some x) : waiting (s.next i) < waiting s := by
  have hopen := opened_of_shown (s := s) (i := i) (by rw [hx]; nofun)
  have hcomp := h.computes hs (i := i) (by rw [hx]; nofun)
  have hw : waiting s = Checksum.nCycles engine + 1 - s.state.checksum.counter := by
    unfold waiting
    rw [if_pos hs, hopen]; rfl
  cases hd : s.state.done with
  | true =>
    have hfsm : (s.next i).state.fsm ≠ .idle := by
      show (s.state.next (s.offered i) i.ready).fsm ≠ _
      cases hval : s.state.valid <;> simp [State.next, hs, hx, hd, hval]
    have hw' : waiting (s.next i) = 0 := if_neg hfsm
    have hle := hcomp.le
    omega
  | false =>
    have hfsm : (s.next i).state.fsm = .idle := by
      show (s.state.next (s.offered i) i.ready).fsm = _
      simp [State.next, hs, hd]
    have hopen' : D.inHeader (s.next i).state.depacketizer = false := by
      refine (D.inHeader_step _ _ _ hopen).trans ?_
      simp [State.packetReady, hs]
    have hnext : (s.next i).state.checksum = s.state.checksum.next engine true false s.state.bytes := by
      show (s.state.next (s.offered i) i.ready).checksum = _
      simp [State.next, hx]
    obtain ⟨hlt, hcounter⟩ := hcomp.counter_next engine hd s.state.bytes
    rw [← hnext] at hcounter
    have hw' : waiting (s.next i) = Checksum.nCycles engine + 1 - (s.state.checksum.counter + 1) := by
      unfold waiting
      rw [if_pos hfsm, hopen', hcounter]; rfl
    omega

variable {S} in
/-- One cycle of the receiver. -/
theorem Rel.cycle {s : (iprx (ε := ε) p D).Run} {q : (S.strip.andThen (filter p)).State}
    {o : List (UserParams × Beat p.dw)} {w : ℕ ×ₗ ℕ ×ₗ S.sim.W} {v : Option Bool}
    {ps : List (HeaderBytes × Beat p.dw)} {wD : S.sim.W} (h : Rel S s q o w v ps wD) (i : Stage.In ε (Beat p.dw))
    (hok : S.strip.Oks q.1 (s.arrives i).toList) : ∃ o' w' v' ps' wD',
      o ++ (S.strip.andThen (filter p)).outs q (s.arrives i).toList = (s.gives i).toList ++ o' ∧
        Rel S (s.next i) ((S.strip.andThen (filter p)).run q (s.arrives i).toList) o' w' v' ps' wD' ∧
        (C i.env → s.arrives i = none → s.takes i = none → s.gives i = none →
          (s.held = none ∧ o = [] ∧ w' ≤ w) ∨ (s.source i ≠ none ∧ i.ready = false) ∨ w' < w) := by
  obtain ⟨ps', wD', hps, hstrips, hprog⟩ := S.sim.cycle h.strips (insideIn s i) hok
  have harr : (inside s).arrives (insideIn s i) = s.arrives i := rfl
  rw [harr] at hps hstrips hprog
  have htakes : (inside s).takes (insideIn s i) = s.takes i := rfl
  -- what the depacketizer gives is filtered at once
  have hcore : (filter p).outs v ((inside s).gives (insideIn s i)).toList = (s.gives i).toList ∧
      Knows (s.next i) ((filter p).run v ((inside s).gives (insideIn s i)).toList) := by
    rw [inside_gives]
    cases hx : shown s i with
    | none =>
      have hg : s.gives i = none := by
        have hsrc : s.source i = none := by
          show s.state.source (s.offered i) = none
          cases hf : s.state.fsm <;> simp [State.source, hf, hx]
        unfold Stage.Run.gives
        rw [hsrc, ite_self]
      rw [hg, Option.map_none, ite_self]
      exact ⟨rfl, h.knows.wait i hx⟩
    | some x =>
      cases hr : s.state.packetReady i.ready with
      | true =>
        obtain ⟨h1, h2⟩ := h.knows.take i hx hr
        rw [if_pos rfl, Option.map_some, Option.toList_some, Transducer.outs_cons, Transducer.outs_nil,
          List.append_nil, Transducer.run_cons, Transducer.run_nil]
        exact ⟨h1.symm, h2⟩
      | false =>
        have hg : s.gives i = none := by
          have hg : s.gives i = if i.ready then s.state.source (s.offered i) else none := rfl
          rw [hg]
          cases hf : s.state.fsm with
          | receive =>
            have hready : i.ready = false := by simpa [State.packetReady, hf] using hr
            rw [hready]; rfl
          | idle => simp [State.source, hf]
          | drop => simp [State.source, hf]
        rw [hg]
        refine ⟨rfl, h.knows.hold i hx hr fun j => ?_⟩
        have hsrc : (inside s).source (insideIn s i) = some (s.state.bytes, x) := by
          show (shown s i).map _ = _
          rw [hx]; rfl
        have hstay := S.sim.stable h.strips (insideIn s i) hok _ hsrc hr j
        intro hn
        have hn' : ((inside s).next (insideIn s i)).source j = (shown (s.next i) j).map _ := rfl
        rw [hn', hn] at hstay
        cases hstay
  refine ⟨_, _, _, ps', wD', ?_, ⟨?_, hcore.2, ?_, rfl, rfl⟩, ?_⟩
  · rw [h.owed, Transducer.andThen_outs, h.state, ← Transducer.outs_append, hps, Transducer.outs_append, hcore.1]
  · rw [Transducer.andThen_run]
    exact hstrips
  · rw [Transducer.andThen_run, h.state, ← Transducer.run_append, hps, Transducer.run_append]
  · intro hC hx ht hg
    rw [h.rank, Prod.Lex.toLex_lt_toLex, Prod.Lex.toLex_le_toLex, Prod.Lex.toLex_lt_toLex, Prod.Lex.toLex_le_toLex]
    rw [hx, Option.toList_none, Transducer.outs_nil, List.append_nil, inside_gives] at hps
    cases hsh : shown s i with
    | none =>
      rw [hsh, Option.map_none, ite_self, Option.toList_none, List.nil_append] at hps
      have hgD : (inside s).gives (insideIn s i) = none := by rw [inside_gives, hsh, Option.map_none, ite_self]
      have hsrcD : (inside s).source (insideIn s i) = none := by
        show (shown s i).map _ = none
        rw [hsh]; rfl
      have hwait := waiting_wait h.knows hsh
      rw [hps, hwait]
      rcases hprog hC hx ht hgD with ⟨h1, h2, h3⟩ | h1 | h1
      · refine .inl ⟨h1, by rw [h.owed, h2]; rfl, .inr ⟨rfl, .inr ⟨rfl, h3⟩⟩⟩
      · exact absurd hsrcD h1.1
      · exact .inr (.inr (.inr ⟨rfl, .inr ⟨rfl, h1⟩⟩))
    | some x =>
      rw [hsh, Option.map_some] at hps
      cases hr : s.state.packetReady i.ready with
      | true =>
        -- a beat is dropped
        rw [hr, if_pos rfl, Option.toList_some] at hps
        refine .inr (.inr (.inl ?_))
        rw [hps]
        simp
      | false =>
        rw [hr] at hps
        cases hf : s.state.fsm with
        | idle =>
          refine .inr (.inr (.inr ⟨congrArg List.length hps.symm, .inl (waiting_hold h.knows hf hsh)⟩))
        | receive =>
          have hready : i.ready = false := by simpa [State.packetReady, hf] using hr
          refine .inr (.inl ⟨?_, hready⟩)
          show s.state.source (s.offered i) ≠ none
          simp [State.source, hf, hsh]
        | drop => simp [State.packetReady, hf] at hr

/-- The receiver filters the packets. -/
def filters : Stage.Sim C (iprx p D) (S.strip.andThen (filter p)) where
  W := ℕ ×ₗ ℕ ×ₗ S.sim.W
  linear := inferInstance
  wf := inferInstance
  Rel s q o w := ∃ v ps wD, Rel S s q o w v ps wD
  reset := by
    obtain ⟨wD, h⟩ := S.sim.reset
    exact ⟨_, none, [], wD, h, knows_reset, rfl, rfl, rfl⟩
  cycle := by
    rintro s q o w ⟨v, ps, wD, h⟩ i hok
    obtain ⟨o', w', v', ps', wD', h1, h2, h3⟩ := h.cycle i ((Transducer.andThen_oks _ _ _ q).1 hok).1
    exact ⟨o', w', h1, ⟨v', ps', wD', h2⟩, h3⟩
  stable := by
    rintro s q o w ⟨v, ps, wD, h⟩ i hok y hy hr j
    have hy' : s.state.source (s.offered i) = some y := hy
    cases hf : s.state.fsm with
    | idle => simp [State.source, hf] at hy'
    | drop => simp [State.source, hf] at hy'
    | receive =>
      obtain ⟨x, hx, rfl⟩ : ∃ x, shown s i = some x ∧ (params s.state.header, x) = y := by
        simpa [State.source, hf] using hy'
      have hpr : s.state.packetReady i.ready = false := by simp [State.packetReady, hf, hr]
      have hsrc : (inside s).source (insideIn s i) = some (s.state.bytes, x) := by
        show (shown s i).map _ = _
        rw [hx]; rfl
      have hstay := S.sim.stable h.strips (insideIn s i) ((Transducer.andThen_oks _ _ _ q).1 hok).1 _ hsrc hpr j
      have hstay' : (shown (s.next i) j).map ((s.next i).state.bytes, ·) = some (s.state.bytes, x) := hstay
      obtain ⟨x', hx', hxx⟩ := Option.map_eq_some_iff.1 hstay'
      obtain ⟨hbytes, rfl⟩ := Prod.mk.inj hxx
      have hfsm : (s.next i).state.fsm = .receive := by
        show (s.state.next (s.offered i) i.ready).fsm = _
        simp [State.next, hf, hr]
      show (s.next i).state.source ((s.next i).offered j) = _
      rw [State.source, hfsm]
      show (shown (s.next i) j).map _ = _
      rw [hx', State.header, hbytes]
      rfl

/-! ## Packets -/

variable (p)

/-- The packets offered in a run, and the beats of the next one. -/
def offered (D : Depacketizer HeaderBytes p.dw) (is : List (Stage.In ε (Beat p.dw))) :
    List (List (Beat p.dw)) × List (Beat p.dw) :=
  frames (·.last) ((iprx p D).arrivals is)

/-- What is to be delivered for a packet: all of its payload, or nothing. -/
def deliveryOf (f : List (Beat p.dw)) : List (UserParams × Beat p.dw) := delivery p (S.header f) (S.payload f)

/-- What is to be delivered for some packets and for the beats of the next one. -/
def deliveries (fp : List (List (Beat p.dw)) × List (Beat p.dw)) : List (UserParams × Beat p.dw) :=
  fp.1.flatMap (deliveryOf p S) ++ deliveryOf p S fp.2

/-- Each packet of a run is delivered in full or not at all, by its own header. -/
structure Filtered (is : List (Stage.In ε (Beat p.dw))) : Prop where
  /-- What has been delivered is in order. -/
  in_order : (iprx p D).given is <+: deliveries p S (offered p D is)
  /-- All of it is delivered in the end. -/
  complete : ∀ es : ℕ → ε, (∀ k, C (es k)) → ∃ n,
    (iprx p D).given (is ++ (List.range n).map fun k => Stage.Sim.settle (es k)) = deliveries p S (offered p D is)

variable {p}

/-- What the receiver makes of some packets. -/
theorem outs_packets {fs : List (List (Beat p.dw))} {m : List (Beat p.dw)}
    (hfs : ∀ f ∈ fs, IsFrame (·.last) f ∧ S.Long f) (hm : ∀ b ∈ m, b.last = false) :
    (S.strip.andThen (filter p)).outs (S.strip.andThen (filter p)).init (fs.flatten ++ m) = deliveries p S (fs, m) := by
  have hstrip : ∀ f ∈ fs, S.strip.run S.strip.init f = S.strip.init := fun f hf =>
    S.run_frame f (hfs f hf).1 (hfs f hf).2
  have hfilter : ∀ g ∈ fs.map (S.strip.outs S.strip.init), (filter p).run none g = none := by
    intro g hg
    obtain ⟨f, hf, rfl⟩ := List.mem_map.1 hg
    rw [S.outs_frame f (hfs f hf).1 (hfs f hf).2]
    exact (filter_frame _ (S.payload_frame f (hfs f hf).1 (hfs f hf).2)).2
  rw [Transducer.andThen_outs]
  show (filter p).outs none (S.strip.outs S.strip.init (fs.flatten ++ m)) = _
  rw [Transducer.outs_flatten _ hstrip, S.outs_begun m hm, List.flatMap_def]
  refine (Transducer.outs_flatten _ hfilter _).trans ?_
  rw [(filter_begun _ (S.payload_begun m hm) rfl).1, List.flatMap_map]
  unfold deliveries
  congr 1
  refine List.flatMap_congr fun f hf => ?_
  rw [S.outs_frame f (hfs f hf).1 (hfs f hf).2]
  exact (filter_frame _ (S.payload_frame f (hfs f hf).1 (hfs f hf).2)).1

/-- In every run whose packets are longer than their headers, each is delivered in full if its header is
accepted, and not at all otherwise. -/
theorem packets_filtered (is : List (Stage.In ε (Beat p.dw))) (hlong : ∀ f ∈ (offered p D is).1, S.Long f) :
    Filtered p S is := by
  have hspec := frames_spec (fun b : Beat p.dw => b.last) ((iprx p D).arrivals is)
  have harr := frames_flatten (fun b : Beat p.dw => b.last) ((iprx p D).arrivals is)
  have hok : (S.strip.andThen (filter p)).Oks (S.strip.andThen (filter p)).init ((iprx p D).arrivals is) := by
    rw [Transducer.andThen_oks, ← harr]
    refine ⟨Transducer.oks_flatten _ (fun f hf => ⟨?_, ?_⟩) (S.oks_begun _ hspec.2), filter_oks _ _⟩
    · exact S.run_frame f (hspec.1 f hf) (hlong f hf)
    · exact S.oks_frame f (hspec.1 f hf) (hlong f hf)
  have houts := outs_packets S (fun f hf => ⟨hspec.1 f hf, hlong f hf⟩) hspec.2
  rw [harr] at houts
  obtain ⟨o, w, hrel, ho⟩ := (filters S).run is hok
  rw [ho] at houts
  refine ⟨⟨o, houts⟩, fun es hes => ?_⟩
  obtain ⟨n, -, hlog⟩ := (filters S).drain es hes hrel
  refine ⟨n, ?_⟩
  unfold Stage.given
  rw [Machine.log_append]
  exact (congrArg (fun l => _ ++ l) hlog).trans houts

/-- The header of a packet of one byte from 10.0.0.1 to 10.0.0.2. -/
def oneByteHeader : List (BitVec 8) :=
  [0x45, 0, 0, 21, 0, 0, 0, 0, 0x80, 0x11, 0x26, 0xd6, 10, 0, 0, 1, 10, 0, 0, 2]

/-- A cycle that offers one byte. -/
def byteCycle (d : BitVec 8) (last : Bool) : Stage.In Unit (Beat 8) := ⟨(), some ⟨d, 0, 0, last⟩, true⟩

/-- The packet with this header, at the receiver it is for. -/
theorem packets_filtered_one_byte :
    Filtered { macAddress := 0, ipAddress := 0x0a000002, dw := 8 }
      ((Depacketizer.stripsWords_words 20 (by decide) fun bs k => bs.getD k 0).strips fun _ : Unit => True)
      (oneByteHeader.map (byteCycle · false) ++ [byteCycle 7 true]) := by
  apply packets_filtered
  show ∀ f ∈ _, 20 < List.length f
  decide +kernel

end Rx

end LiteEth.Core.Ip
