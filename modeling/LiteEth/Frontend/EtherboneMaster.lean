/-
The Wishbone master in a stream: each beat of a packet is one access to the bus, in order, and each read is answered with
the word the bus acknowledged for it. The fields of the answer are sampled a cycle late, from a beat that waits at the
sink until the answer is taken.
-/
import LiteEth.Frontend.EtherboneRecord
import LiteEth.Rtl.Stream

namespace LiteEth.Frontend.Etherbone

open LiteEth.Rtl

variable {τ : Type}

namespace Master

/-- What the bus answers in a cycle, and what the fields of the sink hold while it is not valid. -/
structure Env (τ : Type) where
  ack : Bool
  datR : BitVec 32
  undriven : MmapBeat τ

end Master

/-- `LiteEthEtherboneWishboneMaster`. -/
abbrev wishboneMaster (t : τ) : Stage (Master.Env τ) (MmapBeat τ) (MmapBeat τ) where
  State := Master.State τ
  reset := .init t
  source s _ a := s.source a
  ready s e a r := s.sinkReady a e.ack r
  step s e a r := s.next a e.undriven e.ack e.datR r

namespace Master

/-! ## Accesses -/

/-- The bus cycle of a beat; `adr` has 30 bits. -/
def access (b : MmapBeat τ) : Bus :=
  { adr := b.addr.bits.setWidth 30, datW := if b.we then b.data.bits else 0, sel := b.be, stb := true, we := b.we, cyc := true }

/-- The answer to a read for which the bus acknowledged `d`. -/
def answer (b : MmapBeat τ) (d : BitVec 32) : MmapBeat τ := { b with we := true, data := ⟨d, b.addr.tag⟩ }

/-- A packet is all writes or all reads. -/
def Uniform (f : List (MmapBeat τ)) : Prop := ∀ b ∈ f, ∀ c ∈ f, b.we = c.we

variable {t : τ}

/-- The bus cycle that is acknowledged in this cycle, with the word the bus shows. -/
def acks (s : (wishboneMaster t).Run) (i : Stage.In (Env τ) (MmapBeat τ)) : Option (Bus × BitVec 32) :=
  if (s.state.bus (s.offered i)).stb && i.env.ack then some (s.state.bus (s.offered i), i.env.datR) else none

variable (t) in
/-- The bus cycles that are acknowledged. -/
def acked (is : List (Stage.In (Env τ) (MmapBeat τ))) : List (Bus × BitVec 32) :=
  (wishboneMaster t).machine.log (fun s i => (acks s i).toList) (wishboneMaster t).machine.reset is

/-- The access of a beat, with the word acknowledged for it. -/
def performed (x : MmapBeat τ × BitVec 32) : Bus × BitVec 32 := (access x.1, x.2)

/-- The answers to the reads among beats, each with the word acknowledged for it. -/
def answers (served : List (MmapBeat τ × BitVec 32)) : List (MmapBeat τ) :=
  (served.filter fun x => !x.1.we).map fun x => answer x.1 x.2

/-- What the registers know of the packet that has begun; a read that is performed waits for its answer to be taken. -/
inductive Phase (s : (wishboneMaster t).Run) (begun : List (MmapBeat τ)) : List (MmapBeat τ × BitVec 32) → Prop
  | idle (hf : s.state.fsm = .idle) (hbegun : begun = []) : Phase s begun []
  | access (w : Bool) (hf : s.state.fsm = if w then .writeData else .readData) (hne : begun ++ s.held.toList ≠ [])
      (hw : ∀ b ∈ begun ++ s.held.toList, b.we = w) : Phase s begun []
  | answer (b : MmapBeat τ) (d : BitVec 32) (hf : s.state.fsm = .sendData) (hheld : s.held = some b)
      (hw : ∀ c ∈ begun ++ [b], c.we = false) (hsource : s.state.source (some b) = some (answer b d)) :
      Phase s begun [(b, d)]

/-- The beats taken are those served, the accesses those of the beats served and of the one that waits, and the answers
those to the reads that are served. -/
structure Holds (s : (wishboneMaster t).Run) (taken given : List (MmapBeat τ)) (acked : List (Bus × BitVec 32))
    (served serving : List (MmapBeat τ × BitVec 32)) : Prop where
  phase : Phase s (frames MmapBeat.last taken).2 serving
  taken : taken = served.map Prod.fst
  acked : acked = (served ++ serving).map performed
  given : given = answers served

section Cycle

variable {s : (wishboneMaster t).Run} {i : Stage.In (Env τ) (MmapBeat τ)} {taken given : List (MmapBeat τ)}
  {as : List (Bus × BitVec 32)} {served serving : List (MmapBeat τ × BitVec 32)} {b : MmapBeat τ} {d : BitVec 32}

/-- A beat at the sink is of the kind of its packet. -/
theorem we_offered {begun : List (MmapBeat τ)} {w : Bool} (hne : begun ++ s.held.toList ≠ [])
    (hw : ∀ b ∈ begun ++ s.held.toList, b.we = w) (hu : Uniform (begun ++ [b])) (hb : s.offered i = some b) :
    ∀ c ∈ begun ++ [b], c.we = w := by
  suffices h : b.we = w by
    intro c hc
    exact (hu c hc b (List.mem_append_right _ List.mem_cons_self)).trans h
  unfold Stage.Run.offered at hb
  cases hheld : s.held with
  | some c =>
    rw [hheld] at hb hw
    obtain rfl : c = b := Option.some.inj hb
    exact hw c (List.mem_append_right _ List.mem_cons_self)
  | none =>
    rw [hheld] at hne hw
    obtain ⟨c, cs, hc⟩ := List.exists_cons_of_ne_nil hne
    have hmem : c ∈ begun := by
      rw [Option.toList_none, List.append_nil] at hc
      rw [hc]
      exact List.mem_cons_self
    rw [hu b (List.mem_append_right _ List.mem_cons_self) c (List.mem_append_left _ hmem)]
    exact hw c (List.mem_append_left _ hmem)

/-- A cycle in which no beat is taken, given or acknowledged. -/
theorem Holds.still (h : Holds s taken given as served serving) (htakes : s.takes i = none) (hgives : s.gives i = none)
    (hacks : acks s i = none) (hphase : Phase (s.next i) (frames MmapBeat.last taken).2 serving) :
    Holds (s.next i) (taken ++ (s.takes i).toList) (given ++ (s.gives i).toList) (as ++ (acks s i).toList) served
      serving := by
  rw [htakes, hgives, hacks]
  simp only [Option.toList_none, List.append_nil]
  exact ⟨hphase, h.taken, h.acked, h.given⟩

/-- Between packets: a packet begins with the beat at the sink, which is not taken yet. -/
theorem Holds.next_idle (h : Holds s taken given as served []) (hf : s.state.fsm = .idle)
    (hbegun : (frames MmapBeat.last taken).2 = []) : Holds (s.next i) (taken ++ (s.takes i).toList)
      (given ++ (s.gives i).toList) (as ++ (acks s i).toList) served [] := by
  have htakes : s.takes i = none := by
    show (if s.state.sinkReady (s.offered i) i.env.ack i.ready then s.offered i else none) = none
    unfold State.sinkReady
    rw [hf]
    cases s.offered i <;> rfl
  have hgives : s.gives i = none := by
    show (if i.ready then s.state.source (s.offered i) else none) = none
    unfold State.source
    rw [hf]
    exact ite_self _
  have hacks : acks s i = none := by
    unfold acks State.bus
    rw [hf]
    rfl
  have hfsm : (s.next i).state.fsm = if (s.offered i).isSome then
      (if ((s.offered i).getD i.env.undriven).we then .writeData else .readData) else .idle := by
    show (State.next s.state (s.offered i) i.env.undriven i.env.ack i.env.datR i.ready).fsm = _
    unfold State.next
    rw [hf]
  refine h.still htakes hgives hacks ?_
  rw [hbegun]
  -- a beat that waits decides which access is made, and is not taken for it
  cases hb : s.offered i with
  | none =>
    rw [hb] at hfsm
    exact .idle hfsm rfl
  | some b =>
    have hheld : (s.next i).held = some b := by
      show (if s.state.sinkReady (s.offered i) i.env.ack i.ready then none else s.offered i) = some b
      unfold State.sinkReady
      rw [hf, hb]
      rfl
    rw [hb] at hfsm
    refine .access b.we hfsm (by rw [hheld]; exact List.cons_ne_nil _ _) fun c hc => ?_
    rw [hheld] at hc
    rw [List.mem_singleton.1 hc]

/-- The beat of an access that is not acknowledged waits; without a beat there is no access. -/
theorem Holds.waits (h : Holds s taken given as served []) {w : Bool}
    (hf : s.state.fsm = if w then .writeData else .readData)
    (hne : (frames MmapBeat.last taken).2 ++ s.held.toList ≠ [])
    (hw : ∀ b ∈ (frames MmapBeat.last taken).2 ++ s.held.toList, b.we = w)
    (hoffer : ∀ b, s.offered i = some b → ∀ c ∈ (frames MmapBeat.last taken).2 ++ [b], c.we = w)
    (hack : s.offered i = none ∨ i.env.ack = false) : Holds (s.next i) (taken ++ (s.takes i).toList)
      (given ++ (s.gives i).toList) (as ++ (acks s i).toList) served [] := by
  -- no access is finished: there is no beat, or the bus has not acknowledged
  have hstb : ((s.state.bus (s.offered i)).stb && i.env.ack) = false := by
    rcases hack with hb | hack
    · unfold State.bus
      rw [hf, hb]
      cases w <;> rfl
    · rw [hack, Bool.and_false]
  have hready : s.state.sinkReady (s.offered i) i.env.ack i.ready = false := by
    unfold State.sinkReady
    cases w
    · rw [hf]
      rfl
    · rw [hf]
      exact hstb
  have htakes : s.takes i = none := by
    show (if s.state.sinkReady (s.offered i) i.env.ack i.ready then s.offered i else none) = none
    rw [hready]
    rfl
  have hheld : (s.next i).held = s.offered i := by
    show (if s.state.sinkReady (s.offered i) i.env.ack i.ready then none else s.offered i) = _
    rw [hready]
    rfl
  have hgives : s.gives i = none := by
    show (if i.ready then s.state.source (s.offered i) else none) = none
    unfold State.source
    rw [hf]
    cases w <;> exact ite_self _
  have hacks : acks s i = none := by
    unfold acks
    rw [hstb]
    rfl
  have hfsm : (s.next i).state.fsm = if w then .writeData else .readData := by
    show (State.next s.state (s.offered i) i.env.undriven i.env.ack i.env.datR i.ready).fsm = _
    unfold State.next
    rw [hstb, Bool.and_assoc, hstb, Bool.and_false, hf]
    cases w <;> rfl
  refine h.still htakes hgives hacks (.access w hfsm ?_ ?_) <;> rw [hheld]
  · cases hb : s.offered i with
    | some b => exact fun hnil => List.cons_ne_nil b [] (List.append_eq_nil_iff.1 hnil).2
    | none =>
      have hnone : s.held = none := (Option.or_eq_none_iff.1 hb).1
      rwa [hnone] at hne
  · cases hb : s.offered i with
    | some b => exact hoffer b hb
    | none =>
      have hnone : s.held = none := (Option.or_eq_none_iff.1 hb).1
      rwa [hnone] at hw

/-- A write that is acknowledged is taken. -/
theorem Holds.writes (h : Holds s taken given as served []) (hf : s.state.fsm = .writeData)
    (hb : s.offered i = some b) (hw : ∀ c ∈ (frames MmapBeat.last taken).2 ++ [b], c.we = true)
    (hack : i.env.ack = true) : Holds (s.next i) (taken ++ (s.takes i).toList) (given ++ (s.gives i).toList)
      (as ++ (acks s i).toList) (served ++ [(b, i.env.datR)]) [] := by
  -- the acknowledge takes the beat and finishes the access, both in this cycle
  have hwe : b.we = true := hw b (List.mem_append_right _ List.mem_cons_self)
  have hready : s.state.sinkReady (s.offered i) i.env.ack i.ready = true := by
    unfold State.sinkReady State.bus
    rw [hf, hb]
    exact hack
  have htakes : s.takes i = some b := by
    show (if s.state.sinkReady (s.offered i) i.env.ack i.ready then s.offered i else none) = _
    rw [hready, hb]
    rfl
  have hgives : s.gives i = none := by
    show (if i.ready then s.state.source (s.offered i) else none) = none
    unfold State.source
    rw [hf]
    exact ite_self _
  have hacks : acks s i = some (performed (b, i.env.datR)) := by
    unfold acks State.bus performed access
    rw [hf, hb, hack, hwe]
    rfl
  have hfsm : (s.next i).state.fsm = if b.last then .idle else .writeData := by
    show (State.next s.state (s.offered i) i.env.undriven i.env.ack i.env.datR i.ready).fsm = _
    unfold State.next State.bus
    rw [hf, hb, hack]
    rfl
  have hheld : (s.next i).held = none := by
    show (if s.state.sinkReady (s.offered i) i.env.ack i.ready then none else s.offered i) = none
    rw [hready]
    rfl
  rw [htakes, hgives, hacks, Option.toList_none, List.append_nil]
  refine ⟨?_, ?_, ?_, ?_⟩
  · rw [Option.toList_some, frames_concat, frameStep]
    split_ifs with hl
    · exact .idle (by rw [hfsm, if_pos hl]) rfl
    · refine .access true (by rw [hfsm, if_neg hl]; rfl) ?_ ?_ <;> rw [hheld, Option.toList_none, List.append_nil]
      · exact List.append_ne_nil_of_right_ne_nil _ (List.cons_ne_nil _ _)
      · exact hw
  · rw [List.map_append, h.taken]
    rfl
  · -- a write is acknowledged and gives no answer
    rw [h.acked, List.append_nil, List.append_nil, List.map_append]
    rfl
  · rw [h.given, answers, answers, List.filter_append, List.map_append]
    simp [hwe]

/-- A read that is acknowledged waits for its answer to be taken. -/
theorem Holds.reads (h : Holds s taken given as served []) (hf : s.state.fsm = .readData)
    (hb : s.offered i = some b) (hw : ∀ c ∈ (frames MmapBeat.last taken).2 ++ [b], c.we = false)
    (hack : i.env.ack = true) : Holds (s.next i) (taken ++ (s.takes i).toList) (given ++ (s.gives i).toList)
      (as ++ (acks s i).toList) served [(b, i.env.datR)] := by
  -- the acknowledge finishes the access; the beat is kept for its answer
  have hwe : b.we = false := hw b (List.mem_append_right _ List.mem_cons_self)
  have hready : s.state.sinkReady (s.offered i) i.env.ack i.ready = false := by
    unfold State.sinkReady
    rw [hf]
  have htakes : s.takes i = none := by
    show (if s.state.sinkReady (s.offered i) i.env.ack i.ready then s.offered i else none) = _
    rw [hready]
    rfl
  have hgives : s.gives i = none := by
    show (if i.ready then s.state.source (s.offered i) else none) = none
    unfold State.source
    rw [hf]
    exact ite_self _
  have hacks : acks s i = some (performed (b, i.env.datR)) := by
    unfold acks State.bus performed access
    rw [hf, hb, hack, hwe]
    rfl
  have hnext : (s.next i).state = ⟨.sendData, true, b.count, b.baseAddr, b.be, b.addr, ⟨i.env.datR, b.addr.tag⟩⟩ := by
    show State.next s.state (s.offered i) i.env.undriven i.env.ack i.env.datR i.ready = _
    unfold State.next State.bus
    rw [hf, hb, hack]
    rfl
  have hheld : (s.next i).held = some b := by
    show (if s.state.sinkReady (s.offered i) i.env.ack i.ready then none else s.offered i) = some b
    rw [hready, hb]
    rfl
  rw [htakes, hgives, hacks, Option.toList_none, List.append_nil, List.append_nil]
  refine ⟨.answer b _ (by rw [hnext]) hheld hw ?_, h.taken, ?_, h.given⟩
  · rw [hnext]
    rfl
  · rw [h.acked, List.append_nil, List.map_append]
    rfl

/-- While an answer waits there is no access, and its beat stays at the sink. -/
theorem offered_answer (hf : s.state.fsm = .sendData) (hheld : s.held = some b) : s.offered i = some b ∧
    acks s i = none ∧ s.takes i = (if i.ready then some b else none) := by
  have hb : s.offered i = some b := by
    unfold Stage.Run.offered
    rw [hheld]
    rfl
  refine ⟨hb, ?_, ?_⟩
  · unfold acks State.bus
    rw [hf]
    rfl
  · show (if s.state.sinkReady (s.offered i) i.env.ack i.ready then s.offered i else none) = _
    unfold State.sinkReady
    rw [hf, hb]

theorem next_answer (hf : s.state.fsm = .sendData) (hheld : s.held = some b)
    (hsource : s.state.source (some b) = some (answer b d)) :
    (s.next i).state = { s.state with
      fsm := if i.ready then (if b.last then .idle else .readData) else .sendData } := by
  obtain ⟨hb, -, -⟩ := offered_answer (i := i) hf hheld
  have hfields : State.source s.state (some b) = some ⟨s.state.we, s.state.count, s.state.baseAddr, s.state.be,
      s.state.addr, s.state.data, b.last⟩ := by
    unfold State.source
    rw [hf]
    rfl
  rw [hsource, Option.some_inj, answer, MmapBeat.mk.injEq] at hfields
  obtain ⟨h1, h2, h3, h4, h5, h6, -⟩ := hfields
  show State.next s.state (s.offered i) i.env.undriven i.env.ack i.env.datR i.ready = _
  unfold State.next State.bus
  rw [hf, hb]
  simp only [Option.isSome_some, Bool.true_and, Option.getD_some, h1.symm, h2, h3, h4, h5]
  rfl

/-- The answer waits for the consumer. -/
theorem Holds.held (h : Holds s taken given as served [(b, d)]) (hf : s.state.fsm = .sendData)
    (hheld : s.held = some b) (hw : ∀ c ∈ (frames MmapBeat.last taken).2 ++ [b], c.we = false)
    (hsource : s.state.source (some b) = some (answer b d)) (hr : i.ready = false) :
    Holds (s.next i) (taken ++ (s.takes i).toList) (given ++ (s.gives i).toList) (as ++ (acks s i).toList) served
      [(b, d)] := by
  obtain ⟨hb, hacks, htakes⟩ := offered_answer (i := i) hf hheld
  rw [hr, if_neg Bool.false_ne_true] at htakes
  have hgives : s.gives i = none := by
    unfold Stage.Run.gives
    rw [hr]
    rfl
  have hnext := next_answer (i := i) hf hheld hsource
  rw [hr, if_neg Bool.false_ne_true, ← hf] at hnext
  refine h.still htakes hgives hacks (.answer b d ?_ ?_ hw ?_)
  · rw [hnext]
    exact hf
  · show (if s.state.sinkReady (s.offered i) i.env.ack i.ready then none else s.offered i) = some b
    unfold State.sinkReady
    rw [hf, hr, hb]
    rfl
  · rw [hnext]
    exact hsource

/-- The answer is taken, and its beat with it. -/
theorem Holds.answers (h : Holds s taken given as served [(b, d)]) (hf : s.state.fsm = .sendData)
    (hheld : s.held = some b) (hw : ∀ c ∈ (frames MmapBeat.last taken).2 ++ [b], c.we = false)
    (hsource : s.state.source (some b) = some (answer b d)) (hr : i.ready = true) :
    Holds (s.next i) (taken ++ (s.takes i).toList) (given ++ (s.gives i).toList) (as ++ (acks s i).toList)
      (served ++ [(b, d)]) [] := by
  obtain ⟨hb, hacks, htakes⟩ := offered_answer (i := i) hf hheld
  rw [hr, if_pos rfl] at htakes
  have hwe : b.we = false := hw b (List.mem_append_right _ List.mem_cons_self)
  have hgives : s.gives i = some (answer b d) := by
    show (if i.ready then s.state.source (s.offered i) else none) = _
    rw [hr, hb, if_pos rfl, hsource]
  have hfsm : (s.next i).state.fsm = if b.last then .idle else .readData := by
    rw [next_answer (i := i) hf hheld hsource, hr]
    rfl
  have hheld' : (s.next i).held = none := by
    show (if s.state.sinkReady (s.offered i) i.env.ack i.ready then none else s.offered i) = none
    unfold State.sinkReady
    rw [hf, hr]
    rfl
  rw [htakes, hgives, hacks, Option.toList_none, List.append_nil]
  refine ⟨?_, ?_, ?_, ?_⟩
  · rw [Option.toList_some, frames_concat, frameStep]
    split_ifs with hl
    · exact .idle (by rw [hfsm, if_pos hl]) rfl
    · refine .access false (by rw [hfsm, if_neg hl]; rfl) ?_ ?_ <;> rw [hheld', Option.toList_none, List.append_nil]
      · exact List.append_ne_nil_of_right_ne_nil _ (List.cons_ne_nil _ _)
      · exact hw
  · rw [List.map_append, h.taken]
    rfl
  · rw [h.acked, List.append_nil]
  · -- a read is answered, after those before it
    rw [h.given, Master.answers, Master.answers, List.filter_append, List.map_append]
    simp [hwe]

/-- One cycle of the master. -/
theorem Holds.cycle (h : Holds s taken given as served serving)
    (hu : ∀ b, s.offered i = some b → Uniform ((frames MmapBeat.last taken).2 ++ [b])) : ∃ served' serving',
      Holds (s.next i) (taken ++ (s.takes i).toList) (given ++ (s.gives i).toList) (as ++ (acks s i).toList) served'
        serving' := by
  cases h.phase with
  | idle hf hbegun => exact ⟨_, _, h.next_idle hf hbegun⟩
  | access w hf hne hw =>
    have hoffer : ∀ b, s.offered i = some b → ∀ c ∈ (frames MmapBeat.last taken).2 ++ [b], c.we = w := fun b hb =>
      we_offered hne hw (hu b hb) hb
    cases hb : s.offered i with
    | none => exact ⟨_, _, h.waits hf hne hw hoffer (.inl hb)⟩
    | some b =>
      cases hack : i.env.ack with
      | false => exact ⟨_, _, h.waits hf hne hw hoffer (.inr hack)⟩
      | true =>
        cases w with
        | true => exact ⟨_, _, h.writes hf hb (hoffer b hb) hack⟩
        | false => exact ⟨_, _, h.reads hf hb (hoffer b hb) hack⟩
  | answer b d hf hheld hw hsource =>
    cases hr : i.ready with
    | true => exact ⟨_, _, h.answers hf hheld hw hsource hr⟩
    | false => exact ⟨_, _, h.held hf hheld hw hsource hr⟩

end Cycle

/-! ## Runs -/

theorem holds (is : List (Stage.In (Env τ) (MmapBeat τ)))
    (hu : ∀ f ∈ packets MmapBeat.last ((wishboneMaster t).arrivals is), Uniform f) : ∃ served serving,
      Holds ((wishboneMaster t).machine.run is) ((wishboneMaster t).taken is) ((wishboneMaster t).given is) (acked t is)
        served serving := by
  induction is using List.reverseRecOn with
  | nil => exact ⟨[], [], .idle rfl rfl, rfl, rfl, rfl⟩
  | append_singleton is i ih =>
    rw [Stage.arrivals_concat] at hu
    obtain ⟨served, serving, h⟩ := ih fun f hf => by
      obtain ⟨g, hg, hfg⟩ := packets_begins MmapBeat.last (List.prefix_append _ _) hf
      exact fun b hb c hc => hu g hg b (hfg.subset hb) c (hfg.subset hc)
    have hacked : acked t (is ++ [i]) = acked t is ++ (acks ((wishboneMaster t).machine.run is) i).toList := by
      unfold acked
      rw [Machine.log_concat]
      rfl
    rw [Stage.run_concat, Stage.taken_concat, Stage.given_concat, hacked]
    refine h.cycle fun b hb => ?_
    have hmem := begun_mem_packets MmapBeat.last ((wishboneMaster t).taken is) b
    have harrivals : (wishboneMaster t).arrivals is ++ (((wishboneMaster t).machine.run is).arrives i).toList =
        (wishboneMaster t).taken is ++ [b] := by
      rw [Stage.arrivals_eq, List.append_assoc, Stage.Run.offered_toList, hb]
      rfl
    rw [← harrivals] at hmem
    exact hu _ hmem

/-- The bus acknowledges, and the consumer is ready; nothing new is offered. -/
structure Helps (i : Stage.In (Env τ) (MmapBeat τ)) : Prop where
  ack : i.env.ack = true
  ready : i.ready = true
  offer : i.offer = none

/-- The cycles until a beat that waits has been taken. -/
def wait (s : (wishboneMaster t).Run) : ℕ :=
  if s.held = none then 0 else
    match s.state.fsm with
    | .idle => 3
    | .readData => 2
    | _ => 1

theorem wait_next (s : (wishboneMaster t).Run) {i : Stage.In (Env τ) (MmapBeat τ)} (h : Helps i) :
    wait (s.next i) ≤ wait s - 1 := by
  obtain ⟨⟨fsm, we, count, baseAddr, be, addr, data⟩, held⟩ := s
  obtain ⟨⟨ack, datR, undriven⟩, offer, ready⟩ := i
  obtain ⟨rfl, rfl, rfl⟩ := h
  cases held with
  | none => cases fsm <;> exact Nat.le_of_eq rfl
  | some b =>
    cases fsm with
    | idle =>
      show (if some b = none then 0 else match (if b.we then Fsm.writeData else .readData) with
        | .idle => 3 | .readData => 2 | _ => 1) ≤ 2
      rw [if_neg (Option.some_ne_none b)]
      split_ifs
      · exact Nat.le_succ 1
      · exact le_rfl
    | writeData => exact Nat.le_of_eq rfl
    | readData => exact Nat.le_of_eq rfl
    | sendData => exact Nat.le_of_eq rfl

theorem wait_le (s : (wishboneMaster t).Run) : wait s ≤ 3 := by
  unfold wait
  split_ifs
  · omega
  · split <;> omega

variable (t) in
/-- The beats taken were served, each with the word the bus acknowledged for it; one more may wait for its answer to be
taken. The accesses that were acknowledged are theirs, in order, and the answers given are those to the reads. -/
structure Performs (is : List (Stage.In (Env τ) (MmapBeat τ))) (served serving : List (MmapBeat τ × BitVec 32)) :
    Prop where
  taken : (wishboneMaster t).taken is = served.map Prod.fst
  waiting : serving.length ≤ 1
  arrivals : (served ++ serving).map Prod.fst <+: (wishboneMaster t).arrivals is
  acked : acked t is = (served ++ serving).map performed
  given : (wishboneMaster t).given is = answers served

/-- Each access is performed once, whatever the bus and the consumer do, and each answer is that to its read; in three
cycles in which the bus acknowledges and the consumer is ready, a beat that waits is taken. -/
theorem performs_once (is : List (Stage.In (Env τ) (MmapBeat τ)))
    (hu : ∀ f ∈ packets MmapBeat.last ((wishboneMaster t).arrivals is), Uniform f) :
    (∃ served serving, Performs t is served serving) ∧
    ∀ i j k, Helps i → Helps j → Helps k →
      (wishboneMaster t).taken (is ++ [i, j, k]) = (wishboneMaster t).arrivals (is ++ [i, j, k]) := by
  refine ⟨?_, fun i j k hi hj hk => ?_⟩
  · obtain ⟨served, serving, h⟩ := holds is hu
    have harrivals := (wishboneMaster t).arrivals_eq is
    rw [h.taken] at harrivals
    refine ⟨served, serving, h.taken, ?_, ?_, h.acked, h.given⟩
    · cases h.phase <;> simp
    · -- only while an answer waits an access is made whose beat is not taken
      rw [harrivals, List.map_append]
      cases h.phase with
      | idle => exact List.prefix_append_right_inj _ |>.2 (List.nil_prefix)
      | access => exact List.prefix_append_right_inj _ |>.2 (List.nil_prefix)
      | answer b d hf hheld => rw [hheld]; exact List.prefix_rfl
  · -- three helpful cycles: to the access, through it, and out with the answer
    have hwait : wait ((wishboneMaster t).machine.run (is ++ [i, j, k])) = 0 := by
      have h0 := wait_le ((wishboneMaster t).machine.run is)
      have h1 := wait_next ((wishboneMaster t).machine.run is) hi
      have h2 := wait_next (((wishboneMaster t).machine.run is).next i) hj
      have h3 := wait_next ((((wishboneMaster t).machine.run is).next i).next j) hk
      have hrun : (wishboneMaster t).machine.run (is ++ [i, j, k]) =
          ((((wishboneMaster t).machine.run is).next i).next j).next k := by
        unfold Machine.run
        rw [Machine.runFrom_append]
        rfl
      rw [hrun]
      omega
    have hheld : ((wishboneMaster t).machine.run (is ++ [i, j, k])).held = none := by
      unfold wait at hwait
      by_contra hne
      rw [if_neg hne] at hwait
      split at hwait <;> cases hwait
    rw [Stage.arrivals_eq, hheld, Option.toList_none, List.append_nil]

/-- A packet of one write, and one of two reads. -/
def writeThenReads : List (MmapBeat Unit) :=
  [{ we := true, count := 1, baseAddr := ⟨0, ()⟩, be := 0xf, addr := ⟨0x100, ()⟩, data := ⟨0x11223344, ()⟩, last := true },
    { we := false, count := 2, baseAddr := ⟨0x2000, ()⟩, be := 0xf, addr := ⟨0x100, ()⟩, data := ⟨0, ()⟩, last := false },
    { we := false, count := 2, baseAddr := ⟨0x2000, ()⟩, be := 0xf, addr := ⟨0x101, ()⟩, data := ⟨0, ()⟩, last := true }]

/-- It is offered to a master on a bus that acknowledges at once, with the number of the cycle for the data. -/
def session : List (Stage.In (Env Unit) (MmapBeat Unit)) :=
  [(0, 0), (1, 0), (2, 1), (3, 1), (4, 1), (5, 2), (6, 2)].map fun (k, n) =>
    ⟨⟨true, BitVec.ofNat 32 k, ⟨false, 0, ⟨0, ()⟩, 0, ⟨0, ()⟩, ⟨0, ()⟩, false⟩⟩, writeThenReads[n]?, true⟩

theorem performs_once_session : (∃ served serving, Performs () session served serving) ∧
    ∀ i j k, Helps i → Helps j → Helps k → (wishboneMaster ()).taken (session ++ [i, j, k]) =
      (wishboneMaster ()).arrivals (session ++ [i, j, k]) :=
  performs_once session (by unfold Uniform; decide)

end Master

end LiteEth.Frontend.Etherbone
