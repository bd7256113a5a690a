/-
`frontend/stream.py`: the UDP transmitter of a byte stream. The bytes are collected in a FIFO, and sent as one datagram
once enough of them are there. While a datagram is sent the FIFO is not asked whether it has a byte: that it has is
known from its level at the start, of which the bytes sent so far are less than what is left in it.
-/
import LiteEth.Core.Udp
import LiteEth.Rtl.Stream
import LiteEth.Rtl.SyncFIFO

namespace LiteEth.Frontend

open LiteEth.Rtl LiteEth.Core

namespace Stream2UDPTX

/-- The constructor arguments. -/
structure Params where
  ipAddress : BitVec 32
  udpPort : BitVec 16
  fifoDepth : ℕ
  sendLevel : ℕ

/-- The states of the FSM. -/
inductive Fsm
  | idle
  | send
  deriving DecidableEq, Repr

variable {p : Params} (F : SyncFIFO (BitVec 8) p.fifoDepth)

/-- The registers: the FSM, the level sampled, the bytes sent, and those of the FIFO. -/
structure State where
  fsm : Fsm
  level : ℕ
  counter : ℕ
  fifo : F.State

/-- The registers after reset. -/
def State.init : State F := { fsm := .idle, level := 0, counter := 0, fifo := F.reset }

variable {F} (s : State F) (a : Option (BitVec 8)) (r : Bool)

/-- The parameters driven at `source`; `length` has 16 bits. -/
def State.params : Udp.UserParams :=
  { srcPort := p.udpPort, dstPort := p.udpPort, ipAddress := p.ipAddress, length := BitVec.ofNat 16 s.level }

/-- `source.last`: `counter == (level - 1)`. -/
def State.last : Bool := s.counter + 1 == s.level

/-- The beat at the source, with the parameters of the datagram. -/
def State.source : Option (Udp.UserParams × Beat 8) :=
  match s.fsm with
  | .idle => none
  | .send => some (s.params, { data := F.sourceData s.fifo, lastBe := 0, error := 0, last := s.last })

/-- `fifo.source.ready`. -/
def State.fifoReady : Bool :=
  match s.fsm with
  | .idle => false
  | .send => r

/-- One cycle of the streamer. -/
def State.next : State F where
  fsm := match s.fsm with
    | .idle => if p.sendLevel ≤ F.level s.fifo then .send else .idle
    | .send => if s.last && r then .idle else .send
  level := match s.fsm with
    | .idle => if p.sendLevel ≤ F.level s.fifo then F.level s.fifo % 2 ^ bitsFor p.fifoDepth else s.level
    | .send => s.level
  counter := match s.fsm with
    | .idle => if p.sendLevel ≤ F.level s.fifo then 0 else s.counter
    | .send => if r then (s.counter + 1) % 2 ^ bitsFor p.fifoDepth else s.counter
  fifo := F.step s.fifo a (s.fifoReady r)

end Stream2UDPTX

/-- `LiteEthStream2UDPTX`, with a FIFO. -/
abbrev stream2UDPTX {ε : Type} {p : Stream2UDPTX.Params} (F : SyncFIFO (BitVec 8) p.fifoDepth) :
    Stage ε (BitVec 8) (Udp.UserParams × Beat 8) where
  State := Stream2UDPTX.State F
  reset := .init F
  source s _ _ := s.source
  ready s _ _ _ := F.sinkReady s.fifo
  step s _ a r := s.next a r

namespace Stream2UDPTX

/-! ## The datagrams -/

/-- The last beat of a datagram. -/
abbrev last (b : Udp.UserParams × Beat 8) : Bool := b.2.last

variable {ε : Type} {p : Params} {F : SyncFIFO (BitVec 8) p.fifoDepth}

/-- A datagram: its bytes, at least as many as `send_level` and no more than the FIFO holds, are counted by the length of
each of its beats, as far as this has 16 bits. -/
structure Datagram (p : Params) (f : List (Udp.UserParams × Beat 8)) : Prop where
  ge : p.sendLevel ≤ f.length
  le : f.length ≤ p.fifoDepth
  params : ∀ b ∈ f, b.1 = ⟨p.udpPort, p.udpPort, p.ipAddress, BitVec.ofNat 16 f.length⟩

/-- While a datagram is sent, what is left of the level is in the FIFO. -/
structure Sending (s : State F) (begun : List (Udp.UserParams × Beat 8)) : Prop where
  fsm : s.fsm = .send
  ge : p.sendLevel ≤ s.level
  le : s.level ≤ p.fifoDepth
  counter : begun.length = s.counter
  more : s.counter < s.level
  stored : s.level ≤ s.counter + F.level s.fifo
  params : ∀ b ∈ begun, b.1 = s.params

/-- What holds of the registers, the bytes taken and the beats given: the bytes that were given and those in the FIFO are
those taken, and the beats are datagrams. -/
structure Holds (s : (stream2UDPTX (ε := ε) F).Run) (taken : List (BitVec 8)) (given : List (Udp.UserParams × Beat 8)) :
    Prop where
  bytes : given.map (·.2.data) ++ F.contents s.state.fifo = taken
  fits : F.level s.state.fifo ≤ p.fifoDepth
  datagrams : ∀ f ∈ (frames last given).1, Datagram p f
  begun : (s.state.fsm = .idle ∧ (frames last given).2 = []) ∨ Sending s.state (frames last given).2

section Cycle

variable (s : (stream2UDPTX (ε := ε) F).Run) (i : Stage.In ε (BitVec 8))

/-- The FIFO after a cycle. -/
theorem contents_next : F.contents (s.next i).state.fifo =
    (if s.state.fifoReady i.ready then (F.contents s.state.fifo).tail else F.contents s.state.fifo) ++
      (s.takes i).toList := by
  show F.contents (F.step s.state.fifo (s.offered i) (s.state.fifoReady i.ready)) = _
  rw [F.contents_step]
  unfold Stage.Run.takes
  congr 1
  split_ifs <;> rfl

theorem level_next (h : F.level s.state.fifo ≤ p.fifoDepth) : F.level (s.next i).state.fifo ≤ p.fifoDepth := by
  unfold SyncFIFO.level at *
  rw [contents_next, List.length_append]
  have htail : (if s.state.fifoReady i.ready then (F.contents s.state.fifo).tail else F.contents s.state.fifo).length ≤
      (F.contents s.state.fifo).length := by
    split_ifs
    · rw [List.length_tail]
      omega
    · exact le_rfl
  cases hready : F.sinkReady s.state.fifo with
  | true =>
    have hlt := (F.sinkReady_iff _).1 hready
    have hone : (s.takes i).toList.length ≤ 1 := Option.length_toList_le
    omega
  | false =>
    have hnone : s.takes i = none := by
      show (if F.sinkReady s.state.fifo then s.offered i else none) = none
      rw [hready]
      rfl
    rw [hnone, Option.toList_none, List.length_nil]
    omega

/-- Within a datagram there is a byte to give. -/
theorem Sending.byte {s : (stream2UDPTX (ε := ε) F).Run} {begun : List (Udp.UserParams × Beat 8)}
    (hs : Sending s.state begun) {i : Stage.In ε (BitVec 8)} (hr : i.ready = true) : ∃ x xs,
    F.contents s.state.fifo = x :: xs ∧ s.gives i = some (s.state.params, ⟨x, 0, 0, s.state.last⟩) ∧
      F.contents (s.next i).state.fifo = xs ++ (s.takes i).toList := by
  have hstored := hs.stored
  have hmore := hs.more
  rw [SyncFIFO.level] at hstored
  obtain ⟨x, xs, hx⟩ := List.exists_cons_of_length_pos (l := F.contents s.state.fifo) (by omega)
  refine ⟨x, xs, hx, ?_, ?_⟩
  · show (if i.ready then s.state.source else none) = _
    rw [hr, if_pos rfl, State.source, hs.fsm, F.sourceData_eq _ x xs hx]
  · rw [contents_next, State.fifoReady, hs.fsm, hx]
    dsimp only
    rw [hr, if_pos rfl, List.tail_cons]

variable {s} {taken : List (BitVec 8)} {given : List (Udp.UserParams × Beat 8)} (h : Holds s taken given)

include h

/-- A cycle in which no beat is given. -/
theorem Holds.waits (hgives : s.gives i = none) (hpop : s.state.fifoReady i.ready = false)
    (hbegun : ((s.next i).state.fsm = .idle ∧ (frames last given).2 = []) ∨
      Sending (s.next i).state (frames last given).2) :
    Holds (s.next i) (taken ++ (s.takes i).toList) (given ++ (s.gives i).toList) := by
  rw [hgives, Option.toList_none, List.append_nil]
  refine ⟨?_, level_next s i h.fits, h.datagrams, hbegun⟩
  rw [contents_next, hpop, if_neg Bool.false_ne_true, ← h.bytes, List.append_assoc]

/-- Between datagrams: a new one begins if enough bytes are stored. -/
theorem Holds.next_idle (hlevel : 1 ≤ p.sendLevel) (hfsm : s.state.fsm = .idle) (hbegun : (frames last given).2 = []) :
    Holds (s.next i) (taken ++ (s.takes i).toList) (given ++ (s.gives i).toList) := by
  have hpop : s.state.fifoReady i.ready = false := by
    unfold State.fifoReady
    rw [hfsm]
  have hgives : s.gives i = none := by
    show (if i.ready then s.state.source else none) = none
    unfold State.source
    rw [hfsm]
    exact ite_self _
  have hcontents := contents_next s i
  rw [hpop, if_neg Bool.false_ne_true] at hcontents
  refine h.waits i hgives hpop ?_
  have hstep : (s.next i).state = s.state.next (s.offered i) i.ready := rfl
  -- the level is high enough: the datagram begins, with all that is there
  by_cases hle : p.sendLevel ≤ F.level s.state.fifo
  · right
    have hfits := h.fits
    have hbits := lt_two_pow_bitsFor p.fifoDepth
    have hfsm' : (s.next i).state.fsm = .send := by
      rw [hstep, State.next, hfsm]
      exact if_pos hle
    have hlevel' : (s.next i).state.level = F.level s.state.fifo := by
      rw [hstep, State.next, hfsm]
      exact (if_pos hle).trans (Nat.mod_eq_of_lt (by omega))
    have hcounter : (s.next i).state.counter = 0 := by
      rw [hstep, State.next, hfsm]
      exact if_pos hle
    refine ⟨hfsm', by rw [hlevel']; exact hle, by rw [hlevel']; exact hfits, by rw [hbegun, hcounter]; rfl,
      by omega, ?_, by rw [hbegun]; exact nofun⟩
    rw [hlevel', SyncFIFO.level, SyncFIFO.level, hcontents, List.length_append]
    omega
  · left
    refine ⟨?_, hbegun⟩
    rw [hstep, State.next, hfsm]
    exact if_neg hle

/-- Within a datagram, with a consumer that is not ready. -/
theorem Holds.next_wait (hs : Sending s.state (frames last given).2) (hr : i.ready = false) :
    Holds (s.next i) (taken ++ (s.takes i).toList) (given ++ (s.gives i).toList) := by
  have hpop : s.state.fifoReady i.ready = false := by
    unfold State.fifoReady
    rw [hs.fsm, hr]
  have hgives : s.gives i = none := by
    unfold Stage.Run.gives
    rw [hr]
    rfl
  have hlevel : F.level s.state.fifo ≤ F.level (s.next i).state.fifo := by
    rw [SyncFIFO.level, SyncFIFO.level, contents_next, hpop, if_neg Bool.false_ne_true, List.length_append]
    omega
  have hstep : (s.next i).state = { s.state with fifo := (s.next i).state.fifo } := by
    show s.state.next (s.offered i) i.ready = { s.state with fifo := (s.state.next (s.offered i) i.ready).fifo }
    unfold State.next
    simp [hs.fsm, hr]
  refine h.waits i hgives hpop (.inr ?_)
  rw [hstep]
  exact ⟨hs.fsm, hs.ge, hs.le, hs.counter, hs.more, hs.stored.trans (Nat.add_le_add_left hlevel _), hs.params⟩

/-- Within a datagram, the next byte is given. -/
theorem Holds.next_send (hs : Sending s.state (frames last given).2) (hr : i.ready = true) :
    Holds (s.next i) (taken ++ (s.takes i).toList) (given ++ (s.gives i).toList) := by
  obtain ⟨x, xs, hx, hgives, hcontents⟩ := hs.byte hr
  have hstep : (s.next i).state = s.state.next (s.offered i) i.ready := rfl
  have hfsm : (s.next i).state.fsm = if s.state.last then .idle else .send := by
    rw [hstep, State.next, hs.fsm, hr, Bool.and_true]
  have hlen : ((frames last given).2 ++ [(s.state.params, (⟨x, 0, 0, s.state.last⟩ : Beat 8))]).length =
      s.state.counter + 1 := by
    rw [List.length_append, hs.counter]
    rfl
  have hparams : ∀ b ∈ (frames last given).2 ++ [(s.state.params, (⟨x, 0, 0, s.state.last⟩ : Beat 8))],
      b.1 = s.state.params := by
    intro b hb
    rcases List.mem_append.1 hb with hb | hb
    · exact hs.params b hb
    · rw [List.mem_singleton.1 hb]
  refine ⟨?_, level_next s i h.fits, ?_, ?_⟩
  · rw [hcontents, hgives, ← h.bytes, hx]
    simp
  · -- the beat that reaches the level ends the datagram, whose length is the level
    rw [hgives, Option.toList_some, frames_concat, frameStep]
    split_ifs with hl
    · intro f hf
      rcases List.mem_append.1 hf with hf | hf
      · exact h.datagrams f hf
      · rw [beq_iff_eq.1 hl] at hlen
        rw [List.mem_singleton.1 hf]
        refine ⟨hlen ▸ hs.ge, hlen ▸ hs.le, fun b hb => ?_⟩
        rw [hlen]
        exact hparams b hb
    · exact h.datagrams
  · rw [hgives, Option.toList_some, frames_concat, frameStep]
    split_ifs with hl
    · exact .inl ⟨hfsm.trans (if_pos hl), rfl⟩
    · right
      have hlast : s.state.counter + 1 ≠ s.state.level := fun he => hl (beq_iff_eq.2 he)
      have hmore := hs.more
      have hstored := hs.stored
      have hle := hs.le
      have hbits := lt_two_pow_bitsFor p.fifoDepth
      have hlevel' : (s.next i).state.level = s.state.level := by
        rw [hstep, State.next, hs.fsm]
      -- the counter cannot wrap, for it stays below the level
      have hcounter' : (s.next i).state.counter = s.state.counter + 1 := by
        rw [hstep, State.next, hs.fsm, hr]
        exact Nat.mod_eq_of_lt (by omega)
      have hfifo : F.level s.state.fifo ≤ F.level (s.next i).state.fifo + 1 := by
        rw [SyncFIFO.level, SyncFIFO.level, hcontents, hx, List.length_cons, List.length_append]
        omega
      refine ⟨hfsm.trans (if_neg hl), hlevel' ▸ hs.ge, hlevel' ▸ hs.le, hlen.trans hcounter'.symm, by omega, by omega,
        fun b hb => (hparams b hb).trans ?_⟩
      rw [State.params, State.params, hlevel']

end Cycle

theorem holds (F : SyncFIFO (BitVec 8) p.fifoDepth) (hlevel : 1 ≤ p.sendLevel) (is : List (Stage.In ε (BitVec 8))) :
    Holds ((stream2UDPTX F).machine.run is) ((stream2UDPTX F).taken is) ((stream2UDPTX F).given is) := by
  induction is using List.reverseRecOn with
  | nil =>
    have hempty : F.contents F.reset = [] := F.contents_reset
    refine ⟨hempty, ?_, nofun, .inl ⟨rfl, rfl⟩⟩
    show (F.contents F.reset).length ≤ _
    rw [hempty]
    exact Nat.zero_le _
  | append_singleton is i ih =>
    rw [Stage.run_concat, Stage.taken_concat, Stage.given_concat]
    rcases ih.begun with ⟨hfsm, hbegun⟩ | hs
    · exact ih.next_idle i hlevel hfsm hbegun
    · cases hr : i.ready with
      | true => exact ih.next_send i hs hr
      | false => exact ih.next_wait i hs hr

/-- Whatever the timing on both sides, what is sent is the beginning of what was taken, in datagrams that end with their
last byte, and there is a byte in the FIFO whenever one is sent. -/
theorem stream2UDPTX_datagrams (F : SyncFIFO (BitVec 8) p.fifoDepth) (hlevel : 1 ≤ p.sendLevel)
    (is : List (Stage.In ε (BitVec 8))) :
    ((stream2UDPTX F).given is).map (·.2.data) <+: (stream2UDPTX F).taken is ∧
    (∀ f ∈ (frames last ((stream2UDPTX F).given is)).1, Datagram p f ∧
      (p.fifoDepth < 2 ^ 16 → ∀ b ∈ f, b.1.length.toNat = f.length)) ∧
    ∀ i, ((stream2UDPTX F).machine.run is).source i ≠ none →
      F.contents ((stream2UDPTX F).machine.run is).state.fifo ≠ [] := by
  have h := holds F hlevel is
  refine ⟨⟨_, h.bytes⟩, fun f hf => ⟨h.datagrams f hf, fun hdepth b hb => ?_⟩, fun i hi => ?_⟩
  · have hle := (h.datagrams f hf).le
    rw [(h.datagrams f hf).params b hb]
    exact Nat.mod_eq_of_lt (by omega)
  · rcases h.begun with ⟨hfsm, -⟩ | hs
    · refine absurd ?_ hi
      show State.source _ = none
      unfold State.source
      rw [hfsm]
    · obtain ⟨x, xs, hx, -⟩ := hs.byte (i := { i with ready := true }) rfl
      rw [hx]
      exact List.cons_ne_nil _ _

/-- The parameters with a FIFO of `n` bytes, all of which make a datagram. -/
def whole (n : ℕ) : Params := { ipAddress := 0xc0a80164, udpPort := 5678, fifoDepth := n, sendLevel := n }

theorem stream2UDPTX_datagrams_three : let F := SyncFIFO.queue (BitVec 8) 3
    let is : List (Stage.In Unit (BitVec 8)) := List.replicate 3 ⟨(), some 0x41, true⟩ ++ List.replicate 4 ⟨(), none, true⟩
    ((stream2UDPTX (p := whole 3) F).given is).map (·.2.data) <+: (stream2UDPTX (p := whole 3) F).taken is ∧
    (∀ f ∈ (frames last ((stream2UDPTX (p := whole 3) F).given is)).1, Datagram (whole 3) f ∧
      ((whole 3).fifoDepth < 2 ^ 16 → ∀ b ∈ f, b.1.length.toNat = f.length)) ∧
    ∀ i, ((stream2UDPTX (p := whole 3) F).machine.run is).source i ≠ none →
      F.contents ((stream2UDPTX (p := whole 3) F).machine.run is).state.fifo ≠ [] :=
  stream2UDPTX_datagrams (p := whole 3) (SyncFIFO.queue (BitVec 8) 3) (by decide) _

/-! ## A datagram of all the FIFO holds -/

section Whole

variable {n : ℕ} (F : SyncFIFO (BitVec 8) n)

/-- `k` bytes are pushed. -/
def fill (k : ℕ) : List (Stage.In Unit (BitVec 8)) := List.replicate k ⟨(), some 0, true⟩

/-- Nothing is pushed in `k` cycles, with a ready consumer. -/
def drain (k : ℕ) : List (Stage.In Unit (BitVec 8)) := List.replicate k ⟨(), none, true⟩

/-- Before enough bytes are there, nothing is sent. -/
theorem filled {k : ℕ} (hk : k ≤ n) : ∃ t, (stream2UDPTX (p := whole n) F).machine.run (fill k) = ⟨t, none⟩ ∧
    t.fsm = .idle ∧ F.level t.fifo = k ∧ (stream2UDPTX (p := whole n) F).given (fill k) = [] := by
  -- induction on the number of bytes taken, no datagram before the last one
  induction k with
  | zero => exact ⟨_, rfl, rfl, congrArg List.length F.contents_reset, rfl⟩
  | succ k ih =>
    obtain ⟨t, hrun, hfsm, hlevel, hgiven⟩ := ih (by omega)
    have hready : F.sinkReady t.fifo = true := (F.sinkReady_iff _).2 (by rw [SyncFIFO.level] at hlevel; omega)
    have hless : ¬ (whole n).sendLevel ≤ F.level t.fifo := by
      rw [hlevel]
      exact Nat.not_le.2 hk
    unfold fill
    rw [List.replicate_succ', Stage.run_concat, Stage.given_concat]
    rw [fill] at hrun hgiven
    rw [hrun, hgiven]
    refine ⟨t.next (some 0) true, ?_, ?_, ?_, ?_⟩
    · show (⟨_, if F.sinkReady t.fifo then none else some 0⟩ : (stream2UDPTX (p := whole n) F).Run) = _
      rw [hready]
      rfl
    · unfold State.next
      rw [hfsm]
      exact if_neg hless
    · have hcontents := contents_next (p := whole n) (F := F) ⟨t, none⟩ ⟨(), some 0, true⟩
      have htakes : (⟨t, none⟩ : (stream2UDPTX (p := whole n) F).Run).takes ⟨(), some 0, true⟩ = some 0 := if_pos hready
      have hpop : t.fifoReady true = false := by
        unfold State.fifoReady
        rw [hfsm]
      rw [htakes, show State.fifoReady _ _ = false from hpop, if_neg Bool.false_ne_true] at hcontents
      refine (congrArg List.length hcontents).trans ?_
      rw [List.length_append, ← hlevel]
      rfl
    · show (State.source t).toList = []
      unfold State.source
      rw [hfsm]
      rfl

/-- Then they are sent, one a cycle. -/
theorem drained {k : ℕ} (hn : 1 ≤ n) (hk : k ≤ n) :
    ((stream2UDPTX (p := whole n) F).given (fill n ++ drain (k + 1))).length = k ∧
      (k < n → ((stream2UDPTX (p := whole n) F).machine.run (fill n ++ drain (k + 1))).state.fsm = .send) := by
  induction k with
  | zero =>
    obtain ⟨t, hrun, hfsm, hlevel, hgiven⟩ := filled F le_rfl
    show ((stream2UDPTX (p := whole n) F).given (fill n ++ [_])).length = 0 ∧
      (_ → ((stream2UDPTX (p := whole n) F).machine.run (fill n ++ [_])).state.fsm = .send)
    rw [Stage.run_concat, Stage.given_concat, hrun, hgiven]
    refine ⟨?_, fun _ => ?_⟩
    · show (State.source t).toList.length = 0
      unfold State.source
      rw [hfsm]
      rfl
    · show (t.next none true).fsm = .send
      unfold State.next
      rw [hfsm]
      exact if_pos hlevel.ge
  | succ k ih =>
    obtain ⟨hlen, hsend⟩ := ih (by omega)
    have h := holds (p := whole n) F hn (fill n ++ drain (k + 1))
    have hs : Sending _ _ := h.begun.resolve_left fun hidle => by
      rw [hsend (by omega)] at hidle
      cases hidle.1
    obtain ⟨x, xs, -, hgives, -⟩ := hs.byte (i := ⟨(), none, true⟩) rfl
    have hsucc : fill n ++ drain (k + 1 + 1) = fill n ++ drain (k + 1) ++ [⟨(), none, true⟩] := by
      unfold drain
      rw [List.replicate_succ' (n := k + 1), List.append_assoc]
    have hgiven : ((stream2UDPTX (p := whole n) F).given (fill n ++ drain (k + 1 + 1))).length = k + 1 := by
      rw [hsucc, Stage.given_concat, hgives, List.length_append, hlen]
      rfl
    refine ⟨hgiven, fun hlt => ?_⟩
    -- a datagram that is complete would have all the bytes
    have h' := holds (p := whole n) F hn (fill n ++ drain (k + 1 + 1))
    rcases h'.begun with ⟨-, hbegun⟩ | hs'
    · have hflat := congrArg List.length
        (frames_flatten last ((stream2UDPTX (p := whole n) F).given (fill n ++ drain (k + 1 + 1))))
      rw [hbegun, List.append_nil, hgiven, List.length_flatten] at hflat
      cases hfs : (frames last ((stream2UDPTX (p := whole n) F).given (fill n ++ drain (k + 1 + 1)))).1 with
      | nil =>
        rw [hfs] at hflat
        simp at hflat
      | cons f fs =>
        have hge : n ≤ f.length := (h'.datagrams f (by rw [hfs]; exact List.mem_cons_self)).ge
        rw [hfs, List.map_cons, List.sum_cons] at hflat
        omega
    · exact hs'.fsm

theorem exists_datagram (hn : 1 ≤ n) :
    ∃ f ∈ (frames last ((stream2UDPTX (p := whole n) F).given (fill n ++ drain (n + 1)))).1, f.length = n := by
  have h := holds (p := whole n) F hn (fill n ++ drain (n + 1))
  have hlen := (drained F hn (le_refl n)).1
  have hflat := congrArg List.length
    (frames_flatten last ((stream2UDPTX (p := whole n) F).given (fill n ++ drain (n + 1))))
  rw [hlen, List.length_append, List.length_flatten] at hflat
  cases hfs : (frames last ((stream2UDPTX (p := whole n) F).given (fill n ++ drain (n + 1)))).1 with
  | nil =>
    rw [hfs] at hflat
    rcases h.begun with ⟨-, hbegun⟩ | hs
    · rw [hbegun] at hflat
      simp at hflat
      omega
    · have hcounter := hs.counter
      have hmore := hs.more
      have hle : _ ≤ n := hs.le
      simp at hflat
      omega
  | cons f fs =>
    have hf := h.datagrams f (by rw [hfs]; exact List.mem_cons_self)
    exact ⟨f, List.mem_cons_self, le_antisymm hf.le hf.ge⟩

end Whole

/-- The length of a datagram of `2 ^ 16` bytes is not the number of its bytes. -/
theorem length_truncated : ¬ ∀ (is : List (Stage.In Unit (BitVec 8))),
    ∀ f ∈ (frames last ((stream2UDPTX (p := whole (2 ^ 16)) (SyncFIFO.queue (BitVec 8) (2 ^ 16))).given is)).1,
      ∀ b ∈ f, b.1.length.toNat = f.length := by
  intro hall
  obtain ⟨f, hf, hlen⟩ := exists_datagram (SyncFIFO.queue (BitVec 8) (2 ^ 16)) (by decide)
  have hparams := ((holds (p := whole (2 ^ 16)) (SyncFIFO.queue (BitVec 8) (2 ^ 16)) (by decide) _).datagrams f hf).params
  obtain ⟨b, bs, rfl⟩ := List.exists_cons_of_length_pos (l := f) (by rw [hlen]; decide)
  have hb := hall _ _ hf b List.mem_cons_self
  rw [hparams b List.mem_cons_self, hlen] at hb
  revert hb
  decide

end Stream2UDPTX

end LiteEth.Frontend
