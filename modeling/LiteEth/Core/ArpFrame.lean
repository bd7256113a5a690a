/-
The frames that `LiteEthARPTX` sends. Its words are counted at the source, beside the packetizer that puts the header in
front of the padding: `packet_words` is the packet's length in whole words and `last_be` marks what is left of it, in the
last of them and not in one more.
-/
import LiteEth.Core.Arp
import LiteEth.Rtl.PacketBytes
import LiteEth.Rtl.StreamSim

namespace LiteEth.Core.Arp

open LiteEth.Rtl

/-- The encoded header. -/
def Header.bytes (h : Header) : List (BitVec 8) := (List.range headerLength).map h.byte

theorem Header.length_bytes (h : Header) : h.bytes.length = headerLength := by simp [bytes]

theorem Header.bytes_reverse (h : Header) : h.bytes.reverse = littleBytes h.bits.toNat headerLength := rfl

/-- What is encoded is decoded. -/
theorem Header.ofBytes_bytes (h : Header) : ofBytes h.bytes = h := by
  have hbits : BitVec.ofNat 224 (h.bytes.foldl (fun a x => a * 256 + x.toNat) 0) = h.bits := by
    rw [foldl_bytes, bytes_reverse, ofLittle_littleBytes h.bits.isLt, BitVec.ofNat_toNat, BitVec.setWidth_eq]
  unfold ofBytes
  dsimp only
  rw [hbits]
  obtain ⟨a, b, c, d, e, f, g, i, j⟩ := h
  rw [Header.mk.injEq]
  refine ⟨?_, ?_, ?_, ?_, ?_, ?_, ?_, ?_, ?_⟩ <;>
    simp (disch := omega) only [bits, BitVec.extractLsb'_append_eq_of_add_le, BitVec.extractLsb'_append_eq_of_le,
      BitVec.extractLsb'_eq_self, Nat.reduceSub]

namespace Tx

/-- A beat of `eth_mac_description`. -/
structure MacBeat (dw : ℕ) where
  targetMac : BitVec 48
  senderMac : BitVec 48
  ethernetType : BitVec 16
  beat : Beat dw

/-- `ethernet_type_arp`. -/
def ethernetTypeArp : BitVec 16 := 0x806

variable (p : Params) (P : Packetizer Header p.dw)

/-- The parameters that go with a beat. -/
def macBeat (sink : TableRecord) (b : Beat p.dw) : MacBeat p.dw where
  targetMac := targetMac p sink
  senderMac := p.macAddress
  ethernetType := ethernetTypeArp
  beat := b

/-- The transmitter between the table and the MAC. The environment is what the sink shows while it is not valid. -/
abbrev stage : Stage TableRecord TableRecord (MacBeat p.dw) where
  State := State p P
  reset := .init p P
  source s e a := (s.source (a.getD e)).map (macBeat p (a.getD e))
  ready s e a r := s.sinkReady (a.getD e) r
  step s e a r := s.next a.isSome (a.getD e) r

/-- The data widths that the constructor accepts, in whole bytes: the counter needs two words, and `last_be` is no
integer if no byte is left in the last word. -/
structure Accepted : Prop where
  whole : 8 ∣ p.dw
  words : 2 ≤ packetWords p
  mark : p.dw / 8 = 1 ∨ packetLength % (p.dw / 8) ≠ 0

/-! ## The frame that is meant -/

variable {p} in
/-- The bytes of a frame. -/
def payload (f : List (MacBeat p.dw)) : List (BitVec 8) := f.flatMap fun b => b.beat.bytes

/-- The header for an entry of the table: a reply to its host, or a request to all. -/
def announced (x : TableRecord) : Header :=
  { hwtype := hwtypeEthernet, proto := protoIp, hwsize := 6, protosize := 4
    opcode := if x.reply then opcodeReply else opcodeRequest
    senderMac := p.macAddress, senderIp := p.ipAddress
    targetMac := if x.reply then x.macAddress else 0xffffffffffff
    targetIp := x.ipAddress }

/-- A frame of `length` bytes for an entry. -/
structure Carries (length : ℕ) (x : TableRecord) (f : List (MacBeat p.dw)) : Prop where
  frame : IsFrame (·.beat.last) f
  length : (payload f).length = length
  header : (payload f).take headerLength = (announced p x).bytes
  addressed : ∀ b ∈ f, b.targetMac = (announced p x).targetMac ∧ b.senderMac = p.macAddress ∧
    b.ethernetType = ethernetTypeArp

/-- The entries are replies or requests. -/
def Kinds (xs : List TableRecord) : Prop := ∀ x ∈ xs, x.reply = true ∨ x.request = true

/-- What the transmitter does with frames of `length` bytes. -/
structure Sends (length : ℕ) : Prop where
  /-- One frame for each entry that is accepted. -/
  frames : ∀ is, Kinds ((stage p P).arrivals is) →
    List.Forall₂ (Carries p length) ((stage p P).taken is) (frames (·.beat.last) ((stage p P).given is)).1
  /-- An entry is acknowledged with the last beat of a frame, and only then. -/
  acknowledged : ∀ is i, Kinds ((stage p P).arrivals (is ++ [i])) →
    (((stage p P).machine.run is).takes i).isSome = (((stage p P).machine.run is).gives i).any (·.beat.last)
  /-- An entry that is held is accepted once the source has been ready for long enough. -/
  accepts : ∀ is x, Kinds ((stage p P).arrivals is) → ((stage p P).machine.run is).held = some x →
    ∀ es : ℕ → TableRecord, ∃ n,
      (stage p P).taken (is ++ (List.range n).map fun k => Stage.Sim.settle (es k)) = (stage p P).taken is ++ [x]

/-! ## The frame that is sent -/

/-- The bytes that `last_be` marks. -/
def marked : ℕ := if p.dw / 8 = 1 then 1 else packetLength % (p.dw / 8)

/-- The beats of padding before the last one. -/
def paddingWords : ℕ := packetWords p - 1 - headerLength / (p.dw / 8)

/-- The padding that is taken. -/
def padding : List (BitVec 8) := List.replicate (paddingWords p * (p.dw / 8) + marked p) 0

/-- The bytes of the frame for an entry. -/
def stream (x : TableRecord) : List (BitVec 8) := (header p x).bytes ++ padding p

/-- The number of them. -/
def frameLength : ℕ := headerLength + (paddingWords p * (p.dw / 8) + marked p)

variable {p}

theorem length_stream (x : TableRecord) : (stream p x).length = frameLength p := by
  rw [stream, List.length_append, Header.length_bytes, padding, List.length_replicate, frameLength]

/-- The widths that the constructor's checks leave, and the lengths of their frames. -/
theorem accepted_table : ∀ b < 24, 0 < b → b = 1 ∨ packetLength % b ≠ 0 → b ≤ headerLength ∧
    headerLength / b ≤ packetLength / b - 1 ∧
    (headerLength + ((packetLength / b - 1 - headerLength / b) * b + if b = 1 then 1 else packetLength % b) =
      packetLength ↔ b = 1) := by
  decide

namespace Accepted

variable (h : Accepted p)

include h

theorem pos : 0 < p.dw / 8 := by
  have two := h.words
  by_contra zero
  rw [packetWords, Nat.eq_zero_of_not_pos zero, Nat.div_zero] at two
  omega

theorem small : p.dw / 8 < 24 := by
  have two := (Nat.le_div_iff_mul_le h.pos).1 h.words
  have length : packetLength = 46 := rfl
  omega

theorem header_le : p.dw / 8 ≤ headerLength := (accepted_table _ h.small h.pos h.mark).1

theorem headerWords_le : headerLength / (p.dw / 8) ≤ packetWords p - 1 := (accepted_table _ h.small h.pos h.mark).2.1

theorem marked_pos : 0 < marked p := by
  unfold marked
  split_ifs with one
  · exact Nat.one_pos
  · exact Nat.pos_of_ne_zero (h.mark.resolve_left one)

theorem marked_le : marked p ≤ p.dw / 8 := by
  unfold marked
  split_ifs with one
  · exact one.ge
  · exact (Nat.mod_lt _ h.pos).le

/-- Eight bits are the only width for which the frame has the length that is meant. -/
theorem frameLength_eq_iff : frameLength p = packetLength ↔ p.dw = 8 := by
  obtain ⟨b, whole⟩ := h.whole
  have bytes : p.dw / 8 = b := by rw [whole, Nat.mul_div_cancel_left _ (by decide)]
  refine (accepted_table _ h.small h.pos h.mark).2.2.trans ?_
  omega

end Accepted

/-! ## One cycle -/

section Next

variable {P} {t : State p P} (v : Bool) (x : TableRecord) (r : Bool)

theorem source_idle (fsm : t.fsm = .idle) : t.source x = none := if_neg (by rw [fsm]; decide)

theorem next_idle (fsm : t.fsm = .idle) : t.next v x r =
    { fsm := if v then .send else .idle, counter := 0, packetizer := P.step t.packetizer (header p x) none false } := by
  have pad : t.pad = none := if_neg (by rw [fsm]; decide)
  simp only [State.next, fsm, pad]
  rfl

theorem next_send (fsm : t.fsm = .send) {b : Beat p.dw} (source : t.source x = some b) : t.next v x r =
    { fsm := if b.last && r then .idle else .send
      counter := if r then (t.counter + 1) % 2 ^ bitsFor (packetWords p - 1) else t.counter
      packetizer := P.step t.packetizer (header p x) t.pad r } := by
  simp only [State.next, State.sinkReady, fsm, source, isLast, Option.any_some, Option.isSome_some, Bool.true_and,
    beq_self_eq_true]

end Next

/-! ## The beats -/

section Beats

variable {P} {s : State p P} (h : Accepted p)

/-- The beat that is offered to the packetizer, padding up to the one that is counted as the last. -/
theorem pad_eq (sending : s.fsm = .send) : s.pad = some
    { data := 0, error := 0, last := s.counter == packetWords p - 1
      lastBe := if p.dw / 8 = 1 then 1 else BitVec.ofNat _ (2 ^ (packetLength % (p.dw / 8) - 1)) } := if_pos sending

include h

theorem toNat_lastBe : (if p.dw / 8 = 1 then 1
    else BitVec.ofNat (p.dw / 8) (2 ^ (packetLength % (p.dw / 8) - 1))).toNat = 2 ^ (marked p - 1) := by
  have pos := h.pos
  unfold marked
  split_ifs with one
  · exact BitVec.toNat_one pos
  · have below := Nat.mod_lt packetLength pos
    rw [BitVec.toNat_ofNat, Nat.mod_eq_of_lt (Nat.pow_lt_pow_right (by decide) (by omega))]

theorem pad_marked : ∀ b ∈ s.pad, b.Marked := by
  intro b hb
  by_cases sending : s.fsm = .send
  · rw [pad_eq sending] at hb
    cases hb
    have := h.marked_pos
    have := h.marked_le
    exact fun _ => ⟨marked p - 1, by omega, toNat_lastBe h⟩
  · rw [State.pad, if_neg sending] at hb
    cases hb

theorem pad_content (sending : s.fsm = .send) : s.pad.map Beat.content =
    some (List.replicate (if s.counter = packetWords p - 1 then marked p else p.dw / 8) 0,
      decide (s.counter = packetWords p - 1)) := by
  have zero : ∀ k, (0 : BitVec p.dw).extractLsb' (8 * k) 8 = 0 := fun k => by simp
  rw [pad_eq sending, Option.map_some, Beat.content, Beat.bytes, Beat.count]
  simp only [toNat_lastBe h, Nat.log2_two_pow, Nat.sub_add_cancel (h.marked_pos), beq_iff_eq, zero, List.map_const',
    List.length_range]
  rfl

/-- The padding, beat by beat: the last one is the one that the counter tells. -/
theorem pad_due (sending : s.fsm = .send) {i : ℕ} (counter : s.counter = i % 2 ^ bitsFor (packetWords p - 1))
    (x : TableRecord) : ∃ y, s.pad.map Beat.content = some y ∧
      Pending.Due (p.dw / 8) (header p x).bytes (padding p) i y := by
  refine ⟨_, pad_content h sending, fun taken more => ?_⟩
  have words : Pending.headerWords (p.dw / 8) (header p x).bytes = headerLength / (p.dw / 8) := by
    rw [Pending.headerWords, Header.length_bytes]
  rw [words] at taken more ⊢
  have room := h.headerWords_le
  have last : paddingWords p = packetWords p - 1 - headerLength / (p.dw / 8) := rfl
  -- the beats of the padding are at most one more than its whole words
  obtain ⟨k, rfl⟩ := Nat.exists_eq_add_of_le taken
  rw [Nat.add_sub_cancel_left] at more ⊢
  rw [padding, List.length_replicate] at more
  have le : k ≤ paddingWords p := by
    by_contra gt
    have beyond := Nat.mul_le_mul_right (p.dw / 8) (Nat.lt_of_not_le gt)
    have := h.marked_le
    rw [Nat.succ_mul] at beyond
    omega
  have fits : headerLength / (p.dw / 8) + k < 2 ^ bitsFor (packetWords p - 1) :=
    lt_of_le_of_lt (by omega) (lt_two_pow_bitsFor (packetWords p - 1))
  rw [counter, Nat.mod_eq_of_lt fits, chunk, padding, List.drop_replicate, List.take_replicate, List.length_replicate,
    Nat.succ_mul]
  have := h.marked_le
  have := h.marked_pos
  by_cases final : k = paddingWords p
  · have counted : headerLength / (p.dw / 8) + k = packetWords p - 1 := by omega
    have left : min (p.dw / 8) (paddingWords p * (p.dw / 8) + marked p - k * (p.dw / 8)) = marked p := by
      rw [final]
      omega
    have ends : paddingWords p * (p.dw / 8) + marked p ≤ k * (p.dw / 8) + p.dw / 8 := by
      rw [final]
      omega
    rw [if_pos counted, decide_eq_true counted, left, decide_eq_true ends]
  · have counted : ¬ headerLength / (p.dw / 8) + k = packetWords p - 1 := by omega
    have further : k * (p.dw / 8) + p.dw / 8 ≤ paddingWords p * (p.dw / 8) := by
      rw [← Nat.succ_mul]
      exact Nat.mul_le_mul_right _ (by omega)
    have whole : min (p.dw / 8) (paddingWords p * (p.dw / 8) + marked p - k * (p.dw / 8)) = p.dw / 8 := by omega
    have more : ¬ paddingWords p * (p.dw / 8) + marked p ≤ k * (p.dw / 8) + p.dw / 8 := by omega
    rw [if_neg counted, decide_eq_false counted, whole, decide_eq_false more]

end Beats

/-! ## The frames -/

section Frames

variable {P} (W : P.PrependsBytes Header.bytes) (h : Accepted p)

variable (p) in
/-- The parameters of a beat for an entry. -/
def Addressed (x : TableRecord) (b : MacBeat p.dw) : Prop :=
  b.targetMac = targetMac p x ∧ b.senderMac = p.macAddress ∧ b.ethernetType = ethernetTypeArp

/-- Between entries, or `i` beats of the frame for one have been sent. -/
inductive Sending (s : (stage p P).Run) (f : List (MacBeat p.dw)) : Prop
  | idle (fsm : s.state.fsm = .idle) (holds : W.Holds s.state.packetizer none) (none_sent : f = [])
  | send (x : TableRecord) (i : ℕ) (fsm : s.state.fsm = .send) (held : s.held = some x)
    (more : i * (p.dw / 8) < (stream p x).length)
    (counter : s.state.counter = i % 2 ^ bitsFor (packetWords p - 1))
    (holds : W.Holds s.state.packetizer (Pending.rest (p.dw / 8) (header p x).bytes (padding p) i))
    (sent : f.map (·.beat.content) = (List.range i).map (chunk (p.dw / 8) (stream p x)))
    (addressed : ∀ b ∈ f, Addressed p x b)

/-- A whole frame for an entry. -/
structure Sent (x : TableRecord) (f : List (MacBeat p.dw)) : Prop where
  content : f.map (·.beat.content) = chunks (p.dw / 8) (stream p x)
  addressed : ∀ b ∈ f, Addressed p x b

/-- What a cycle does to the frame that is being sent. -/
inductive Cycle (s : (stage p P).Run) (i : Stage.In TableRecord TableRecord) (f : List (MacBeat p.dw)) :
    List (MacBeat p.dw) → Prop
  | wait (gives : s.gives i = none) (takes : s.takes i = none) : Cycle s i f f
  | beat (b : MacBeat p.dw) (gives : s.gives i = some b) (takes : s.takes i = none) (inner : b.beat.last = false) :
    Cycle s i f (f ++ [b])
  | last (x : TableRecord) (b : MacBeat p.dw) (gives : s.gives i = some b) (takes : s.takes i = some x)
    (final : b.beat.last = true) (sent : Sent x (f ++ [b])) : Cycle s i f []

variable {W} {s : (stage p P).Run} {f : List (MacBeat p.dw)}

include h

/-- The beat of the packetizer, and what it holds after the cycle. -/
theorem source_send {t : State p P} {x : TableRecord} {n : ℕ} (fsm : t.fsm = .send)
    (more : n * (p.dw / 8) < (stream p x).length) (counter : t.counter = n % 2 ^ bitsFor (packetWords p - 1))
    (holds : W.Holds t.packetizer (Pending.rest (p.dw / 8) (header p x).bytes (padding p) n)) :
    ∃ b, P.source t.packetizer (header p x) t.pad = some b ∧ b.content = chunk (p.dw / 8) (stream p x) n ∧
      W.Holds (P.step t.packetizer (header p x) t.pad false)
        (Pending.rest (p.dw / 8) (header p x).bytes (padding p) n) ∧
      W.Holds (P.step t.packetizer (header p x) t.pad true)
        (if (stream p x).length ≤ (n + 1) * (p.dw / 8) then none
          else Pending.rest (p.dw / 8) (header p x).bytes (padding p) (n + 1)) := by
  obtain ⟨y, pad, due⟩ := pad_due h fsm counter x
  have le : p.dw / 8 ≤ (header p x).bytes.length := by
    rw [Header.length_bytes]
    exact h.header_le
  have nonempty : 0 < (padding p).length := by
    rw [padding, List.length_replicate]
    exact Nat.add_pos_right _ h.marked_pos
  obtain ⟨offered, after⟩ := Pending.step_rest h.pos le nonempty more due
  have shown := W.source holds (header p x) t.pad (pad_marked h)
  have step := fun r => W.step holds (header p x) t.pad r (pad_marked h)
  rw [pad, offered] at shown
  obtain ⟨b, source, content⟩ := Option.map_eq_some_iff.1 shown
  rw [pad, after, source] at step
  exact ⟨b, source, content, step false, step true⟩

theorem Sending.cycle (sending : Sending W s f) (i : Stage.In TableRecord TableRecord) :
    ∃ f', Sending W (s.next i) f' ∧ Cycle s i f f' := by
  cases sending with
  -- nothing is sent while the FSM waits for a record
  | idle fsm holds none_sent =>
    have silent : s.source i = none := congrArg (Option.map _) (source_idle _ fsm)
    have waits : s.state.sinkReady ((s.offered i).getD i.env) i.ready = false := by
      rw [State.sinkReady, source_idle _ fsm]
      rfl
    have refused : ¬ (stage p P).ready s.state i.env (s.offered i) i.ready = true :=
      fun taken => Bool.false_ne_true (waits.symm.trans taken)
    have next : s.next i = ⟨_, s.offered i⟩ := congrArg₂ Stage.Run.mk (next_idle _ _ _ fsm) (if_neg refused)
    have holds : W.Holds (P.step s.state.packetizer (header p ((s.offered i).getD i.env)) none false) none := by
      have := W.step holds (header p ((s.offered i).getD i.env)) none false nofun
      rwa [Bool.and_false] at this
    refine ⟨f, ?_, .wait ?_ ?_⟩
    · rw [next]
      cases offered : s.offered i with
      | none => exact .idle rfl (by rwa [offered] at holds) none_sent
      | some x =>
        rw [offered] at holds
        refine .send x 0 rfl rfl ?_ (Nat.zero_mod _).symm holds ?_ ?_
        · rw [length_stream, Nat.zero_mul]
          exact Nat.add_pos_left (by decide) _
        · rw [none_sent]
          rfl
        · rw [none_sent]
          exact nofun
    · rw [Stage.Run.gives, silent, ite_self]
    · exact if_neg refused
  -- the `n`th chunk of the frame is at the source until it is taken
  | send x n fsm held more counter holds sent addressed =>
    obtain ⟨b, source, content, stays, moves⟩ := source_send h fsm more counter holds
    have offered : s.offered i = some x := by
      rw [Stage.Run.offered, held]
      rfl
    have shown : s.state.source x = some b := (if_pos fsm).trans source
    have last : b.last = decide ((stream p x).length ≤ (n + 1) * (p.dw / 8)) := congrArg Prod.snd content
    have gives : s.gives i = if i.ready then some (macBeat p x b) else none := by
      rw [Stage.Run.gives, Stage.Run.source, offered]
      exact congrArg (fun o => if i.ready = true then Option.map (macBeat p x) o else none) shown
    have ready : s.state.sinkReady x i.ready = (b.last && i.ready) := by
      rw [State.sinkReady, shown]
      rfl
    have takes : s.takes i = if b.last && i.ready then some x else none := by
      rw [Stage.Run.takes, offered, ← ready]
      rfl
    have next : s.next i =
        ⟨{ fsm := if b.last && i.ready then .idle else .send
           counter := if i.ready then (s.state.counter + 1) % 2 ^ bitsFor (packetWords p - 1) else s.state.counter
           packetizer := P.step s.state.packetizer (header p x) s.state.pad i.ready },
          if b.last && i.ready then none else some x⟩ := by
      rw [← next_send true x i.ready fsm shown, ← ready, Stage.Run.next, offered]
      rfl
    -- the source fills the addresses in itself
    have mine : Addressed p x (macBeat p x b) := ⟨rfl, rfl, rfl⟩
    have further : (f ++ [macBeat p x b]).map (·.beat.content) =
        (List.range (n + 1)).map (chunk (p.dw / 8) (stream p x)) := by
      rw [List.map_append, sent, List.range_succ, List.map_append, List.map_singleton, List.map_singleton]
      exact congrArg (fun c => _ ++ [c]) content
    have addressed' : ∀ b' ∈ f ++ [macBeat p x b], Addressed p x b' := by
      intro b' hb'
      obtain hb' | hb' := List.mem_append.1 hb'
      · exact addressed b' hb'
      · exact List.mem_singleton.1 hb' ▸ mine
    cases ready' : i.ready with
    | false =>
      rw [ready', Bool.and_false] at takes next
      rw [ready'] at gives
      rw [next]
      exact ⟨f, .send x n rfl rfl more counter stays sent addressed, .wait gives takes⟩
    | true =>
      rw [ready', Bool.and_true] at takes next
      rw [ready'] at gives
      rw [next]
      -- the last chunk, with which the record is taken
      by_cases ends : (stream p x).length ≤ (n + 1) * (p.dw / 8)
      · rw [if_pos ends] at moves
        rw [last, decide_eq_true ends] at takes ⊢
        have count : n + 1 = chunkCount (p.dw / 8) (stream p x) := by
          have := (lt_chunkCount h.pos).2 more
          have := mt (lt_chunkCount (l := stream p x) (i := n + 1) h.pos).1 (Nat.not_lt.2 ends)
          omega
        have final := last.trans (decide_eq_true ends)
        refine ⟨[], .idle rfl moves rfl, .last x _ gives takes final ⟨?_, addressed'⟩⟩
        rw [further, chunks, count]
      · -- a chunk inside of the frame
        rw [if_neg ends] at moves
        rw [last, decide_eq_false ends] at takes ⊢
        refine ⟨_, .send x (n + 1) rfl rfl (Nat.lt_of_not_le ends) ?_ moves further addressed',
          .beat _ gives takes (last.trans (decide_eq_false ends))⟩
        show (s.state.counter + 1) % _ = _
        rw [counter, Nat.mod_add_mod]

/-- The frames of a run, and the beats of the one that is being sent. -/
theorem run_sending (W : P.PrependsBytes Header.bytes) (is : List (Stage.In TableRecord TableRecord)) :
    Sending W ((stage p P).machine.run is) (frames (·.beat.last) ((stage p P).given is)).2 ∧
      List.Forall₂ Sent ((stage p P).taken is) (frames (·.beat.last) ((stage p P).given is)).1 := by
  induction is using List.reverseRecOn with
  | nil => exact ⟨.idle rfl W.reset rfl, .nil⟩
  | append_singleton is i ih =>
    obtain ⟨sending, sent⟩ := ih
    obtain ⟨f', sending', cycle⟩ := sending.cycle h i
    rw [Stage.run_concat, Stage.given_concat, Stage.taken_concat]
    generalize hf : (frames (·.beat.last) ((stage p P).given is)).2 = f at cycle
    cases cycle with
    | wait gives takes =>
      rw [gives, takes, Option.toList_none, Option.toList_none, List.append_nil, List.append_nil, hf]
      exact ⟨sending', sent⟩
    | beat b gives takes inner =>
      rw [gives, takes, Option.toList_some, Option.toList_none, List.append_nil, frames_concat, frameStep, if_neg
        (by rw [inner]; decide), hf]
      exact ⟨sending', sent⟩
    | last x b gives takes final whole =>
      rw [gives, takes, Option.toList_some, Option.toList_some, frames_concat, frameStep, if_pos final, hf]
      exact ⟨sending', List.rel_append sent (.cons whole .nil)⟩

/-! ## Progress -/

/-- With a ready source a beat is sent in each cycle of a frame. -/
theorem Sending.gives_ne_none (sending : Sending W s f) (fsm : s.state.fsm = .send)
    {i : Stage.In TableRecord TableRecord} (ready : i.ready = true) : s.gives i ≠ none := by
  cases sending with
  | idle fsm' => cases fsm.symm.trans fsm'
  | send x n _ held more counter holds =>
    obtain ⟨b, source, -⟩ := source_send h fsm more counter holds
    have offered : s.offered i = some x := by
      rw [Stage.Run.offered, held]
      rfl
    rw [Stage.Run.gives, if_pos ready, Stage.Run.source, offered]
    show (s.state.source x).map _ ≠ none
    rw [State.source, if_pos fsm, source]
    exact Option.some_ne_none _

/-- The beats of the frame that have been sent are fewer than it has. -/
theorem Sending.length_lt (sending : Sending W s f) (fsm : s.state.fsm = .send) {x : TableRecord}
    (held : s.held = some x) : f.length < chunkCount (p.dw / 8) (stream p x) := by
  cases sending with
  | idle fsm' => cases fsm.symm.trans fsm'
  | send x' n _ held' more _ _ sent =>
    cases held.symm.trans held'
    have length := congrArg List.length sent
    rw [List.length_map, List.length_map, List.length_range] at length
    rw [length, lt_chunkCount h.pos]
    exact more

omit h in
/-- The frame of an entry goes on until the entry is taken. -/
theorem held_next {s : (stage p P).Run} {x : TableRecord} (held : s.held = some x)
    {i : Stage.In TableRecord TableRecord} (takes : s.takes i = none) : (s.next i).held = some x := by
  have kept := Stage.Run.arrives_held s i
  have none_new : s.arrives i = none := if_pos (by rw [held]; rfl)
  rw [held, none_new, takes] at kept
  exact Option.toList_eq_singleton_iff.1 kept.symm

omit h in
theorem settles_succ (is : List (Stage.In TableRecord TableRecord)) (es : ℕ → TableRecord) (n : ℕ) :
    is ++ ((List.range (n + 1)).map fun k => Stage.Sim.settle (es k)) =
      (is ++ [Stage.Sim.settle (es 0)]) ++ (List.range n).map fun k => Stage.Sim.settle (es (k + 1)) := by
  rw [List.range_succ_eq_map, List.map_cons, List.map_map, List.append_assoc]
  rfl

/-- An entry whose frame is being sent is taken, by induction on the beats of the frame that are left. -/
theorem accepts_sending (W : P.PrependsBytes Header.bytes) (left : ℕ) :
    ∀ (is : List (Stage.In TableRecord TableRecord)) (x : TableRecord) (es : ℕ → TableRecord),
      ((stage p P).machine.run is).held = some x → ((stage p P).machine.run is).state.fsm = .send →
      chunkCount (p.dw / 8) (stream p x) ≤ (frames (·.beat.last) ((stage p P).given is)).2.length + left →
      ∃ n, (stage p P).taken (is ++ (List.range n).map fun k => Stage.Sim.settle (es k)) =
        (stage p P).taken is ++ [x] := by
  induction left with
  -- there are no more chunks than `chunkCount`
  | zero =>
    intro is x es held fsm few
    have := (run_sending h W is).1.length_lt h fsm held
    omega
  | succ left ih =>
    intro is x es held fsm few
    obtain ⟨sending, -⟩ := run_sending h W is
    obtain ⟨f', sending', cycle⟩ := sending.cycle h (Stage.Sim.settle (es 0))
    have taken := Stage.taken_concat is (Stage.Sim.settle (es 0)) (A := stage p P)
    cases cycle with
    | wait gives takes => exact absurd gives (sending.gives_ne_none h fsm rfl)
    | last x' b gives takes final whole =>
      have mine : x' = x := by
        unfold Stage.Run.takes at takes
        split_ifs at takes
        rw [Stage.Run.offered, held] at takes
        exact (Option.some.inj takes).symm
      refine ⟨1, ?_⟩
      rw [takes, mine] at taken
      exact taken
    | beat b gives takes inner =>
      rw [takes, Option.toList_none, List.append_nil] at taken
      rw [← Stage.run_concat] at sending'
      have held' := held_next held takes
      rw [← Stage.run_concat] at held'
      have fsm' : ((stage p P).machine.run (is ++ [Stage.Sim.settle (es 0)])).state.fsm = .send := by
        cases sending' with
        | idle _ _ none_sent => exact absurd none_sent (by simp)
        | send _ _ fsm' => exact fsm'
      have sent : (frames (·.beat.last) ((stage p P).given (is ++ [Stage.Sim.settle (es 0)]))).2 =
          (frames (·.beat.last) ((stage p P).given is)).2 ++ [b] := by
        rw [Stage.given_concat, gives, Option.toList_some, frames_concat, frameStep, if_neg (by rw [inner]; decide)]
      obtain ⟨n, taken'⟩ := ih _ x (fun k => es (k + 1)) held' fsm' (by
        rw [sent, List.length_append, List.length_singleton]
        omega)
      refine ⟨n + 1, ?_⟩
      rw [settles_succ, taken', taken]

theorem accepts (W : P.PrependsBytes Header.bytes) (is : List (Stage.In TableRecord TableRecord)) (x : TableRecord)
    (es : ℕ → TableRecord) (held : ((stage p P).machine.run is).held = some x) :
    ∃ n, (stage p P).taken (is ++ (List.range n).map fun k => Stage.Sim.settle (es k)) =
      (stage p P).taken is ++ [x] := by
  cases fsm : ((stage p P).machine.run is).state.fsm with
  | send => exact accepts_sending h W _ is x es held fsm (Nat.le_add_left _ _)
  | idle =>
    -- the request is seen in one cycle
    have offered : ((stage p P).machine.run is).offered (Stage.Sim.settle (es 0)) = some x := by
      rw [Stage.Run.offered, held]
      rfl
    have takes : ((stage p P).machine.run is).takes (Stage.Sim.settle (es 0)) = none := by
      rw [Stage.Run.takes, offered]
      refine if_neg fun taken => ?_
      have taken : ((stage p P).machine.run is).state.sinkReady x true = true := taken
      rw [State.sinkReady, source_idle _ fsm] at taken
      cases taken
    have held' := held_next held takes
    rw [← Stage.run_concat] at held'
    have fsm' : ((stage p P).machine.run (is ++ [Stage.Sim.settle (es 0)])).state.fsm = .send := by
      rw [Stage.run_concat, Stage.Run.next, offered]
      exact congrArg State.fsm (next_idle true x true fsm)
    obtain ⟨n, taken⟩ := accepts_sending h W _ _ x (fun k => es (k + 1)) held' fsm' (Nat.le_add_left _ _)
    refine ⟨n + 1, ?_⟩
    rw [settles_succ, taken, Stage.taken_concat, takes, Option.toList_none, List.append_nil]

/-! ## What the frames are -/

omit h in
/-- The header for an entry of either kind. -/
theorem header_eq {x : TableRecord} (kind : x.reply = true ∨ x.request = true) : header p x = announced p x := by
  cases reply : x.reply with
  | true => simp [header, announced, reply]
  | false =>
    have request : x.request = true := kind.resolve_left (by rw [reply]; decide)
    simp [header, announced, reply, request]

theorem Sent.carries {x : TableRecord} (sent : Sent x f) (kind : x.reply = true ∨ x.request = true) :
    Carries p (frameLength p) x f := by
  have pos : 0 < (stream p x).length := by
    rw [length_stream]
    exact Nat.add_pos_left (by decide) _
  have bytes : payload f = stream p x := by
    rw [← flatMap_chunks h.pos (stream p x), ← sent.content, List.flatMap_map]
    rfl
  constructor
  · have whole : IsFrame Prod.snd (f.map fun b => b.beat.content) := by
      rw [sent.content]
      exact isFrame_chunks h.pos pos
    exact whole.of_map fun _ => rfl
  · rw [bytes, length_stream]
  · rw [bytes, stream, header_eq kind]
    exact List.take_left' (Header.length_bytes _)
  · intro b hb
    obtain ⟨target, sender, ethernetType⟩ := sent.addressed b hb
    refine ⟨target.trans ?_, sender, ethernetType⟩
    rw [targetMac, header_eq kind]

/-- What the transmitter does, at any width. -/
theorem sends (W : P.PrependsBytes Header.bytes) : Sends p P (frameLength p) := by
  constructor
  · intro is kinds
    have kinds : Kinds ((stage p P).taken is) := by
      rw [Stage.arrivals_eq] at kinds
      exact fun x hx => kinds x (List.mem_append_left _ hx)
    obtain ⟨-, sent⟩ := run_sending h W is
    exact ((List.forall₂_and_left _ _).2 ⟨kinds, sent⟩).imp fun x f both => both.2.carries h both.1
  · intro is i _
    obtain ⟨f', -, cycle⟩ := (run_sending h W is).1.cycle h i
    cases cycle with
    | wait gives takes => rw [gives, takes]; rfl
    | beat b gives takes inner => rw [gives, takes]; exact inner.symm
    | last x b gives takes final => rw [gives, takes]; exact final.symm
  · exact fun is x _ held es => accepts h W is x es held

end Frames

/-- The frames have the length that is meant only at a width of eight bits. -/
theorem arp_frames_iff (p : Params) (P : Packetizer Header p.dw) (h : Accepted p) (W : P.PrependsBytes Header.bytes) :
    Sends p P packetLength ↔ p.dw = 8 := by
  rw [← h.frameLength_eq_iff]
  constructor
  · intro meant
    -- one request, and a source that is ready once it is held
    let x : TableRecord := { reply := false, request := true, ipAddress := 0, macAddress := 0 }
    have held : ((stage p P).machine.run [⟨x, some x, false⟩]).held = some x := rfl
    have kinds : Kinds ((stage p P).arrivals [⟨x, some x, false⟩]) := by
      intro y hy
      obtain rfl : y = x := List.mem_singleton.1 hy
      exact .inr rfl
    obtain ⟨n, taken⟩ := accepts h W [⟨x, some x, false⟩] x (fun _ => x) held
    rw [← Stage.Sim.arrivals_settles (fun _ => x) _ n] at kinds
    have actual := (sends h W).frames _ kinds
    have meant := meant.frames _ kinds
    have member : x ∈ (stage p P).taken [⟨x, some x, false⟩] ++ [x] := List.mem_append_right _ (List.mem_singleton_self x)
    rw [← taken] at member
    obtain ⟨y, ys, accepted⟩ := List.exists_cons_of_ne_nil (List.ne_nil_of_mem member)
    rw [accepted] at actual meant
    generalize (frames (·.beat.last) ((stage p P).given _)).1 = fs at actual meant
    cases actual with
    | cons actual _ =>
      cases meant with
      | cons meant _ => exact actual.length.symm.trans meant.length
  · intro same
    rw [← same]
    exact sends h W

/-- The constructor arguments with the widths that are in use. -/
def eightBits : Params := { macAddress := 0x10e2d5000000, ipAddress := 0xc0a80132, dw := 8 }

/-- The same host with words of four bytes. -/
def thirtyTwoBits : Params := { eightBits with dw := 32 }

theorem arp_frames_iff_eight :
    Sends eightBits (Packetizer.bytes 8 Header.bytes) packetLength ↔ eightBits.dw = 8 :=
  arp_frames_iff eightBits (Packetizer.bytes 8 Header.bytes) ⟨by decide, by decide, .inl rfl⟩
    (Packetizer.prependsBytes Header.bytes (by decide) fun h => by rw [h.length_bytes]; decide)

variable {P} in
/-- The frames all have that length. -/
theorem length_of_sends {length : ℕ} (sends : Sends p P length) {is : List (Stage.In TableRecord TableRecord)}
    (kinds : Kinds ((stage p P).arrivals is)) :
    ∀ n ∈ (frames (·.beat.last) ((stage p P).given is)).1.map (fun f => (payload f).length), n = length := by
  intro n hn
  obtain ⟨f, hf, rfl⟩ := List.mem_map.1 hn
  have carries := (sends.frames is kinds).imp fun x f carries => carries.length
  generalize (frames (·.beat.last) ((stage p P).given is)).1 = fs at hf carries
  generalize (stage p P).taken is = xs at carries
  induction carries with
  | nil => cases hf
  | cons length _ ih =>
    cases hf with
    | head => exact length
    | tail _ hf => exact ih hf

/-- The frame for a request at 32 bits: eleven words, with two bytes in the last. -/
theorem arp_frame_short : ¬ Sends thirtyTwoBits (Packetizer.bytes 32 Header.bytes) packetLength := by
  intro sends
  let x : TableRecord := { reply := false, request := true, ipAddress := 0xc0a80164, macAddress := 0 }
  have kinds : Kinds ((stage thirtyTwoBits (Packetizer.bytes 32 Header.bytes)).arrivals
      (List.replicate 12 ⟨x, some x, true⟩)) := by
    intro y hy
    obtain rfl : y = x := by revert y; decide +kernel
    exact .inr rfl
  have sent : 42 ∈ (frames (·.beat.last) ((stage thirtyTwoBits (Packetizer.bytes 32 Header.bytes)).given
      (List.replicate 12 ⟨x, some x, true⟩))).1.map (fun f => (payload f).length) := by decide +kernel
  exact absurd (length_of_sends sends kinds 42 sent) (by decide)

end Tx

end LiteEth.Core.Arp
