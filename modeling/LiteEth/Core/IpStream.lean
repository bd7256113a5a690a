/-
The IPv4 transmitter in a stream: while the table has an address for each packet, it sends each of them
after its header, with the checksum of that header, whatever the timing of both sides and of the table.
-/
import LiteEth.Core.IpHeader
import LiteEth.Rtl.PacketSim

namespace LiteEth.Core.Ip

open LiteEth.Rtl Checksum

/-- The table's side of a request that it answers with an address. -/
structure Table where
  requestReady : Bool
  responseValid : Bool
  responseMac : BitVec 48

variable {ε : Type}

/-- The inputs of a transmitter in a stream; `idle` drives the sink while `sink.valid = 0`. -/
def Tx.input {dw : ℕ} (table : ε → Table) (idle : ε → UserParams × Beat dw) (e : ε)
    (a : Option (UserParams × Beat dw)) (r : Bool) : Tx.In dw where
  sinkValid := a.isSome
  params := (a.getD (idle e)).1
  beat := (a.getD (idle e)).2
  sourceReady := r
  requestReady := (table e).requestReady
  responseValid := (table e).responseValid
  responseFailed := false
  responseMac := (table e).responseMac

/-- `LiteEthIPTX`, with a table that resolves every address. -/
abbrev iptx (p : Params) (P : Packetizer Header p.dw) (table : ε → Table) (idle : ε → UserParams × Beat p.dw) :
    Stage ε (UserParams × Beat p.dw) (Beat p.dw) where
  State := Tx.State p P
  reset := .init p P
  source s e a := s.source (Tx.input table idle e a false)
  ready s e a r := s.sinkReady (Tx.input table idle e a r)
  step s e a r := s.next (Tx.input table idle e a r)

namespace Tx

/-- The header a packet is sent with. -/
def sentHeader (p : Params) (q : UserParams) : Header := header p q (internetChecksum (summed p q) otherWords)

/-- A beat of a packet, as it is sent. -/
def sentBeat {dw : ℕ} (a : UserParams × Beat dw) : Beat dw := { a.2 with error := 0 }

/-- The header goes before the packet. -/
abbrev sends (p : Params) (words : Header → List (BitVec p.dw)) : Transducer (UserParams × Beat p.dw) (Beat p.dw) :=
  Packetizer.prepend (fun a => (words (sentHeader p a.1)).map .ofWord) sentBeat (·.2.last)

variable {p : Params} {P : Packetizer Header p.dw} {words : Header → List (BitVec p.dw)}
  (W : P.PrependsWords words) {table : ε → Table} {idle : ε → UserParams × Beat p.dw}

/-! ## The packetizer of the transmitter -/

section Packetizer

variable {W} {s : State p P} {i : In p.dw}

/-- While the engine is done, the packetizer is given the beat at the sink. -/
theorem sinkBeat_done (hd : s.done = true) (hv : i.sinkValid = true) :
    s.sinkBeat i = some { i.beat with error := 0 } := by
  unfold State.sinkBeat
  rw [hd, hv]
  rfl

theorem sinkBeat_none (h : i.sinkValid = false ∨ s.done = false) : s.sinkBeat i = none := by
  unfold State.sinkBeat
  rw [Bool.and_eq_false_iff.2 h]
  rfl

/-- A word of the header is shown: the beat at the sink is not taken. -/
theorem at_header {l : Option (List (BitVec p.dw))} (ht : W.Left s.packetizer l) (hd : s.done = true)
    (hv : i.sinkValid = true) {x : BitVec p.dw} {ws : List (BitVec p.dw)}
    (hl : l.getD (words (s.header i.params)) = x :: ws) :
    s.packet i = some (.ofWord x) ∧ s.sinkReady i = false ∧ (s.next i).checksum = s.checksum ∧
      W.Left (s.next i).packetizer (if s.packetReady i then some ws else l) := by
  have hbeat := sinkBeat_done hd hv
  have hpacket : s.packet i = some (.ofWord x) := by
    unfold State.packet
    rw [hbeat]
    exact W.source_head ht _ x ws hl _
  refine ⟨hpacket, ?_, ?_, ?_⟩
  · unfold State.sinkReady
    rw [hbeat, W.ready_head ht _ (by rw [hl]; nofun), Bool.false_and]
  · have hlast : isLast (s.source i) = false := by
      unfold State.source
      rw [hpacket]
      split_ifs <;> rfl
    show s.checksum.next engine i.sinkValid (isLast (s.source i) && i.sourceReady) (summed p i.params) = s.checksum
    rw [hlast]
    exact next_done engine hd _ _
  · show W.Left (P.step s.packetizer (s.header i.params) (s.sinkBeat i) (s.packetReady i)) _
    rw [hbeat]
    exact W.step_head ht _ x ws hl _ _

/-- Nothing is at the packetizer's sink between packets. -/
theorem at_rest (ht : W.Left s.packetizer none) (hn : s.sinkBeat i = none) :
    s.packet i = none ∧ W.Left (s.next i).packetizer none := by
  constructor
  · unfold State.packet
    rw [hn]
    exact W.source_none ht _
  · show W.Left (P.step s.packetizer (s.header i.params) (s.sinkBeat i) (s.packetReady i)) _
    rw [hn]
    exact W.step_none ht _ _

/-- The beats of the packet pass. -/
theorem at_data (ht : W.Left s.packetizer (some [])) :
    s.packet i = s.sinkBeat i ∧
      (s.done = true → i.sinkValid = true → s.sinkReady i = s.packetReady i) ∧
      W.Left (s.next i).packetizer (if isLast (s.sinkBeat i) && s.packetReady i then none else some []) := by
  refine ⟨W.source_data ht _ _, fun hd hv => ?_, W.step_data ht _ _ _⟩
  unfold State.sinkReady
  rw [sinkBeat_done hd hv, W.ready_data ht, hd, Bool.and_true]

end Packetizer

/-- The engine is done with the header of a packet. -/
structure Summed (p : Params) (cs : Checksum.State) (q : UserParams) : Prop where
  done : cs.done engine = true
  value : cs.value engine (summed p q) = internetChecksum (summed p q) otherWords

/-- The cycles until the header is sent, once it is summed. -/
def toSend : Fsm → ℕ
  | .idle => 3
  | .sendMacAddressRequest => 2
  | .waitMacAddressResponse => 1
  | _ => 0

/-- After the beats offered so far, `o` is still to be given; `w` counts the cycles until a beat moves. -/
inductive Rel : (Ip.iptx p P table idle).Run → Bool → List (Beat p.dw) → ℕ → Prop
  | rest (mac : BitVec 48) (cs : Checksum.State) (t : P.State) (hc : cs.counter = 0) (ht : W.Left t none) :
      Rel ⟨{ fsm := .idle, targetMac := mac, checksum := cs, packetizer := t }, none⟩ false [] 0
  | sum (mac : BitVec 48) (cs : Checksum.State) (t : P.State) (a : UserParams × Beat p.dw)
      (hc : Computes engine cs (summed p a.1)) (ht : W.Left t none) :
      Rel ⟨{ fsm := .idle, targetMac := mac, checksum := cs, packetizer := t }, some a⟩ (!a.2.last)
        ((words (sentHeader p a.1)).map .ofWord ++ [sentBeat a]) (12 - cs.counter)
  | resolve (fsm : Fsm) (mac : BitVec 48) (cs : Checksum.State) (t : P.State) (a : UserParams × Beat p.dw)
      (hf : fsm = .sendMacAddressRequest ∨ fsm = .waitMacAddressResponse) (hc : Summed p cs a.1)
      (ht : W.Left t none) : Rel ⟨{ fsm := fsm, targetMac := mac, checksum := cs, packetizer := t }, some a⟩
        (!a.2.last) ((words (sentHeader p a.1)).map .ofWord ++ [sentBeat a]) (toSend fsm)
  | head (mac : BitVec 48) (cs : Checksum.State) (t : P.State) (a : UserParams × Beat p.dw)
      (l : Option (List (BitVec p.dw))) (hc : Summed p cs a.1) (ht : W.Left t l)
      (hl : l.getD (words (sentHeader p a.1)) ≠ []) :
      Rel ⟨{ fsm := .send, targetMac := mac, checksum := cs, packetizer := t }, some a⟩ (!a.2.last)
        ((l.getD (words (sentHeader p a.1))).map .ofWord ++ [sentBeat a]) 0
  | data (mac : BitVec 48) (cs : Checksum.State) (t : P.State) (a : Option (UserParams × Beat p.dw))
      (hd : cs.done engine = true) (ht : W.Left t (some [])) :
      Rel ⟨{ fsm := .send, targetMac := mac, checksum := cs, packetizer := t }, a⟩ ((sends p words).run true a.toList)
        (a.toList.map sentBeat) 0

theorem state_eq {s : State p P} {fsm : Fsm} {mac : BitVec 48} {cs : Checksum.State} (hf : s.fsm = fsm)
    (hm : s.targetMac = mac) (hc : s.checksum = cs) : s = ⟨fsm, mac, cs, s.packetizer⟩ := by
  rw [← hf, ← hm, ← hc]

section Phases

variable {W} (table idle) (mac : BitVec 48) {cs : Checksum.State} {t : P.State}

/-- The header is ready, and held back by the FSM or being sent: the packet is kept. -/
theorem pending {l : Option (List (BitVec p.dw))} (ht : W.Left t l) {a : UserParams × Beat p.dw}
    (hc : Summed p cs a.1) {x : BitVec p.dw} {ws : List (BitVec p.dw)}
    (hl : l.getD (words (sentHeader p a.1)) = x :: ws) (fsm : Fsm) (e : ε) (r : Bool) :
    let s : State p P := { fsm := fsm, targetMac := mac, checksum := cs, packetizer := t }
    let j := input table idle e (some a) r
    s.packet j = some (.ofWord x) ∧ s.sinkReady j = false ∧ (s.next j).checksum = cs ∧
      W.Left (s.next j).packetizer (if s.packetReady j then some ws else l) := by
  intro s j
  have hheader : s.header j.params = sentHeader p a.1 := by
    show header p a.1 (cs.value engine (summed p a.1)) = _
    rw [hc.value]
    rfl
  exact at_header (s := s) (i := j) ht hc.done rfl (by rw [hheader]; exact hl)

/-- The engine is at work: the packetizer is held back. -/
theorem summing (ht : W.Left t none) (hd : cs.done engine = false) (a : Option (UserParams × Beat p.dw)) (e : ε)
    (r : Bool) :
    let s : State p P := { fsm := .idle, targetMac := mac, checksum := cs, packetizer := t }
    let j := input table idle e a r
    s.sinkReady j = false ∧ W.Left (s.next j).packetizer none ∧ s.next j =
      { fsm := .idle, targetMac := mac, checksum := cs.next engine a.isSome false (summed p (a.getD (idle e)).1),
        packetizer := (s.next j).packetizer } := by
  intro s j
  obtain ⟨hpacket, ht'⟩ := at_rest (s := s) (i := j) ht (sinkBeat_none (.inr hd))
  refine ⟨?_, ht', ?_⟩
  · show (_ && cs.done engine) = false
    rw [hd, Bool.and_false]
  · unfold State.next
    simp only [hpacket]
    rfl

/-- The packet is being sent: its beats pass, and the engine is restarted after the last of them. -/
theorem passing (ht : W.Left t (some [])) (hd : cs.done engine = true) (a : Option (UserParams × Beat p.dw)) (e : ε)
    (r : Bool) :
    let s : State p P := { fsm := .send, targetMac := mac, checksum := cs, packetizer := t }
    let j := input table idle e a r
    let last := isLast (a.map (·.2)) && r
    s.source j = a.map sentBeat ∧ (a ≠ none → s.sinkReady j = r) ∧
      W.Left (s.next j).packetizer (if last then none else some []) ∧
      ((s.next j).checksum = if last then { cs with counter := 0 } else cs) ∧ s.next j =
        { fsm := if last then .idle else .send, targetMac := mac, checksum := (s.next j).checksum,
          packetizer := (s.next j).packetizer } := by
  intro s j last
  -- the sum is done, so that the packetizer is given the beat as it is
  have hbeat : s.sinkBeat j = a.map sentBeat := by
    show (if a.isSome && cs.done engine then _ else _) = _
    rw [hd]
    cases a <;> rfl
  have hlast : isLast (s.sinkBeat j) = isLast (a.map (·.2)) := by
    rw [hbeat]
    cases a <;> rfl
  obtain ⟨hpacket, hready, ht'⟩ := at_data (s := s) (i := j) ht
  have hsource : s.source j = s.sinkBeat j := hpacket
  refine ⟨hsource.trans hbeat, fun ha => hready hd (Option.isSome_iff_ne_none.2 ha), ?_, ?_, ?_⟩
  · rw [hlast] at ht'
    exact ht'
  · show cs.next engine a.isSome (isLast (s.source j) && r) (summed p j.params) = _
    rw [hsource, hlast]
    show cs.next engine a.isSome last _ = _
    -- the sum is cleared by the last beat alone
    cases last with
    | true =>
      unfold Checksum.State.next
      rw [hd]
      simp
    | false => exact next_done engine hd _ _
  · have hfsm : (s.next j).fsm = if last then .idle else .send := by
      show (if isLast (s.source j) && r then Fsm.idle else .send) = _
      rw [hsource, hlast]
    exact state_eq hfsm rfl rfl

end Phases

/-- Before `SEND` a packet is kept. -/
theorem kept {s : (Ip.iptx p P table idle).Run} {i : Stage.In ε (UserParams × Beat p.dw)} (hf : s.state.fsm ≠ .send)
    {a : UserParams × Beat p.dw} (ha : s.offered i = some a)
    (hr : s.state.sinkReady (input table idle i.env (some a) i.ready) = false) : s.gives i = none ∧
      s.next i = ⟨s.state.next (input table idle i.env (some a) i.ready), some a⟩ := by
  constructor
  · show (if i.ready then (if s.state.fsm = .send then _ else none) else none) = none
    rw [if_neg hf, ite_self]
  · show (⟨s.state.next (input table idle i.env (s.offered i) i.ready),
      if s.state.sinkReady (input table idle i.env (s.offered i) i.ready) then none else s.offered i⟩ :
        (Ip.iptx p P table idle).Run) = _
    rw [ha, hr]
    rfl

/-- The transmitter in a stream, sending. -/
abbrev sending (table : ε → Table) (idle : ε → UserParams × Beat p.dw) (mac : BitVec 48) (cs : Checksum.State)
    (t : P.State) (b : Option (UserParams × Beat p.dw)) : (Ip.iptx p P table idle).Run :=
  ⟨{ fsm := .send, targetMac := mac, checksum := cs, packetizer := t }, b⟩

section Sending

variable {W} (table idle) (mac : BitVec 48) {cs : Checksum.State} {t : P.State} (i : Stage.In ε (UserParams × Beat p.dw))

theorem sending_next (b : Option (UserParams × Beat p.dw)) : (sending table idle mac cs t b).next i =
    ⟨State.next ⟨.send, mac, cs, t⟩ (input table idle i.env (b.or i.offer) i.ready),
      if State.sinkReady ⟨.send, mac, cs, t⟩ (input table idle i.env (b.or i.offer) i.ready) then none
      else b.or i.offer⟩ := rfl

/-- The header is being sent: the packet is kept. -/
theorem sending_head {l : Option (List (BitVec p.dw))} (ht : W.Left t l) {a : UserParams × Beat p.dw}
    (hc : Summed p cs a.1) {x : BitVec p.dw} {ws : List (BitVec p.dw)}
    (hl : l.getD (words (sentHeader p a.1)) = x :: ws) :
    (sending table idle mac cs t (some a)).source i = some (.ofWord x) ∧
      ∃ t', W.Left t' (if i.ready then some ws else l) ∧
        (sending table idle mac cs t (some a)).next i = sending table idle mac cs t' (some a) := by
  have hsource := (pending table idle mac ht hc hl .send i.env false).1
  obtain ⟨hpacket, hready, hcs, ht'⟩ := pending table idle mac ht hc hl .send i.env i.ready
  refine ⟨hsource, _, ht', (sending_next table idle mac i (some a)).trans ?_⟩
  rw [Option.some_or, hready]
  have hfsm : (State.next { fsm := .send, targetMac := mac, checksum := cs, packetizer := t }
      (input table idle i.env (some a) i.ready)).fsm = .send := by
    show (if isLast (State.packet _ (input table idle i.env (some a) i.ready)) && i.ready then Fsm.idle else .send) = _
    rw [hpacket]
    rfl
  have hmac : (State.next { fsm := .send, targetMac := mac, checksum := cs, packetizer := t }
    (input table idle i.env (some a) i.ready)).targetMac = mac := rfl
  rw [state_eq hfsm hmac hcs]
  rfl

/-- The packet is being sent: its beats pass. -/
theorem sending_data (ht : W.Left t (some [])) (hd : cs.done engine = true) (b : Option (UserParams × Beat p.dw)) :
    (sending table idle mac cs t b).source i = (b.or i.offer).map sentBeat ∧
      ∃ t', W.Left t' (if isLast ((b.or i.offer).map (·.2)) && i.ready then none else some []) ∧
        (sending table idle mac cs t b).next i =
          ⟨{ fsm := if isLast ((b.or i.offer).map (·.2)) && i.ready then .idle else .send
             targetMac := mac
             checksum := if isLast ((b.or i.offer).map (·.2)) && i.ready then { cs with counter := 0 } else cs
             packetizer := t' }, if i.ready then none else b.or i.offer⟩ := by
  have hsource := (passing table idle mac ht hd (b.or i.offer) i.env false).1
  obtain ⟨-, hready, ht', hcs, hnext⟩ := passing table idle mac ht hd (b.or i.offer) i.env i.ready
  refine ⟨hsource, _, ht', (sending_next table idle mac i b).trans ?_⟩
  rw [← hcs, ← hnext]
  congr 1
  cases hb : b.or i.offer with
  | none => rw [ite_self, ite_self]
  | some a =>
    rw [hb] at hready
    rw [hready nofun]

end Sending

variable {W}

variable (table idle) in
/-- A packet waits for its address with its checksum done. -/
theorem Rel.resolving {fsm : Fsm} (mac : BitVec 48) {cs : Checksum.State} {t : P.State} {a : UserParams × Beat p.dw}
    (hf : fsm = .idle ∨ fsm = .sendMacAddressRequest ∨ fsm = .waitMacAddressResponse) (hc : Summed p cs a.1)
    (ht : W.Left t none) (e : ε) (r : Bool) :
    let s : State p P := { fsm := fsm, targetMac := mac, checksum := cs, packetizer := t }
    ∃ w, Rel W (⟨s.next (input table idle e (some a) r), some a⟩ : (Ip.iptx p P table idle).Run) (!a.2.last)
        ((words (sentHeader p a.1)).map .ofWord ++ [sentBeat a]) w ∧
      ((table e).requestReady = true → (table e).responseValid = true → w < toSend fsm) := by
  intro s
  obtain ⟨x, ws, hl⟩ := List.exists_cons_of_ne_nil (W.words_ne (sentHeader p a.1))
  obtain ⟨hpacket, -, hcs, ht'⟩ := pending table idle mac ht hc hl fsm e r
  have hnot : s.packetReady (input table idle e (some a) r) = false := by
    rcases hf with rfl | rfl | rfl <;> rfl
  rw [if_neg (ne_true_of_eq_false hnot)] at ht'
  have hnext : ∀ f, (s.next (input table idle e (some a) r)).fsm = f → s.next (input table idle e (some a) r) =
      { fsm := f, targetMac := (s.next (input table idle e (some a) r)).targetMac, checksum := cs
        packetizer := (s.next (input table idle e (some a) r)).packetizer } := fun f hf => state_eq hf rfl hcs
  -- the one way on: sending, with the same header and the same beat
  have hsend : Rel W (⟨{ fsm := .send, targetMac := (s.next (input table idle e (some a) r)).targetMac, checksum := cs
                         packetizer := (s.next (input table idle e (some a) r)).packetizer }, some a⟩ :
      (Ip.iptx p P table idle).Run) (!a.2.last) ((words (sentHeader p a.1)).map .ofWord ++ [sentBeat a]) 0 :=
    .head _ cs _ a none hc ht' (W.words_ne _)
  rcases hf with rfl | rfl | rfl
  · -- idle: a group address needs no lookup
    have hfsm : (s.next (input table idle e (some a) r)).fsm =
        if isMulticast a.1.ipAddress then .send else .sendMacAddressRequest := by
      show (if (s.packet (input table idle e (some a) r)).isSome then _ else Fsm.idle) = _
      rw [hpacket]
      rfl
    split_ifs at hfsm
    · rw [hnext _ hfsm]
      exact ⟨0, hsend, fun _ _ => by decide⟩
    · rw [hnext _ hfsm]
      exact ⟨2, .resolve _ _ cs _ a (.inl rfl) hc ht', fun _ _ => by decide⟩
  · -- asking: until the request is taken
    have hfsm : (s.next (input table idle e (some a) r)).fsm =
      if (table e).requestReady then .waitMacAddressResponse else .sendMacAddressRequest := rfl
    split_ifs at hfsm with hr
    · rw [hnext _ hfsm]
      exact ⟨1, .resolve _ _ cs _ a (.inr rfl) hc ht', fun _ _ => by decide⟩
    · rw [hnext _ hfsm]
      exact ⟨2, .resolve _ _ cs _ a (.inl rfl) hc ht', fun h => absurd h hr⟩
  · -- waiting: until the answer is there
    have hfsm : (s.next (input table idle e (some a) r)).fsm =
      if (table e).responseValid then .send else .waitMacAddressResponse := rfl
    split_ifs at hfsm with hr
    · rw [hnext _ hfsm]
      exact ⟨0, hsend, fun _ _ => by decide⟩
    · rw [hnext _ hfsm]
      exact ⟨1, .resolve _ _ cs _ a (.inr rfl) hc ht', fun _ h => absurd h hr⟩

variable (table idle) in
/-- A packet waits for its checksum. -/
theorem Rel.summing (mac : BitVec 48) {cs : Checksum.State} {t : P.State} {a : UserParams × Beat p.dw}
    (hc : Computes engine cs (summed p a.1)) (ht : W.Left t none) (e : ε) (r : Bool) :
    let s : State p P := { fsm := .idle, targetMac := mac, checksum := cs, packetizer := t }
    s.sinkReady (input table idle e (some a) r) = false ∧
      ∃ w, Rel W (⟨s.next (input table idle e (some a) r), some a⟩ : (Ip.iptx p P table idle).Run) (!a.2.last)
          ((words (sentHeader p a.1)).map .ofWord ++ [sentBeat a]) w ∧
        ((table e).requestReady = true → (table e).responseValid = true → w < 12 - cs.counter) := by
  intro s
  -- the sum is there, and the address is asked for
  cases hd : cs.done engine with
  | true =>
    have hs : Summed p cs a.1 := ⟨hd, by rw [← addedWords_engine]; exact hc.value engine hd⟩
    obtain ⟨x, ws, hl⟩ := List.exists_cons_of_ne_nil (W.words_ne (sentHeader p a.1))
    obtain ⟨w, hrel, hw⟩ := Rel.resolving table idle mac (.inl rfl) hs ht e r
    refine ⟨(pending table idle mac ht hs hl .idle e r).2.1, w, hrel, fun h1 h2 => ?_⟩
    have hcounter : cs.counter = 9 := by
      rw [← nCycles_engine]
      exact beq_iff_eq.1 hd
    have := hw h1 h2
    show w < 12 - cs.counter
    rw [hcounter]
    exact this
  | false =>
    obtain ⟨hready, ht', hnext⟩ := Tx.summing table idle mac ht hd (some a) e r
    refine ⟨hready, 12 - (cs.next engine true false (summed p a.1)).counter, ?_, fun _ _ => ?_⟩
    · rw [hnext]
      exact .sum mac _ _ a (hc.next engine hd) ht'
    · obtain ⟨hlt, hcounter⟩ := hc.counter_next engine hd (summed p a.1)
      rw [nCycles_engine] at hlt
      rw [hcounter]
      show _ < 12 - cs.counter
      omega

variable (table idle) in
/-- A beat of the packet has been sent. -/
theorem Rel.sent (mac : BitVec 48) {cs : Checksum.State} {t : P.State} {l : Bool} (hd : cs.done engine = true)
    (ht : W.Left t (if l then none else some [])) :
    Rel W (⟨{ fsm := if l then .idle else .send, targetMac := mac
              checksum := if l then { cs with counter := 0 } else cs, packetizer := t }, none⟩ :
      (Ip.iptx p P table idle).Run) (!l) [] 0 := by
  cases l with
  | false => exact .data mac cs t none hd ht
  | true => exact .rest mac _ t rfl ht

/-- One cycle of the transmitter. -/
theorem Rel.cycle {s : (Ip.iptx p P table idle).Run} {q : Bool} {o : List (Beat p.dw)} {w : ℕ} (h : Rel W s q o w)
    (i : Stage.In ε (UserParams × Beat p.dw)) : ∃ o' w',
      o ++ (sends p words).outs q (s.arrives i).toList = (s.gives i).toList ++ o' ∧
        Rel W (s.next i) ((sends p words).run q (s.arrives i).toList) o' w' ∧
        ((table i.env).requestReady = true ∧ (table i.env).responseValid = true →
          s.arrives i = none → s.takes i = none → s.gives i = none →
            (s.held = none ∧ o = [] ∧ w' ≤ w) ∨ (s.source i ≠ none ∧ i.ready = false) ∨ w' < w) := by
  cases h with
  -- no packet is at the sink
  | rest mac cs t hc ht =>
    have hd : cs.done engine = false := by
      rw [Checksum.State.done, nCycles_engine, hc]
      rfl
    obtain ⟨e, offer, r⟩ := i
    cases offer with
    | none =>
      obtain ⟨hready, ht', hnext⟩ := Tx.summing table idle mac ht hd none e r
      refine ⟨[], 0, by cases r <;> rfl, ?_, fun _ _ _ _ => .inl ⟨rfl, rfl, le_rfl⟩⟩
      have hstep : Stage.Run.next (⟨⟨.idle, mac, cs, t⟩, none⟩ : (Ip.iptx p P table idle).Run) ⟨e, none, r⟩ =
          ⟨State.next ⟨.idle, mac, cs, t⟩ (input table idle e none r), none⟩ :=
        congrArg (Stage.Run.mk _) (ite_self _)
      rw [hstep, hnext]
      exact .rest mac _ _ (by rw [Option.isSome_none, next_hold, hc]) ht'
    -- a packet begins, and its checksum is started
    | some a =>
      obtain ⟨hready, w', hrel, -⟩ := Rel.summing table idle mac
        (computes_start engine (summed p a.1) hc) ht e r
      obtain ⟨hgives, hnext⟩ := kept (s := ⟨⟨.idle, mac, cs, t⟩, none⟩) (i := ⟨e, some a, r⟩) (fun h => by cases h) rfl hready
      rw [hgives, hnext]
      exact ⟨(words (sentHeader p a.1)).map Beat.ofWord ++ [sentBeat a], w', List.append_nil _, hrel,
        fun _ h => absurd h (Option.some_ne_none _)⟩
  | sum mac cs t a hc ht =>
    obtain ⟨hready, w', hrel, hw⟩ := Rel.summing table idle mac hc ht i.env i.ready
    obtain ⟨hgives, hnext⟩ := kept (s := ⟨⟨.idle, mac, cs, t⟩, some a⟩) (i := i) (fun h => by cases h) rfl hready
    rw [hgives, hnext]
    exact ⟨_, w', List.append_nil _, hrel, fun h _ _ _ => .inr (.inr (hw h.1 h.2))⟩
  -- the address is asked for
  | resolve fsm mac cs t a hf hc ht =>
    obtain ⟨x, ws, hl⟩ := List.exists_cons_of_ne_nil (W.words_ne (sentHeader p a.1))
    obtain ⟨w', hrel, hw⟩ := Rel.resolving table idle mac (.inr hf) hc ht i.env i.ready
    have hne : fsm ≠ .send := by rcases hf with rfl | rfl <;> decide
    obtain ⟨hgives, hnext⟩ := kept (s := ⟨⟨fsm, mac, cs, t⟩, some a⟩) (i := i) hne rfl
      (pending table idle mac ht hc hl fsm i.env i.ready).2.1
    rw [hgives, hnext]
    exact ⟨_, w', List.append_nil _, hrel, fun h _ _ _ => .inr (.inr (hw h.1 h.2))⟩
  -- the header is at the source
  | head mac cs t a l hc ht hl =>
    obtain ⟨x, ws, hx⟩ := List.exists_cons_of_ne_nil hl
    obtain ⟨hsource, t', ht', hnext⟩ := sending_head table idle mac i ht hc hx
    rw [hnext]
    have hgive : Stage.Run.gives (sending table idle mac cs t (some a)) i = if i.ready then some (.ofWord x) else none := by
      rw [← hsource]; rfl
    rw [hgive]
    cases hr : i.ready with
    | false =>
      rw [hr] at ht'
      refine ⟨_, 0, List.append_nil _, .head mac cs t' a l hc ht' hl, fun _ _ _ _ => .inr (.inl ⟨?_, rfl⟩)⟩
      rw [hsource]
      exact Option.some_ne_none _
    | true =>
      rw [hr] at ht'
      rw [hx]
      refine ⟨ws.map Beat.ofWord ++ [sentBeat a], 0, List.append_nil _, ?_, fun _ _ _ h => absurd h (Option.some_ne_none _)⟩
      cases ws with
      | nil => exact .data mac cs t' (some a) hc.done ht'
      | cons y ws => exact .head mac cs t' a (some (y :: ws)) hc ht' (List.cons_ne_nil _ _)
  -- the beats of the packet
  | data mac cs t b hd ht =>
    obtain ⟨hsource, t', ht', hnext⟩ := sending_data table idle mac i ht hd b
    rw [hnext]
    have hgive : Stage.Run.gives (sending table idle mac cs t b) i =
        if i.ready then (b.or i.offer).map sentBeat else none := by rw [← hsource]; rfl
    have hbeat : b.toList ++ (Stage.Run.arrives (sending table idle mac cs t b) i).toList = (b.or i.offer).toList :=
      Stage.Run.offered_toList (sending table idle mac cs t b) i
    have howed : b.toList.map sentBeat ++ (sends p words).outs ((sends p words).run true b.toList)
        (Stage.Run.arrives (sending table idle mac cs t b) i).toList = ((b.or i.offer).map sentBeat).toList := by
      have h : ∀ c : Option (UserParams × Beat p.dw), (c.map sentBeat).toList = (sends p words).outs true c.toList := by
        rintro (_ | a) <;> rfl
      rw [← Option.toList_map, h, ← Transducer.outs_append, hbeat, ← h]
    rw [hgive, howed, ← Transducer.run_append, hbeat]
    -- the producer pauses
    cases hoff : b.or i.offer with
    | none =>
      obtain ⟨rfl, -⟩ := Option.or_eq_none_iff.1 hoff
      rw [hoff] at ht'
      rw [ite_self]
      exact ⟨[], 0, by rw [Option.map_none, ite_self]; rfl, .data mac cs t' none hd ht',
        fun _ _ _ _ => .inl ⟨rfl, rfl, le_rfl⟩⟩
    | some a =>
      rw [hoff] at ht' hsource
      cases hr : i.ready with
      | false =>
        rw [hr, Bool.and_false] at ht'
        rw [Bool.and_false]
        refine ⟨_, 0, rfl, .data mac cs t' (some a) hd ht', fun _ _ _ _ => .inr (.inl ⟨?_, rfl⟩)⟩
        rw [hsource]
        exact Option.some_ne_none _
      | true =>
        rw [hr, Bool.and_true] at ht'
        rw [Bool.and_true]
        exact ⟨[], 0, rfl, .sent table idle mac hd ht', fun _ _ _ h => absurd h (Option.some_ne_none _)⟩

/-- The source keeps what it offers. -/
theorem Rel.stable {s : (Ip.iptx p P table idle).Run} {q : Bool} {o : List (Beat p.dw)} {w : ℕ} (h : Rel W s q o w)
    (i : Stage.In ε (UserParams × Beat p.dw)) {x : Beat p.dw} (hx : s.source i = some x) (hr : i.ready = false)
    (j : Stage.In ε (UserParams × Beat p.dw)) : (s.next i).source j = some x := by
  cases h with
  | rest mac cs t hc ht => cases hx
  | sum mac cs t a hc ht => cases hx
  | resolve fsm mac cs t a hf hc ht => rcases hf with rfl | rfl <;> cases hx
  | head mac cs t a l hc ht hl =>
    obtain ⟨y, ws, hy⟩ := List.exists_cons_of_ne_nil hl
    obtain ⟨hsource, t', ht', hnext⟩ := sending_head table idle mac i ht hc hy
    rw [hr] at ht'
    rw [hnext, (sending_head table idle mac j ht' hc hy).1, ← hx]
    exact hsource.symm
  | data mac cs t b hd ht =>
    obtain ⟨hsource, t', ht', hnext⟩ := sending_data table idle mac i ht hd b
    have hx' := hsource.symm.trans hx
    rw [hr, Bool.and_false] at ht' hnext
    rw [hnext]
    refine (sending_data table idle mac j ht' hd (b.or i.offer)).1.trans ?_
    obtain ⟨a, ha, hax⟩ := Option.map_eq_some_iff.1 hx'
    rw [ha, ← hax]
    rfl

/-- The transmitter sends the packets offered to it, each after its header, while its requests are answered. -/
def transmits (W : P.PrependsWords words) {H : ε → Prop}
    (hH : ∀ e, H e → (table e).requestReady = true ∧ (table e).responseValid = true) :
    Stage.Sim H (Ip.iptx p P table idle) (sends p words) where
  W := ℕ
  linear := inferInstance
  wf := wellFoundedLT_nat
  Rel := Rel W
  reset := ⟨0, .rest _ _ _ rfl W.reset⟩
  cycle h i _ := by
    obtain ⟨o', w', ho, hrel, hprog⟩ := h.cycle i
    exact ⟨o', w', ho, hrel, fun he => hprog (hH i.env he)⟩
  stable h i _ _ hx hr j := h.stable i hx hr j

end Tx

end LiteEth.Core.Ip
