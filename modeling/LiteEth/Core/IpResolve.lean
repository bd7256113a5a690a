/-
The IPv4 transmitter and the ARP table: it asks for the address of each packet, but for multicasts,
and then sends the packet with the address it is told or, if it is told none, drops all of it.
-/
import LiteEth.Core.IpStream
import LiteEth.Mac.Common

namespace LiteEth.Core.Ip

open LiteEth.Rtl Checksum

/-- A beat of `arp_table.response`. -/
structure Response where
  failed : Bool
  macAddress : BitVec 48
  deriving DecidableEq

/-- The environment of the transmitter: `arp_table.request.ready` and `arp_table.response` (`none`
when it is not valid). `idle` drives the sink while `sink.valid = 0`. -/
structure Env (dw : ℕ) where
  requestReady : Bool
  response : Option Response
  idle : UserParams × Beat dw

namespace Tx

/-- The inputs of a cycle. -/
def resolving {dw : ℕ} (e : Env dw) (a : Option (UserParams × Beat dw)) (r : Bool) : In dw where
  sinkValid := a.isSome
  params := (a.getD e.idle).1
  beat := (a.getD e.idle).2
  sourceReady := r
  requestReady := e.requestReady
  responseValid := e.response.isSome
  responseFailed := e.response.any (·.failed)
  responseMac := (e.response.map (·.macAddress)).getD 0

/-- `ethernet_type_ip`. -/
def ethernetTypeIp : BitVec 16 := 0x0800

/-- The MAC header of what is sent. -/
def macHeader (p : Params) (mac : BitVec 48) : Mac.Header :=
  { targetMac := mac, senderMac := p.macAddress, ethernetType := ethernetTypeIp }

/-- The MAC address of a multicast group. -/
def multicastMac (ip : BitVec 32) : BitVec 48 := mcastOui ++ 0#1 ++ ip.extractLsb' 0 23

end Tx

/-- `LiteEthIPTX` with its MAC header fields, and any table. -/
abbrev resolver (p : Params) (P : Packetizer Header p.dw) :
    Stage (Env p.dw) (UserParams × Beat p.dw) (Mac.Header × Beat p.dw) where
  State := Tx.State p P
  reset := .init p P
  source s e a := (s.source (Tx.resolving e a false)).map (Tx.macHeader p s.targetMac, ·)
  ready s e a r := s.sinkReady (Tx.resolving e a r)
  step s e a r := s.next (Tx.resolving e a r)

namespace Resolver

open Tx

variable {p : Params} {P : Packetizer Header p.dw}

/-- What the others see of the transmitter. -/
inductive Event (dw : ℕ)
  | request (ipAddress : BitVec 32)
  | response (r : Response)
  | targetUnreachable
  | sent (x : Mac.Header × Beat dw)
  deriving DecidableEq

/-- The events of a cycle: a request that the table accepts, a response that the transmitter
accepts, a pulse of `target_unreachable`, a beat that is taken at the source. -/
def events (s : (resolver p P).Run) (i : Stage.In (Env p.dw) (UserParams × Beat p.dw)) : List (Event p.dw) :=
  let j := resolving i.env (s.offered i) i.ready
  (if s.state.fsm = .sendMacAddressRequest ∧ j.requestReady = true then [.request j.params.ipAddress] else []) ++
  (if s.state.fsm = .waitMacAddressResponse then i.env.response.toList.map .response else []) ++
  (if s.state.targetUnreachable j = true then [.targetUnreachable] else []) ++
  (s.gives i).toList.map .sent

/-- The events of a run. -/
def eventLog (is : List (Stage.In (Env p.dw) (UserParams × Beat p.dw))) : List (Event p.dw) :=
  (resolver p P).machine.log events (resolver p P).machine.reset is

/-! ## What is due for a packet -/

/-- What decides about a packet: the table's response, and the checksum of the header. -/
structure Outcome where
  response : Response
  checksum : BitVec 16

section Due

variable (p) (words : Header → List (BitVec p.dw))

/-- The header with a packet is sent to `mac`, then its beats. -/
def delivery (mac : BitVec 48) (checksum : BitVec 16) (a : UserParams) (f : List (UserParams × Beat p.dw)) :
    List (Event p.dw) :=
  ((words (header p a checksum)).map Beat.ofWord ++ f.map sentBeat).map fun b => .sent (macHeader p mac, b)

/-- The request for a packet, and the response to it. -/
def asked {dw : ℕ} (ip : BitVec 32) (r : Response) : List (Event dw) := [.request ip, .response r]

/-- The events for a packet with parameters `a`. -/
def handledFor (o : Outcome) (a : UserParams) (f : List (UserParams × Beat p.dw)) : List (Event p.dw) :=
  if isMulticast a.ipAddress then delivery p words (multicastMac a.ipAddress) o.checksum a f
  else asked a.ipAddress o.response ++
    if o.response.failed then [.targetUnreachable] else delivery p words o.response.macAddress o.checksum a f

/-- The events for a packet, or for its beats so far. -/
def handled (o : Outcome) (f : List (UserParams × Beat p.dw)) : List (Event p.dw) :=
  f.head?.elim [] fun a => handledFor p words o a.1 f

end Due

/-! ## Phases -/

/-- The beats of the packetizer that are seen at the source. -/
def out (p : Params) (fsm : Fsm) (mac : BitVec 48) (bs : List (Beat p.dw)) : List (Event p.dw) :=
  if fsm = .send then bs.map fun b => .sent (macHeader p mac, b) else []

theorem out_append (p : Params) (fsm : Fsm) (mac : BitVec 48) (bs cs : List (Beat p.dw)) :
    out p fsm mac (bs ++ cs) = out p fsm mac bs ++ out p fsm mac cs := by
  unfold out
  split_ifs
  · exact List.map_append
  · rfl

section Phases

variable {words : Header → List (BitVec p.dw)}

/-- Once it is decided about a packet with parameters `a`, `lead` has been seen, and the packetizer is
sent or dropped. -/
structure Decided (words : Header → List (BitVec p.dw)) (o : Outcome) (a : UserParams) (fsm : Fsm) (mac : BitVec 48)
    (lead : List (Event p.dw)) : Prop where
  fsm_eq : fsm = .send ∨ fsm = .drop
  due : ∀ f, handledFor p words o a f =
    lead ++ out p fsm mac ((words (header p a o.checksum)).map .ofWord ++ f.map sentBeat)

theorem decided_multicast {a : UserParams} (h : isMulticast a.ipAddress = true) (o : Outcome) :
    Decided (p := p) words o a .send (multicastMac a.ipAddress) [] :=
  ⟨.inl rfl, fun _ => if_pos h⟩

theorem decided_sent {a : UserParams} (h : isMulticast a.ipAddress = false) {o : Outcome}
    (hf : o.response.failed = false) :
    Decided (p := p) words o a .send o.response.macAddress (asked a.ipAddress o.response) := by
  refine ⟨.inl rfl, fun f => ?_⟩
  unfold handledFor
  rw [h, hf]
  rfl

theorem decided_dropped {a : UserParams} (h : isMulticast a.ipAddress = false) {o : Outcome}
    (hf : o.response.failed = true) (mac : BitVec 48) :
    Decided (p := p) words o a .drop mac (asked a.ipAddress o.response ++ [.targetUnreachable]) := by
  refine ⟨.inr rfl, fun f => ?_⟩
  unfold handledFor
  rw [h, hf]
  exact (List.append_nil _).symm

theorem Decided.next {o : Outcome} {a : UserParams} {fsm : Fsm} {mac : BitVec 48} {lead : List (Event p.dw)}
    (h : Decided words o a fsm mac lead) (f g : List (UserParams × Beat p.dw)) :
    handledFor p words o a (f ++ g) = handledFor p words o a f ++ out p fsm mac (g.map sentBeat) := by
  rw [h.due, h.due, List.map_append, ← List.append_assoc, out_append, List.append_assoc]

/-- The transmitter in a state, with a beat that has been offered to it. -/
abbrev holding (fsm : Fsm) (mac : BitVec 48) (cs : Checksum.State) (t : P.State) (b : Option (UserParams × Beat p.dw)) :
    (resolver p P).Run := ⟨{ fsm := fsm, targetMac := mac, checksum := cs, packetizer := t }, b⟩

/-- What has been seen of the packet that is being handled: `m` are its beats that have been taken, `part` the events.
`w` counts down while the table and the source are ready. -/
inductive Rel (W : P.PrependsWords words) :
    (resolver p P).Run → List (UserParams × Beat p.dw) → List (Event p.dw) → ℕ ×ₗ ℕ → Prop
  | idle (mac : BitVec 48) (cs : Checksum.State) (t : P.State) (b : Option (UserParams × Beat p.dw))
      (hc : cs.counter ≤ 9) (ht : W.Left t none) :
      Rel W (holding .idle mac cs t b) [] [] (toLex (2, 12 - cs.counter))
  | request (mac : BitVec 48) (cs : Checksum.State) (t : P.State) (a : UserParams × Beat p.dw)
      (hm : isMulticast a.1.ipAddress = false) (hd : cs.done engine = true) (ht : W.Left t none) :
      Rel W (holding .sendMacAddressRequest mac cs t (some a)) [] []
        (toLex (2, 2))
  | wait (mac : BitVec 48) (cs : Checksum.State) (t : P.State) (a : UserParams × Beat p.dw)
      (hm : isMulticast a.1.ipAddress = false) (hd : cs.done engine = true) (ht : W.Left t none) :
      Rel W (holding .waitMacAddressResponse mac cs t (some a)) []
        [.request a.1.ipAddress] (toLex (2, 1))
  | head (fsm : Fsm) (mac : BitVec 48) (cs : Checksum.State) (t : P.State) (a : UserParams × Beat p.dw)
      (r : Response) (lead : List (Event p.dw)) (l : Option (List (BitVec p.dw))) (gone : List (BitVec p.dw))
      (hd : cs.done engine = true)
      (ho : Decided words ⟨r, cs.value engine (summed p a.1)⟩ a.1 fsm mac lead) (ht : W.Left t l)
      (hl : l.getD (words (header p a.1 (cs.value engine (summed p a.1)))) ≠ [])
      (hg : words (header p a.1 (cs.value engine (summed p a.1))) =
        gone ++ l.getD (words (header p a.1 (cs.value engine (summed p a.1))))) :
      Rel W (holding fsm mac cs t (some a)) []
        (lead ++ out p fsm mac (gone.map .ofWord))
        (toLex (1, (l.getD (words (header p a.1 (cs.value engine (summed p a.1))))).length))
  | data (fsm : Fsm) (mac : BitVec 48) (cs : Checksum.State) (t : P.State) (b : Option (UserParams × Beat p.dw))
      (m : List (UserParams × Beat p.dw)) (a : UserParams × Beat p.dw) (o : Outcome) (lead : List (Event p.dw))
      (hd : cs.done engine = true) (ho : Decided words o a.1 fsm mac lead) (ht : W.Left t (some []))
      (ha : (m ++ b.toList).head? = some a) :
      Rel W (holding fsm mac cs t b) m (handledFor p words o a.1 m)
        (toLex (0, 0))

/-- The table and the source are ready. -/
structure Served (i : Stage.In (Env p.dw) (UserParams × Beat p.dw)) : Prop where
  source : i.ready = true
  request : i.env.requestReady = true
  response : i.env.response.isSome = true

/-- One cycle: the packet that is being handled goes on, or it ends and has been handled. -/
inductive Goes (W : P.PrependsWords words) (s : (resolver p P).Run) (m : List (UserParams × Beat p.dw))
    (part : List (Event p.dw)) (w : ℕ ×ₗ ℕ) (i : Stage.In (Env p.dw) (UserParams × Beat p.dw)) : Prop
  | on (w' : ℕ ×ₗ ℕ) (ht : isLast ((s.takes i).map (·.2)) = false)
      (hs : Rel W (s.next i) (m ++ (s.takes i).toList) (part ++ events s i) w')
      (hw : Served i → s.held ≠ none → (s.next i).held = none ∨ w' < w)
  | ends (w' : ℕ ×ₗ ℕ) (a : UserParams × Beat p.dw) (o : Outcome) (ht : s.takes i = some a) (hl : a.2.last = true)
      (he : part ++ events s i = handled p words o (m ++ [a])) (hs : Rel W (s.next i) [] [] w')

theorem Goes.stay {W : P.PrependsWords words} {s s' : (resolver p P).Run} {m : List (UserParams × Beat p.dw)}
    {part : List (Event p.dw)} {w w' : ℕ ×ₗ ℕ} {i : Stage.In (Env p.dw) (UserParams × Beat p.dw)}
    {es part' : List (Event p.dw)} (htakes : s.takes i = none) (hnext : s.next i = s') (hevents : events s i = es)
    (hpart : part ++ es = part') (hs : Rel W s' m part' w') (hw : Served i → s.held ≠ none → w' < w) :
    Goes W s m part w i := by
  refine .on w' (by rw [htakes]; rfl) ?_ fun hi hn => .inr (hw hi hn)
  rw [htakes, hnext, hevents, hpart, Option.toList_none, List.append_nil]
  exact hs

/-- The counter of an engine that is at work. -/
theorem counter_next {cs : Checksum.State} (h : cs.counter ≤ 9) (hd : cs.done engine = false) (b : HeaderBytes) :
    cs.counter < 9 ∧ (cs.next engine true false b).counter = cs.counter + 1 := by
  have hne : cs.counter ≠ 9 := by
    rw [← nCycles_engine]
    exact beq_eq_false_iff_ne.1 hd
  have hw := lt_two_pow_bitsFor (nCycles engine)
  rw [nCycles_engine] at hw
  refine ⟨by omega, ?_⟩
  simp only [Checksum.State.next, hd, Bool.false_eq_true, if_false, Bool.not_false, Bool.and_self, if_true, nCycles_engine]
  exact Nat.mod_eq_of_lt (by omega)

theorem counter_le {cs : Checksum.State} (h : cs.counter ≤ 9) (ce reset : Bool) (b : HeaderBytes) :
    (cs.next engine ce reset b).counter ≤ 9 := by
  cases reset with
  | true => exact Nat.zero_le 9
  | false =>
    cases hd : cs.done engine with
    | true => rwa [next_done engine hd]
    | false =>
      cases ce with
      | false => rwa [next_hold]
      | true =>
        obtain ⟨hlt, heq⟩ := counter_next h hd b
        omega

theorem counter_eq {cs : Checksum.State} (hd : cs.done engine = true) : cs.counter = 9 := by
  rw [← nCycles_engine]
  exact beq_iff_eq.1 hd

section Cycle

variable {W : P.PrependsWords words} {fsm : Fsm} {mac : BitVec 48} {cs : Checksum.State} {t : P.State}
  {b : Option (UserParams × Beat p.dw)} {i : Stage.In (Env p.dw) (UserParams × Beat p.dw)}

variable (fsm mac cs) in
/-- A word of the header is shown, and the beat kept. -/
theorem shown {l : Option (List (BitVec p.dw))} (ht : W.Left t l) (hd : cs.done engine = true)
    {a : UserParams × Beat p.dw} (ha : b.or i.offer = some a) {x : BitVec p.dw} {ws : List (BitVec p.dw)}
    (hl : l.getD (words (header p a.1 (cs.value engine (summed p a.1)))) = x :: ws) :
    let s := holding (P := P) fsm mac cs t b
    let j := resolving i.env (some a) i.ready
    s.takes i = none ∧ s.state.packet j = some (.ofWord x) ∧
      s.next i = holding (s.state.next j).fsm (s.state.next j).targetMac cs (s.state.next j).packetizer (some a) ∧
      W.Left (s.state.next j).packetizer (if s.state.packetReady j then some ws else l) := by
  intro s j
  obtain ⟨hpacket, hready, hcs, ht'⟩ := at_header (s := s.state) (i := j) ht hd rfl hl
  have hoff : s.offered i = some a := ha
  refine ⟨?_, hpacket, ?_, ht'⟩
  · show (if s.state.sinkReady (resolving i.env (s.offered i) i.ready) then s.offered i else none) = none
    rw [hoff, hready]
    rfl
  · show (⟨s.state.next (resolving i.env (s.offered i) i.ready),
      if s.state.sinkReady (resolving i.env (s.offered i) i.ready) then none else s.offered i⟩ :
        (resolver p P).Run) = _
    rw [hoff, hready]
    exact congrArg (Stage.Run.mk · (some a)) (state_eq rfl rfl hcs)

variable (mac cs) in
/-- The packetizer has no beat: none is taken. -/
theorem waiting (ht : W.Left t none) (hn : b.or i.offer = none ∨ cs.done engine = false) :
    let s := holding (P := P) .idle mac cs t b
    s.takes i = none ∧ ∃ t', W.Left t' none ∧ s.next i = holding .idle mac
      (cs.next engine (b.or i.offer).isSome false (summed p ((b.or i.offer).getD i.env.idle).1)) t' (b.or i.offer) := by
  intro s
  let j := resolving i.env (b.or i.offer) i.ready
  -- nothing is offered, or the checksum is not there yet
  have hn' : j.sinkValid = false ∨ s.state.done = false := by
    refine hn.imp (fun h => ?_) id
    show (b.or i.offer).isSome = false
    rw [h]
    rfl
  obtain ⟨hpacket, ht'⟩ := at_rest (s := s.state) (i := j) ht (sinkBeat_none hn')
  have hnext : s.state.next j = ⟨.idle, mac,
      cs.next engine (b.or i.offer).isSome false (summed p ((b.or i.offer).getD i.env.idle).1),
      (s.state.next j).packetizer⟩ := by
    refine state_eq ?_ ?_ rfl
    · show (if (s.state.packet j).isSome then _ else Fsm.idle) = _
      rw [hpacket]
      rfl
    · show (if (s.state.packet j).isSome && _ then _ else mac) = _
      rw [hpacket]
      rfl
  -- the beat stays at the sink
  have hkept : (if s.state.sinkReady j then none else b.or i.offer) = b.or i.offer := by
    rcases hn with hn | hn
    · rw [hn, ite_self]
    · have hready : s.state.sinkReady j = false := by
        show (_ && cs.done engine) = false
        rw [hn, Bool.and_false]
      rw [hready]
      rfl
  refine ⟨?_, _, ht', congrArg₂ Stage.Run.mk hnext hkept⟩
  show (if s.state.sinkReady j then b.or i.offer else none) = none
  rcases hn with hn | hn
  · rw [hn, ite_self]
  · show (if (_ && cs.done engine) = true then _ else none) = none
    rw [hn, Bool.and_false]
    rfl

/-- The FSM is not sending: nothing is given. -/
theorem events_eq {s : (resolver p P).Run} (hf : s.state.fsm ≠ .send) :
    events s i = (if s.state.fsm = .sendMacAddressRequest ∧ i.env.requestReady = true
        then [.request ((s.offered i).getD i.env.idle).1.ipAddress] else []) ++
      (if s.state.fsm = .waitMacAddressResponse then i.env.response.toList.map .response else []) ++
      (if s.state.targetUnreachable (resolving i.env (s.offered i) i.ready) = true then [.targetUnreachable] else []) := by
  have hgives : s.gives i = none := by
    show (if i.ready then ((if s.state.fsm = .send then _ else none : Option (Beat p.dw))).map _ else none) = none
    rw [if_neg hf, Option.map_none, ite_self]
  unfold events
  rw [hgives]
  exact List.append_nil _

/-- No packet is with the transmitter, or its checksum is not ready. -/
theorem goes_idle (hc : cs.counter ≤ 9) (ht : W.Left t none) :
    Goes W (holding .idle mac cs t b) [] [] (toLex (2, 12 - cs.counter)) i := by
  have hevents : events (holding (P := P) .idle mac cs t b) i = [] := events_eq (fun h => by cases h)
  by_cases hn : b.or i.offer = none ∨ cs.done engine = false
  · -- the sum is not there yet: one more of its cycles
    obtain ⟨htakes, t', ht', hnext⟩ := waiting mac cs (P := P) (i := i) ht hn
    refine .stay htakes hnext hevents rfl (.idle mac _ t' _ (counter_le hc _ _ _) ht') fun _ hb => ?_
    obtain ⟨a, rfl⟩ := Option.ne_none_iff_exists'.1 hb
    obtain ⟨hlt, hcounter⟩ := counter_next hc (hn.resolve_left nofun) (summed p a.1)
    refine Prod.Lex.toLex_lt_toLex.2 (.inr ⟨rfl, ?_⟩)
    show 12 - (cs.next engine true false (summed p a.1)).counter < 12 - cs.counter
    omega
  · -- the sum is there
    obtain ⟨hoff, hnd⟩ := not_or.1 hn
    have hd := eq_true_of_ne_false hnd
    obtain ⟨a, hoff⟩ := Option.ne_none_iff_exists'.1 hoff
    obtain ⟨x, ws, hl⟩ := List.exists_cons_of_ne_nil (W.words_ne (header p a.1 (cs.value engine (summed p a.1))))
    obtain ⟨htakes, hpacket, hnext, ht'⟩ := shown .idle mac cs (l := none) ht hd hoff hl
    have hcounter := counter_eq hd
    cases hm : isMulticast a.1.ipAddress with
    -- the address of a group is known
    | true =>
      have hfsm : (Tx.State.next ⟨.idle, mac, cs, t⟩ (resolving i.env (some a) i.ready)).fsm = .send := by
        show (if (Tx.State.packet _ (resolving i.env (some a) i.ready)).isSome then
          (if isMulticast a.1.ipAddress then Fsm.send else _) else _) = _
        rw [hpacket, hm]
        rfl
      have hmac : (Tx.State.next ⟨.idle, mac, cs, t⟩ (resolving i.env (some a) i.ready)).targetMac =
          multicastMac a.1.ipAddress := by
        show (if (Tx.State.packet _ (resolving i.env (some a) i.ready)).isSome && isMulticast a.1.ipAddress then
          multicastMac a.1.ipAddress else _) = _
        rw [hpacket, hm]
        rfl
      rw [hfsm, hmac] at hnext
      exact .stay htakes hnext hevents rfl (.head .send _ cs _ a ⟨false, 0⟩ [] none [] hd (decided_multicast hm _) ht'
        (W.words_ne _) rfl) fun _ _ => Prod.Lex.toLex_lt_toLex.2 (.inl Nat.one_lt_two)
    | false =>
      -- that of a host has to be asked for
      have hfsm : (Tx.State.next ⟨.idle, mac, cs, t⟩ (resolving i.env (some a) i.ready)).fsm =
          .sendMacAddressRequest := by
        show (if (Tx.State.packet _ (resolving i.env (some a) i.ready)).isSome then
          (if isMulticast a.1.ipAddress then Fsm.send else _) else _) = _
        rw [hpacket, hm]
        rfl
      rw [hfsm] at hnext
      refine .stay htakes hnext hevents rfl (.request _ cs _ a hm hd ht') fun _ _ =>
        Prod.Lex.toLex_lt_toLex.2 (.inr ⟨rfl, ?_⟩)
      show 2 < 12 - cs.counter
      omega

/-- The request for the packet's address is offered to the table. -/
theorem goes_request {a : UserParams × Beat p.dw} (hm : isMulticast a.1.ipAddress = false)
    (hd : cs.done engine = true) (ht : W.Left t none) :
    Goes W (holding .sendMacAddressRequest mac cs t (some a)) [] [] (toLex (2, 2)) i := by
  obtain ⟨x, ws, hl⟩ := List.exists_cons_of_ne_nil (W.words_ne (header p a.1 (cs.value engine (summed p a.1))))
  obtain ⟨htakes, -, hnext, ht'⟩ := shown .sendMacAddressRequest mac cs (l := none) (i := i) (b := some a) ht hd rfl hl
  have hevents : events (holding (P := P) .sendMacAddressRequest mac cs t (some a)) i =
      if i.env.requestReady then [.request a.1.ipAddress] else [] := by
    rw [events_eq fun h => by cases h]
    show (if Fsm.sendMacAddressRequest = .sendMacAddressRequest ∧ i.env.requestReady = true then
      [Event.request a.1.ipAddress] else []) ++ [] ++ [] = _
    simp
  cases hr : i.env.requestReady with
  | true =>
    have hfsm : (Tx.State.next ⟨.sendMacAddressRequest, mac, cs, t⟩ (resolving i.env (some a) i.ready)).fsm =
        .waitMacAddressResponse := if_pos hr
    rw [hfsm] at hnext
    rw [hr] at hevents
    exact .stay htakes hnext hevents rfl (.wait mac cs _ a hm hd ht') fun _ _ =>
      Prod.Lex.toLex_lt_toLex.2 (.inr ⟨rfl, Nat.one_lt_two⟩)
  | false =>
    have hfsm : (Tx.State.next ⟨.sendMacAddressRequest, mac, cs, t⟩ (resolving i.env (some a) i.ready)).fsm =
        .sendMacAddressRequest := if_neg (ne_true_of_eq_false hr)
    rw [hfsm] at hnext
    rw [hr] at hevents
    exact .stay htakes hnext hevents rfl (.request mac cs _ a hm hd ht') fun hi => absurd hi.request (ne_true_of_eq_false hr)

/-- The response is awaited. -/
theorem goes_wait {a : UserParams × Beat p.dw} (hm : isMulticast a.1.ipAddress = false) (hd : cs.done engine = true)
    (ht : W.Left t none) :
    Goes W (holding .waitMacAddressResponse mac cs t (some a)) [] [.request a.1.ipAddress] (toLex (2, 1)) i := by
  obtain ⟨x, ws, hl⟩ := List.exists_cons_of_ne_nil (W.words_ne (header p a.1 (cs.value engine (summed p a.1))))
  obtain ⟨htakes, -, hnext, ht'⟩ := shown .waitMacAddressResponse mac cs (l := none) (i := i) (b := some a) ht hd rfl hl
  have hevents : events (holding (P := P) .waitMacAddressResponse mac cs t (some a)) i =
      i.env.response.toList.map Event.response ++ if i.env.response.any (·.failed) then [.targetUnreachable] else [] := by
    rw [events_eq fun h => by cases h]
    show [] ++ i.env.response.toList.map Event.response ++
      (if (i.env.response.isSome && i.env.response.any (·.failed)) = true then _ else _) = _
    cases i.env.response <;> rfl
  obtain ⟨⟨requestReady, response, idle⟩, offer, ready⟩ := i
  cases response with
  | none =>
    exact .stay htakes hnext hevents rfl (.wait _ cs _ a hm hd ht') fun hi => absurd hi.response Bool.false_ne_true
  | some r =>
    have hcounts : toLex ((1 : ℕ), (words (header p a.1 (cs.value engine (summed p a.1)))).length) < toLex (2, 1) :=
      Prod.Lex.toLex_lt_toLex.2 (.inl Nat.one_lt_two)
    obtain ⟨failed, macAddress⟩ := r
    cases failed with
    -- nobody has the address: the packet is dropped
    | true =>
      refine .stay htakes hnext hevents rfl ?_ fun _ _ => hcounts
      have hdec : Decided words ⟨⟨true, macAddress⟩, cs.value engine (summed p a.1)⟩ a.1 .drop macAddress _ :=
        decided_dropped hm rfl macAddress
      exact .head .drop _ cs _ a ⟨true, macAddress⟩ _ none [] hd hdec ht' (W.words_ne _) rfl
    -- the packet is sent to the address
    | false =>
      refine .stay htakes hnext hevents rfl ?_ fun _ _ => hcounts
      have hdec : Decided words ⟨⟨false, macAddress⟩, cs.value engine (summed p a.1)⟩ a.1 .send macAddress _ :=
        decided_sent hm rfl
      exact .head .send _ cs _ a ⟨false, macAddress⟩ _ none [] hd hdec ht' (W.words_ne _) rfl

section Moving

variable (hf : fsm = .send ∨ fsm = .drop)

include hf

variable (fsm mac cs) in
/-- What is seen while the packetizer is sent or dropped. -/
theorem events_out : events (holding (P := P) fsm mac cs t b) i =
    out p fsm mac (if Tx.State.packetReady ⟨fsm, mac, cs, t⟩ (resolving i.env (b.or i.offer) i.ready) then
      (Tx.State.packet ⟨fsm, mac, cs, t⟩ (resolving i.env (b.or i.offer) i.ready)).toList else []) := by
  rcases hf with rfl | rfl
  · show [] ++ [] ++ [] ++ ((if i.ready then (Tx.State.packet ⟨.send, mac, cs, t⟩
      (resolving i.env (b.or i.offer) false)).map (macHeader p mac, ·) else none).toList.map Event.sent) =
      (if i.ready then (Tx.State.packet ⟨.send, mac, cs, t⟩ (resolving i.env (b.or i.offer) i.ready)).toList else []).map
        fun x => Event.sent (macHeader p mac, x)
    have hsame : Tx.State.packet ⟨.send, mac, cs, t⟩ (resolving i.env (b.or i.offer) false) =
      Tx.State.packet ⟨.send, mac, cs, t⟩ (resolving i.env (b.or i.offer) i.ready) := rfl
    rw [hsame]
    cases i.ready with
    | false => rfl
    | true => cases Tx.State.packet ⟨.send, mac, cs, t⟩ (resolving i.env (b.or i.offer) true) <;> rfl
  · rw [events_eq fun h => by cases h]
    rfl

variable (fsm mac cs) in
/-- The FSM leaves when the last beat moves. -/
theorem next_fsm (j : In p.dw) : (Tx.State.next (P := P) ⟨fsm, mac, cs, t⟩ j).fsm =
    if isLast (Tx.State.packet ⟨fsm, mac, cs, t⟩ j) && Tx.State.packetReady ⟨fsm, mac, cs, t⟩ j then .idle else fsm := by
  rcases hf with rfl | rfl
  · rfl
  · show (if isLast (Tx.State.packet _ j) then Fsm.idle else .drop) = if isLast (Tx.State.packet _ j) && true then _ else _
    rw [Bool.and_true]

theorem next_mac (j : In p.dw) : (Tx.State.next (P := P) ⟨fsm, mac, cs, t⟩ j).targetMac = mac := by
  rcases hf with rfl | rfl <;> rfl

variable (fsm mac cs) in
theorem ready_served (hi : Served i) (a : Option (UserParams × Beat p.dw)) :
    Tx.State.packetReady (P := P) ⟨fsm, mac, cs, t⟩ (resolving i.env a i.ready) = true := by
  rcases hf with rfl | rfl
  · exact hi.source
  · rfl

variable (fsm mac cs) in
/-- The engine is kept until the last beat moves. -/
theorem next_checksum (hd : cs.done engine = true) (j : In p.dw)
    (hl : (isLast (Tx.State.packet (P := P) ⟨fsm, mac, cs, t⟩ j) &&
      Tx.State.packetReady (P := P) ⟨fsm, mac, cs, t⟩ j) = false) :
    (Tx.State.next (P := P) ⟨fsm, mac, cs, t⟩ j).checksum = cs := by
  have hlast : (isLast (Tx.State.source (P := P) ⟨fsm, mac, cs, t⟩ j) && j.sourceReady) = false := by
    rcases hf with rfl | rfl
    · exact hl
    · rfl
  show cs.next engine j.sinkValid (isLast (Tx.State.source _ j) && j.sourceReady) _ = cs
  rw [hlast]
  exact next_done engine hd _ _

end Moving

/-- The header is sent or dropped. -/
theorem goes_head {a : UserParams × Beat p.dw} {r : Response} {lead : List (Event p.dw)}
    {l : Option (List (BitVec p.dw))} {gone : List (BitVec p.dw)} (hd : cs.done engine = true)
    (ho : Decided words ⟨r, cs.value engine (summed p a.1)⟩ a.1 fsm mac lead) (ht : W.Left t l)
    (hl : l.getD (words (header p a.1 (cs.value engine (summed p a.1)))) ≠ [])
    (hg : words (header p a.1 (cs.value engine (summed p a.1))) =
      gone ++ l.getD (words (header p a.1 (cs.value engine (summed p a.1))))) :
    Goes W (holding fsm mac cs t (some a)) [] (lead ++ out p fsm mac (gone.map .ofWord))
      (toLex (1, (l.getD (words (header p a.1 (cs.value engine (summed p a.1))))).length)) i := by
  obtain ⟨x, ws, hx⟩ := List.exists_cons_of_ne_nil hl
  obtain ⟨htakes, hpacket, hnext, ht'⟩ := shown fsm mac cs (i := i) (b := some a) ht hd rfl hx
  have hfsm : (Tx.State.next ⟨fsm, mac, cs, t⟩ (resolving i.env (some a) i.ready)).fsm = fsm := by
    rw [next_fsm fsm mac cs ho.fsm_eq, hpacket]
    rfl
  have hevents := events_out fsm mac cs (P := P) (t := t) (b := some a) (i := i) ho.fsm_eq
  rw [Option.some_or, hpacket] at hevents
  rw [hfsm, next_mac ho.fsm_eq] at hnext
  cases hr : Tx.State.packetReady ⟨fsm, mac, cs, t⟩ (resolving i.env (some a) i.ready) with
  -- the word of the header stays
  | false =>
    rw [hr] at ht' hevents
    have hnone : out p fsm mac [] = [] := ite_self _
    exact .stay htakes hnext (hevents.trans hnone) (List.append_nil _) (.head fsm mac cs _ a r lead l gone hd ho ht' hl hg)
      fun hi => absurd (ready_served fsm mac cs ho.fsm_eq hi _) (ne_true_of_eq_false hr)
  | true =>
    rw [hr] at ht' hevents
    rw [hx] at hg ⊢
    have hpart : lead ++ out p fsm mac (gone.map .ofWord) ++ out p fsm mac [.ofWord x] =
        lead ++ out p fsm mac ((gone ++ [x]).map .ofWord) := by
      rw [List.append_assoc, ← out_append, List.map_append]
      rfl
    cases ws with
    -- it was the last one of the header
    | nil =>
      have hdue := ho.due []
      rw [hg, List.map_nil, List.append_nil] at hdue
      exact .stay htakes hnext hevents (hpart.trans hdue.symm) (.data fsm mac cs _ (some a) [] a _ lead hd ho ht' rfl)
        fun _ _ => Prod.Lex.toLex_lt_toLex.2 (.inl Nat.zero_lt_one)
    | cons y ws =>
      have hg' : words (header p a.1 (cs.value engine (summed p a.1))) = (gone ++ [x]) ++ y :: ws := by
        rw [hg, List.append_assoc]
        rfl
      exact .stay htakes hnext hevents hpart
        (.head fsm mac cs _ a r lead (some (y :: ws)) (gone ++ [x]) hd ho ht' (List.cons_ne_nil _ _) hg')
        fun _ _ => Prod.Lex.toLex_lt_toLex.2 (.inr ⟨rfl, Nat.lt_succ_self _⟩)

variable (fsm mac cs) in
/-- A beat of the packet moves, if there is one. -/
theorem passed (hf : fsm = .send ∨ fsm = .drop) (ht : W.Left t (some [])) (hd : cs.done engine = true) :
    let s := holding (P := P) fsm mac cs t b
    let k := s.state.packetReady (resolving i.env (b.or i.offer) i.ready)
    let last := isLast ((b.or i.offer).map (·.2)) && k
    s.takes i = (if k then b.or i.offer else none) ∧
      events s i = out p fsm mac (if k then ((b.or i.offer).map sentBeat).toList else []) ∧
      ∃ t' cs', W.Left t' (if last then none else some []) ∧ (last = false → cs' = cs) ∧ cs'.counter ≤ 9 ∧
        s.next i = holding (if last then .idle else fsm) mac cs' t' (if k then none else b.or i.offer) := by
  intro s k last
  obtain ⟨hpacket, hready, ht'⟩ := at_data (s := s.state) (i := resolving i.env (b.or i.offer) i.ready) ht
  have hbeat : s.state.sinkBeat (resolving i.env (b.or i.offer) i.ready) = (b.or i.offer).map sentBeat := by
    show (if (b.or i.offer).isSome && cs.done engine then _ else _) = _
    rw [hd]
    cases b.or i.offer <;> rfl
  have hlast : isLast ((b.or i.offer).map sentBeat) = isLast ((b.or i.offer).map (·.2)) := by
    cases b.or i.offer <;> rfl
  -- while a beat is offered, the sink is ready just when the source is
  have hmoves : s.state.sinkReady (resolving i.env (b.or i.offer) i.ready) = k ∨ b.or i.offer = none :=
    (eq_or_ne (b.or i.offer) none).symm.imp (fun h => hready hd (Option.isSome_iff_ne_none.2 h)) id
  have htakes : s.takes i = if k then b.or i.offer else none := by
    show (if s.state.sinkReady (resolving i.env (b.or i.offer) i.ready) then b.or i.offer else none) = _
    rcases hmoves with h | h
    · rw [h]
    · rw [h, ite_self, ite_self]
  have hheld : (s.next i).held = if k then none else b.or i.offer := by
    show (if s.state.sinkReady (resolving i.env (b.or i.offer) i.ready) then none else b.or i.offer) = _
    rcases hmoves with h | h
    · rw [h]
    · rw [h, ite_self, ite_self]
  have hevents := events_out fsm mac cs (P := P) (t := t) (b := b) (i := i) hf
  have hfsm := next_fsm fsm mac cs (P := P) (t := t) hf (resolving i.env (b.or i.offer) i.ready)
  have hcs := next_checksum fsm mac cs (P := P) (t := t) hf hd (resolving i.env (b.or i.offer) i.ready)
  have hpacket' := hpacket.trans hbeat
  rw [hpacket'] at hevents hfsm hcs
  rw [hlast] at hfsm hcs
  rw [hbeat, hlast] at ht'
  refine ⟨htakes, hevents, _, (s.state.next (resolving i.env (b.or i.offer) i.ready)).checksum, ht', hcs,
    counter_le (counter_eq hd).le _ _ _, ?_⟩
  exact congrArg₂ Stage.Run.mk (state_eq hfsm (next_mac hf _) rfl) hheld

/-- The beats of the packet are sent or dropped. -/
theorem goes_data {m : List (UserParams × Beat p.dw)} {a : UserParams × Beat p.dw} {o : Outcome}
    {lead : List (Event p.dw)} (hd : cs.done engine = true) (ho : Decided words o a.1 fsm mac lead)
    (ht : W.Left t (some [])) (ha : (m ++ b.toList).head? = some a) :
    Goes W (holding fsm mac cs t b) m (handledFor p words o a.1 m) (toLex (0, 0)) i := by
  obtain ⟨htakes, hevents, t', cs', ht', hcs, hc, hnext⟩ :=
    passed fsm mac cs (P := P) (i := i) (b := b) ho.fsm_eq ht hd
  have hserved := fun hi : Served i => ready_served fsm mac cs (P := P) (t := t) ho.fsm_eq hi (b.or i.offer)
  -- the cycle by cases: nothing offered, a beat that stays, a beat that goes
  generalize Tx.State.packetReady (P := P) ⟨fsm, mac, cs, t⟩ (resolving i.env (b.or i.offer) i.ready) = k at *
  cases hoff : b.or i.offer with
  | none =>
    obtain ⟨rfl, -⟩ := Option.or_eq_none_iff.1 hoff
    rw [hoff] at htakes hevents ht' hcs hnext
    rw [ite_self] at htakes hnext
    have hnone : out p fsm mac (if k = true then ((none : Option (UserParams × Beat p.dw)).map sentBeat).toList else [])
        = [] := by
      cases k <;> exact ite_self _
    rw [hcs rfl] at hnext
    exact .stay htakes hnext (hevents.trans hnone) (List.append_nil _) (.data fsm mac cs t' none m a o lead hd ho ht' ha)
      fun _ h => absurd rfl h
  | some x =>
    have hmore : (m ++ [x]).head? = some a := by
      cases b with
      | none =>
        rw [Option.toList_none, List.append_nil] at ha
        rw [List.head?_append, ha]
        rfl
      | some y =>
        cases hoff
        exact ha
    rw [hoff] at htakes hevents ht' hcs hnext
    cases k with
    | false =>
      rw [Bool.and_false] at ht' hcs hnext
      rw [hcs rfl] at hnext
      exact .stay htakes hnext (hevents.trans (ite_self _)) (List.append_nil _)
        (.data fsm mac cs t' (some x) m a o lead hd ho ht' hmore) fun hi => absurd (hserved hi) Bool.false_ne_true
    | true =>
      have hgone : handledFor p words o a.1 m ++ events (holding (P := P) fsm mac cs t b) i =
          handledFor p words o a.1 (m ++ [x]) := by
        rw [hevents, ho.next]
        rfl
      cases hx : isLast ((some x).map (·.2)) with
      | false =>
        rw [hx] at ht' hcs hnext
        rw [hcs rfl] at hnext
        refine .on (toLex (0, 0)) (by rw [htakes]; exact hx) ?_ fun _ _ => .inl (by rw [hnext]; rfl)
        rw [htakes, hnext, hgone]
        exact .data fsm mac cs t' none (m ++ [x]) a o lead hd ho ht'
          (by rw [Option.toList_none, List.append_nil]; exact hmore)
      | true =>
        rw [hx] at ht' hnext
        refine .ends (toLex (2, 12 - cs'.counter)) x o htakes hx ?_ (hnext ▸ .idle mac cs' t' none hc ht')
        rw [hgone, handled, hmore]
        rfl

theorem Rel.cycle {s : (resolver p P).Run} {m : List (UserParams × Beat p.dw)} {part : List (Event p.dw)} {w : ℕ ×ₗ ℕ}
    (h : Rel W s m part w) (i : Stage.In (Env p.dw) (UserParams × Beat p.dw)) : Goes W s m part w i := by
  cases h with
  | idle mac cs t b hc ht => exact goes_idle hc ht
  | request mac cs t a hm hd ht => exact goes_request hm hd ht
  | wait mac cs t a hm hd ht => exact goes_wait hm hd ht
  | head fsm mac cs t a r lead l gone hd ho ht hl hg => exact goes_head hd ho ht hl hg
  | data fsm mac cs t b m a o lead hd ho ht ha => exact goes_data hd ho ht ha

end Cycle

/-! ## Runs -/

section Runs

variable {W : P.PrependsWords words} {s : (resolver p P).Run} {m : List (UserParams × Beat p.dw)}
  {part : List (Event p.dw)} {w : ℕ ×ₗ ℕ}

theorem handled_of_head? {f : List (UserParams × Beat p.dw)} {a : UserParams × Beat p.dw} (h : f.head? = some a)
    (o : Outcome) : handled p words o f = handledFor p words o a.1 f := by
  rw [handled, h]
  rfl

/-- What has been seen is the beginning of what is due. -/
theorem Rel.begun (h : Rel W s m part w) : ∃ o, part <+: handled p words o (m ++ s.held.toList) := by
  cases h with
  | idle => exact ⟨⟨⟨true, 0⟩, 0⟩, List.nil_prefix⟩
  | request => exact ⟨⟨⟨true, 0⟩, 0⟩, List.nil_prefix⟩
  | wait mac cs t a hm =>
    refine ⟨⟨⟨true, 0⟩, 0⟩, ?_⟩
    rw [handled_of_head? (a := a) rfl, handledFor, hm]
    exact List.prefix_append [_] _
  | head fsm mac cs t a r lead l gone hd ho ht hl hg =>
    refine ⟨⟨r, cs.value engine (summed p a.1)⟩, ?_⟩
    rw [handled_of_head? (a := a) rfl, ho.due, hg, List.map_append, out_append, out_append, List.append_assoc,
      ← List.append_assoc lead]
    exact List.prefix_append _ _
  | data fsm mac cs t b m a o lead hd ho ht ha =>
    refine ⟨o, ?_⟩
    rw [handled_of_head? ha, ho.next]
    exact List.prefix_append _ _

/-- Once no beat is offered, it is all that is due. -/
theorem Rel.settled (h : Rel W s m part w) (hs : s.held = none) : ∃ o, part = handled p words o m := by
  cases h with
  | idle => exact ⟨⟨⟨true, 0⟩, 0⟩, rfl⟩
  | request => cases hs
  | wait => cases hs
  | head => cases hs
  | data fsm mac cs t b m a o lead hd ho ht ha =>
    cases b with
    | none =>
      rw [Option.toList_none, List.append_nil] at ha
      exact ⟨o, (handled_of_head? ha o).symm⟩
    | some x => cases hs

/-- Left alone by the producer, with the source and the table ready, the transmitter takes what it has been offered. -/
theorem Rel.drains (h : Rel W s m part w) (es : ℕ → Env p.dw)
    (hes : ∀ n, (es n).requestReady = true ∧ (es n).response.isSome = true) :
    ∃ n, ((resolver p P).machine.runFrom s ((List.range n).map fun k => Stage.Sim.settle (es k))).held = none := by
  -- induction on the rank, which falls while a beat is held
  induction w using WellFoundedLT.induction generalizing s m part es with
  | ind w ih =>
    by_cases hs : s.held = none
    · exact ⟨0, hs⟩
    · have hserved : Served (Stage.Sim.settle (es 0) : Stage.In (Env p.dw) (UserParams × Beat p.dw)) :=
        ⟨rfl, (hes 0).1, (hes 0).2⟩
      cases h.cycle (Stage.Sim.settle (es 0)) with
      | on w' ht h' hw =>
        rcases hw hserved hs with hnone | hlt
        · exact ⟨1, hnone⟩
        · obtain ⟨n, hn⟩ := ih w' hlt h' (fun k => es (k + 1)) fun k => hes _
          refine ⟨n + 1, ?_⟩
          rw [List.range_succ_eq_map, List.map_cons, List.map_map, Machine.runFrom_cons]
          exact hn
      -- the beat was the last one, nothing can be held any more
      | ends w' a o ht hl he h' =>
        refine ⟨1, ?_⟩
        have hheld := Stage.Run.arrives_held s (Stage.Sim.settle (es 0))
        rw [Stage.Sim.arrives_settle, ht] at hheld
        have hlen := congrArg List.length hheld
        obtain ⟨b, hb⟩ := Option.ne_none_iff_exists'.1 hs
        rw [hb] at hlen
        cases hn : (s.next (Stage.Sim.settle (es 0))).held with
        | none => exact hn
        | some c =>
          rw [hn] at hlen
          cases hlen

/-- The events for packets, one after the other. -/
def handledAll (p : Params) (words : Header → List (BitVec p.dw)) (os : List Outcome)
    (fs : List (List (UserParams × Beat p.dw))) : List (Event p.dw) :=
  (List.zipWith (handled p words) os fs).flatten

/-- After any run, each packet that has been taken has been handled. -/
theorem accounted (W : P.PrependsWords words) (is : List (Stage.In (Env p.dw) (UserParams × Beat p.dw))) :
    ∃ os part w, os.length = (frames (·.2.last) ((resolver p P).taken is)).1.length ∧
      eventLog (P := P) is = handledAll p words os (frames (·.2.last) ((resolver p P).taken is)).1 ++ part ∧
      Rel W ((resolver p P).machine.run is) (frames (·.2.last) ((resolver p P).taken is)).2 part w := by
  -- induction on the run from its end, the relation carries the open packet
  induction is using List.reverseRecOn with
  | nil => exact ⟨[], [], _, rfl, rfl, .idle 0 .init P.reset none (Nat.zero_le 9) W.reset⟩
  | append_singleton is i ih =>
    obtain ⟨os, part, w, hlen, hlog, hrel⟩ := ih
    have hevents : eventLog (P := P) (is ++ [i]) = eventLog (P := P) is ++ events ((resolver p P).machine.run is) i := by
      unfold eventLog
      rw [Machine.log_concat]
      rfl
    rw [Stage.run_concat, Stage.taken_concat, hevents, hlog]
    cases hrel.cycle i with
    | on w' ht hs hw =>
      have hm : ∀ a ∈ (((resolver p P).machine.run is).takes i).toList, a.2.last = false := by
        intro a ha
        rw [Option.mem_toList] at ha
        rw [Option.mem_def.1 ha] at ht
        exact ht
      rw [frames_append_begun _ _ hm]
      exact ⟨os, _, w', hlen, List.append_assoc _ _ _, hs⟩
    | ends w' a o ht hl he hs =>
      rw [ht, Option.toList_some, frames_concat, frameStep, hl, if_pos rfl]
      refine ⟨os ++ [o], [], w', by rw [List.length_append, List.length_append, hlen]; rfl, ?_, hs⟩
      rw [List.append_assoc, he, handledAll, handledAll, List.zipWith_append hlen, List.flatten_append]
      simp

/-- For any packets and any table: each packet that has been taken has been handled, one after the other, and what has
been seen of the next one is the beginning of what is due for it. Left alone by the producer, with the source and the
table ready, the transmitter takes and handles all it has been offered. -/
theorem resolves (W : P.PrependsWords words) (is : List (Stage.In (Env p.dw) (UserParams × Beat p.dw))) :
    (∃ os o rest, os.length = (frames (·.2.last) ((resolver p P).taken is)).1.length ∧
      eventLog (P := P) is = handledAll p words os (frames (·.2.last) ((resolver p P).taken is)).1 ++ rest ∧
      rest <+: handled p words o
        ((frames (·.2.last) ((resolver p P).taken is)).2 ++ ((resolver p P).machine.run is).held.toList)) ∧
    (resolver p P).arrivals is = (resolver p P).taken is ++ ((resolver p P).machine.run is).held.toList ∧
    ∀ es : ℕ → Env p.dw, (∀ n, (es n).requestReady = true ∧ (es n).response.isSome = true) →
      ∃ n os o, os.length = (frames (·.2.last) ((resolver p P).arrivals is)).1.length ∧
        (resolver p P).taken (is ++ (List.range n).map fun k => Stage.Sim.settle (es k)) = (resolver p P).arrivals is ∧
        eventLog (P := P) (is ++ (List.range n).map fun k => Stage.Sim.settle (es k)) =
          handledAll p words os (frames (·.2.last) ((resolver p P).arrivals is)).1 ++
            handled p words o (frames (·.2.last) ((resolver p P).arrivals is)).2 := by
  -- the account of every moment, and what is left once the beat held is taken
  refine ⟨?_, Stage.arrivals_eq is, fun es hes => ?_⟩
  · obtain ⟨os, part, w, hlen, hlog, hrel⟩ := accounted W is
    obtain ⟨o, ho⟩ := hrel.begun
    exact ⟨os, o, part, hlen, hlog, ho⟩
  · obtain ⟨_, _, _, _, _, hrel⟩ := accounted W is
    obtain ⟨n, hn⟩ := hrel.drains es hes
    have hn' : ((resolver p P).machine.run (is ++ (List.range n).map fun k => Stage.Sim.settle (es k))).held = none := by
      unfold Machine.run
      rw [Machine.runFrom_append]
      exact hn
    obtain ⟨os, part, w, hlen, hlog, hrel'⟩ := accounted W (is ++ (List.range n).map fun k => Stage.Sim.settle (es k))
    have htaken := Stage.arrivals_eq (A := resolver p P) (is ++ (List.range n).map fun k => Stage.Sim.settle (es k))
    rw [hn', Option.toList_none, List.append_nil, Stage.Sim.arrivals_settles] at htaken
    rw [← htaken] at hlen hlog hrel'
    obtain ⟨o, rfl⟩ := hrel'.settled hn'
    exact ⟨n, os, o, hlen, htaken.symm, hlog⟩

/-- A transmitter of bytes at 10.0.0.2. -/
def byteParams : Params := { macAddress := 0x10e2d5000001, ipAddress := 0x0a000002, dw := 8 }

/-- A table that does not know any address. -/
def unknown : Env 8 where
  requestReady := true
  response := some ⟨true, 0⟩
  idle := ⟨⟨0, 0, 0⟩, .ofWord 0⟩

/-- A packet of one byte for 10.0.0.1 and, some cycles later, one for 224.0.0.1. -/
def offers : List (Stage.In (Env 8) (UserParams × Beat 8)) :=
  [⟨unknown, some (⟨1, 17, 0x0a000001⟩, ⟨0x2a, 1, 0, true⟩), true⟩] ++
    (List.range 40).map (fun _ => Stage.Sim.settle unknown) ++
  [⟨unknown, some (⟨1, 17, 0xe0000001⟩, ⟨0x2b, 1, 0, true⟩), true⟩]

theorem resolves_offers :
    let S := resolver byteParams (.words 20 Header.bytes)
    let words := fun h : Header => (List.range 20).map h.bytes
    ∃ n os o, os.length = (frames (·.2.last) (S.arrivals offers)).1.length ∧
      S.taken (offers ++ (List.range n).map fun _ => Stage.Sim.settle unknown) = S.arrivals offers ∧
      eventLog (P := .words 20 Header.bytes) (offers ++ (List.range n).map fun _ => Stage.Sim.settle unknown) =
        handledAll byteParams words os (frames (·.2.last) (S.arrivals offers)).1 ++
          handled byteParams words o (frames (·.2.last) (S.arrivals offers)).2 :=
  (resolves (p := byteParams) (Packetizer.prependsWords_words 20 headerLength_pos Header.bytes) offers).2.2
    (fun _ => unknown) fun _ => ⟨rfl, rfl⟩

end Runs

end Phases

end Resolver

end LiteEth.Core.Ip
