/-
ARP on a network: any number of hosts, each with its own `LiteEthARP`, and the frames they have sent. The network may
lose a frame, deliver it again, late or in another order, and to any host. A host may answer the wrong host, when a
later frame overtakes a reply, but no host says what is not its own address: what a table has learned is what the host
with that address said of itself, in a reply that somebody asked for.
-/
import LiteEth.Core.ArpFrame
import LiteEth.Core.ArpReply
import LiteEth.Rtl.PacketSim

namespace LiteEth.Core.Arp.Network

open LiteEth.Rtl Table

/-- The streams of every host, with words of `dw` bits: what its packetizer and its depacketizer do, where the header is
a whole number of words. -/
structure Parts (dw : ℕ) where
  words : Header → List (BitVec dw)
  fields : List (BitVec dw) → Header
  headerWords : ℕ
  length_words : ∀ x, (words x).length = headerWords
  fields_words : ∀ x, fields (words x) = x
  packetizer : Packetizer Header dw
  depacketizer : Depacketizer Header dw
  prepends : packetizer.PrependsWords words
  strips : depacketizer.StripsWords headerWords fields

/-- The address of a host. -/
structure Address where
  ip : BitVec 32
  mac : BitVec 48
  deriving DecidableEq

/-- The parameters of its `LiteEthARP`. -/
abbrev Address.params (dw : ℕ) (a : Address) : Params := { macAddress := a.mac, ipAddress := a.ip, dw := dw }

/-- A frame, as the beats that carry it. -/
abbrev Frame (dw : ℕ) := List (Beat dw)

variable {dw : ℕ}

/-- The header of a frame. -/
def Parts.header (P : Parts dw) (f : Frame dw) : Header := P.fields ((f.take P.headerWords).map (·.data))

theorem Parts.headerWords_pos (P : Parts dw) (x : Header) : 0 < P.headerWords := by
  rw [← P.length_words x]
  exact List.length_pos_of_ne_nil (P.prepends.words_ne x)

/-! ## A host -/

/-- What a host sees in a cycle besides the frames: whether the next beat is there, whether the MAC takes one, and the
requester's side of the table. -/
structure Cycle where
  offer : Bool
  sourceReady : Bool
  requestValid : Bool
  requestIp : BitVec 32
  responseReady : Bool

variable {tp : Table.Params} {rt : WaitTimer (tp.clkFreq / 10)} {ct : WaitTimer (tp.clkFreq * 10)} {P : Parts dw}

variable (tp rt ct P) in
/-- `LiteEthARP`, the beats that are still to be received, and those of the frame that is being sent. -/
structure Host (a : Address) where
  arp : Link.State (a.params dw) tp rt ct P.packetizer P.depacketizer
  inbox : List (Beat dw)
  sending : List (Beat dw)

namespace Host

variable {a : Address} (h : Host tp rt ct P a) (i : Cycle)

/-- The beat at the sink. -/
def sink : Option (Beat dw) := if i.offer then h.inbox.head? else none

/-- The sink takes its beat. -/
def takes : Bool :=
  (h.sink i).isSome &&
    P.depacketizer.sinkReady h.arp.rx.depacketizer (h.sink i) (h.arp.rx.ready (h.sink i))

/-- The beat that the MAC takes. -/
def gives : Option (Beat dw) := if i.sourceReady then h.arp.tx.source h.arp.record else none

/-- What the core sees of a cycle: the beat at the head of the inbox, and the environment. -/
def arpIn : Link.In dw :=
  { sink := h.sink i, sourceReady := i.sourceReady, requestValid := i.requestValid, requestIp := i.requestIp
    responseReady := i.responseReady }

/-- One cycle of a host: its core goes on, a beat that is taken leaves the inbox, and one that is given is added to its
frame. -/
def next : Host tp rt ct P a where
  arp := h.arp.next (h.arpIn i)
  inbox := if h.takes i then h.inbox.tail else h.inbox
  sending := if isLast (h.gives i) then [] else h.sending ++ (h.gives i).toList

/-- The frame that is complete with this cycle. -/
def sent : List (Frame dw) := if isLast (h.gives i) then [h.sending ++ (h.gives i).toList] else []

variable (tp rt ct P a) in
/-- A host after reset, with nothing to receive and nothing sent. -/
def init : Host tp rt ct P a where
  arp := (Link.arp (a.params dw) tp rt ct P.packetizer P.depacketizer).reset
  inbox := []
  sending := []

/-- The addresses in the table. -/
def cached : Address := ⟨h.arp.table.cachedIpAddress, h.arp.table.cachedMacAddress⟩

end Host

/-! ## The network -/

variable {ι : Type} [DecidableEq ι] (addr : ι → Address)

variable (tp rt ct P) in
/-- The hosts, and all frames that were sent, each with the host that sent it. -/
structure State where
  host : (k : ι) → Host tp rt ct P (addr k)
  sent : List (ι × Frame dw)

/-- A cycle of a host, or one of the frames sent so far gets to one. -/
inductive Act (ι : Type)
  | cycle (k : ι) (i : Cycle)
  | deliver (k : ι) (n : ℕ)

variable {addr}

/-- The frames on the network. -/
def State.frames (w : State tp rt ct P addr) : List (Frame dw) := w.sent.map Prod.snd

/-- A host goes through a cycle, or is given a copy of a frame that has been sent. -/
def State.next (w : State tp rt ct P addr) : Act ι → State tp rt ct P addr
  | .cycle k i => ⟨Function.update w.host k ((w.host k).next i), w.sent ++ ((w.host k).sent i).map (k, ·)⟩
  | .deliver k n =>
    ⟨Function.update w.host k { w.host k with inbox := (w.host k).inbox ++ w.frames.getD n [] }, w.sent⟩

variable (tp rt ct P addr) in
/-- The hosts on their network. -/
def network : Machine (Act ι) (State tp rt ct P addr) where
  reset := ⟨fun k => .init tp rt ct P (addr k), []⟩
  step := State.next

/-! ## What is said -/

/-- Somebody has asked for the address. -/
def Asked (P : Parts dw) (sent : List (Frame dw)) (ip : BitVec 32) : Prop :=
  ∃ f ∈ sent, (P.header f).opcode = opcodeRequest ∧ (P.header f).targetIp = ip

/-- The header of a frame that a host has sent: it gives its own address, and a reply only after a request. -/
structure Spoken (P : Parts dw) (sent : List (Frame dw)) (a : Address) (x : Header) : Prop where
  ip : x.senderIp = a.ip
  mac : x.senderMac = a.mac
  asked : x.opcode = opcodeReply → Asked P sent a.ip

/-- A host was told an address, in a reply for it. -/
def Told (P : Parts dw) (sent : List (Frame dw)) (a b : Address) : Prop :=
  ∃ f ∈ sent, (P.header f).opcode = opcodeReply ∧ (P.header f).targetIp = a.ip ∧
    b = ⟨(P.header f).senderIp, (P.header f).senderMac⟩

/-- A frame with a whole header and something behind it. -/
structure Whole (P : Parts dw) (f : Frame dw) : Prop where
  frame : IsFrame (·.last) f
  long : P.headerWords < f.length

section Mono

variable {sent sent' : List (Frame dw)} (hs : sent ⊆ sent') {a b : Address}

include hs

theorem Asked.mono {ip : BitVec 32} : Asked P sent ip → Asked P sent' ip :=
  fun ⟨f, hf, h⟩ => ⟨f, hs hf, h⟩

theorem Spoken.mono {x : Header} (h : Spoken P sent a x) : Spoken P sent' a x := ⟨h.ip, h.mac, fun hr => (h.asked hr).mono hs⟩

theorem Told.mono : Told P sent a b → Told P sent' a b := fun ⟨f, hf, h⟩ => ⟨f, hs hf, h⟩

end Mono

/-! ## Sending -/

section Host

variable {a : Address} {h : Host tp rt ct P a} {sent : List (Frame dw)}

/-- The frame that is being sent: the transmitter is busy only for the table, and what is left of the header and what
was sent are a header of this host, with beats of padding behind it. -/
structure Sends (sent : List (Frame dw)) (h : Host tp rt ct P a) : Prop where
  busy : h.arp.tx.fsm = .send → h.arp.table.fsm = .sendReply ∨ h.arp.table.fsm = .sendRequest
  inner : ∀ b ∈ h.sending, b.last = false
  begun : (P.prepends.Left h.arp.tx.packetizer none ∧ h.sending = []) ∨
    h.arp.tx.fsm = .send ∧ ∃ x ws pad, Spoken P sent a x ∧ P.prepends.Left h.arp.tx.packetizer (some ws) ∧
      h.sending.map (·.data) ++ ws = P.words x ++ pad ∧ (ws = [] ∨ pad = [])

/-- What the transmitter says in any cycle. -/
theorem spoken_header (hasked : h.arp.table.fsm = .sendReply → Asked P sent a.ip) :
    Spoken P sent a (Tx.header (a.params dw) h.arp.record) := by
  refine ⟨rfl, rfl, fun hr => ?_⟩
  cases hf : h.arp.table.fsm with
  | sendReply => exact hasked hf
  | sendRequest =>
    rw [Link.record_sendRequest hf] at hr
    cases hr
  | _ =>
    rw [Link.State.record, Table.State.source, hf] at hr
    cases hr

theorem header_eq {f : Frame dw} {x : Header} {pad : List (BitVec dw)} (hf : f.map (·.data) = P.words x ++ pad) :
    P.header f = x := by
  rw [Parts.header, List.map_take, hf, List.take_left' (P.length_words x), P.fields_words]

/-- The transmitter stays busy as long as the table waits for it. -/
theorem Sends.busy_next (hsends : Sends sent h) (i : Cycle) (hf : (h.next i).arp.tx.fsm = .send) :
    (h.next i).arp.table.fsm = .sendReply ∨ (h.next i).arp.table.fsm = .sendRequest := by
  have hf' : (h.arp.tx.next h.arp.table.sourceValid h.arp.record i.sourceReady).fsm = .send := hf
  unfold Tx.State.next at hf'
  have hwait : (h.arp.table.fsm = .sendReply ∨ h.arp.table.fsm = .sendRequest) ∧
      h.arp.tx.sinkReady h.arp.record i.sourceReady = false := by
    cases ht : h.arp.tx.fsm with
    | idle =>
      rw [ht] at hf'
      dsimp only at hf'
      split_ifs at hf' with hv
      exact ⟨by simpa [Table.State.sourceValid] using hv, Link.sinkReady_idle (i := h.arpIn i) ht⟩
    | send =>
      rw [ht] at hf'
      dsimp only at hf'
      split_ifs at hf' with hr
      exact ⟨hsends.busy ht, by simpa using hr⟩
  have hstay := Link.table_waits (i := h.arpIn i) hwait.1 hwait.2
  rcases hwait.1 with hw | hw
  · exact .inl (hstay.trans hw)
  · exact .inr (hstay.trans hw)

/-- Between frames nothing is sent. -/
theorem Sends.next_idle (hsends : Sends sent h) (i : Cycle) (hf : h.arp.tx.fsm = .idle) :
    Sends sent (h.next i) ∧ h.sent i = [] := by
  have hgives : h.gives i = none := by
    rw [Host.gives, Tx.source_idle _ hf, ite_self]
  obtain ⟨hleft, hsending⟩ : P.prepends.Left h.arp.tx.packetizer none ∧ h.sending = [] := by
    rcases hsends.begun with hb | ⟨hb, -⟩
    · exact hb
    · cases hf.symm.trans hb
  have hsending' : (h.next i).sending = [] := by
    rw [Host.next, hgives, hsending]
    rfl
  refine ⟨⟨hsends.busy_next i, ?_, .inl ⟨?_, hsending'⟩⟩, ?_⟩
  · rw [hsending']
    exact nofun
  · have hpad : h.arp.tx.pad = none := if_neg (by rw [hf]; decide)
    have := P.prepends.step_none hleft (Tx.header (a.params dw) h.arp.record) (h.arp.tx.fsm == .send && i.sourceReady)
    rwa [← hpad] at this
  · rw [Host.sent, hgives]
    rfl

/-- A beat of the header is sent, the first one of which samples it. -/
theorem Sends.next_header (hsends : Sends sent h) (i : Cycle) (hf : h.arp.tx.fsm = .send)
    {l : Option (List (BitVec dw))} (hleft : P.prepends.Left h.arp.tx.packetizer l) {x : Header} {w : BitVec dw}
    {ws : List (BitVec dw)} (hx : Spoken P sent a x)
    (hl : l.getD (P.words (Tx.header (a.params dw) h.arp.record)) = w :: ws) (hbytes : h.sending.map (·.data) ++ w :: ws = P.words x)
    (hnone : l = none → h.sending = []) : Sends sent (h.next i) ∧ h.sent i = [] := by
  obtain ⟨pad, hpad⟩ : ∃ b, h.arp.tx.pad = some b := ⟨_, if_pos hf⟩
  have hsource : h.arp.tx.source h.arp.record = some (.ofWord w) := by
    rw [Tx.State.source, if_pos hf, hpad]
    exact P.prepends.source_head hleft _ w ws hl pad
  have hstep := P.prepends.step_head hleft _ w ws hl pad i.sourceReady
  have hnext : (h.next i).arp.tx.packetizer =
      P.packetizer.step h.arp.tx.packetizer (Tx.header (a.params dw) h.arp.record) (some pad) i.sourceReady := by
    rw [← hpad]
    show P.packetizer.step _ _ _ (h.arp.tx.fsm == .send && i.sourceReady) = _
    rw [hf]
    rfl
  have hfsm : (h.next i).arp.tx.fsm = .send := by
    show (h.arp.tx.next h.arp.table.sourceValid h.arp.record i.sourceReady).fsm = .send
    simp [Tx.State.next, Tx.State.sinkReady, hf, hsource, isLast, Beat.ofWord]
  -- a word of the header is not the last of a frame
  have hlast : isLast (h.gives i) = false := by
    rw [Host.gives, hsource]
    cases i.sourceReady <;> rfl
  have hsending : (h.next i).sending = h.sending ++ (h.gives i).toList := by
    rw [Host.next, hlast]
    rfl
  refine ⟨⟨hsends.busy_next i, ?_, ?_⟩, ?_⟩
  · rw [hsending]
    intro b hb
    rcases List.mem_append.1 hb with hb | hb
    · exact hsends.inner b hb
    · rw [Option.mem_toList] at hb
      rw [isLast, Option.any_eq_false] at hlast
      exact hlast b hb
  · rw [hsending, hnext, Host.gives, hsource]
    cases hr : i.sourceReady with
    -- the word stays, at the start of a frame or inside of it
    | false =>
      rw [hr] at hstep
      rcases l with _ | ws'
      · exact .inl ⟨hstep, by simp [hnone rfl]⟩
      · refine .inr ⟨hfsm, x, ws', [], hx, hstep, ?_, .inr rfl⟩
        have hws : ws' = w :: ws := hl
        simpa [hws] using hbytes
    -- the word joins those that have been sent
    | true =>
      rw [hr] at hstep
      refine .inr ⟨hfsm, x, ws, [], hx, hstep, ?_, .inr rfl⟩
      simpa [Beat.ofWord] using hbytes
  · rw [Host.sent, hlast]
    rfl

/-- A beat of padding is sent, the last one of which ends the frame. -/
theorem Sends.next_pad (hsends : Sends sent h) (i : Cycle) (hf : h.arp.tx.fsm = .send)
    (hleft : P.prepends.Left h.arp.tx.packetizer (some [])) {x : Header} (hx : Spoken P sent a x)
    {pads : List (BitVec dw)} (hbytes : h.sending.map (·.data) = P.words x ++ pads) :
    Sends sent (h.next i) ∧ ∀ f ∈ h.sent i, Whole P f ∧ Spoken P sent a (P.header f) := by
  -- in the data phase the packetizer shows the padding itself
  obtain ⟨pad, hpad⟩ : ∃ b, h.arp.tx.pad = some b := ⟨_, if_pos hf⟩
  have hsource : h.arp.tx.source h.arp.record = some pad := by
    rw [Tx.State.source, if_pos hf, hpad]
    exact P.prepends.source_data hleft _ _
  have hstep := P.prepends.step_data hleft (Tx.header (a.params dw) h.arp.record) (some pad) i.sourceReady
  have hnext : (h.next i).arp.tx.packetizer =
      P.packetizer.step h.arp.tx.packetizer (Tx.header (a.params dw) h.arp.record) (some pad) i.sourceReady := by
    rw [← hpad]
    show P.packetizer.step _ _ _ (h.arp.tx.fsm == .send && i.sourceReady) = _
    rw [hf]
    rfl
  have hfsm : (h.next i).arp.tx.fsm = if pad.last && i.sourceReady then .idle else .send := by
    show (h.arp.tx.next h.arp.table.sourceValid h.arp.record i.sourceReady).fsm = _
    simp [Tx.State.next, Tx.State.sinkReady, hf, hsource, isLast]
  have hgives : h.gives i = if i.sourceReady then some pad else none := by rw [Host.gives, hsource]
  have hlong : (P.words x).length ≤ h.sending.length := by
    have := congrArg List.length hbytes
    rw [List.length_map, List.length_append] at this
    omega
  rw [← hnext] at hstep
  cases hr : i.sourceReady with
  | false =>
    rw [hr] at hgives hstep hfsm
    have hsending : (h.next i).sending = h.sending := by simp [Host.next, hgives, isLast]
    refine ⟨⟨hsends.busy_next i, by rw [hsending]; exact hsends.inner, .inr ⟨by simpa using hfsm, x, [], pads, hx, ?_, ?_,
      .inl rfl⟩⟩, by simp [Host.sent, hgives, isLast]⟩
    · simpa using hstep
    · rw [hsending, List.append_nil, hbytes]
  | true =>
    rw [hr] at hgives hstep hfsm
    cases hl : pad.last with
    | false =>
      have hsending : (h.next i).sending = h.sending ++ [pad] := by simp [Host.next, hgives, isLast, hl]
      refine ⟨⟨hsends.busy_next i, ?_, .inr ⟨by simpa [hl] using hfsm, x, [], pads ++ [pad.data], hx, ?_, ?_, .inl rfl⟩⟩,
        by simp [Host.sent, hgives, isLast, hl]⟩
      · rw [hsending]
        rintro b hb
        rcases List.mem_append.1 hb with hb | hb
        · exact hsends.inner b hb
        · rwa [List.mem_singleton.1 hb]
      · simpa [isLast, hl] using hstep
      · rw [hsending, List.append_nil, List.map_append, hbytes, List.append_assoc]
        rfl
    -- the last beat of the padding ends the frame, whose header is the one spoken
    | true =>
      have hsending : (h.next i).sending = [] := by simp [Host.next, hgives, isLast, hl]
      refine ⟨⟨hsends.busy_next i, by rw [hsending]; exact List.forall_mem_nil _, .inl ⟨by simpa [isLast, hl] using hstep, hsending⟩⟩, ?_⟩
      intro f hfm
      have hfeq : f = h.sending ++ [pad] := by simpa [Host.sent, hgives, isLast, hl] using hfm
      rw [P.length_words x] at hlong
      refine ⟨⟨hfeq ▸ .mk _ _ hsends.inner hl, ?_⟩, ?_⟩
      · rw [hfeq, List.length_append, List.length_singleton]
        omega
      · have hdata : f.map (·.data) = P.words x ++ (pads ++ [pad.data]) := by
          rw [hfeq, List.map_append, hbytes, List.append_assoc]
          rfl
        rw [header_eq hdata]
        exact hx

theorem Sends.next (hsends : Sends sent h) (hasked : h.arp.table.fsm = .sendReply → Asked P sent a.ip) (i : Cycle) :
    Sends sent (h.next i) ∧ ∀ f ∈ h.sent i, Whole P f ∧ Spoken P sent a (P.header f) := by
  cases hf : h.arp.tx.fsm with
  | idle =>
    obtain ⟨hnext, hsent⟩ := hsends.next_idle i hf
    exact ⟨hnext, by rw [hsent]; exact nofun⟩
  | send =>
    -- the beats of the header leave the frame open
    have hopen : Sends sent (h.next i) ∧ h.sent i = [] →
        Sends sent (h.next i) ∧ ∀ f ∈ h.sent i, Whole P f ∧ Spoken P sent a (P.header f) :=
      fun ⟨hnext, hsent⟩ => ⟨hnext, by rw [hsent]; exact nofun⟩
    rcases hsends.begun with ⟨hleft, hnone⟩ | ⟨-, x, ws, pads, hx, hleft, hbytes, hpart⟩
    · obtain ⟨w, ws, hw⟩ := List.exists_cons_of_ne_nil (P.prepends.words_ne (Tx.header (a.params dw) h.arp.record))
      exact hopen (hsends.next_header i hf hleft (spoken_header hasked) hw (by rw [hnone, ← hw]; rfl) fun _ => hnone)
    · rcases ws with _ | ⟨w, ws⟩
      · exact hsends.next_pad i hf hleft hx (by rwa [List.append_nil] at hbytes)
      · have hpads : pads = [] := hpart.resolve_left (List.cons_ne_nil _ _)
        rw [hpads, List.append_nil] at hbytes
        exact hopen (hsends.next_header i hf hleft hx rfl hbytes nofun)

/-! ## Receiving -/

/-- What is being received: `done` of a frame has been taken and `rest` of it has not, and other frames follow. In
`CHECK` and in the table's `UPDATE_TABLE`, the header is a whole one. -/
structure Receives (sent : List (Frame dw)) (h : Host tp rt ct P a) (done rest : Frame dw) (later : List (Frame dw)) : Prop where
  inbox : h.inbox = rest ++ later.flatten
  later : ∀ f ∈ later, f ∈ sent
  frame : (rest ≠ [] ∧ done ++ rest ∈ sent) ∨ (done = [] ∧ rest = [])
  got : P.strips.Got h.arp.rx.depacketizer ((done.take P.headerWords).map (·.data))
  check : h.arp.rx.fsm = .check → P.headerWords ≤ done.length ∧
    (h.arp.rx.valid = true → Rx.forUs (a.params dw) h.arp.rx.header = true)
  update : h.arp.table.fsm = .updateTable → P.headerWords ≤ done.length ∧ Rx.forUs (a.params dw) h.arp.rx.header = true ∧
    h.arp.rx.header.opcode = opcodeReply

section Receives

variable {done rest : Frame dw} {later : List (Frame dw)}

theorem length_got (done : Frame dw) : ((done.take P.headerWords).map (·.data)).length < P.headerWords ↔
    done.length < P.headerWords := by
  rw [List.length_map, List.length_take]
  omega

/-- A whole header is that of a frame that was sent. -/
theorem Receives.header (hrec : Receives sent h done rest later) (hl : P.headerWords ≤ done.length) :
    done ++ rest ∈ sent ∧ h.arp.rx.header = P.header (done ++ rest) := by
  have hmem : done ++ rest ∈ sent := by
    rcases hrec.frame with ⟨-, hmem⟩ | ⟨rfl, -⟩
    · exact hmem
    · exact absurd hl (Nat.not_le.2 (P.headerWords_pos h.arp.rx.header))
  refine ⟨hmem, ?_⟩
  rw [Rx.State.header, P.strips.header_eq hrec.got (by rw [List.length_map, List.length_take]; omega), Parts.header,
    List.take_append_of_le_length hl]

/-- The next beat at the sink is one of a frame. -/
theorem Receives.opened (hrec : Receives sent h done rest later) (hwhole : ∀ f ∈ sent, Whole P f) {b : Beat dw}
    (hb : h.inbox.head? = some b) : ∃ rest' later', Receives sent h done (b :: rest') later' := by
  rcases rest with _ | ⟨b', rest'⟩
  · obtain ⟨hdone, -⟩ : done = [] ∧ ([] : Frame dw) = [] := by
      rcases hrec.frame with ⟨hne, -⟩ | h'
      · exact absurd rfl hne
      · exact h'
    have hin := hrec.inbox
    rcases later with _ | ⟨f, later'⟩
    · rw [hin] at hb
      cases hb
    · have hf := hrec.later f List.mem_cons_self
      obtain ⟨b', rest', rfl⟩ := List.exists_cons_of_ne_nil (hwhole f hf).frame.ne_nil
      rw [hin] at hb
      cases hb
      refine ⟨rest', later', ⟨hin, fun g hg => hrec.later g (List.mem_cons_of_mem _ hg), .inl ⟨List.cons_ne_nil _ _, ?_⟩,
        hrec.got, hrec.check, hrec.update⟩⟩
      rwa [hdone]
  · have hb' : b' = b := by
      rw [hrec.inbox] at hb
      exact Option.some.inj hb
    exact ⟨rest', later, hb' ▸ hrec⟩

variable (i : Cycle)

/-- The depacketizer after the cycle. -/
theorem next_depacketizer : (h.next i).arp.rx.depacketizer =
    P.depacketizer.step h.arp.rx.depacketizer (h.sink i) (h.arp.rx.ready (h.sink i)) := rfl

/-- With a whole header, the sink is ready when the receiver is. -/
theorem Receives.takes_eq (hrec : Receives sent h done rest later) {b : Beat dw} (hb : h.sink i = some b) :
    h.takes i = if done.length < P.headerWords then true else h.arp.rx.ready (some b) := by
  rw [Host.takes, hb, P.strips.sinkReady_eq hrec.got]
  simp only [length_got, Option.isSome_some, Bool.true_and]

/-- What the depacketizer has got stays if no beat is taken. -/
theorem Receives.got_stays (hrec : Receives sent h done rest later) (ht : h.takes i = false) :
    P.strips.Got (h.next i).arp.rx.depacketizer ((done.take P.headerWords).map (·.data)) := by
  have hstep := P.strips.step hrec.got (h.sink i) (h.arp.rx.ready (h.sink i))
  rw [← next_depacketizer] at hstep
  cases hb : h.sink i with
  | none => simpa [hb, isLast] using hstep
  | some b =>
    rw [hrec.takes_eq i hb] at ht
    have hge : ¬ done.length < P.headerWords := fun hlt => by simp [hlt] at ht
    rw [if_neg hge] at ht
    rw [if_neg (by rwa [length_got]), hb, ht] at hstep
    simpa using hstep

theorem Receives.header_stays (hrec : Receives sent h done rest later) (ht : h.takes i = false)
    (hl : P.headerWords ≤ done.length) : (h.next i).arp.rx.header = h.arp.rx.header := by
  have hlen : ((done.take P.headerWords).map (·.data)).length = P.headerWords := by
    rw [List.length_map, List.length_take]
    omega
  rw [Rx.State.header, Rx.State.header, P.strips.header_eq (hrec.got_stays i ht) hlen, P.strips.header_eq hrec.got hlen]

/-- A whole header waits until the receiver takes the beat behind it. -/
theorem Receives.waits (hrec : Receives sent h done rest later) (hl : P.headerWords ≤ done.length)
    (hr : h.arp.rx.ready (h.sink i) = false) : h.takes i = false := by
  cases hb : h.sink i with
  | none => rw [Host.takes, hb]; rfl
  | some b =>
    rw [hrec.takes_eq i hb, if_neg (Nat.not_lt.2 hl), ← hb]
    exact hr

theorem Receives.check_next (hrec : Receives sent h done rest later) (hf : (h.next i).arp.rx.fsm = .check) :
    h.takes i = false ∧ P.headerWords ≤ done.length ∧
      ((h.next i).arp.rx.valid = true → Rx.forUs (a.params dw) (h.next i).arp.rx.header = true) := by
  have hf' : (h.arp.rx.next (h.sink i)).fsm = .check := hf
  obtain ⟨hidle, hsource, -, hheader, hvalid⟩ := Rx.check_next hf'
  have hl : P.headerWords ≤ done.length := by
    rw [P.strips.source_eq hrec.got] at hsource
    by_contra hlt
    rw [if_pos ((length_got done).2 (Nat.lt_of_not_le hlt))] at hsource
    cases hsource
  have hr : h.arp.rx.ready (h.sink i) = false := by
    rw [Rx.State.ready, hidle]
    simpa using hsource
  refine ⟨hrec.waits i hl hr, hl, fun hv => ?_⟩
  rw [show (h.next i).arp.rx.header = h.arp.rx.header from hheader]
  exact hvalid hv

/-- The table hears the frame in `CHECK`. -/
theorem heard (hv : h.arp.rx.sourceValid = true) : h.arp.rx.fsm = .check ∧ h.arp.rx.valid = true := by
  rwa [Rx.State.sourceValid, Bool.and_eq_true, beq_iff_eq] at hv

theorem Receives.update_next (hrec : Receives sent h done rest later) (hf : (h.next i).arp.table.fsm = .updateTable) :
    h.takes i = false ∧ P.headerWords ≤ done.length ∧ Rx.forUs (a.params dw) (h.next i).arp.rx.header = true ∧
      (h.next i).arp.rx.header.opcode = opcodeReply := by
  have hturn := turn h.arp.table (h.arp.tableIn (h.arpIn i))
  have hf' : (h.arp.table.drive (h.arp.tableIn (h.arpIn i))).fsm = .updateTable := hf
  generalize h.arp.table.drive (h.arp.tableIn (h.arpIn i)) = d at hturn hf'
  cases hturn with
  | learn _ hv _ hr _ =>
    obtain ⟨hcheck, hvalid⟩ := heard hv
    obtain ⟨hl, hus⟩ := hrec.check hcheck
    have ht := hrec.waits i hl (by rw [Rx.State.ready, hcheck])
    rw [hrec.header_stays i ht hl]
    refine ⟨ht, hl, hus hvalid, ?_⟩
    have hr' : (h.arp.rx.sourceValid && h.arp.rx.header.opcode == opcodeReply) = true := hr
    rw [Bool.and_eq_true, beq_iff_eq] at hr'
    exact hr'.2
  | stay hu _ _ => exact absurd hf' hu
  | _ => cases hf'

/-- A beat is taken: one of the header, one behind it, or the last one of the frame. -/
theorem Receives.taken {b : Beat dw} (hrec : Receives sent h done (b :: rest) later) (hwhole : ∀ f ∈ sent, Whole P f)
    (hb : h.sink i = some b) (ht : h.takes i = true) : ∃ done' rest', Receives sent (h.next i) done' rest' later := by
  have hmem : done ++ b :: rest ∈ sent := by
    rcases hrec.frame with ⟨-, hmem⟩ | ⟨-, hnil⟩
    · exact hmem
    · cases hnil
  have hinbox : (h.next i).inbox = rest ++ later.flatten := by
    rw [Host.next, ht, hrec.inbox]
    rfl
  have hcheck : (h.next i).arp.rx.fsm ≠ .check := fun hf => by
    rw [(hrec.check_next i hf).1] at ht
    cases ht
  have hupdate : (h.next i).arp.table.fsm ≠ .updateTable := fun hf => by
    rw [(hrec.update_next i hf).1] at ht
    cases ht
  have hstep := P.strips.step hrec.got (some b) (h.arp.rx.ready (some b))
  rw [← hb, ← next_depacketizer, hb] at hstep
  have hlong := (hwhole _ hmem).long
  rw [List.length_append, List.length_cons] at hlong
  rw [hrec.takes_eq i hb] at ht
  by_cases hlt : done.length < P.headerWords
  · -- a beat of the header
    rw [if_pos ((length_got done).2 hlt)] at hstep
    refine ⟨done ++ [b], rest, hinbox, hrec.later, .inl ⟨?_, ?_⟩, ?_, fun hf => absurd hf hcheck,
      fun hf => absurd hf hupdate⟩
    · rintro rfl
      rw [List.length_nil] at hlong
      omega
    · rwa [List.append_assoc]
    · rw [List.take_of_length_le hlt.le] at hstep
      rw [List.take_of_length_le (by rw [List.length_append, List.length_singleton]; omega), List.map_append]
      exact hstep
  · rw [if_neg hlt] at ht
    rw [if_neg (mt (length_got done).1 hlt), ht, Bool.and_true] at hstep
    obtain ⟨m, l, hm, hl, heq⟩ : ∃ m l, (∀ x ∈ m, x.last = false) ∧ l.last = true ∧ done ++ b :: rest = m ++ [l] := by
      generalize hf : done ++ b :: rest = f at hmem
      obtain ⟨m, l, hm, hl⟩ := (hwhole f hmem).frame
      exact ⟨m, l, hm, hl, rfl⟩
    rcases List.eq_nil_or_concat rest with rfl | ⟨rest', l', rfl⟩
    · -- the last beat of the frame
      obtain ⟨-, hbl⟩ := List.append_inj' heq rfl
      cases hbl
      refine ⟨[], [], hinbox, hrec.later, .inr ⟨rfl, rfl⟩, ?_, fun hf => absurd hf hcheck, fun hf => absurd hf hupdate⟩
      rw [isLast, Option.any_some, hl] at hstep
      rw [List.take_nil]
      exact hstep
    · rw [List.concat_eq_append, ← List.cons_append, ← List.append_assoc] at heq
      obtain ⟨hmm, -⟩ := List.append_inj' heq rfl
      have hbl : b.last = false := hm b (by rw [← hmm]; simp)
      refine ⟨done ++ [b], rest'.concat l', hinbox, hrec.later, .inl ⟨by simp, by simpa using hmem⟩, ?_,
        fun hf => absurd hf hcheck, fun hf => absurd hf hupdate⟩
      rw [isLast, Option.any_some, hbl] at hstep
      rwa [List.take_append_of_le_length (Nat.le_of_not_lt hlt)]

theorem Receives.next (hrec : Receives sent h done rest later) (hwhole : ∀ f ∈ sent, Whole P f) :
    ∃ done' rest' later', Receives sent (h.next i) done' rest' later' := by
  cases ht : h.takes i with
  | false =>
    have hinbox : (h.next i).inbox = h.inbox := by
      rw [Host.next, ht]
      rfl
    exact ⟨done, rest, later, hinbox.trans hrec.inbox, hrec.later, hrec.frame, hrec.got_stays i ht,
      fun hf => (hrec.check_next i hf).2, fun hf => (hrec.update_next i hf).2⟩
  | true =>
    obtain ⟨b, hb⟩ : ∃ b, h.sink i = some b := by
      rw [Host.takes, Bool.and_eq_true] at ht
      exact Option.isSome_iff_exists.1 ht.1
    have hhead : h.inbox.head? = some b := by
      unfold Host.sink at hb
      split_ifs at hb
      exact hb
    obtain ⟨rest', later', hrec'⟩ := hrec.opened hwhole hhead
    obtain ⟨done', rest'', hrec''⟩ := hrec'.taken i hwhole hb ht
    exact ⟨done', rest'', later', hrec''⟩

end Receives

/-! ## The invariant of a host -/

/-- A table replies after a request, and what it has learned it was told. -/
structure Host.Inv (sent : List (Frame dw)) (h : Host tp rt ct P a) : Prop where
  sends : Sends sent h
  receives : ∃ done rest later, Receives sent h done rest later
  asked : h.arp.table.fsm = .sendReply → Asked P sent a.ip
  learned : h.arp.table.cachedValid = false ∧ h.cached = ⟨0, 0⟩ ∨ Told P sent a h.cached

namespace Host.Inv

theorem reset : (Host.init tp rt ct P a).Inv [] where
  sends := ⟨nofun, nofun, .inl ⟨P.prepends.reset, rfl⟩⟩
  receives := by
    have hgot : P.strips.Got P.depacketizer.reset ((List.take P.headerWords []).map Beat.data) := by
      rw [List.take_nil]
      exact P.strips.reset
    exact ⟨[], [], [], rfl, nofun, .inr ⟨rfl, rfl⟩, hgot, nofun, nofun⟩
  asked := nofun
  learned := .inl ⟨rfl, rfl⟩

theorem mono {sent' : List (Frame dw)} (hs : sent ⊆ sent') (hinv : h.Inv sent) : h.Inv sent' where
  sends := by
    refine ⟨hinv.sends.busy, hinv.sends.inner, ?_⟩
    rcases hinv.sends.begun with hb | ⟨hf, x, ws, pads, hx, hrest⟩
    · exact .inl hb
    · exact .inr ⟨hf, x, ws, pads, hx.mono hs, hrest⟩
  receives := by
    obtain ⟨done, rest, later, hrec⟩ := hinv.receives
    exact ⟨done, rest, later, hrec.inbox, fun f hf => hs (hrec.later f hf), hrec.frame.imp_left (And.imp_right (hs ·)),
      hrec.got, hrec.check, hrec.update⟩
  asked := fun hf => (hinv.asked hf).mono hs
  learned := hinv.learned.imp_right (Told.mono hs)

variable (hinv : h.Inv sent)

include hinv

/-- A table goes to `SEND_REPLY` for the request in `CHECK`. -/
theorem asked_next (i : Cycle) (hf : (h.next i).arp.table.fsm = .sendReply) : Asked P sent a.ip := by
  have hturn := turn h.arp.table (h.arp.tableIn (h.arpIn i))
  have hf' : (h.arp.table.drive (h.arp.tableIn (h.arpIn i))).fsm = .sendReply := hf
  generalize h.arp.table.drive (h.arp.tableIn (h.arpIn i)) = d at hturn hf'
  cases hturn with
  | hear _ hv hr =>
    obtain ⟨hcheck, hvalid⟩ := heard hv
    obtain ⟨done, rest, later, hrec⟩ := hinv.receives
    obtain ⟨hl, hus⟩ := hrec.check hcheck
    obtain ⟨hmem, heq⟩ := hrec.header hl
    have hus := hus hvalid
    have hr' : (h.arp.rx.sourceValid && h.arp.rx.header.opcode == opcodeRequest) = true := hr
    rw [Bool.and_eq_true, beq_iff_eq] at hr'
    simp only [Rx.forUs, Bool.and_eq_true, beq_iff_eq] at hus
    rw [heq] at hus hr'
    exact ⟨_, hmem, hr'.2, hus.2⟩
  | stay => exact hinv.asked hf'
  | _ => cases hf'

/-- `UPDATE_TABLE` loads the sender of the reply that was checked. -/
theorem learned_next (i : Cycle) : (h.next i).arp.table.cachedValid = false ∧ (h.next i).cached = ⟨0, 0⟩ ∨
    Told P sent a (h.next i).cached := by
  by_cases hu : h.arp.table.fsm = .updateTable
  · obtain ⟨done, rest, later, hrec⟩ := hinv.receives
    obtain ⟨hl, hus, hr⟩ := hrec.update hu
    obtain ⟨hmem, heq⟩ := hrec.header hl
    obtain ⟨-, hip, hmac⟩ := cached_update hu (h.arp.tableIn (h.arpIn i))
    simp only [Rx.forUs, Bool.and_eq_true, beq_iff_eq] at hus
    rw [heq] at hus hr
    refine .inr ⟨_, hmem, hr, hus.2, ?_⟩
    rw [← heq]
    exact congrArg₂ Address.mk hip hmac
  · obtain ⟨hv, hip, hmac⟩ := cached_frame hu (h.arp.tableIn (h.arpIn i))
    have hcached : (h.next i).cached = h.cached := congrArg₂ Address.mk hip hmac
    rw [hcached]
    refine hinv.learned.imp_left fun ⟨hn, hz⟩ => ⟨?_, hz⟩
    rw [← Bool.not_eq_true]
    intro hv'
    rw [hv hv'] at hn
    cases hn

theorem next (hwhole : ∀ f ∈ sent, Whole P f) (i : Cycle) :
    (h.next i).Inv sent ∧ ∀ f ∈ h.sent i, Whole P f ∧ Spoken P sent a (P.header f) := by
  obtain ⟨hsends, hsent⟩ := hinv.sends.next hinv.asked i
  obtain ⟨done, rest, later, hrec⟩ := hinv.receives
  exact ⟨⟨hsends, hrec.next i hwhole, hinv.asked_next i, hinv.learned_next i⟩, hsent⟩

/-- A frame gets to the host. -/
theorem deliver {f : Frame dw} (hf : f ∈ sent ∨ f = []) : ({ h with inbox := h.inbox ++ f } : Host tp rt ct P a).Inv sent := by
  obtain ⟨done, rest, later, hrec⟩ := hinv.receives
  refine ⟨⟨hinv.sends.busy, hinv.sends.inner, hinv.sends.begun⟩, ?_, hinv.asked, hinv.learned⟩
  rcases hf with hf | rfl
  · refine ⟨done, rest, later ++ [f], ?_, ?_, hrec.frame, hrec.got, hrec.check, hrec.update⟩
    · simp [hrec.inbox]
    · rintro g hg
      rcases List.mem_append.1 hg with hg | hg
      · exact hrec.later g hg
      · rwa [List.mem_singleton.1 hg]
  · exact ⟨done, rest, later, by simp [hrec.inbox], hrec.later, hrec.frame, hrec.got, hrec.check, hrec.update⟩

end Host.Inv

end Host

/-! ## The invariant of the network -/

/-- Each frame is what its sender says. -/
structure State.Inv (w : State tp rt ct P addr) : Prop where
  said : ∀ k f, (k, f) ∈ w.sent → Whole P f ∧ Spoken P w.frames (addr k) (P.header f)
  hosts : ∀ k, (w.host k).Inv w.frames

omit [DecidableEq ι] in
/-- A frame on the network was sent by a host. -/
theorem mem_frames {w : State tp rt ct P addr} {f : Frame dw} (hf : f ∈ w.frames) : ∃ k, (k, f) ∈ w.sent := by
  obtain ⟨⟨k, g⟩, hg, rfl⟩ := List.mem_map.1 hf
  exact ⟨k, hg⟩

theorem State.Inv.next {w : State tp rt ct P addr} (h : w.Inv) : ∀ x : Act ι, (w.next x).Inv
  | .cycle k i => by
    have hwhole : ∀ f ∈ w.frames, Whole P f := fun f hf =>
      have ⟨j, hj⟩ := mem_frames hf
      (h.said j f hj).1
    obtain ⟨hnext, hsent⟩ := (h.hosts k).next hwhole i
    have hframes : (w.next (.cycle k i)).frames = w.frames ++ (w.host k).sent i := by
      show (w.sent ++ ((w.host k).sent i).map (k, ·)).map Prod.snd = _
      rw [List.map_append, List.map_map]
      exact congrArg _ (List.map_id _)
    have hmono : w.frames ⊆ (w.next (.cycle k i)).frames := hframes ▸ List.subset_append_left _ _
    refine ⟨fun j f hf => ?_, fun l => ?_⟩
    · -- a frame that was sent before is genuine still, for the frames only grow
      rcases List.mem_append.1 hf with hf | hf
      · obtain ⟨hw, hj⟩ := h.said j f hf
        exact ⟨hw, hj.mono hmono⟩
      · obtain ⟨g, hg, hkg⟩ := List.mem_map.1 hf
        cases hkg
        obtain ⟨hw, hs⟩ := hsent f hg
        exact ⟨hw, hs.mono hmono⟩
    · by_cases hl : l = k
      · subst hl
        dsimp only [State.next]
        rw [Function.update_self]
        exact hnext.mono hmono
      · dsimp only [State.next]
        rw [Function.update_of_ne hl]
        exact (h.hosts l).mono hmono
  -- a copy of some frame arrives, or noise when there is no such frame
  | .deliver k n => by
    refine ⟨h.said, fun l => ?_⟩
    by_cases hl : l = k
    · subst hl
      dsimp only [State.next]
      rw [Function.update_self]
      refine (h.hosts l).deliver ?_
      rw [List.getD_eq_getElem?_getD]
      cases hn : w.frames[n]? with
      | none => exact .inr rfl
      | some f => exact .inl (List.mem_of_getElem? hn)
    · dsimp only [State.next]
      rw [Function.update_of_ne hl]
      exact h.hosts l

theorem run_inv (xs : List (Act ι)) : ((network tp rt ct P addr).run xs).Inv :=
  (network tp rt ct P addr).runFrom_inv (C := fun _ _ => True) (fun _ x h _ => h.next x) xs _
    ⟨nofun, fun _ => .reset⟩ (Machine.along_trivial _ _ _)

/-- A host gave its address to another one, in a reply for it. -/
structure Gave (w : State tp rt ct P addr) (j k : ι) (f : Frame dw) : Prop where
  sent : (j, f) ∈ w.sent
  reply : (P.header f).opcode = opcodeReply
  for_it : (P.header f).targetIp = (addr k).ip
  ip : (P.header f).senderIp = (addr j).ip
  mac : (P.header f).senderMac = (addr j).mac

omit [DecidableEq ι] in
/-- What a host was told was given to it by the host with that address. -/
theorem State.Inv.told {w : State tp rt ct P addr} (h : w.Inv) {k : ι} {b : Address}
    (ht : Told P w.frames (addr k) b) : ∃ j f, Gave w j k f ∧ b = addr j := by
  obtain ⟨f, hf, hr, hip, rfl⟩ := ht
  obtain ⟨j, hj⟩ := mem_frames hf
  obtain ⟨-, hs⟩ := h.said j f hj
  exact ⟨j, f, ⟨hj, hr, hip, hs.ip, hs.mac⟩, by rw [hs.ip, hs.mac]⟩

theorem headerLength_pos : 0 < headerLength := by decide

/-- The streams of bytes. -/
def Parts.octets : Parts 8 where
  words := Header.bytes
  fields := Header.ofBytes
  headerWords := headerLength
  length_words := Header.length_bytes
  fields_words := Header.ofBytes_bytes
  packetizer := .words headerLength Header.byte
  depacketizer := .words headerLength headerLength_pos Header.ofBytes
  prepends := Packetizer.prependsWords_words headerLength headerLength_pos Header.byte
  strips := Depacketizer.stripsWords_words headerLength headerLength_pos Header.ofBytes

/-- The bytes of a word, the lowest first. -/
def wordBytes (w : BitVec 32) : List (BitVec 8) :=
  [w.extractLsb' 0 8, w.extractLsb' 8 8, w.extractLsb' 16 8, w.extractLsb' 24 8]

/-- The `k`-th word of the header. -/
def headerWord (x : Header) (k : ℕ) : BitVec 32 :=
  x.byte (4 * k + 3) ++ x.byte (4 * k + 2) ++ x.byte (4 * k + 1) ++ x.byte (4 * k)

theorem wordBytes_headerWord (x : Header) (k : ℕ) :
    wordBytes (headerWord x k) = [x.byte (4 * k), x.byte (4 * k + 1), x.byte (4 * k + 2), x.byte (4 * k + 3)] := by
  unfold wordBytes headerWord
  rw [BitVec.extractLsb'_append_eq_right, BitVec.extractLsb'_append_eq_of_le (by decide),
    BitVec.extractLsb'_append_eq_right, BitVec.extractLsb'_append_eq_of_le (by decide),
    BitVec.extractLsb'_append_eq_of_le (by decide), BitVec.extractLsb'_append_eq_right,
    BitVec.extractLsb'_append_eq_of_le (by decide), BitVec.extractLsb'_append_eq_of_le (by decide),
    BitVec.extractLsb'_append_eq_left]

theorem bytes_headerWords (x : Header) : ((List.range (headerLength / 4)).map (headerWord x)).flatMap wordBytes = x.bytes := by
  rw [List.flatMap_map, funext (wordBytes_headerWord x)]
  rfl

theorem headerLength_div_pos : 0 < headerLength / 4 := by decide

/-- The streams of words of 32 bits. -/
def Parts.wide : Parts 32 where
  words x := (List.range (headerLength / 4)).map (headerWord x)
  fields ws := Header.ofBytes (ws.flatMap wordBytes)
  headerWords := headerLength / 4
  length_words x := by rw [List.length_map, List.length_range]
  fields_words x := by rw [bytes_headerWords, Header.ofBytes_bytes]
  packetizer := .words (headerLength / 4) headerWord
  depacketizer := .words (headerLength / 4) headerLength_div_pos fun ws => Header.ofBytes (ws.flatMap wordBytes)
  prepends := Packetizer.prependsWords_words (headerLength / 4) headerLength_div_pos headerWord
  strips := Depacketizer.stripsWords_words (headerLength / 4) headerLength_div_pos fun ws =>
    Header.ofBytes (ws.flatMap wordBytes)

/-- Two hosts. -/
def pair : Bool → Address
  | false => ⟨0xc0a80101, 0x10e2d5000001⟩
  | true => ⟨0xc0a80102, 0x10e2d5000002⟩

/-- One host asks for the address of the other one, for `n` cycles, and its request and the reply to it are delivered. -/
def exchange (n : ℕ) : List (Act Bool) :=
  List.replicate n (.cycle false ⟨true, true, true, (pair true).ip, true⟩) ++ [.deliver true 0] ++
    List.replicate (2 * n) (.cycle true ⟨true, true, false, 0, true⟩) ++ [.deliver false 1] ++
    List.replicate (n + 1) (.cycle false ⟨true, true, false, 0, true⟩)

/-- After it the first host knows the other one, with words of eight and of 32 bits. -/
example :
    (((network ⟨1000, 8⟩ (.down 100) (.down 10000) .octets pair).run (exchange 49)).host false).cached = pair true ∧
      (((network ⟨1000, 8⟩ (.down 100) (.down 10000) .wide pair).run (exchange 14)).host false).cached = pair true := by
  decide +kernel

end LiteEth.Core.Arp.Network
