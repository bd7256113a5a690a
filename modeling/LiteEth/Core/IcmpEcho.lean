/-
The echo in a stream: each message that is received is sent back, if it fits in the buffer, whatever its type.
-/
import LiteEth.Core.Icmp

namespace LiteEth.Core.Icmp

open LiteEth.Rtl

variable {ε : Type} {dw : ℕ}

/-! ## The receiver -/

namespace Rx

/-- A beat as the receiver sees it: with the header of its message, and the parameters of its packet. -/
abbrev Seen (dw : ℕ) := Header × Ip.UserParams × Beat dw

/-- The condition for `RECEIVE`. -/
def accept (x : Seen dw) : Bool := x.2.1.protocol == protocol

/-- The beat is the last one of its packet. -/
abbrev Seen.last (x : Seen dw) : Bool := x.2.2.last

/-- A beat as it is delivered. -/
def delivered (x : Seen dw) : UserParams × Beat dw := (params x.1 x.2.1, x.2.2)

variable {D : Depacketizer Header dw} {n : ℕ} {fields : List (BitVec dw) → Header}

/-- The FSM of the receiver. -/
def Fsm.gate : Fsm → Gate.Fsm
  | idle => .idle
  | receive => .receive
  | drop => .drop

/-- What the receiver makes of its stream: the header is stripped, and packets that carry no message are dropped. -/
abbrev unpacks (n : ℕ) (fields : List (BitVec dw) → Header) : Transducer (Ip.UserParams × Beat dw) (UserParams × Beat dw) :=
  ((Depacketizer.stripWords (fun a : Ip.UserParams × Beat dw => a.2) n fields).andThen
    (Gate.gated accept Seen.last)).mapped delivered

/-- The depacketizer and the FSM behind it. -/
abbrev gatedStage (D : Depacketizer Header dw) (idle : ε → Ip.UserParams) :
    Stage ε (Ip.UserParams × Beat dw) (UserParams × Beat dw) :=
  ((D.along idle).andThen (Gate.stage ε accept Seen.last)).mapped delivered

/-- The registers of the receiver, as those of its parts. -/
def State.parts (s : State D) : D.State × Gate.Fsm := (s.depacketizer, s.fsm.gate)

section Parts

variable (idle : ε → Ip.UserParams) (s : State D) (e : ε) (a : Option (Ip.UserParams × Beat dw)) (r : Bool)

theorem parts_source : (icmprx D idle).source s e a = (gatedStage D idle).source s.parts e a := by
  obtain ⟨fsm, t⟩ := s
  cases fsm with
  | receive =>
    show (D.source t (a.map (·.2))).map (params (D.header t) (a.elim (idle e) (·.1)), ·) =
      ((D.source t (a.map (·.2))).map (D.header t, a.elim (idle e) (·.1), ·)).map delivered
    rw [Option.map_map]
    rfl
  | _ => rfl

theorem parts_ready : (icmprx D idle).ready s e a r = (gatedStage D idle).ready s.parts e a r := by
  obtain ⟨fsm, t⟩ := s
  cases fsm <;> rfl

theorem parts_step : ((icmprx D idle).step s e a r).parts = (gatedStage D idle).step s.parts e a r := by
  obtain ⟨fsm, t⟩ := s
  refine Prod.ext ?_ ?_
  · cases fsm <;> rfl
  · show (State.next ⟨fsm, t⟩ (a.elim (idle e) (·.1)) (a.map (·.2)) r).fsm.gate =
      (Gate.stage ε accept Seen.last).step fsm.gate e ((D.source t (a.map (·.2))).map (D.header t, a.elim (idle e) (·.1), ·)) r
    cases hx : D.source t (a.map (·.2)) with
    | none => cases fsm <;> simp [State.next, State.packet, hx, Fsm.gate, isLast]
    | some x =>
      cases fsm with
      | idle =>
        simp only [State.next, State.packet, hx, Option.isSome_some, if_true, Fsm.gate, Option.map_some, Option.elim_some,
          accept, beq_iff_eq]
        split_ifs <;> rfl
      | receive =>
        simp only [State.next, State.packet, hx, Fsm.gate, Option.map_some, isLast, Option.any_some]
        split_ifs <;> rfl
      | drop =>
        simp only [State.next, State.packet, hx, Fsm.gate, Option.map_some, isLast, Option.any_some]
        split_ifs <;> rfl

end Parts

/-- The receiver delivers the messages of its stream. -/
def receives (W : D.StripsWords n fields) (idle : ε → Ip.UserParams) :
    Stage.Direct (icmprx D idle) (unpacks n fields) :=
  ((((W.followsAlong (fun _ => True) idle).taking.direct (fun q as => Depacketizer.stripWords_oks _ _ _ as q)
    fun h => h.2.1).andThen ((Gate.gates (fun _ => True) accept Seen.last).direct (fun q as => Gate.gated_oks as q)
      fun h => h.2)).mapped delivered).comap State.parts rfl (parts_source idle) (parts_ready idle) (parts_step idle)

end Rx

/-! ## The transmitter -/

namespace Tx

/-- The last beat of a packet. -/
abbrev last (a : Ip.UserParams × Beat dw) : Bool := a.2.last

/-- What the packetizer makes of a beat. -/
abbrev feed (dw : ℕ) : Packetizer.Feed Header (UserParams × Beat dw) (Ip.UserParams × Beat dw) dw where
  header a := a.1.header
  beat a := { a.2 with error := 0 }
  out a b := (params a.1, b)

variable {P : Packetizer Header dw} {words : Header → List (BitVec dw)}

/-- The FSM of the transmitter. -/
def Fsm.gate : Fsm → Gate.Fsm
  | idle => .idle
  | send => .receive

/-- What the transmitter makes of its stream: the header goes before each message. -/
abbrev sends (words : Header → List (BitVec dw)) : Transducer (UserParams × Beat dw) (Ip.UserParams × Beat dw) :=
  ((feed dw).sends words).andThen (Gate.gated (fun _ => true) last)

/-- What the packetizer sees while no beat is offered. -/
def unoffered (idle : ε → UserParams) (e : ε) : UserParams × Beat dw := (idle e, .ofWord 0)

/-- The packetizer and the FSM behind it. -/
abbrev gatedStage (P : Packetizer Header dw) (idle : ε → UserParams) :
    Stage ε (UserParams × Beat dw) (Ip.UserParams × Beat dw) :=
  (P.fed (feed dw) (unoffered idle)).andThen (Gate.stage ε (fun _ => true) last)

/-- The registers of the transmitter, as those of its parts. -/
def State.parts (s : State P) : P.State × Gate.Fsm := (s.packetizer, s.fsm.gate)

section Parts

variable (idle : ε → UserParams) (s : State P) (e : ε) (a : Option (UserParams × Beat dw)) (r : Bool)

/-- The packetizer sees the same. -/
theorem unoffered_eq : (a.getD (unoffered idle e)).1 = a.elim (idle e) (·.1) ∧
    a.map (feed dw).beat = sinkBeat (a.map (·.2)) := by
  cases a <;> exact ⟨rfl, rfl⟩

/-- The beat at the packetizer's source. -/
theorem fed_source (t : P.State) : (P.fed (feed dw) (unoffered idle)).source t e a =
    (P.source t (a.elim (idle e) (·.1)).header (sinkBeat (a.map (·.2)))).map (params (a.elim (idle e) (·.1)), ·) := by
  show (P.source t (a.getD (unoffered idle e)).1.header (a.map (feed dw).beat)).map
    (params (a.getD (unoffered idle e)).1, ·) = _
  rw [(unoffered_eq idle e a).1, (unoffered_eq idle e a).2]

theorem parts_source : (icmptx P idle).source s e a = (gatedStage P idle).source s.parts e a := by
  obtain ⟨fsm, t⟩ := s
  cases fsm with
  | idle => rfl
  | send => exact (fed_source idle e a t).symm

theorem parts_ready : (icmptx P idle).ready s e a r = (gatedStage P idle).ready s.parts e a r := by
  obtain ⟨fsm, t⟩ := s
  show P.sinkReady t _ _ _ = P.sinkReady t (a.getD (unoffered idle e)).1.header (a.map (feed dw).beat) _
  rw [(unoffered_eq idle e a).1, (unoffered_eq idle e a).2]
  cases fsm <;> rfl

theorem parts_step : ((icmptx P idle).step s e a r).parts = (gatedStage P idle).step s.parts e a r := by
  obtain ⟨fsm, t⟩ := s
  refine Prod.ext ?_ ?_
  · show P.step t _ _ _ = P.step t (a.getD (unoffered idle e)).1.header (a.map (feed dw).beat) _
    rw [(unoffered_eq idle e a).1, (unoffered_eq idle e a).2]
    cases fsm <;> rfl
  · show (State.next ⟨fsm, t⟩ (a.elim (idle e) (·.1)) (a.map (·.2)) r).fsm.gate = (Gate.stage ε (fun _ => true) last).step
      fsm.gate e ((P.fed (feed dw) (unoffered idle)).source t e a) r
    rw [fed_source]
    cases hx : P.source t (a.elim (idle e) (·.1)).header (sinkBeat (a.map (·.2))) with
    | none => cases fsm <;> simp [State.next, State.packet, hx, Fsm.gate, isLast]
    | some x =>
      cases fsm with
      | idle => simp [State.next, State.packet, hx, Fsm.gate]
      | send =>
        simp only [State.next, State.packet, hx, Fsm.gate, Option.map_some, isLast, Option.any_some]
        split_ifs <;> rfl

end Parts

/-- The transmitter sends the messages of its stream. -/
def transmits (W : P.PrependsWords words) (H : ε → Prop) (idle : ε → UserParams) :
    Stage.Sim H (icmptx P idle) (sends words) :=
  ((Packetizer.prependsFed (feed dw) (unoffered idle) W H).andThen (Gate.gates H (fun _ => true) last).sim).comap
    State.parts rfl (parts_source idle) (parts_ready idle) (parts_step idle)

end Tx

/-! ## Messages -/

/-- A packet for the host, longer than the header of a message, which has `n` words. -/
structure Message (n dw : ℕ) where
  params : Ip.UserParams
  beats : List (Beat dw)
  frame : IsFrame (·.last) beats
  long : n < beats.length

namespace Message

variable {n : ℕ} (fields : List (BitVec dw) → Header) (words : Header → List (BitVec dw)) (m : Message n dw)

/-- The beats at the sink of the receiver. -/
def stream : List (Ip.UserParams × Beat dw) := m.beats.map (m.params, ·)

/-- The header of a message, from its first words. -/
def header : Header := fields ((m.beats.take n).map (·.data))

/-- The beats after the header. -/
def payload : List (Beat dw) := m.beats.drop n

/-- It is a message of ICMP. -/
def isIcmp : Bool := m.params.protocol == protocol

/-- It is an echo request. -/
def isRequest : Bool := m.isIcmp && (m.header fields).msgtype == echoRequest

/-- The parameters of the answer. -/
def answerParams : UserParams := reply (Rx.params (m.header fields) m.params)

/-- The answer to a message, as the transmitter sends it: its own payload, to its sender. -/
def answer : List (Ip.UserParams × Beat dw) :=
  (words (m.answerParams fields).header).map (fun w => (Tx.params (m.answerParams fields), .ofWord w)) ++
    m.payload.map fun b => (Tx.params (m.answerParams fields), { b with error := 0 })

theorem answer_sender (x : Ip.UserParams × Beat dw) (hx : x ∈ m.answer fields words) :
    x.1.ipAddress = m.params.ipAddress ∧ x.1.protocol = protocol := by
  rcases List.mem_append.1 hx with hx | hx
  · obtain ⟨w, -, rfl⟩ := List.mem_map.1 hx
    exact ⟨rfl, rfl⟩
  · obtain ⟨b, -, rfl⟩ := List.mem_map.1 hx
    exact ⟨rfl, rfl⟩

variable {m} in
theorem isFrame_stream : IsFrame Tx.last m.stream :=
  m.frame.map (g := fun b => (m.params, b)) fun _ => rfl

end Message

/-! ## The echo -/

section Echo

variable {n : ℕ} {fields : List (BitVec dw) → Header} {words : Header → List (BitVec dw)}

/-- A beat, as the echo answers it. -/
abbrev replied (a : UserParams × Beat dw) : UserParams × Beat dw := (reply a.1, a.2)

/-- What becomes of the messages that are delivered. -/
abbrev answers (words : Header → List (BitVec dw)) : Transducer (UserParams × Beat dw) (Ip.UserParams × Beat dw) :=
  ((PacketFIFO.store UserParams.last (payloadDepth dw + 1)).mapped replied).andThen (Tx.sends words)

/-- What becomes of the messages that are received. -/
abbrev echoes (n : ℕ) (fields : List (BitVec dw) → Header) (words : Header → List (BitVec dw)) :
    Transducer (Ip.UserParams × Beat dw) (Ip.UserParams × Beat dw) :=
  (Rx.unpacks n fields).andThen (answers words)

theorem payload_ne_nil (m : Message n dw) : m.payload ≠ [] := by
  have hlong := m.long
  intro h
  have hlen := congrArg List.length h
  unfold Message.payload at hlen
  rw [List.length_drop, List.length_nil] at hlen
  omega

/-- The payload of a message, with any parameters. -/
theorem isFrame_payload {α : Type} (m : Message n dw) (last : α → Bool) {g : Beat dw → α}
    (hg : ∀ b, last (g b) = b.last) : IsFrame last (m.payload.map g) :=
  IsFrame.map hg (m.frame.drop m.long)

variable (fields) in
/-- The messages received are delivered. -/
theorem unpacks_stream (m : Message n dw) :
    (Rx.unpacks n fields).outs (Rx.unpacks n fields).init m.stream =
        (if m.isIcmp then m.payload.map (Rx.params (m.header fields) m.params, ·) else []) ∧
      (Rx.unpacks n fields).run (Rx.unpacks n fields).init m.stream = (Rx.unpacks n fields).init := by
  have hlen : n < m.stream.length := by
    unfold Message.stream
    rw [List.length_map]
    exact m.long
  -- the header is stripped, and then the gate decides by the protocol
  obtain ⟨h1, h2, -⟩ := Depacketizer.stripWords_frame (fun a : Ip.UserParams × Beat dw => a.2) n fields
    m.isFrame_stream hlen
  have hdata : (m.stream.take n).map (fun a => a.2.data) = (m.beats.take n).map (·.data) := by
    unfold Message.stream
    rw [← List.map_take, List.map_map]
    rfl
  have hdrop : m.stream.drop n = m.payload.map (m.params, ·) := List.map_drop.symm
  rw [hdata, hdrop, List.map_map] at h1
  obtain ⟨h3, h4⟩ := Gate.gated_frame Rx.accept (isFrame_payload m Rx.Seen.last
    (g := fun b => (m.header fields, m.params, b)) fun _ => rfl)
  have hhead : (m.payload.map fun b => (m.header fields, m.params, b)).head?.any Rx.accept = m.isIcmp := by
    rw [List.head?_map]
    cases hm : m.payload with
    | nil => exact absurd hm (payload_ne_nil m)
    | cons b bs => rfl
  rw [hhead] at h3
  -- what is given
  constructor
  · rw [Transducer.mapped_outs, Transducer.andThen_outs]
    show ((Gate.gated Rx.accept Rx.Seen.last).outs none
      ((Depacketizer.stripWords (fun a : Ip.UserParams × Beat dw => a.2) n fields).outs [] m.stream)).map Rx.delivered = _
    rw [h1]
    refine (congrArg (List.map Rx.delivered) h3).trans ?_
    split_ifs
    · rw [List.map_map]
      rfl
    · rfl
  · -- the receiver is left as it was found
    refine (Transducer.andThen_run (Depacketizer.stripWords (fun a : Ip.UserParams × Beat dw => a.2) n fields)
      (Gate.gated Rx.accept Rx.Seen.last) m.stream _).trans (Prod.ext h2 ?_)
    show (Gate.gated Rx.accept Rx.Seen.last).run none
      ((Depacketizer.stripWords (fun a : Ip.UserParams × Beat dw => a.2) n fields).outs [] m.stream) = none
    rw [h1]
    exact h4

variable (n fields) in
/-- Of the beginning of a message nothing but the beginning of what is delivered follows. -/
theorem unpacks_begun {bs : List (Ip.UserParams × Beat dw)} (hbs : ∀ a ∈ bs, a.2.last = false) :
    ∀ a ∈ (Rx.unpacks n fields).outs (Rx.unpacks n fields).init bs, a.2.last = false := by
  obtain ⟨h1, -⟩ := Depacketizer.stripWords_fresh (fun a : Ip.UserParams × Beat dw => a.2) n fields hbs
  rw [Transducer.mapped_outs, Transducer.andThen_outs]
  show ∀ a ∈ ((Gate.gated Rx.accept Rx.Seen.last).outs none
      ((Depacketizer.stripWords (fun a : Ip.UserParams × Beat dw => a.2) n fields).outs [] bs)).map Rx.delivered, _
  rw [h1]
  have hshown : ∀ x ∈ (bs.drop n).map (fields ((bs.take n).map fun b => b.2.data), ·), Rx.Seen.last x = false := by
    intro x hx
    obtain ⟨a, ha, rfl⟩ := List.mem_map.1 hx
    exact hbs a (List.mem_of_mem_drop ha)
  rw [(Gate.gated_begun Rx.accept hshown).1]
  intro a ha
  obtain ⟨x, hx, rfl⟩ := List.mem_map.1 ha
  split_ifs at hx
  · exact hshown x hx
  · cases hx

variable (fields words) in
/-- A message that is delivered is answered. -/
theorem sends_payload (m : Message n dw) :
    (Tx.sends words).outs (Tx.sends words).init (m.payload.map (m.answerParams fields, ·)) = m.answer fields words ∧
      (Tx.sends words).run (Tx.sends words).init (m.payload.map (m.answerParams fields, ·)) = (Tx.sends words).init := by
  have hframe : IsFrame (fun a : UserParams × Beat dw => ((Tx.feed dw).beat a).last)
    (m.payload.map (m.answerParams fields, ·)) := isFrame_payload m _ fun _ => rfl
  obtain ⟨h1, h2⟩ := Packetizer.prepend_frame (fun a => (Tx.feed dw).head words a none) (Tx.feed dw).sent _ hframe
  have hanswer : Packetizer.prepended (fun a => (Tx.feed dw).head words a none) (Tx.feed dw).sent
      (m.payload.map (m.answerParams fields, ·)) = m.answer fields words := by
    unfold Packetizer.prepended Message.answer
    rw [List.map_map]
    cases hm : m.payload with
    | nil => exact absurd hm (payload_ne_nil m)
    | cons b bs =>
      rw [List.map_cons, List.head?_cons, Option.toList_some, List.flatMap_singleton]
      rfl
  have hsent : IsFrame Tx.last (m.answer fields words) := hanswer ▸ Packetizer.isFrame_prepended
    (fun a b hb => by obtain ⟨w, -, rfl⟩ := List.mem_map.1 hb; rfl) (fun _ => rfl) hframe
  -- the gate of the transmitter lets everything pass, once it is open
  obtain ⟨h3, h4⟩ := Gate.gated_frame (fun _ => true) hsent
  have hhead : (m.answer fields words).head?.any (fun _ => true) = true := by
    cases hm : m.answer fields words with
    | nil => exact absurd hm hsent.ne_nil
    | cons b bs => rfl
  rw [hhead, if_pos rfl] at h3
  rw [hanswer] at h1
  constructor
  · rw [Transducer.andThen_outs]
    refine (congrArg _ h1).trans h3
  · refine (Transducer.andThen_run _ _ _ _).trans (Prod.ext h2 ?_)
    exact (congrArg _ h1).trans h4

theorem sends_oks (q : (Tx.sends words).State) (as : List (UserParams × Beat dw)) : (Tx.sends words).Oks q as :=
  (Transducer.andThen_oks _ _ as q).2 ⟨Packetizer.prepend_oks _ _ _ as q.1, Gate.gated_oks _ q.2⟩

variable (fields words) in
/-- A message that is delivered is stored, and answered. -/
theorem answers_payload (m : Message n dw) :
    (answers words).outs (answers words).init (m.payload.map (Rx.params (m.header fields) m.params, ·)) =
        m.answer fields words ∧
      (answers words).run (answers words).init (m.payload.map (Rx.params (m.header fields) m.params, ·)) =
        (answers words).init := by
  obtain ⟨h1, h2, -⟩ := PacketFIFO.store_frame (payloadDepth dw + 1) (isFrame_payload m
    UserParams.last (g := fun b => (Rx.params (m.header fields) m.params, b)) fun _ => rfl)
  obtain ⟨h3, h4⟩ := sends_payload fields words m
  have hstored : ((PacketFIFO.store UserParams.last (payloadDepth dw + 1)).mapped replied).outs []
      (m.payload.map (Rx.params (m.header fields) m.params, ·)) = m.payload.map (m.answerParams fields, ·) := by
    rw [Transducer.mapped_outs, h1, List.map_map]
    rfl
  constructor
  · rw [Transducer.andThen_outs]
    exact (congrArg _ hstored).trans h3
  · refine (Transducer.andThen_run _ _ _ _).trans (Prod.ext h2 ?_)
    exact (congrArg _ hstored).trans h4

/-- What follows from a message that is received. -/
theorem echoes_stream (m : Message n dw) :
    (echoes n fields words).outs (echoes n fields words).init m.stream =
        (if m.isIcmp then m.answer fields words else []) ∧
      (echoes n fields words).run (echoes n fields words).init m.stream = (echoes n fields words).init := by
  obtain ⟨h1, h2⟩ := unpacks_stream fields m
  obtain ⟨h3, h4⟩ := answers_payload fields words m
  constructor
  · rw [Transducer.andThen_outs]
    refine (congrArg ((answers words).outs (answers words).init) h1).trans ?_
    split_ifs
    · exact h3
    · rfl
  · refine (Transducer.andThen_run _ _ _ _).trans (Prod.ext h2 ?_)
    refine (congrArg ((answers words).run (answers words).init) h1).trans ?_
    split_ifs
    · exact h4
    · rfl

/-- Nothing follows from the beginning of a message. -/
theorem echoes_begun {bs : List (Ip.UserParams × Beat dw)} (hbs : ∀ a ∈ bs, a.2.last = false) :
    (echoes n fields words).outs (echoes n fields words).init bs = [] := by
  obtain ⟨h1, -, -⟩ := PacketFIFO.store_begun (payloadDepth dw + 1)
    (unpacks_begun n fields hbs) []
  rw [Transducer.andThen_outs, Transducer.andThen_outs]
  have hstored : ((PacketFIFO.store UserParams.last (payloadDepth dw + 1)).mapped replied).outs []
      ((Rx.unpacks n fields).outs (Rx.unpacks n fields).init bs) = [] := by
    rw [Transducer.mapped_outs]
    exact congrArg (List.map replied) h1
  exact congrArg ((Tx.sends words).outs (Tx.sends words).init) hstored

/-! ## Runs -/

section Answered

variable (A : Stage ε (Ip.UserParams × Beat dw) (Ip.UserParams × Beat dw)) (fields : List (BitVec dw) → Header)
  (words : Header → List (BitVec dw)) (ms : List (Message n dw)) (is : List (Stage.In ε (Ip.UserParams × Beat dw)))

/-- The messages received in a run in which `ms` are offered. -/
def received : List (Message n dw) := ms.take (frames Tx.last (A.taken is)).1.length

/-- The run, and `k` cycles in which nothing new is offered and the consumer is ready. -/
def leftAlone (es : ℕ → ε) (k : ℕ) : List (Stage.In ε (Ip.UserParams × Beat dw)) :=
  is ++ (List.range k).map fun k => Stage.Sim.settle (es k)

/-- The answers to the echo requests among the messages received. -/
def requested : List (Ip.UserParams × Beat dw) :=
  ((received A ms is).filter (·.isRequest fields)).flatMap (·.answer fields words)

/-- What is transmitted is one answer to each echo request received, to its sender, in order, and nothing else. -/
structure Answered (es : ℕ → ε) : Prop where
  sent : ∀ k, A.given (leftAlone is es k) <+: requested A fields words ms (leftAlone is es k)
  all : ∃ k, A.given (leftAlone is es k) = requested A fields words ms (leftAlone is es k)

variable {A fields words ms is}

theorem flatMap_filter {α β : Type} (p : α → Bool) (f : α → List β) (l : List α) :
    (l.filter p).flatMap f = l.flatMap fun x => if p x then f x else [] := by
  induction l with
  | nil => rfl
  | cons x l ih =>
    rw [List.flatMap_cons, List.filter_cons, ← ih]
    split_ifs <;> rfl

/-- Fewer elements give less, unless they are the same. -/
theorem filter_length {α β : Type} {p q : α → Bool} (hqp : ∀ x, q x = true → p x = true) {f : α → List β}
    (hf : ∀ x, f x ≠ []) (l : List α) :
    ((l.filter q).flatMap f).length ≤ ((l.filter p).flatMap f).length ∧
      (((l.filter p).flatMap f).length ≤ ((l.filter q).flatMap f).length → ∀ x ∈ l, p x = true → q x = true) := by
  induction l with
  | nil => exact ⟨le_rfl, fun _ x hx => nomatch hx⟩
  | cons x l ih =>
    obtain ⟨hle, hall⟩ := ih
    have hpos := List.length_pos_iff.2 (hf x)
    cases hp : p x with
    -- neither list has `x`
    | false =>
      have hq : q x = false := eq_false_of_ne_true fun h => absurd ((hqp x h).symm.trans hp) Bool.noConfusion
      rw [List.filter_cons_of_neg (ne_true_of_eq_false hp), List.filter_cons_of_neg (ne_true_of_eq_false hq)]
      refine ⟨hle, fun h y hy hpy => ?_⟩
      rcases List.mem_cons.1 hy with rfl | hy
      · exact absurd (hpy.symm.trans hp) Bool.noConfusion
      · exact hall h y hy hpy
    | true =>
      rw [List.filter_cons_of_pos hp, List.flatMap_cons, List.length_append]
      -- only the longer one has it
      cases hq : q x with
      | false =>
        rw [List.filter_cons_of_neg (ne_true_of_eq_false hq)]
        exact ⟨by omega, fun h => absurd h (by omega)⟩
      -- both have it
      | true =>
        rw [List.filter_cons_of_pos hq, List.flatMap_cons, List.length_append]
        refine ⟨by omega, fun h y hy hpy => ?_⟩
        rcases List.mem_cons.1 hy with rfl | hy
        · exact hq
        · exact hall (by omega) y hy hpy

/-- What follows from what has been taken. -/
theorem outs_taken (h : A.taken is <+: ms.flatMap (·.stream)) :
    (echoes n fields words).outs (echoes n fields words).init (A.taken is) =
      ((received A ms is).filter (·.isIcmp)).flatMap (·.answer fields words) := by
  have hframes : (frames Tx.last (A.taken is)).1 = (received A ms is).map (·.stream) := by
    unfold received
    rw [List.map_take, List.flatMap_def] at *
    refine frames_of_begins Tx.last (fun f hf => ?_) h
    obtain ⟨m, -, rfl⟩ := List.mem_map.1 hf
    exact m.isFrame_stream
  have hflatten := frames_flatten Tx.last (A.taken is)
  rw [hframes] at hflatten
  rw [← hflatten, Transducer.outs_flatten, echoes_begun (frames_spec Tx.last (A.taken is)).2, List.append_nil,
    List.flatMap_map, flatMap_filter]
  · exact List.flatMap_congr fun m _ => (echoes_stream m).1
  · intro f hf
    obtain ⟨m, -, rfl⟩ := List.mem_map.1 hf
    exact (echoes_stream m).2

theorem answer_ne_nil {P : Packetizer Header dw} (W' : P.PrependsWords words) (m : Message n dw) : m.answer fields words ≠ [] :=
  List.append_ne_nil_of_left_ne_nil (fun h => W'.words_ne _ (List.map_eq_nil_iff.1 h)) _

theorem leftAlone_add (es : ℕ → ε) (k l : ℕ) :
    leftAlone is es (k + l) = leftAlone is es k ++ (List.range l).map fun j => Stage.Sim.settle (es (k + j)) := by
  unfold leftAlone
  rw [List.range_add, List.map_append, List.map_map, List.append_assoc]
  rfl

theorem leftAlone_arrivals (es : ℕ → ε) (k : ℕ) : A.arrivals (leftAlone is es k) = A.arrivals is :=
  Stage.Sim.arrivals_settles es is k

theorem taken_leftAlone (h : A.arrivals is <+: ms.flatMap (·.stream)) (es : ℕ → ε) (k : ℕ) :
    A.taken (leftAlone is es k) <+: ms.flatMap (·.stream) := by
  have harrivals := Stage.arrivals_eq (A := A) (leftAlone is es k)
  rw [leftAlone_arrivals] at harrivals
  exact List.IsPrefix.trans ⟨_, harrivals.symm⟩ h

/-- More messages are received in more time. -/
theorem received_subset (is' : List (Stage.In ε (Ip.UserParams × Beat dw))) :
    received A ms is ⊆ received A ms (is ++ is') := by
  have hlen : (frames Tx.last (A.taken is)).1.length ≤ (frames Tx.last (A.taken (is ++ is'))).1.length := by
    unfold Stage.taken
    rw [Machine.log_append]
    exact (frames_append Tx.last _ _).length_le
  exact (List.take_prefix_take_left hlen).subset

end Answered

section Runs

variable {D : Depacketizer Header dw} {F : PacketFIFO (UserParams × Beat dw) UserParams.last} {P : Packetizer Header dw}

/-- What follows from the messages that are taken is given, whatever is refused. -/
def echo (W : D.StripsWords n fields) (hF : F.Sized (payloadDepth dw + 1) (1 + 1)) (W' : P.PrependsWords words)
    (idleRx : ε → Ip.UserParams) (idleTx : ε → UserParams) :
    Stage.Yields (fun _ => True) (icmp D F P idleRx idleTx) (echoes n fields words) :=
  .after (Rx.receives W idleRx) (PacketFIFO.yields hF (Nat.succ_pos 1)
    (Tx.transmits W' (fun _ => True) fun e : ε × Option (UserParams × Beat dw) => idleTx e.1) sends_oks replied)

variable {ms : List (Message n dw)} {is : List (Stage.In ε (Ip.UserParams × Beat dw))}

/-- The echo answers exactly the echo requests it receives if and only if it receives no other messages: it answers
every message of ICMP, whatever its type. -/
theorem answered_iff (W : D.StripsWords n fields) (hF : F.Sized (payloadDepth dw + 1) (1 + 1))
    (W' : P.PrependsWords words) (idleRx : ε → Ip.UserParams) (idleTx : ε → UserParams)
    (h : (icmp D F P idleRx idleTx).arrivals is <+: ms.flatMap (·.stream)) (es : ℕ → ε) :
    Answered (icmp D F P idleRx idleTx) fields words ms is es ↔
      ∀ k, ∀ m ∈ received (icmp D F P idleRx idleTx) ms (leftAlone is es k), m.isIcmp = true → m.isRequest fields = true := by
  -- whatever is received is answered, if it is ICMP
  have hgiven : ∀ k, (icmp D F P idleRx idleTx).given (leftAlone is es k) <+:
      ((received (icmp D F P idleRx idleTx) ms (leftAlone is es k)).filter (·.isIcmp)).flatMap (·.answer fields words) ∧
    ∃ l, (icmp D F P idleRx idleTx).given (leftAlone is es (k + l)) =
      ((received (icmp D F P idleRx idleTx) ms (leftAlone is es (k + l))).filter (·.isIcmp)).flatMap
        (·.answer fields words) := by
    intro k
    obtain ⟨h1, l, h2⟩ := (echo W hF W' idleRx idleTx).given_eq (fun j => es (k + j)) (fun _ => trivial)
      (leftAlone is es k)
    refine ⟨outs_taken (taken_leftAlone h es k) ▸ h1, l, ?_⟩
    rw [← outs_taken (taken_leftAlone h es (k + l)), leftAlone_add]
    exact h2
  constructor
  · -- all answers are to requests only if nothing else is received
    intro hall k m hm
    obtain ⟨-, l, hl⟩ := hgiven k
    have hsent := hall.sent (k + l)
    rw [hl] at hsent
    refine (filter_length (fun m hm => (Bool.and_eq_true_iff.1 hm).1) (answer_ne_nil W') _).2 hsent.length_le m ?_
    rw [leftAlone_add]
    exact received_subset _ hm
  · -- if only requests are received, both lists of answers are the same
    intro hreq
    have hfilter : ∀ k, ((received (icmp D F P idleRx idleTx) ms (leftAlone is es k)).filter (·.isIcmp)).flatMap
        (·.answer fields words) = requested (icmp D F P idleRx idleTx) fields words ms (leftAlone is es k) := fun k => by
      unfold requested
      rw [List.filter_congr fun m hm => Bool.eq_iff_iff.2 ⟨hreq k m hm, fun h => (Bool.and_eq_true_iff.1 h).1⟩]
    refine ⟨fun k => hfilter k ▸ (hgiven k).1, ?_⟩
    obtain ⟨-, l, hl⟩ := hgiven 0
    rw [Nat.zero_add] at hl
    exact ⟨l, hl.trans (hfilter l)⟩

/-- A message of one byte from 10.0.0.1. -/
def message (msgtype : BitVec 8) : Message headerLength 8 where
  params := { length := 9, protocol := protocol, ipAddress := 0x0a000001 }
  beats := (Header.bytes ⟨msgtype, 0, 0, 0⟩).map .ofWord ++ [⟨0x2a, 1, 0, true⟩]
  frame := .mk _ _ (fun b hb => by obtain ⟨w, -, rfl⟩ := List.mem_map.1 hb; rfl) rfl
  long := Nat.lt_succ_self headerLength

/-- `LiteEthICMP` on bytes. -/
abbrev byteIcmp : Stage Unit (Ip.UserParams × Beat 8) (Ip.UserParams × Beat 8) :=
  icmp (.words headerLength headerLength_pos Header.ofBytes) (.queue UserParams.last (payloadDepth 8) 1)
    (.words headerLength fun h k => h.bytes.getD k 0) (fun _ => ⟨0, 0, 0⟩) fun _ => ⟨⟨0, 0, 0, 0⟩, 0, 0⟩

/-- A header as words of a byte. -/
def headerWords (h : Header) : List (BitVec 8) := (List.range headerLength).map fun k => h.bytes.getD k 0

/-- It is offered, to a ready consumer. -/
def offered (msgtype : BitVec 8) : List (Stage.In Unit (Ip.UserParams × Beat 8)) :=
  (message msgtype).stream.map fun a => ⟨(), some a, true⟩

theorem answered_request : Answered byteIcmp Header.ofBytes headerWords [message echoRequest] (offered echoRequest)
    fun _ => () :=
  (answered_iff (Depacketizer.stripsWords_words headerLength headerLength_pos Header.ofBytes)
    (PacketFIFO.queue_sized UserParams.last (payloadDepth 8) 1)
    (Packetizer.prependsWords_words headerLength headerLength_pos fun h k => h.bytes.getD k 0) _ _ (by decide)
    fun _ => ()).2 fun _ m hm _ => by
      rw [List.mem_singleton.1 (List.mem_of_mem_take hm)]
      rfl

/-- An echo reply is answered. -/
theorem reply_answered : ¬ Answered byteIcmp Header.ofBytes headerWords [message 0] (offered 0) fun _ => () := by
  intro h
  have hsent := h.sent 14
  revert hsent
  decide

end Runs

end Echo

end LiteEth.Core.Icmp
