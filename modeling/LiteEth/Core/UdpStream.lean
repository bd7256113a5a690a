/-
The UDP transmitter and receiver in a stream: the transmitter sends each packet after its header, and the
receiver gives the data of each datagram, whatever the timing on both sides.
-/
import LiteEth.Core.Udp
import LiteEth.Rtl.PacketGate

namespace LiteEth.Core.Udp

open LiteEth.Rtl

variable {ε : Type} {dw : ℕ}

/-! ## Transmitter -/

/-- The inputs of a transmitter in a stream; `idle` drives the parameters while `sink.valid = 0`. -/
def Tx.input (idle : ε → UserParams) (e : ε) (a : Option (UserParams × Beat dw)) (r : Bool) : Tx.In dw where
  params := a.elim (idle e) (·.1)
  sink := a.map (·.2)
  sourceReady := r

/-- `LiteEthUDPTX`. -/
abbrev udptx (idle : ε → UserParams) (P : Packetizer Header dw) :
    Stage ε (UserParams × Beat dw) (Ip.UserParams × Beat dw) where
  State := Tx.State P
  reset := .init P
  source s e a := s.source (Tx.input idle e a false)
  ready s e a r := s.sinkReady (Tx.input idle e a r)
  step s e a r := s.next (Tx.input idle e a r)

namespace Tx

/-- The beats of the header of a packet. -/
def headerBeats (words : Header → List (BitVec dw)) (q : UserParams) : List (Ip.UserParams × Beat dw) :=
  (words (header q)).map fun w => (params q, .ofWord w)

/-- A beat of a packet, as it is sent. -/
def sentBeat (a : UserParams × Beat dw) : Ip.UserParams × Beat dw := (params a.1, { a.2 with error := 0 })

/-- The header goes before the packet. -/
abbrev sends (words : Header → List (BitVec dw)) : Transducer (UserParams × Beat dw) (Ip.UserParams × Beat dw) :=
  Packetizer.prepend (fun a => headerBeats words a.1) sentBeat (·.2.last)

/-- What the packetizer makes of a beat. -/
abbrev feed (dw : ℕ) : Packetizer.Feed Header (UserParams × Beat dw) (Ip.UserParams × Beat dw) dw where
  header a := header a.1
  beat a := { a.2 with error := 0 }
  out a b := (params a.1, b)

/-- What the packetizer sees while no beat is offered. -/
def unoffered (idle : ε → UserParams) (e : ε) : UserParams × Beat dw := (idle e, .ofWord 0)

/-- The last beat of a packet. -/
abbrev last (a : Ip.UserParams × Beat dw) : Bool := a.2.last

variable {P : Packetizer Header dw} {words : Header → List (BitVec dw)}

/-- The FSM, as that of any transmitter. -/
def Fsm.transmitter : Fsm → Packetizer.Fsm
  | idle => .idle
  | send => .send

/-- The registers, as those of any transmitter. -/
def State.transmitter (s : State P) : P.Transmitter := { fsm := s.fsm.transmitter, packetizer := s.packetizer }

section Transmitter

variable (idle : ε → UserParams) (s : State P) (e : ε) (a : Option (UserParams × Beat dw)) (r : Bool)

/-- The beat at the packetizer's source, with the parameters of its packet. -/
theorem fed_source : (P.fed (feed dw) (unoffered idle)).source s.packetizer e a =
    (s.packet (input idle e a r)).map (params (input idle e a r).params, ·) := by
  cases a <;> rfl

theorem transmitter_source : (udptx idle P).source s e a =
    (P.transmitter (feed dw) last (unoffered idle)).source s.transmitter e a := by
  obtain ⟨fsm, t⟩ := s
  cases fsm with
  | idle => rfl
  | send => exact (fed_source idle _ e a false).symm

theorem transmitter_ready : (udptx idle P).ready s e a r =
    (P.transmitter (feed dw) last (unoffered idle)).ready s.transmitter e a r := by
  obtain ⟨fsm, t⟩ := s
  cases fsm <;> cases a <;> rfl

theorem transmitter_fsm : (s.next (input idle e a r)).fsm.transmitter =
    ((P.transmitter (feed dw) last (unoffered idle)).step s.transmitter e a r).fsm := by
  obtain ⟨fsm, t⟩ := s
  have hsource := fed_source idle ⟨fsm, t⟩ e a r
  cases fsm with
  | idle =>
    show Fsm.transmitter (if (State.packet _ _).isSome then .send else .idle) =
      if ((P.fed (feed dw) (unoffered idle)).source t e a).isSome then .send else .idle
    rw [hsource, Option.isSome_map]
    split_ifs <;> rfl
  | send =>
    show Fsm.transmitter (if (State.packet _ _).any (·.last) && r then .idle else .send) =
      if ((P.fed (feed dw) (unoffered idle)).source t e a).any last && r then .idle else .send
    rw [hsource, Option.any_map]
    exact apply_ite Fsm.transmitter _ _ _

theorem transmitter_step : ((udptx idle P).step s e a r).transmitter =
    (P.transmitter (feed dw) last (unoffered idle)).step s.transmitter e a r := by
  have hfsm := transmitter_fsm idle s e a r
  obtain ⟨fsm, t⟩ := s
  refine congrArg₂ Packetizer.Transmitter.mk hfsm ?_
  cases fsm <;> cases a <;> rfl

end Transmitter

/-- The transmitter sends the packets offered to it, each after its header. -/
def transmits {idle : ε → UserParams} (W : P.PrependsWords words) (H : ε → Prop) :
    Stage.Sim H (udptx idle P) (sends words) :=
  (Packetizer.transmits (feed dw) last (unoffered idle) W H).comap State.transmitter rfl (transmitter_source idle)
    (transmitter_ready idle) (transmitter_step idle)

end Tx

/-! ## Receiver -/

/-- The inputs of a receiver in a stream; `idle` drives the parameters while `sink.valid = 0`. -/
def Rx.input (idle : ε → Ip.UserParams) (e : ε) (a : Option (Ip.UserParams × Beat dw)) (r : Bool) : Rx.In dw where
  params := a.elim (idle e) (·.1)
  sink := a.map (·.2)
  sourceReady := r

/-- `LiteEthUDPRX`. -/
abbrev udprx (idle : ε → Ip.UserParams) (D : Depacketizer Header dw) :
    Stage ε (Ip.UserParams × Beat dw) (UserParams × Beat dw) where
  State := Rx.State D
  reset := .init D
  source s e a := s.source (Rx.input idle e a false)
  ready s e a r := s.sinkReady (Rx.input idle e a r)
  step s e a r := s.next (Rx.input idle e a r)

namespace Rx

/-- The packet at the receiver: not opened yet, delivered with `count` bytes before, or dropped to its end. -/
inductive Phase
  | closed
  | receiving (count : BitVec 16)
  | dropping
  deriving DecidableEq

/-- A closed packet is opened by its protocol. -/
def Phase.opened (q : Phase) (u : Ip.UserParams) : Phase :=
  match q with
  | .closed => if u.protocol = protocol then .receiving 0 else .dropping
  | _ => q

/-- The parameters delivered with a packet. -/
def userParams (h : Header) (u : Ip.UserParams) : UserParams :=
  { srcPort := h.srcPort, dstPort := h.dstPort, ipAddress := u.ipAddress
    length := h.length - BitVec.ofNat 16 headerLength }

/-- A beat ends the datagram. -/
def ends (h : Header) (x : Ip.UserParams × Beat dw) (count : BitVec 16) : Bool :=
  x.2.last || count == (userParams h x.1).length - step dw

/-- The part of each packet before its trailing padding, if it is a datagram. -/
abbrev trim (dw : ℕ) : Transducer (Header × Ip.UserParams × Beat dw) (UserParams × Beat dw) where
  State := Phase
  init := .closed
  next q x := if x.2.2.last then .closed else
    match q.opened x.2.1 with
    | .receiving c => if ends x.1 x.2 c then .dropping else .receiving (c + step dw)
    | q => q
  out q x := match q.opened x.2.1 with
    | .receiving c => [(userParams x.1 x.2.1, { x.2.2 with lastBe := 0, last := ends x.1 x.2 c })]
    | _ => []
  ok _ _ := True

/-- A beat of a datagram as it is delivered, with its mark. -/
def deliveredBeat (h : Header) (u : Ip.UserParams) (x : Beat dw × Bool) : UserParams × Beat dw :=
  (userParams h u, { x.1 with lastBe := 0, last := x.2 })

theorem trim_oks (xs : List (Header × Ip.UserParams × Beat dw)) : ∀ q, (trim dw).Oks q xs := by
  induction xs with
  | nil => exact fun _ => trivial
  | cons x xs ih => exact fun _ => ⟨trivial, ih _⟩

/-- Padding is dropped. -/
theorem trim_padding (h : Header) (u : Ip.UserParams) {m : List (Beat dw)} (hm : ∀ b ∈ m, b.last = false) :
    (trim dw).outs .dropping (m.map (h, u, ·)) = [] ∧ (trim dw).run .dropping (m.map (h, u, ·)) = .dropping := by
  induction m with
  | nil => exact ⟨rfl, rfl⟩
  | cons b m ih =>
    rw [List.map_cons, Transducer.outs_cons, Transducer.run_cons]
    simp only [hm b List.mem_cons_self, Phase.opened, Bool.false_eq_true, if_false, List.nil_append]
    exact ih fun c hc => hm c (List.mem_cons_of_mem b hc)

/-- The packet of a datagram is opened. -/
theorem trim_open (h : Header) {u : Ip.UserParams} (hu : u.protocol = protocol) {bs : List (Beat dw)} (hbs : bs ≠ []) :
    (trim dw).outs .closed (bs.map (h, u, ·)) = (trim dw).outs (.receiving 0) (bs.map (h, u, ·)) ∧
      (trim dw).run .closed (bs.map (h, u, ·)) = (trim dw).run (.receiving 0) (bs.map (h, u, ·)) := by
  obtain ⟨b, bs, rfl⟩ := List.exists_cons_of_ne_nil hbs
  rw [List.map_cons, Transducer.outs_cons, Transducer.outs_cons, Transducer.run_cons, Transducer.run_cons]
  simp only [Phase.opened, hu, if_true]
  exact ⟨trivial, trivial⟩

/-- A packet of another protocol is dropped. -/
theorem trim_other (h : Header) {u : Ip.UserParams} (hu : u.protocol ≠ protocol) {g : List (Beat dw)}
    (hg : IsFrame (·.last) g) :
    (trim dw).outs .closed (g.map (h, u, ·)) = [] ∧ (trim dw).run .closed (g.map (h, u, ·)) = .closed := by
  obtain ⟨m, l, hm, hl⟩ := hg
  have hbegun : (trim dw).outs .closed (m.map (h, u, ·)) = [] ∧
      ((trim dw).run .closed (m.map (h, u, ·))).opened u = .dropping := by
    cases m with
    | nil => exact ⟨rfl, if_neg hu⟩
    | cons b m =>
      obtain ⟨h1, h2⟩ := trim_padding h u fun c hc => hm c (List.mem_cons_of_mem b hc)
      rw [List.map_cons, Transducer.outs_cons, Transducer.run_cons]
      simp only [Phase.opened, hu, hm b List.mem_cons_self, Bool.false_eq_true, if_false, List.nil_append, h1, h2,
        and_self]
  rw [List.map_append, Transducer.outs_append, Transducer.run_append, hbegun.1, List.map_singleton,
    Transducer.outs_cons, Transducer.run_cons]
  simp only [hbegun.2, hl, if_true]
  exact ⟨rfl, rfl⟩

section Datagram

variable {h : Header} {u : Ip.UserParams} {n : ℕ} (hn : h.length - BitVec.ofNat 16 headerLength = BitVec.ofNat 16 n)
  (hle : n ≤ 2 ^ 16)

include hn hle

/-- The count meets the length with the last byte of the datagram. -/
theorem ends_byte (b : Beat 8) {k : ℕ} (hk : k < n) : ends h (u, b) (BitVec.ofNat 16 k) = (b.last || k + 1 == n) := by
  have hcount : (BitVec.ofNat 16 k == (userParams h u).length - step 8) = (k + 1 == n) := by
    have hlast : (userParams h u).length - step 8 = BitVec.ofNat 16 (n - 1) := by
      show h.length - _ - BitVec.ofNat 16 1 = _
      rw [hn, ← BitVec.ofNat_sub_ofNat_of_le n 1 (by decide) (by omega)]
    rw [hlast, Bool.eq_iff_iff, beq_iff_eq, beq_iff_eq, ← BitVec.toNat_inj, BitVec.toNat_ofNat, BitVec.toNat_ofNat,
      Nat.mod_eq_of_lt (by omega), Nat.mod_eq_of_lt (by omega)]
    omega
  show (b.last || _) = _
  rw [hcount]

/-- The bytes of a datagram before its last one are delivered. -/
theorem trim_bytes {m : List (Beat 8)} (hm : ∀ b ∈ m, b.last = false) {k : ℕ} (hk : k + m.length < n) :
    (trim 8).outs (.receiving (BitVec.ofNat 16 k)) (m.map (h, u, ·)) = m.map (deliveredBeat h u ⟨·, false⟩) ∧
      (trim 8).run (.receiving (BitVec.ofNat 16 k)) (m.map (h, u, ·)) =
        .receiving (BitVec.ofNat 16 (k + m.length)) := by
  induction m generalizing k with
  | nil => exact ⟨rfl, rfl⟩
  | cons b m ih =>
    rw [List.length_cons] at hk
    have hb := hm b List.mem_cons_self
    have hends : ends h (u, b) (BitVec.ofNat 16 k) = false := by
      rw [ends_byte hn hle b (by omega), hb]
      simp
      omega
    have hcount : BitVec.ofNat 16 k + step 8 = BitVec.ofNat 16 (k + 1) := (BitVec.ofNat_add k 1).symm
    obtain ⟨h1, h2⟩ := ih (fun c hc => hm c (List.mem_cons_of_mem b hc)) (k := k + 1) (by omega)
    rw [List.map_cons, Transducer.outs_cons, Transducer.run_cons]
    simp only [hb, Phase.opened, hends, Bool.false_eq_true, if_false, hcount, h1, h2, List.length_cons, List.map_cons]
    refine ⟨rfl, ?_⟩
    rw [Nat.add_assoc, Nat.add_comm 1]

/-- The bytes of a datagram are delivered, the last of them marked. -/
theorem trim_datagram (hu : u.protocol = protocol) {c : List (Beat 8)} (hc : ∀ b ∈ c, b.last = false) {b : Beat 8}
    (hk : c.length < n) (hend : b.last = true ∨ c.length + 1 = n) :
    (trim 8).outs .closed ((c ++ [b]).map (h, u, ·)) = (marked (c ++ [b])).map (deliveredBeat h u) ∧
      (trim 8).run .closed ((c ++ [b]).map (h, u, ·)) = if b.last then .closed else .dropping := by
  obtain ⟨h1, h2⟩ := trim_open h hu (show c ++ [b] ≠ [] by simp)
  obtain ⟨h3, h4⟩ := trim_bytes (u := u) hn hle hc (k := 0) (by omega)
  rw [Nat.zero_add] at h4
  have hends : ends h (u, b) (BitVec.ofNat 16 c.length) = true := by
    rw [ends_byte hn hle b hk]
    simpa using hend
  rw [h1, h2, List.map_append, Transducer.outs_append, Transducer.run_append, marked_concat, List.map_append]
  show (trim 8).outs (.receiving (BitVec.ofNat 16 0)) _ ++ (trim 8).outs
    ((trim 8).run (.receiving (BitVec.ofNat 16 0)) _) _ = _ ∧ (trim 8).run
      ((trim 8).run (.receiving (BitVec.ofNat 16 0)) _) _ = _
  rw [h3, h4, List.map_singleton, Transducer.outs_cons, Transducer.run_cons]
  simp only [Phase.opened, hends, if_true, List.map_map]
  exact ⟨rfl, rfl⟩

/-- Of the packet of a datagram as much is delivered as its length says and there is. -/
theorem trim_packet (hu : u.protocol = protocol) (hpos : 0 < n) {g : List (Beat 8)} (hg : IsFrame (·.last) g) :
    (trim 8).outs .closed (g.map (h, u, ·)) = (marked (g.take n)).map (deliveredBeat h u) ∧
      (trim 8).run .closed (g.map (h, u, ·)) = .closed := by
  obtain ⟨m, l, hm, hl⟩ := hg
  rcases Nat.lt_or_ge m.length n with hlt | hge
  · -- there is no padding
    obtain ⟨h1, h2⟩ := trim_datagram (u := u) hn hle hu hm hlt (.inl hl)
    rw [h1, h2, hl, List.take_of_length_le (by simpa using hlt)]
    exact ⟨rfl, rfl⟩
  · obtain ⟨k, rfl⟩ := Nat.exists_eq_succ_of_ne_zero hpos.ne'
    have hk : (m.take k).length = k := List.length_take_of_le (by omega)
    obtain ⟨h1, h2⟩ := trim_datagram (u := u) hn hle hu (c := m.take k) (fun b hb => hm b (List.mem_of_mem_take hb))
      (b := m[k]) (by omega) (.inr (by omega))
    obtain ⟨h3, h4⟩ := trim_padding h u (m := m.drop (k + 1)) fun b hb => hm b (List.mem_of_mem_drop hb)
    have htake : m.take (k + 1) = m.take k ++ [m[k]] := (List.take_concat_get' m k hge).symm
    rw [hm _ (List.getElem_mem hge), ← htake] at h2
    rw [← htake] at h1
    have hparts : m ++ [l] = m.take (k + 1) ++ (m.drop (k + 1) ++ [l]) := by
      rw [← List.append_assoc, List.take_append_drop]
    rw [List.take_append_of_le_length hge, hparts, List.map_append, Transducer.outs_append, Transducer.run_append, h1, h2,
      if_neg Bool.false_ne_true, List.map_append, Transducer.outs_append, Transducer.run_append, h3, h4,
      List.map_singleton, Transducer.outs_cons, Transducer.run_cons]
    simp only [hl, Phase.opened, if_true]
    exact ⟨List.append_nil _, rfl⟩

/-- The beginning of a datagram is delivered. -/
theorem trim_begun (hu : u.protocol = protocol) {m : List (Beat 8)} (hm : ∀ b ∈ m, b.last = false) (hk : m.length < n) :
    (trim 8).outs .closed (m.map (h, u, ·)) = m.map (deliveredBeat h u ⟨·, false⟩) := by
  rcases List.eq_nil_or_concat m with rfl | ⟨c, b, rfl⟩
  · rfl
  · exact (trim_open h hu (by simp)).1.trans (trim_bytes hn hle hm (k := 0) (by omega)).1

end Datagram

variable {idle : ε → Ip.UserParams} {D : Depacketizer Header dw} {n : ℕ} {fields : List (BitVec dw) → Header}
  (W : D.StripsWords n fields)

/-- What the receiver makes of its stream: the header is stripped, the rest trimmed. -/
abbrev unpacks (n : ℕ) (fields : List (BitVec dw) → Header) :
    Transducer (Ip.UserParams × Beat dw) (UserParams × Beat dw) :=
  (Depacketizer.stripWords (fun x : Ip.UserParams × Beat dw => x.2) n fields).andThen (trim dw)

variable (fields) in
theorem unpacks_header {q : (unpacks n fields).State} (hgot : q.1.length < n) (a : Ip.UserParams × Beat dw) :
    ((unpacks n fields).run q [a]).1 = q.1 ++ [a.2.data] ∧ ((unpacks n fields).run q [a]).2 = q.2 ∧
      (unpacks n fields).outs q [a] = [] := by
  show ite _ _ _ = _ ∧ (trim dw).run q.2 (ite _ _ _) = _ ∧ (trim dw).outs q.2 (ite _ _ _) ++ [] = _
  rw [if_pos hgot, if_pos hgot]
  exact ⟨rfl, rfl, rfl⟩

variable (fields) in
theorem unpacks_data {q : (unpacks n fields).State} (hgot : ¬ q.1.length < n) (a : Ip.UserParams × Beat dw) :
    ((unpacks n fields).run q [a]).1 = (if a.2.last then [] else q.1) ∧
      ((unpacks n fields).run q [a]).2 = (trim dw).next q.2 (fields q.1, a) ∧
      (unpacks n fields).outs q [a] = (trim dw).out q.2 (fields q.1, a) := by
  show ite _ _ _ = _ ∧ (trim dw).run q.2 (ite _ _ _) = _ ∧ (trim dw).outs q.2 (ite _ _ _) ++ [] = _
  rw [if_neg hgot, if_neg hgot, List.append_nil]
  exact ⟨rfl, rfl, List.append_nil _⟩

variable (n fields) in
/-- The header of a packet is stripped. -/
theorem unpacks_packet (u : Ip.UserParams) {y : List (Beat dw)} (hy : IsFrame (·.last) y) (hlen : n < y.length) :
    (unpacks n fields).outs (unpacks n fields).init (y.map (u, ·)) =
        (trim dw).outs .closed ((y.drop n).map (fields ((y.take n).map (·.data)), u, ·)) ∧
      (unpacks n fields).run (unpacks n fields).init (y.map (u, ·)) =
        ([], (trim dw).run .closed ((y.drop n).map (fields ((y.take n).map (·.data)), u, ·))) := by
  have hframe : IsFrame (fun x : Ip.UserParams × Beat dw => x.2.last) (y.map (u, ·)) :=
    IsFrame.map (g := (u, ·)) (fun _ => rfl) hy
  obtain ⟨h1, h2, -⟩ := Depacketizer.stripWords_frame (fun x : Ip.UserParams × Beat dw => x.2) n fields hframe
    (by rwa [List.length_map])
  rw [← List.map_drop, ← List.map_take, List.map_map, List.map_map] at h1
  have hrest : (Depacketizer.stripWords (fun x : Ip.UserParams × Beat dw => x.2) n fields).outs [] (y.map (u, ·)) =
    (y.drop n).map (fields ((y.take n).map (·.data)), u, ·) := h1
  have hinit : (unpacks n fields).init = ([], Phase.closed) := rfl
  rw [Transducer.andThen_outs, Transducer.andThen_run, hinit, hrest, h2]
  exact ⟨rfl, rfl⟩

/-- After the beats taken so far: the words of the header, and how the FSM sees the packet at the sink. -/
structure Rel (s : (Udp.udprx idle D).Run) (got : List (BitVec dw)) (q : Phase) (w : ℕ) : Prop where
  words : W.Got s.state.depacketizer got
  idle : s.state.fsm = .idle → q = .closed ∧ w = 1
  opened : s.state.fsm ≠ .idle → ¬ got.length < n ∧ w = 0
  receive : s.state.fsm = .receive → ∀ i a, s.offered i = some a → q.opened a.1 = .receiving s.state.count
  drop : s.state.fsm = .drop → ∀ i a, s.offered i = some a → q.opened a.1 = .dropping

section Cycle

variable {W} {s : (Udp.udprx idle D).Run} {got : List (BitVec dw)} {q : Phase} {w : ℕ} (h : Rel W s got q w)
  (i : Stage.In ε (Ip.UserParams × Beat dw))

include h

/-- What the depacketizer shows. -/
theorem Rel.packet (a : Option (Ip.UserParams × Beat dw)) (r : Bool) :
    s.state.packet (input idle i.env a r) = if got.length < n then none else a.map (·.2) :=
  W.source_eq h.words _

/-- The words of the header after a cycle. -/
theorem Rel.shift : W.Got (s.next i).state.depacketizer
    (if got.length < n then got ++ ((s.offered i).map (·.2.data)).toList
      else if isLast ((s.offered i).map (·.2)) && s.state.packetReady (input idle i.env (s.offered i) i.ready) then []
      else got) := by
  have hstep := W.step h.words ((s.offered i).map (·.2)) (s.state.packetReady (input idle i.env (s.offered i) i.ready))
  rw [Option.map_map] at hstep
  exact hstep

/-- No beat is offered. -/
theorem Rel.rest (ha : s.offered i = none) : Rel W (s.next i) got q w := by
  have hheld : s.held = none := (Option.or_eq_none_iff.1 ha).1
  have hpacket : s.state.packet (input idle i.env (s.offered i) i.ready) = none := by
    rw [h.packet, ha]
    exact ite_self _
  have hfsm : (s.next i).state.fsm = s.state.fsm := by
    show (s.state.next (input idle i.env (s.offered i) i.ready)).fsm = _
    -- a beat that is offered from now on is new, the machine has not looked at it
    cases hf : s.state.fsm <;> simp [State.next, hf, hpacket, isLast]
  have hcount : s.state.fsm = .receive → (s.next i).state.count = s.state.count := fun hf => by
    show (s.state.next (input idle i.env (s.offered i) i.ready)).count = _
    simp [State.next, hf, hpacket]
  have hoff : ∀ j, (s.next i).offered j = s.offered j := fun j => by
    show (ite _ none (s.offered i)).or j.offer = s.held.or j.offer
    rw [ha, ite_self, hheld]
  have hwords := h.shift i
  rw [ha] at hwords
  constructor
  · simpa [isLast] using hwords
  · rw [hfsm]
    exact h.idle
  · rw [hfsm]
    exact h.opened
  · intro hf j a hj
    rw [hfsm] at hf
    rw [hcount hf]
    exact h.receive hf j a (hoff j ▸ hj)
  · intro hf j a hj
    rw [hfsm] at hf
    exact h.drop hf j a (hoff j ▸ hj)

/-- A word of the header is taken. -/
theorem Rel.header {a : Ip.UserParams × Beat dw} (ha : s.offered i = some a) (hgot : got.length < n) :
    s.takes i = some a ∧ s.gives i = none ∧ Rel W (s.next i) (got ++ [a.2.data]) q w := by
  have hidle : s.state.fsm = .idle := by
    by_contra hc
    exact (h.opened hc).1 hgot
  have hready : s.state.sinkReady (input idle i.env (s.offered i) i.ready) = true := by
    rw [ha]
    exact (W.sinkReady_eq h.words _ _).trans (if_pos hgot)
  have hpacket : s.state.packet (input idle i.env (s.offered i) i.ready) = none := by
    rw [h.packet]
    exact if_pos hgot
  have hfsm : (s.next i).state.fsm = .idle := by
    show (s.state.next (input idle i.env (s.offered i) i.ready)).fsm = _
    simp [State.next, hidle, hpacket]
  have hwords := h.shift i
  rw [ha, if_pos hgot] at hwords
  refine ⟨?_, ?_, hwords, fun _ => h.idle hidle, fun hc => absurd hfsm hc, fun hc => absurd (hfsm.symm.trans hc) nofun,
    fun hc => absurd (hfsm.symm.trans hc) nofun⟩
  · exact (if_pos hready).trans ha
  · show (if i.ready then s.state.source (input idle i.env (s.offered i) false) else none) = none
    simp [State.source, hidle]

/-- The packet is opened. -/
theorem Rel.open {a : Ip.UserParams × Beat dw} (ha : s.offered i = some a) (hgot : ¬ got.length < n)
    (hidle : s.state.fsm = .idle) : s.takes i = none ∧ s.gives i = none ∧ Rel W (s.next i) got q 0 := by
  have hready : s.state.sinkReady (input idle i.env (s.offered i) i.ready) = false := by
    rw [ha]
    refine (W.sinkReady_eq h.words _ _).trans ((if_neg hgot).trans ?_)
    simp [State.packetReady, hidle]
  have hheld : (s.next i).held = some a := by
    show (if s.state.sinkReady (input idle i.env (s.offered i) i.ready) then none else s.offered i) = _
    rw [hready, ha]
    rfl
  have hoff : ∀ j, (s.next i).offered j = some a := fun j => by
    show (s.next i).held.or j.offer = some a
    rw [hheld]
    rfl
  have hpacket : s.state.packet (input idle i.env (s.offered i) i.ready) = some a.2 := by
    rw [h.packet, ha]
    exact if_neg hgot
  -- the protocol is looked at here and nowhere else
  have hfsm : (s.next i).state.fsm = if a.1.protocol = protocol then .receive else .drop := by
    show (s.state.next (input idle i.env (s.offered i) i.ready)).fsm = _
    unfold State.next
    simp only [hidle, hpacket, Option.isSome_some, if_true]
    rw [ha]
    rfl
  have hcount : (s.next i).state.count = 0 := by
    show (s.state.next (input idle i.env (s.offered i) i.ready)).count = _
    simp [State.next, hidle]
  have hwords := h.shift i
  rw [if_neg hgot, show s.state.packetReady _ = false by simp [State.packetReady, hidle], Bool.and_false] at hwords
  obtain ⟨rfl, -⟩ := h.idle hidle
  -- the beat stays the same, so that the next cycle finds it undecided no more
  refine ⟨if_neg (ne_true_of_eq_false hready), ?_, hwords, fun hc => ?_, fun _ => ⟨hgot, rfl⟩,
    fun hc j x hx => ?_, fun hc j x hx => ?_⟩
  · show (if i.ready then s.state.source (input idle i.env (s.offered i) false) else none) = none
    simp [State.source, hidle]
  · rw [hfsm] at hc
    split_ifs at hc
  · rw [hoff] at hx
    cases hx
    rw [hfsm] at hc
    split_ifs at hc with hp
    rw [hcount]
    exact if_pos hp
  · rw [hoff] at hx
    cases hx
    rw [hfsm] at hc
    split_ifs at hc with hp
    exact if_neg hp

/-- A beat of the datagram is at the source. -/
theorem Rel.source {a : Ip.UserParams × Beat dw} (ha : s.offered i = some a) (hf : s.state.fsm = .receive) :
    s.source i = some (userParams (fields got) a.1,
      { a.2 with lastBe := 0, last := ends (fields got) a s.state.count }) := by
  have hgot := (h.opened (by rw [hf]; nofun)).1
  have hpacket : s.state.packet (input idle i.env (s.offered i) false) = some a.2 := by
    rw [h.packet, ha]
    exact if_neg hgot
  show s.state.source (input idle i.env (s.offered i) false) = _
  unfold State.source
  simp only [hf, hpacket, Option.map_some]
  rw [ha, ← W.header_eq h.words (le_antisymm (W.length_le h.words) (not_lt.1 hgot))]
  rfl

/-- A beat of the datagram waits for the consumer. -/
theorem Rel.hold {a : Ip.UserParams × Beat dw} (ha : s.offered i = some a) (hf : s.state.fsm = .receive)
    (hr : i.ready = false) : s.takes i = none ∧ Rel W (s.next i) got q w ∧
      (∀ j, (s.next i).offered j = some a) ∧ (s.next i).state.fsm = .receive ∧
      (s.next i).state.count = s.state.count := by
  obtain ⟨hgot, hw⟩ := h.opened (by rw [hf]; nofun)
  have hready : s.state.sinkReady (input idle i.env (s.offered i) i.ready) = false := by
    rw [ha]
    refine (W.sinkReady_eq h.words _ _).trans ((if_neg hgot).trans ?_)
    simp [State.packetReady, hf, input, hr]
  have hoff : ∀ j, (s.next i).offered j = some a := fun j => by
    show (if s.state.sinkReady (input idle i.env (s.offered i) i.ready) then none else s.offered i).or j.offer = _
    rw [hready, ha]
    rfl
  have hpacket : s.state.packet (input idle i.env (s.offered i) i.ready) = some a.2 := by
    rw [h.packet, ha]
    exact if_neg hgot
  have hfsm : (s.next i).state.fsm = .receive := by
    show (s.state.next (input idle i.env (s.offered i) i.ready)).fsm = _
    unfold State.next
    simp only [hf, hpacket]
    exact if_neg (ne_true_of_eq_false hr)
  have hcount : (s.next i).state.count = s.state.count := by
    show (s.state.next (input idle i.env (s.offered i) i.ready)).count = _
    simp [State.next, hf, input, hr]
  have hwords := h.shift i
  rw [if_neg hgot, show s.state.packetReady _ = false by simp [State.packetReady, hf, input, hr], Bool.and_false]
    at hwords
  refine ⟨if_neg (ne_true_of_eq_false hready), ⟨hwords, fun hc => absurd (hfsm.symm.trans hc) nofun,
    fun _ => ⟨hgot, hw⟩, fun _ j x hx => ?_, fun hc => absurd (hfsm.symm.trans hc) nofun⟩, hoff, hfsm, hcount⟩
  rw [hoff] at hx
  cases hx
  rw [hcount]
  exact h.receive hf i a ha

/-- A beat of the datagram is delivered. -/
theorem Rel.receives {a : Ip.UserParams × Beat dw} (ha : s.offered i = some a) (hf : s.state.fsm = .receive)
    (hr : i.ready = true) : s.takes i = some a ∧ (s.gives i).toList = (trim dw).out q (fields got, a) ∧
      ∃ w', Rel W (s.next i) (if a.2.last then [] else got) ((trim dw).next q (fields got, a)) w' := by
  obtain ⟨hgot, -⟩ := h.opened (by rw [hf]; nofun)
  have hq := h.receive hf i a ha
  have hheader : D.header s.state.depacketizer = fields got :=
    W.header_eq h.words (le_antisymm (W.length_le h.words) (not_lt.1 hgot))
  have hready : s.state.sinkReady (input idle i.env (s.offered i) i.ready) = true := by
    rw [ha]
    refine (W.sinkReady_eq h.words _ _).trans ((if_neg hgot).trans ?_)
    simp [State.packetReady, hf, input, hr]
  have hpacket : ∀ r, s.state.packet (input idle i.env (s.offered i) r) = some a.2 := fun r => by
    rw [h.packet, ha]
    exact if_neg hgot
  have hlast : ∀ r, s.state.last (input idle i.env (s.offered i) r) a.2 = ends (fields got) a s.state.count := fun r => by
    rw [ha, ← hheader]
    rfl
  -- the machine leaves by the beat's own end or by the length
  have hfsm : (s.next i).state.fsm =
      if a.2.last then .idle else if ends (fields got) a s.state.count then .drop else .receive := by
    show (s.state.next (input idle i.env (s.offered i) i.ready)).fsm = _
    unfold State.next
    simp only [hf, hpacket, hlast]
    exact if_pos hr
  have hcount : (s.next i).state.count = s.state.count + step dw := by
    show (s.state.next (input idle i.env (s.offered i) i.ready)).count = _
    unfold State.next
    simp only [hf, hpacket, Option.isSome_some, Bool.true_and]
    exact if_pos hr
  have hwords := h.shift i
  rw [ha, if_neg hgot, show s.state.packetReady _ = true by simp [State.packetReady, hf, input, hr], Bool.and_true]
    at hwords
  have hwords' : W.Got (s.next i).state.depacketizer (if a.2.last then [] else got) := hwords
  refine ⟨(if_pos hready).trans ha, ?_, ?_⟩
  · have hgive : s.gives i = s.source i := if_pos hr
    rw [hgive, h.source i ha hf]
    simp only [hq, Option.toList_some]
  · simp only [hq]
    cases hl : a.2.last with
    | true =>
      rw [hl] at hfsm hwords'
      exact ⟨1, hwords', fun _ => ⟨rfl, rfl⟩, fun hc => absurd hfsm hc, fun hc => absurd (hfsm.symm.trans hc) nofun,
        fun hc => absurd (hfsm.symm.trans hc) nofun⟩
    | false =>
      rw [hl] at hfsm hwords'
      simp only [Bool.false_eq_true, if_false] at hfsm ⊢
      refine ⟨0, hwords', fun hc => ?_, fun _ => ⟨hgot, rfl⟩, fun hc j x _ => ?_, fun hc j x _ => ?_⟩
      · rw [hfsm] at hc
        split_ifs at hc
      · rw [hfsm] at hc
        split_ifs at hc with hne
        rw [hcount]
        rw [if_neg hne]
        rfl
      · rw [hfsm] at hc
        split_ifs at hc with he
        rw [if_pos he]
        rfl

/-- A beat is dropped. -/
theorem Rel.drops {a : Ip.UserParams × Beat dw} (ha : s.offered i = some a) (hf : s.state.fsm = .drop) :
    s.takes i = some a ∧ s.gives i = none ∧ (trim dw).out q (fields got, a) = [] ∧
      ∃ w', Rel W (s.next i) (if a.2.last then [] else got) ((trim dw).next q (fields got, a)) w' := by
  obtain ⟨hgot, -⟩ := h.opened (by rw [hf]; nofun)
  have hq := h.drop hf i a ha
  -- while dropping the sink is ready whatever the output does
  have hready : s.state.sinkReady (input idle i.env (s.offered i) i.ready) = true := by
    rw [ha]
    refine (W.sinkReady_eq h.words _ _).trans ((if_neg hgot).trans ?_)
    simp [State.packetReady, hf]
  have hpacket : s.state.packet (input idle i.env (s.offered i) i.ready) = some a.2 := by
    rw [h.packet, ha]
    exact if_neg hgot
  have hfsm : (s.next i).state.fsm = if a.2.last then .idle else .drop := by
    show (s.state.next (input idle i.env (s.offered i) i.ready)).fsm = _
    unfold State.next
    simp only [hf, hpacket]
    rfl
  have hwords := h.shift i
  rw [ha, if_neg hgot, show s.state.packetReady _ = true by simp [State.packetReady, hf], Bool.and_true] at hwords
  have hwords' : W.Got (s.next i).state.depacketizer (if a.2.last then [] else got) := hwords
  refine ⟨(if_pos hready).trans ha, ?_, ?_, ?_⟩
  · show (if i.ready then s.state.source (input idle i.env (s.offered i) false) else none) = none
    simp [State.source, hf]
  · simp only [hq]
  · simp only [hq]
    -- only the end of the packet ends the dropping
    cases hl : a.2.last with
    | true =>
      rw [hl] at hfsm hwords'
      exact ⟨1, hwords', fun _ => ⟨rfl, rfl⟩, fun hc => absurd hfsm hc, fun hc => absurd (hfsm.symm.trans hc) nofun,
        fun hc => absurd (hfsm.symm.trans hc) nofun⟩
    | false =>
      rw [hl] at hfsm hwords'
      exact ⟨0, hwords', fun hc => absurd (hfsm.symm.trans hc) nofun, fun _ => ⟨hgot, rfl⟩,
        fun hc => absurd (hfsm.symm.trans hc) nofun, fun _ _ _ _ => rfl⟩

end Cycle

/-- The receiver delivers the datagrams of its stream. -/
def trims (W : D.StripsWords n fields) (H : ε → Prop) : Stage.Taking H (Udp.udprx idle D) (unpacks n fields) where
  W := ℕ
  linear := inferInstance
  wf := wellFoundedLT_nat
  Rel s q p w := Rel W s q.1 q.2 w ∧ p = []
  reset := ⟨1, ⟨W.reset, fun _ => ⟨rfl, rfl⟩, fun hc => absurd rfl hc, nofun, nofun⟩, rfl⟩
  cycle := by
    rintro s q p w ⟨h, rfl⟩ i -
    cases ha : s.offered i with
    | none =>
      have hheld : s.held = none := (Option.or_eq_none_iff.1 ha).1
      have htakes : s.takes i = none := by
        unfold Stage.Run.takes
        rw [ha, ite_self]
      have hgives : s.gives i = none := by
        have hpacket : s.state.packet (input idle i.env (s.offered i) false) = none := by
          rw [h.packet, ha]
          exact ite_self _
        show (if i.ready then s.state.source (input idle i.env (s.offered i) false) else none) = none
        unfold State.source
        rw [hpacket]
        cases s.state.fsm <;> exact ite_self _
      rw [htakes, hgives]
      exact ⟨[], w, rfl, ⟨h.rest i ha, rfl⟩, fun _ _ _ _ => .inl ⟨hheld, rfl, le_rfl⟩⟩
    | some a =>
      -- the header is taken beat by beat and gives nothing
      by_cases hgot : q.1.length < n
      · obtain ⟨htakes, hgives, hrel⟩ := h.header i ha hgot
        obtain ⟨hnext₁, hnext₂, hout⟩ := unpacks_header fields hgot a
        rw [htakes, hgives, Option.toList_some, hnext₁, hnext₂, hout]
        exact ⟨[], w, rfl, ⟨hrel, rfl⟩, fun _ _ hc => absurd hc nofun⟩
      · obtain ⟨hnext₁, hnext₂, hout⟩ := unpacks_data fields hgot a
        cases hf : s.state.fsm with
        -- the first beat behind the header: one cycle to look at it
        | idle =>
          obtain ⟨htakes, hgives, hrel⟩ := h.open i ha hgot hf
          obtain ⟨-, rfl⟩ := h.idle hf
          rw [htakes, hgives]
          exact ⟨[], 0, rfl, ⟨hrel, rfl⟩, fun _ _ _ _ => .inr (.inr Nat.one_pos)⟩
        | receive =>
          cases hr : i.ready with
          | false =>
            obtain ⟨htakes, hrel, -⟩ := h.hold i ha hf hr
            have hgives : s.gives i = none := if_neg (ne_true_of_eq_false hr)
            rw [htakes, hgives]
            refine ⟨[], w, rfl, ⟨hrel, rfl⟩, fun _ _ _ _ => .inr (.inl ⟨?_, rfl⟩)⟩
            rw [h.source i ha hf]
            nofun
          | true =>
            obtain ⟨htakes, hgives, w', hrel⟩ := h.receives i ha hf hr
            rw [htakes, hgives, Option.toList_some, hnext₁, hnext₂, hout]
            exact ⟨[], w', (List.append_nil _).symm, ⟨hrel, rfl⟩, fun _ _ hc => absurd hc nofun⟩
        | drop =>
          obtain ⟨htakes, hgives, hout', w', hrel⟩ := h.drops i ha hf
          rw [htakes, hgives, Option.toList_some, hnext₁, hnext₂, hout, hout']
          exact ⟨[], w', rfl, ⟨hrel, rfl⟩, fun _ _ hc => absurd hc nofun⟩
  stable := by
    rintro s q p w ⟨h, rfl⟩ i - x hx hr j
    have hsource : s.state.source (input idle i.env (s.offered i) false) = some x := hx
    cases hf : s.state.fsm with
    | idle => simp [State.source, hf] at hsource
    | drop => simp [State.source, hf] at hsource
    | receive =>
      cases ha : s.offered i with
      | none =>
        have hpacket : s.state.packet (input idle i.env (s.offered i) false) = none := by
          rw [h.packet, ha]
          exact ite_self _
        simp [State.source, hf, hpacket] at hsource
      | some a =>
        obtain ⟨-, hrel, hoff, hfsm, hcount⟩ := h.hold i ha hf hr
        rw [hrel.source j (hoff j) hfsm, hcount, ← h.source i ha hf]
        exact hx

end Rx

end LiteEth.Core.Udp
