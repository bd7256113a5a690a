/-
`frontend/etherbone.py`: the receiver of Etherbone packets. It takes the Etherbone header off the datagrams of the UDP port
and drops those whose magic number is not Etherbone's. What the transmitter of packets sends arrives at the receiver as it
was, whatever the timing.
-/
import LiteEth.Frontend.EtherbonePacket
import LiteEth.Rtl.PacketWords
import LiteEth.Rtl.StreamFifo
import LiteEth.Rtl.StreamTaken

namespace LiteEth.Frontend.Etherbone

open LiteEth.Rtl LiteEth.Core

/-! ## The header -/

/-- The fields of a header, from its words. -/
def PacketHeader.ofWords (ws : List (BitVec 32)) : PacketHeader where
  magic := (ws.getD 0 0).extractLsb' 0 8 ++ (ws.getD 0 0).extractLsb' 8 8
  version := (ws.getD 0 0).extractLsb' 20 4
  nr := (ws.getD 0 0).getLsbD 18
  pr := (ws.getD 0 0).getLsbD 17
  pf := (ws.getD 0 0).getLsbD 16
  addrSize := (ws.getD 0 0).extractLsb' 28 4
  portSize := (ws.getD 0 0).extractLsb' 24 4

theorem bytes_of_magic (m : BitVec 16) : m.extractLsb' 8 8 ++ m.extractLsb' 0 8 = m := by
  ext i hi
  rw [BitVec.getElem_append]
  split_ifs with h
  · rw [BitVec.getElem_extractLsb', Nat.zero_add]
    exact BitVec.getLsbD_eq_getElem hi
  · rw [BitVec.getElem_extractLsb', Nat.add_sub_cancel' (not_lt.1 h)]
    exact BitVec.getLsbD_eq_getElem hi

/-- What is encoded is decoded. -/
theorem PacketHeader.ofWords_words (h : PacketHeader) : ofWords h.words = h := by
  obtain ⟨magic, version, nr, pr, pf, addrSize, portSize⟩ := h
  rw [ofWords, words, List.getD_cons_zero, PacketHeader.mk.injEq]
  refine ⟨Eq.trans ?_ (bytes_of_magic magic), ?_, ?_, ?_, ?_, ?_, ?_⟩
  · simp (disch := omega) only [BitVec.extractLsb'_append_eq_of_add_le, BitVec.extractLsb'_append_eq_of_le,
      BitVec.extractLsb'_eq_self, Nat.reduceSub]
  · simp (disch := omega) only [BitVec.extractLsb'_append_eq_of_add_le, BitVec.extractLsb'_append_eq_of_le,
      BitVec.extractLsb'_eq_self, Nat.reduceSub]
  · simp only [BitVec.getLsbD_append, BitVec.getLsbD_ofBool, Nat.reduceLT, Nat.reduceSub, if_true, if_false]
    simp
  · simp only [BitVec.getLsbD_append, BitVec.getLsbD_ofBool, Nat.reduceLT, Nat.reduceSub, if_true, if_false]
    simp
  · simp only [BitVec.getLsbD_append, BitVec.getLsbD_ofBool, Nat.reduceLT, Nat.reduceSub, if_true, if_false]
    simp
  · simp (disch := omega) only [BitVec.extractLsb'_append_eq_of_le, BitVec.extractLsb'_eq_self, Nat.reduceSub]
  · simp (disch := omega) only [BitVec.extractLsb'_append_eq_of_add_le, BitVec.extractLsb'_append_eq_of_le,
      BitVec.extractLsb'_eq_self, Nat.reduceSub]

/-! ## The receiver -/

namespace PacketRx

/-- The parameters driven at `source`. -/
def params (h : PacketHeader) (u : Udp.UserParams) : PacketUserParams where
  nr := h.nr
  pr := h.pr
  pf := h.pf
  ipAddress := u.ipAddress
  length := u.length - BitVec.ofNat 16 packetHeaderLength

/-- The beat at `source`, to which `last_be` and `error` are not connected. -/
def out (x : PacketHeader × Udp.UserParams × Beat 32) : PacketUserParams × Beat 32 :=
  (params x.1 x.2.1, { x.2.2 with lastBe := 0, error := 0 })

/-- The condition for `RECEIVE`. -/
def accepts (x : PacketHeader × Udp.UserParams × Beat 32) : Bool := x.1.magic == PacketTx.etherboneMagic

/-- `LiteEthEtherbonePacketRX`: an FSM behind the depacketizer, that drops a packet with another magic number; `idle` is at
the sink while it is not valid. -/
abbrev packetRx {ε : Type} (D : Depacketizer PacketHeader 32) (idle : ε → Udp.UserParams) :
    Stage ε (Udp.UserParams × Beat 32) (PacketUserParams × Beat 32) :=
  ((D.along idle).andThen (Gate.stage ε accepts (·.2.2.last))).mapped out

/-- What it makes of its stream. -/
abbrev receives : Transducer (Udp.UserParams × Beat 32) (PacketUserParams × Beat 32) :=
  ((Depacketizer.stripWords (fun a : Udp.UserParams × Beat 32 => a.2) 2 PacketHeader.ofWords).andThen
    (Gate.gated accepts (·.2.2.last))).mapped out

/-- The receiver gives the packets that follow of the datagrams. -/
def receiving {ε : Type} (H : ε → Prop) {D : Depacketizer PacketHeader 32} (W : D.StripsWords 2 PacketHeader.ofWords)
    (idle : ε → Udp.UserParams) : Stage.Sim H (packetRx D idle) receives :=
  ((W.followsAlong H idle).sim.andThen (Gate.gates H accepts (·.2.2.last)).sim).mapped out

/-- The header of a datagram. -/
def header (f : List (Udp.UserParams × Beat 32)) : PacketHeader := .ofWords ((f.take 2).map (·.2.data))

/-- What the receiver gives of a datagram, or of its beats so far. -/
def received (f : List (Udp.UserParams × Beat 32)) : List (PacketUserParams × Beat 32) :=
  if (header f).magic = PacketTx.etherboneMagic then (f.drop 2).map fun a => out (header f, a) else []

section Received

theorem receives_oks (as : List (Udp.UserParams × Beat 32)) (q : receives.State) : receives.Oks q as :=
  (Transducer.mapped_oks _ _ _ _).2
    ((Transducer.andThen_oks _ _ _ _).2 ⟨Depacketizer.stripWords_oks _ _ _ _ _, Gate.gated_oks _ _⟩)

theorem accepted_eq (f : List (Udp.UserParams × Beat 32)) :
    (if ((f.drop 2).map (header f, ·)).head?.any accepts then (f.drop 2).map (header f, ·) else []).map out =
      received f := by
  unfold received
  cases hd : f.drop 2 with
  | nil => simp
  | cons a m => by_cases h : (header f).magic = PacketTx.etherboneMagic <;> simp [accepts, h]

theorem receives_begun {m : List (Udp.UserParams × Beat 32)} (hm : ∀ a ∈ m, a.2.last = false) :
    receives.outs receives.init m = received m := by
  obtain ⟨houts, -⟩ := Depacketizer.stripWords_fresh (fun a : Udp.UserParams × Beat 32 => a.2) 2 PacketHeader.ofWords hm
  have hpayload : ∀ x ∈ (m.drop 2).map (header m, ·), x.2.2.last = false := by
    rintro x hx
    obtain ⟨a, ha, rfl⟩ := List.mem_map.1 hx
    exact hm a (List.mem_of_mem_drop ha)
  rw [← accepted_eq]
  refine (Transducer.mapped_outs _ _ _ _).trans (congrArg (List.map out) ?_)
  exact (Transducer.andThen_outs _ _ _ _).trans ((congrArg _ houts).trans (Gate.gated_begun accepts hpayload).1)

/-- A datagram passes as a whole, without its header, or none of it. -/
theorem receives_frame {f : List (Udp.UserParams × Beat 32)} (hf : IsFrame (·.2.last) f) (hlen : 2 < f.length) :
    receives.Makes f (received f) := by
  obtain ⟨houts, hrun, hframe⟩ :=
    Depacketizer.stripWords_frame (fun a : Udp.UserParams × Beat 32 => a.2) 2 PacketHeader.ofWords hf hlen
  have hstrip : (Depacketizer.stripWords (fun a : Udp.UserParams × Beat 32 => a.2) 2 PacketHeader.ofWords).Makes f
      ((f.drop 2).map (header f, ·)) := ⟨Depacketizer.stripWords_oks _ _ _ _ _, hrun, houts⟩
  have hpayload : IsFrame (·.2.2.last) ((f.drop 2).map (header f, ·)) :=
    IsFrame.map (g := (header f, ·)) (fun _ => rfl) hframe
  obtain ⟨hgated, hgate⟩ := Gate.gated_frame accepts hpayload
  rw [← accepted_eq]
  exact (hstrip.andThen ⟨Gate.gated_oks _ _, hgate, hgated⟩).mapped out

end Received

end PacketRx

/-! ## From a transmitter to a receiver -/

/-- What the transmitter sends of a packet, or of its beats so far. -/
def PacketTx.datagram (udpPort : BitVec 16) (f : List (PacketUserParams × Beat 32)) : List (Udp.UserParams × Beat 32) :=
  Packetizer.prepended (fun a => (header a.1).words.map fun w => (params udpPort a.1, .ofWord w))
    (fun a => (params udpPort a.1, { a.2 with lastBe := 0, error := 0 })) f

/-- A packet is sent after its header, as a datagram. -/
theorem PacketTx.sends_frame (udpPort : BitVec 16) {f : List (PacketUserParams × Beat 32)} (hf : IsFrame (·.2.last) f) :
    ((feed udpPort).sends PacketHeader.words).Makes f (datagram udpPort f) := by
  obtain ⟨houts, hrun⟩ := Packetizer.prepend_frame
    (fun a : PacketUserParams × Beat 32 => (header a.1).words.map fun w => (params udpPort a.1, Beat.ofWord w))
    (fun a => (params udpPort a.1, { a.2 with lastBe := 0, error := 0 })) (·.2.last) hf
  exact ⟨Packetizer.prepend_oks _ _ _ _ _, hrun, houts⟩

theorem PacketTx.sends_begun (udpPort : BitVec 16) {m : List (PacketUserParams × Beat 32)}
    (hm : ∀ a ∈ m, a.2.last = false) :
    ((feed udpPort).sends PacketHeader.words).outs false m = datagram udpPort m :=
  (Packetizer.prepend_begun
    (fun a : PacketUserParams × Beat 32 => (header a.1).words.map fun w => (params udpPort a.1, Beat.ofWord w))
    (fun a => (params udpPort a.1, { a.2 with lastBe := 0, error := 0 })) (·.2.last) hm).1

theorem PacketTx.isFrame_datagram (udpPort : BitVec 16) {f : List (PacketUserParams × Beat 32)}
    (hf : IsFrame (·.2.last) f) : IsFrame (·.2.last) (datagram udpPort f) := by
  refine Packetizer.isFrame_prepended ?_ (fun _ => rfl) hf
  rintro a b hb
  obtain ⟨w, -, rfl⟩ := List.mem_map.1 hb
  rfl

/-- The beats of a packet, the parameters with each of them. -/
structure IsPacket (f : List (PacketUserParams × Beat 32)) : Prop where
  frame : IsFrame (·.2.last) f
  params : ∃ q, ∀ a ∈ f, a.1 = q

/-- A transmitter of packets, what carries datagrams from `sender`, and a receiver of packets. -/
structure PacketLink (ε : Type) where
  helpful : ε → Prop
  sender : BitVec 32
  udpPort : BitVec 16
  packetizer : Packetizer PacketHeader 32
  prepends : packetizer.PrependsWords PacketHeader.words
  idlePacket : ε → PacketUserParams × Beat 32
  carrier : Stage ε (Udp.UserParams × Beat 32) (Udp.UserParams × Beat 32)
  /-- Each beat is carried, with the address of its sender. -/
  carries : Stage.Sim helpful carrier (Transducer.beatwise
    (fun a => ({ a.1 with ipAddress := sender }, { a.2 with lastBe := 0, error := 0 })) fun _ => True)
  depacketizer : Depacketizer PacketHeader 32
  strips : depacketizer.StripsWords 2 PacketHeader.ofWords
  idleUser : ε → Udp.UserParams

namespace PacketLink

variable {ε : Type} (L : PacketLink ε)

/-- The transmitter, the carrier and the receiver. -/
abbrev link : Stage ε (PacketUserParams × Beat 32) (PacketUserParams × Beat 32) :=
  ((PacketTx.packetTx L.udpPort L.packetizer L.idlePacket).andThen L.carrier).andThen
    (PacketRx.packetRx L.depacketizer L.idleUser)

/-- A beat of a packet, as it is received. -/
def delivered (a : PacketUserParams × Beat 32) : PacketUserParams × Beat 32 :=
  ({ a.1 with ipAddress := L.sender }, { a.2 with lastBe := 0, error := 0 })

/-- A beat of a datagram, as it is carried. -/
def carried (a : Udp.UserParams × Beat 32) : Udp.UserParams × Beat 32 :=
  ({ a.1 with ipAddress := L.sender }, { a.2 with lastBe := 0, error := 0 })

/-- What they make of packets. -/
abbrev packets : Transducer (PacketUserParams × Beat 32) (PacketUserParams × Beat 32) :=
  (((PacketTx.feed L.udpPort).sends PacketHeader.words).andThen (Transducer.beatwise L.carried fun _ => True)).andThen
    PacketRx.receives

/-- They give what follows. -/
def carriesPackets : Stage.Sim L.helpful L.link L.packets :=
  ((Packetizer.transmits (PacketTx.feed L.udpPort) (·.2.last) L.idlePacket L.prepends L.helpful).andThen L.carries).andThen
    (PacketRx.receiving L.helpful L.strips L.idleUser)

/-- What is received of a datagram with a packet is the packet. -/
theorem received_datagram {f : List (PacketUserParams × Beat 32)} (hf : IsPacket f) :
    PacketRx.received ((PacketTx.datagram L.udpPort f).map L.carried) = f.map L.delivered := by
  obtain ⟨hframe, q, hq⟩ := hf
  obtain ⟨a, m, rfl⟩ := List.exists_cons_of_ne_nil hframe.ne_nil
  have ha : a.1 = q := hq a List.mem_cons_self
  have hheader : PacketRx.header ((PacketTx.datagram L.udpPort (a :: m)).map L.carried) = PacketTx.header q := by
    rw [← PacketHeader.ofWords_words (PacketTx.header q), ← ha]
    rfl
  have hpayload : ((PacketTx.datagram L.udpPort (a :: m)).map L.carried).drop 2 = (a :: m).map fun b =>
      L.carried (PacketTx.params L.udpPort b.1, { b.2 with lastBe := 0, error := 0 }) := by
    rw [← List.map_drop]
    exact List.map_map
  have hmagic : (PacketTx.header q).magic = PacketTx.etherboneMagic := rfl
  unfold PacketRx.received
  rw [hheader, if_pos hmagic, hpayload, List.map_map]
  refine List.map_congr_left fun b hb => ?_
  have hb' : b.1 = q := hq b hb
  -- the length of the header is added and subtracted again
  have hlength : q.length + BitVec.ofNat 16 packetHeaderLength - BitVec.ofNat 16 packetHeaderLength = q.length :=
    BitVec.add_sub_cancel _ _
  refine Prod.ext ?_ rfl
  show PacketRx.params (PacketTx.header q) (L.carried (PacketTx.params L.udpPort b.1, _)).1 = _
  rw [hb', PacketRx.params, delivered, hb']
  show PacketUserParams.mk q.nr q.pr q.pf L.sender _ = PacketUserParams.mk q.nr q.pr q.pf L.sender q.length
  exact congrArg _ hlength

theorem packets_makes {f : List (PacketUserParams × Beat 32)} (hf : IsPacket f) :
    L.packets.Makes f (f.map L.delivered) := by
  have hcarried : IsFrame (·.2.last) ((PacketTx.datagram L.udpPort f).map L.carried) :=
    IsFrame.map (g := L.carried) (fun _ => rfl) (PacketTx.isFrame_datagram L.udpPort hf.frame)
  have hlong : 2 < ((PacketTx.datagram L.udpPort f).map L.carried).length := by
    obtain ⟨a, m, rfl⟩ := List.exists_cons_of_ne_nil hf.frame.ne_nil
    simp [PacketTx.datagram, Packetizer.prepended, PacketHeader.words]
  have hreceived := PacketRx.receives_frame hcarried hlong
  rw [L.received_datagram hf] at hreceived
  exact ((PacketTx.sends_frame L.udpPort hf.frame).andThen (Transducer.beatwise_makes L.carried _)).andThen hreceived

/-- Every packet is received as it was sent, in order and once, with its flags and its length and with the address of its
sender. -/
theorem packets_received (fs : List (List (PacketUserParams × Beat 32))) (hfs : ∀ f ∈ fs, IsPacket f) :
    L.link.Delivers L.helpful fs.flatten (fs.flatten.map L.delivered) := by
  obtain ⟨hok, -, houts⟩ := Transducer.Makes.flatMap (f := id) (g := List.map L.delivered) fs fun f hf =>
    L.packets_makes (hfs f hf)
  have hdelivers := L.carriesPackets.delivers hok
  rw [houts, List.flatMap_id] at hdelivers
  rwa [List.map_flatten, ← List.flatMap_def]

/-- A wire between a transmitter and a receiver. -/
def wired : PacketLink Unit where
  helpful _ := True
  sender := 0x0a000001
  udpPort := 0x4d2
  packetizer := .words 2 fun h k => h.words.getD k 0
  prepends := Packetizer.prependsWords_words 2 Nat.two_pos fun (h : PacketHeader) k => h.words.getD k 0
  idlePacket _ := (⟨false, false, false, 0, 0⟩, .ofWord 0)
  carrier := Stage.wire.mapped fun a => ({ a.1 with ipAddress := 0x0a000001 }, { a.2 with lastBe := 0, error := 0 })
  carries := ((Stage.wire_maps _ _).sim).becomes _ id (fun _ => True) trivial rfl fun _ _ _ _ => ⟨trivial, rfl, rfl, trivial⟩
  depacketizer := .words 2 Nat.two_pos PacketHeader.ofWords
  strips := Depacketizer.stripsWords_words 2 Nat.two_pos PacketHeader.ofWords
  idleUser _ := ⟨0, 0, 0, 0⟩

/-- A probe of one word. -/
def probeWord : PacketUserParams × Beat 32 := (⟨false, false, true, 0x0a000002, 4⟩, ⟨0x2a, 0, 0, true⟩)

theorem isPacket_probeWord : IsPacket [probeWord] := by
  refine ⟨.mk [] probeWord (List.forall_mem_nil _) rfl, probeWord.1, ?_⟩
  rintro a ha
  rw [List.mem_singleton.1 ha]

theorem packets_received_probeWord : wired.link.Delivers wired.helpful [[probeWord], [probeWord]].flatten
    ([[probeWord], [probeWord]].flatten.map wired.delivered) := by
  apply packets_received
  rintro f hf
  fin_cases hf
  · exact isPacket_probeWord
  · exact isPacket_probeWord

end PacketLink

end LiteEth.Frontend.Etherbone
