/-
UDP from one host to another: `LiteEthUDPTX` and `LiteEthIPTX` of the sender, a carrier that may add padding
to each packet, `LiteEthIPRX` and `LiteEthUDPRX` of the receiver. Each datagram for the receiver is delivered
once, in order, with its ports and its length, whatever the timing and the padding.
-/
import LiteEth.Core.IpRx
import LiteEth.Core.IpStream
import LiteEth.Core.UdpStream
import LiteEth.Rtl.StreamFifo
import LiteEth.Mac.Padding

namespace LiteEth.Core.Udp.Link

open LiteEth.Rtl

/-! ## Datagrams -/

/-- The beats of a datagram, as they are offered to the transmitter: one byte each, the parameters with each of
them. -/
structure IsDatagram (q : UserParams) (f : List (UserParams × Beat 8)) : Prop where
  frame : IsFrame (·.2.last) f
  params : ∀ a ∈ f, a.1 = q
  length : q.length.toNat = f.length
  length_le : f.length ≤ 65507

/-- A beat of a datagram, as it is delivered. -/
def delivered (sender : BitVec 32) (a : UserParams × Beat 8) : UserParams × Beat 8 :=
  ({ a.1 with ipAddress := sender }, { data := a.2.data, lastBe := 0, error := 0, last := a.2.last })

/-! ## Packets -/

/-- The parameters of our host, with streams of bytes. -/
abbrev host (mac : BitVec 48) (ip : BitVec 32) : Ip.Params := { macAddress := mac, ipAddress := ip, dw := 8 }

/-- The bytes of an IPv4 header. -/
def ipWords (h : Ip.Header) : List (BitVec 8) := (List.range 20).map h.bytes

/-- The headers of a datagram with parameters `q`. -/
def headerBytes (p : Ip.Params) (q : UserParams) : List (BitVec 8) :=
  ipWords (Ip.Tx.sentHeader p (Tx.params q)) ++ (Tx.header q).bytes

/-- A beat of a datagram in its packet. -/
def packetBeat (a : UserParams × Beat 8) : Beat 8 := { a.2 with error := 0 }

/-- The beats of a packet with the datagram `f`, or with its beats so far. -/
def packet (p : Ip.Params) (f : List (UserParams × Beat 8)) : List (Beat 8) :=
  Packetizer.prepended (fun a => (headerBytes p a.1).map Beat.ofWord) packetBeat f

theorem last_packetHeader (p : Ip.Params) (a : UserParams × Beat 8) :
    ∀ b ∈ (headerBytes p a.1).map Beat.ofWord, (b : Beat 8).last = false := by
  intro b hb
  obtain ⟨w, -, rfl⟩ := List.mem_map.1 hb
  rfl

theorem last_packetBeat (a : UserParams × Beat 8) : (packetBeat a).last = a.2.last := rfl

theorem isFrame_packet (p : Ip.Params) {f : List (UserParams × Beat 8)} (hf : IsFrame (·.2.last) f) :
    IsFrame (·.last) (packet p f) :=
  Packetizer.isFrame_prepended (last_packetHeader p) last_packetBeat hf

theorem packet_begun (p : Ip.Params) {m : List (UserParams × Beat 8)} (hm : ∀ a ∈ m, a.2.last = false) :
    ∀ b ∈ packet p m, b.last = false :=
  Packetizer.last_prepended (last_packetHeader p) last_packetBeat hm

theorem length_packet_le (p : Ip.Params) (f : List (UserParams × Beat 8)) : (packet p f).length ≤ 28 + f.length := by
  cases f with
  | nil => exact Nat.zero_le _
  | cons a f =>
    unfold packet Packetizer.prepended
    rw [List.length_append, List.length_map]
    exact Nat.add_le_add_right (le_refl 28) _

/-- What the transmitters make of datagrams. -/
abbrev encodes (mac : BitVec 48) (ip : BitVec 32) : Transducer (UserParams × Beat 8) (Beat 8) :=
  (Tx.sends Header.bytes).andThen (Ip.Tx.sends (host mac ip) ipWords)

section Packets

variable (mac : BitVec 48) (ip : BitVec 32)

/-- The UDP packet of some beats of a datagram. -/
def udpPacket (f : List (UserParams × Beat 8)) : List (Ip.UserParams × Beat 8) :=
  Packetizer.prepended (fun a => Tx.headerBeats Header.bytes a.1) Tx.sentBeat f

theorem packet_udpPacket (f : List (UserParams × Beat 8)) :
    Packetizer.prepended (fun b => (ipWords (Ip.Tx.sentHeader (host mac ip) b.1)).map Beat.ofWord) Ip.Tx.sentBeat
      (udpPacket f) = packet (host mac ip) f := by
  cases f with
  | nil => rfl
  | cons a f =>
    obtain ⟨w, hw⟩ : ∃ w, (udpPacket (a :: f)).head? = some (Tx.params a.1, w) := ⟨_, rfl⟩
    have hheader : (Tx.headerBeats Header.bytes a.1).map Ip.Tx.sentBeat = (Tx.header a.1).bytes.map Beat.ofWord :=
      List.map_map
    have hmap : (udpPacket (a :: f)).map Ip.Tx.sentBeat =
        (Tx.header a.1).bytes.map Beat.ofWord ++ (a :: f).map packetBeat := by
      rw [← hheader]
      unfold udpPacket Packetizer.prepended
      rw [List.map_append, List.map_map]
      simp only [List.head?_cons, Option.toList_some, List.flatMap_cons, List.flatMap_nil, List.append_nil]
      rfl
    unfold packet headerBytes Packetizer.prepended
    rw [hw, hmap]
    simp only [List.head?_cons, Option.toList_some, List.flatMap_cons, List.flatMap_nil, List.append_nil, List.map_append,
      List.append_assoc]

theorem last_headerBeats (a : UserParams × Beat 8) : ∀ b ∈ Tx.headerBeats Header.bytes a.1, b.2.last = false := by
  intro b hb
  obtain ⟨w, -, rfl⟩ := List.mem_map.1 hb
  rfl

theorem last_sentBeat (a : UserParams × Beat 8) : (Tx.sentBeat a).2.last = a.2.last := rfl

theorem encodes_oks (as : List (UserParams × Beat 8)) : (encodes mac ip).Oks (encodes mac ip).init as :=
  (Transducer.andThen_oks _ _ _ _).2 ⟨Packetizer.prepend_oks _ _ _ _ _, Packetizer.prepend_oks _ _ _ _ _⟩

/-- The transmitters send the packets of the datagrams. -/
theorem encodes_outs {fs : List (List (UserParams × Beat 8))} {m : List (UserParams × Beat 8)}
    (hfs : ∀ f ∈ fs, IsFrame (·.2.last) f) (hm : ∀ a ∈ m, a.2.last = false) :
    (encodes mac ip).outs (encodes mac ip).init (fs.flatten ++ m) =
      (fs.map (packet (host mac ip))).flatten ++ packet (host mac ip) m := by
  refine (Transducer.andThen_outs _ _ _ _).trans ?_
  have hudp : (Tx.sends Header.bytes).outs false (fs.flatten ++ m) = (fs.map udpPacket).flatten ++ udpPacket m :=
    Packetizer.prepend_packets _ _ _ hfs hm
  have hframes : ∀ g ∈ fs.map udpPacket, IsFrame (·.2.last) g := by
    intro g hg
    obtain ⟨f, hf, rfl⟩ := List.mem_map.1 hg
    exact Packetizer.isFrame_prepended last_headerBeats last_sentBeat (hfs f hf)
  have hbegun : ∀ b ∈ udpPacket m, b.2.last = false := Packetizer.last_prepended last_headerBeats last_sentBeat hm
  have hip := Packetizer.prepend_packets (fun b => (ipWords (Ip.Tx.sentHeader (host mac ip) b.1)).map Beat.ofWord)
    Ip.Tx.sentBeat (fun b => b.2.last) hframes hbegun
  rw [packet_udpPacket, List.map_map] at hip
  have hpacket := List.map_congr_left fun f (_ : f ∈ fs) => packet_udpPacket mac ip f
  rw [← hpacket]
  exact (congrArg _ hudp).trans hip

end Packets

/-! ## The header at the receiver -/

section Header

variable (p : Ip.Params) (u : Ip.UserParams)

theorem word_append (h : Ip.HeaderBytes) (i : ℕ) : Ip.word h i = (h (2 * i) ++ h (2 * i + 1)).toNat := by
  rw [BitVec.toNat_append, ← Nat.shiftLeft_add_eq_or_of_lt (h (2 * i + 1)).isLt, Nat.shiftLeft_eq]
  rfl

/-- The words of a header that is sent sum up to all ones. -/
theorem sum_sentHeader : OnesComplement.sum 16 ((List.range 10).map (Ip.word (Ip.Tx.sentHeader p u).bytes)) = 0xffff := by
  have hfield : Ip.word (Ip.Tx.sentHeader p u).bytes 5 = (Ip.Tx.sentHeader p u).checksum.toNat := by
    rw [word_append]
    exact congrArg BitVec.toNat (Ip.fieldByte_16 _)
  have hvalue : (Ip.Tx.sentHeader p u).checksum = Ip.internetChecksum (Ip.Tx.sentHeader p u).bytes Ip.Tx.otherWords :=
    (Ip.Tx.internetChecksum_header u _).symm
  refine Ip.Checksum.sum_of_checksum _ (w := 1) (hfield.trans ?_)
  rw [hvalue, ← Ip.Tx.addedWords_engine]
  rfl

/-- The receiver accepts what is sent to it, and nothing else. -/
theorem accepts_sentHeader (p' : Ip.Params) :
    Ip.Rx.Accepts p' (Ip.Tx.sentHeader p u).bytes ↔ u.ipAddress = p'.ipAddress := by
  unfold Ip.Rx.Accepts
  rw [Ip.Header.ofBytes_bytes, sum_sentHeader]
  exact ⟨fun h => h.1, fun h => ⟨h, rfl, rfl, rfl⟩⟩

end Header

/-! ## The receiver -/

theorem getD_ipWords (h : Ip.Header) : (fun k => (ipWords h).getD k 0) = h.bytes := by
  funext k
  unfold ipWords
  by_cases hk : k < 20
  · simp [hk]
  · have hzero : h.bytes k = 0 := by
      unfold Ip.Header.bytes
      split <;> first | rfl | omega
    simp [hk, hzero]

section Receiver

variable {ε : Type} (C : ε → Prop) (p p' : Ip.Params)

/-- The parameters the IPv4 receiver shows with a datagram. -/
def ipParams (q : UserParams) : Ip.UserParams := Ip.Rx.params (Ip.Tx.sentHeader p (Tx.params q))

theorem length_headerBytes (q : UserParams) : (headerBytes p q).length = 28 := rfl

theorem packet_of_params {q : UserParams} {f : List (UserParams × Beat 8)} (hq : ∀ a ∈ f, a.1 = q) (hf : f ≠ []) :
    packet p f = (headerBytes p q).map Beat.ofWord ++ f.map packetBeat := by
  obtain ⟨a, f, rfl⟩ := List.exists_cons_of_ne_nil hf
  rw [← hq a List.mem_cons_self]
  unfold packet Packetizer.prepended
  simp only [List.head?_cons, Option.toList_some, List.flatMap_cons, List.flatMap_nil, List.append_nil]

variable {D : Depacketizer Ip.HeaderBytes 8} (W : D.StripsWords 20 fun bs k => bs.getD k 0)

/-- The IPv4 receiver passes the packet on, or drops it. -/
theorem ip_delivery (mac : BitVec 48) (ip : BitVec 32) (q : UserParams) (x : List (Beat 8)) :
    Ip.Rx.deliveryOf (host mac ip) (W.strips C) ((headerBytes p q).map Beat.ofWord ++ x) =
      if q.ipAddress = ip then ((Tx.header q).bytes.map Beat.ofWord ++ x).map (ipParams p q, ·) else [] := by
  have hsplit : (headerBytes p q).map Beat.ofWord ++ x = (ipWords (Ip.Tx.sentHeader p (Tx.params q))).map Beat.ofWord ++
      ((Tx.header q).bytes.map Beat.ofWord ++ x) := by
    unfold headerBytes
    rw [List.map_append, List.append_assoc]
  have hlen : ((ipWords (Ip.Tx.sentHeader p (Tx.params q))).map Beat.ofWord : List (Beat 8)).length = 20 := rfl
  have hdata : ((ipWords (Ip.Tx.sentHeader p (Tx.params q))).map Beat.ofWord).map (·.data) =
      ipWords (Ip.Tx.sentHeader p (Tx.params q)) := by
    rw [List.map_map]
    exact List.map_id _
  -- the receiver reads the header off the bytes that the sender put there
  have hheader : (W.strips C).header ((headerBytes p q).map Beat.ofWord ++ x) =
      (Ip.Tx.sentHeader p (Tx.params q)).bytes := by
    show (fun k => (((_ ++ x).take 20).map (·.data)).getD k 0) = _
    rw [hsplit, List.take_left' hlen, hdata]
    exact getD_ipWords _
  have hpayload : (W.strips C).payload ((headerBytes p q).map Beat.ofWord ++ x) =
      (Tx.header q).bytes.map Beat.ofWord ++ x := by
    show (_ ++ x).drop 20 = _
    rw [hsplit, List.drop_left' hlen]
  -- the header is right by construction, so that only the address decides
  have haccepts := accepts_sentHeader p (Tx.params q) (host mac ip)
  unfold Ip.Rx.deliveryOf Ip.Rx.delivery
  rw [hheader, hpayload, Ip.Header.ofBytes_bytes]
  by_cases hq : q.ipAddress = ip
  · rw [if_pos hq, if_pos (haccepts.2 hq)]
    rfl
  · rw [if_neg hq, if_neg fun h => hq (haccepts.1 h)]

/-- What the UDP receiver takes from a packet for it. -/
def taken (q : UserParams) (x : List (Beat 8)) : List (Ip.UserParams × Beat 8) :=
  ((Tx.header q).bytes.map Beat.ofWord ++ x).map (ipParams p q, ·)

theorem taken_drop (q : UserParams) (x : List (Beat 8)) : (taken p q x).drop 8 = x.map (ipParams p q, ·) := by
  unfold taken
  rw [← List.map_drop]
  rfl

theorem taken_header (q : UserParams) (x : List (Beat 8)) :
    Header.ofBytes (((taken p q x).take 8).map fun y => y.2.data) = Tx.header q :=
  Header.ofBytes_bytes (Tx.header q)

/-- The header of a packet is stripped. -/
theorem delivers_frame (q : UserParams) {x : List (Beat 8)} (hx : IsFrame (·.last) x) :
    (Rx.unpacks 8 Header.ofBytes).outs (Rx.unpacks 8 Header.ofBytes).init (taken p q x) =
        (Rx.trim 8).outs .closed (x.map (Tx.header q, ipParams p q, ·)) ∧
      (Rx.unpacks 8 Header.ofBytes).run (Rx.unpacks 8 Header.ofBytes).init (taken p q x) =
        ([], (Rx.trim 8).run .closed (x.map (Tx.header q, ipParams p q, ·))) := by
  have hpos := List.length_pos_of_ne_nil hx.ne_nil
  have hlen : ((Tx.header q).bytes.map Beat.ofWord : List (Beat 8)).length = 8 := rfl
  have hframe : IsFrame (·.last) ((Tx.header q).bytes.map Beat.ofWord ++ x) := by
    obtain ⟨m, l, hm, hl⟩ := hx
    rw [← List.append_assoc]
    refine .mk _ _ (fun b hb => ?_) hl
    rcases List.mem_append.1 hb with hb | hb
    · obtain ⟨w, -, rfl⟩ := List.mem_map.1 hb
      rfl
    · exact hm b hb
  have hheader : Header.ofBytes (((Tx.header q).bytes.map Beat.ofWord).map (·.data)) = Tx.header q :=
    Header.ofBytes_bytes (Tx.header q)
  have h := Rx.unpacks_packet 8 Header.ofBytes (ipParams p q) hframe (by rw [List.length_append]; omega)
  rw [List.drop_left' hlen, List.take_left' hlen, hheader] at h
  exact h

/-- The header of the beginning of a packet is stripped. -/
theorem delivers_begun (q : UserParams) {x : List (Beat 8)} (hx : ∀ b ∈ x, b.last = false) :
    (Rx.unpacks 8 Header.ofBytes).outs (Rx.unpacks 8 Header.ofBytes).init (taken p q x) =
      (Rx.trim 8).outs .closed (x.map (Tx.header q, ipParams p q, ·)) := by
  have hbegun : ∀ y ∈ taken p q x, y.2.last = false := by
    intro y hy
    obtain ⟨b, hb, rfl⟩ := List.mem_map.1 hy
    rcases List.mem_append.1 hb with hb | hb
    · obtain ⟨w, -, rfl⟩ := List.mem_map.1 hb
      rfl
    · exact hx b hb
  obtain ⟨h1, -⟩ := Depacketizer.stripWords_fresh (fun y : Ip.UserParams × Beat 8 => y.2) 8 Header.ofBytes hbegun
  rw [taken_drop, taken_header, List.map_map] at h1
  have hrest : (Depacketizer.stripWords (fun y : Ip.UserParams × Beat 8 => y.2) 8 Header.ofBytes).outs []
    (taken p q x) = x.map (Tx.header q, ipParams p q, ·) := h1
  have hinit : (Rx.unpacks 8 Header.ofBytes).init = ([], Rx.Phase.closed) := rfl
  rw [Transducer.andThen_outs, hinit, hrest]

/-- The length field of a datagram. -/
theorem length_header (q : UserParams) : (Tx.header q).length - BitVec.ofNat 16 headerLength = q.length :=
  BitVec.add_sub_cancel _ _

/-- A beat of the packet is delivered as the beat of the datagram it carries. -/
theorem deliveredBeat_packetBeat {q : UserParams} {a : UserParams × Beat 8} (ha : a.1 = q) :
    Rx.deliveredBeat (Tx.header q) (ipParams p q) ((packetBeat a).inner, a.2.last) = delivered p.ipAddress a := by
  unfold Rx.deliveredBeat Rx.userParams delivered
  rw [length_header, ha]
  rfl

/-- A datagram is delivered without its padding. -/
theorem trim_of_datagram {q : UserParams} {f : List (UserParams × Beat 8)} (hf : IsDatagram q f) (bs : List (Beat 8)) :
    (Rx.trim 8).outs .closed ((asPacket (f.map packetBeat ++ bs)).map (Tx.header q, ipParams p q, ·)) =
        f.map (delivered p.ipAddress) ∧
      (Rx.trim 8).run .closed ((asPacket (f.map packetBeat ++ bs)).map (Tx.header q, ipParams p q, ·)) = .closed := by
  have hlt : f.length < 2 ^ 16 := lt_of_le_of_lt hf.length_le (by decide)
  have hpos := List.length_pos_of_ne_nil hf.frame.ne_nil
  have hne : f.map packetBeat ++ bs ≠ [] := by
    simp [hf.frame.ne_nil]
  have hlength : (Tx.header q).length - BitVec.ofNat 16 headerLength = BitVec.ofNat 16 f.length := by
    rw [length_header, ← hf.length, BitVec.ofNat_toNat, BitVec.setWidth_eq]
  obtain ⟨h1, h2⟩ := Rx.trim_packet (u := ipParams p q) hlength hlt.le rfl hpos (isFrame_asPacket hne)
  refine ⟨h1.trans ?_, h2⟩
  have hinner : ((asPacket (f.map packetBeat ++ bs)).take f.length).map Beat.inner =
      f.map fun a => (packetBeat a).inner := by
    rw [List.map_take, asPacket_inner, List.map_append, List.take_left' (by simp), List.map_map]
    rfl
  have hmarked : (marked ((asPacket (f.map packetBeat ++ bs)).take f.length)).map
      (Rx.deliveredBeat (Tx.header q) (ipParams p q)) =
        (marked (f.map fun a => (packetBeat a).inner)).map (Rx.deliveredBeat (Tx.header q) (ipParams p q)) := by
    rw [← hinner, marked_map, List.map_map]
    rfl
  rw [hmarked, ← hf.frame.map_marked, List.map_map]
  exact List.map_congr_left fun a ha => deliveredBeat_packetBeat p (hf.params a ha)

/-- The beginning of a datagram is delivered. -/
theorem trim_of_begun {q : UserParams} {m r : List (UserParams × Beat 8)} (hf : IsDatagram q (m ++ r)) (hr : r ≠ [])
    (hm : ∀ a ∈ m, a.2.last = false) :
    (Rx.trim 8).outs .closed ((m.map packetBeat).map (Tx.header q, ipParams p q, ·)) =
      m.map (delivered p.ipAddress) := by
  have hlt : (m ++ r).length < 2 ^ 16 := lt_of_le_of_lt hf.length_le (by decide)
  have hlength : (Tx.header q).length - BitVec.ofNat 16 headerLength = BitVec.ofNat 16 (m ++ r).length := by
    rw [length_header, ← hf.length, BitVec.ofNat_toNat, BitVec.setWidth_eq]
  have hlast : ∀ b ∈ m.map packetBeat, b.last = false := by
    intro b hb
    obtain ⟨a, ha, rfl⟩ := List.mem_map.1 hb
    exact hm a ha
  have hshort : (m.map packetBeat).length < (m ++ r).length := by
    have := List.length_pos_of_ne_nil hr
    rw [List.length_map, List.length_append]
    omega
  rw [Rx.trim_begun hlength hlt.le rfl hlast hshort, List.map_map]
  refine List.map_congr_left fun a ha => ?_
  rw [← deliveredBeat_packetBeat p (hf.params a (List.mem_append_left r ha)), hm a ha]
  rfl

end Receiver

/-! ## The carrier -/

/-- `g'` is the packet `g` with padding at its end. -/
def Padded (g g' : List (Beat 8)) : Prop := ∃ bs, g' = asPacket (g ++ bs)

/-- What carries each packet that fits the length field of IPv4, with its padding, and may hold back beats of a
packet whose end it has not seen. -/
structure Carries (T : Transducer (Beat 8) (Beat 8)) : Prop where
  oks : ∀ (gs : List (List (Beat 8))) m, (∀ g ∈ gs, IsFrame (fun b : Beat 8 => b.last) g ∧ g.length < 2 ^ 16) →
    (∀ b ∈ m, b.last = false) → m.length < 2 ^ 16 → T.Oks T.init (gs.flatten ++ m)
  outs : ∀ (gs : List (List (Beat 8))) m, (∀ g ∈ gs, IsFrame (fun b : Beat 8 => b.last) g ∧ g.length < 2 ^ 16) →
    (∀ b ∈ m, b.last = false) → m.length < 2 ^ 16 → ∃ gs' m', List.Forall₂ Padded gs gs' ∧ m' <+: m ∧
      T.outs T.init (gs.flatten ++ m) = gs'.flatten ++ m'

/-! ### The padding of the MAC -/

/-- A beat at the padding inserter. -/
def toPhy (b : Beat 8) : Mac.PhyBeat 8 := ⟨b.data, b.lastBe, b.error, b.last⟩

/-- A beat from the padding inserter. -/
def ofPhy (b : Mac.PhyBeat 8) : Beat 8 := ⟨b.data, b.lastBe, b.error, b.last⟩

theorem paddingLimit_lt : Mac.PaddingInserter.paddingLimit 8 ethMinLen < 2 ^ 16 := by decide

/-- The padding inserter, for the payload of a frame. -/
abbrev padding : Stage Unit (Beat 8) (Beat 8) :=
  ((Stage.wire.mapped toPhy).andThen
    (Mac.paddingInserter 8 ethMinLen (Fifo.pipeValid (fun _ : Unit => True) (Mac.PhyBeat 8)))).mapped ofPhy

/-- What it makes of packets. -/
abbrev pads : Transducer (Beat 8) (Beat 8) :=
  (((Fifo.same (Beat 8)).mapped toPhy).andThen (Mac.PaddingInserter.padded 8 ethMinLen)).mapped ofPhy

/-- The inserter pads. -/
def paddingSim : Stage.Sim (fun _ => True) padding pads :=
  ((Stage.wire_maps _ toPhy).sim.andThen (Mac.PaddingInserter.pads _ paddingLimit_lt).sim).mapped ofPhy

theorem pads_outs (as : List (Beat 8)) :
    pads.outs pads.init as = ((Mac.PaddingInserter.padded 8 ethMinLen).outs 0 (as.map toPhy)).map ofPhy := by
  refine (Transducer.mapped_outs _ _ _ _).trans (congrArg _ ?_)
  rw [Transducer.andThen_outs, Transducer.mapped_outs, Fifo.same_outs]
  rfl

theorem pads_oks (as : List (Beat 8)) :
    pads.Oks pads.init as ↔ (Mac.PaddingInserter.padded 8 ethMinLen).Oks 0 (as.map toPhy) := by
  refine (Transducer.mapped_oks _ _ _ _).trans ?_
  rw [Transducer.andThen_oks, Transducer.mapped_oks, Transducer.mapped_outs, Fifo.same_outs]
  exact and_iff_right (Fifo.same_oks _ _)

/-- A packet that is too short is filled with zeros. -/
theorem padded_packet {g : List (Beat 8)} (hg : IsFrame (·.last) g) :
    ((Mac.PaddingInserter.padded 8 ethMinLen).outs 0 (g.map toPhy)).map ofPhy =
      asPacket (g ++ List.replicate (ethMinLen - g.length) (.ofWord 0)) := by
  obtain ⟨m, l, hm, hl⟩ := id hg
  have hopen : ∀ b ∈ m.map toPhy, b.last = false := by
    rintro b hb
    obtain ⟨a, ha, rfl⟩ := List.mem_map.1 hb
    exact hm a ha
  have hback : (m.map toPhy).map ofPhy = m := by rw [List.map_map]; exact List.map_id m
  obtain ⟨houts, hrun⟩ := Mac.PaddingInserter.padded_open ethMinLen hopen 0
  have hlimit : Mac.PaddingInserter.paddingLimit 8 ethMinLen = ethMinLen - 1 := by decide
  have hout : (Mac.PaddingInserter.padded 8 ethMinLen).out m.length (toPhy l) = if m.length < ethMinLen - 1 then
      { toPhy l with last := false } :: Mac.PaddingInserter.fill 8 (ethMinLen - 1 - m.length) else [toPhy l] := by
    rw [← hlimit]
    show (if (toPhy l).last && _ then _ else _) = _
    rw [show (toPhy l).last = true from hl, Bool.true_and]
    simp only [decide_eq_true_eq]
  rw [List.map_append, List.map_singleton, Transducer.outs_append, houts, hrun, Transducer.outs_cons, Transducer.outs_nil,
    Nat.zero_add, List.length_map, List.length_append, List.length_singleton, hout]
  split_ifs with hshort
  · -- the zeros, of which the last one ends the packet
    obtain ⟨n, hn⟩ : ∃ n, ethMinLen - 1 - m.length = n + 1 := ⟨_, (Nat.succ_pred (by omega)).symm⟩
    have hinner : m.map Beat.inner = m := by
      conv_rhs => rw [← List.map_id m]
      exact List.map_congr_left fun b hb => congrArg (Beat.mk b.data b.lastBe b.error) (hm b hb).symm
    have hpacket := asPacket_concat (m ++ [l] ++ List.replicate n (.ofWord 0)) (.ofWord 0 : Beat 8)
    rw [List.append_assoc] at hpacket
    rw [hn, show ethMinLen - (m.length + 1) = n + 1 by omega, Mac.PaddingInserter.fill_succ, List.replicate_succ', hpacket,
      List.map_append, List.map_append, List.map_append, hback, List.map_append, hinner]
    simp [ofPhy, toPhy, Beat.inner, Mac.PaddingInserter.zero, Beat.ofWord]
  · rw [show ethMinLen - (m.length + 1) = 0 by omega, List.replicate_zero, List.append_nil, List.append_nil,
      asPacket_of_isFrame hg, List.map_append, hback]
    rfl

theorem isFrame_toPhy {g : List (Beat 8)} (hg : IsFrame (·.last) g) : IsFrame (·.last) (g.map toPhy) :=
  IsFrame.map (g := toPhy) (fun _ => rfl) hg

/-- The padding inserter carries packets with their padding. -/
theorem carries_pads : Carries pads where
  oks gs m hgs hm hlen := by
    rw [pads_oks, List.map_append, List.map_flatten]
    have hopen : ∀ b ∈ m.map toPhy, b.last = false := by
      rintro b hb
      obtain ⟨a, ha, rfl⟩ := List.mem_map.1 hb
      exact hm a ha
    -- whole frames are shorter than 2^16, and so is what has begun
    refine Transducer.oks_flatten _ (fun f hf => ?_) (Mac.PaddingInserter.oks_open _ hopen ?_)
    · obtain ⟨g, hg, rfl⟩ := List.mem_map.1 hf
      obtain ⟨hframe, hshort⟩ := hgs g hg
      exact ⟨(Mac.PaddingInserter.padded_frame _ (isFrame_toPhy hframe)).2.1,
        Mac.PaddingInserter.oks_frame _ (isFrame_toPhy hframe) (by rw [List.length_map]; exact hshort.le)⟩
    · rw [List.length_map, Nat.zero_add]
      exact hlen.le
  outs gs m hgs hm _ := by
    have hopen : ∀ b ∈ m.map toPhy, b.last = false := by
      rintro b hb
      obtain ⟨a, ha, rfl⟩ := List.mem_map.1 hb
      exact hm a ha
    -- each packet is given with zeros behind it, what has begun as it is
    refine ⟨gs.map fun g => asPacket (g ++ List.replicate (ethMinLen - g.length) (.ofWord 0)), m, ?_, List.prefix_rfl, ?_⟩
    · rw [List.forall₂_map_right_iff, List.forall₂_same]
      exact fun g _ => ⟨_, rfl⟩
    · rw [pads_outs, List.map_append, List.map_flatten, Transducer.outs_flatten, (Mac.PaddingInserter.padded_open _ hopen 0).1,
        List.map_append, List.map_map, List.flatMap_map, List.map_flatMap]
      · rw [show ofPhy ∘ toPhy = id from rfl, List.map_id]
        rw [← List.flatMap_def, List.flatMap_congr fun g hg => padded_packet (hgs g hg).1]
      · intro f hf
        obtain ⟨g, hg, rfl⟩ := List.mem_map.1 hf
        exact (Mac.PaddingInserter.padded_frame _ (isFrame_toPhy (hgs g hg).1)).2.1

/-! ## From host to host -/

section Hosts

variable {ε : Type} (C : ε → Prop) (p : Ip.Params) (mac : BitVec 48) (ip : BitVec 32)
  {D : Depacketizer Ip.HeaderBytes 8} (W : D.StripsWords 20 fun bs k => bs.getD k 0)

/-- What the receivers make of packets. -/
abbrev decodes : Transducer (Beat 8) (UserParams × Beat 8) :=
  ((W.strips C).strip.andThen (Ip.Rx.filter (host mac ip))).andThen (Rx.unpacks 8 Header.ofBytes)

/-- The beats for the host with address `ip`, as they are delivered. -/
def received (sender ip : BitVec 32) (as : List (UserParams × Beat 8)) : List (UserParams × Beat 8) :=
  (as.filter (·.1.ipAddress = ip)).map (delivered sender)

theorem received_append (sender : BitVec 32) (as bs : List (UserParams × Beat 8)) :
    received sender ip (as ++ bs) = received sender ip as ++ received sender ip bs := by
  unfold received
  rw [List.filter_append, List.map_append]

/-- Beats with the same parameters are delivered together. -/
theorem received_eq (sender : BitVec 32) {q : UserParams} {as : List (UserParams × Beat 8)} (h : ∀ a ∈ as, a.1 = q) :
    received sender ip as = if q.ipAddress = ip then as.map (delivered sender) else [] := by
  unfold received
  split_ifs with hq
  · rw [List.filter_eq_self.2 fun a ha => by rw [h a ha]; exact decide_eq_true hq]
  · rw [List.filter_eq_nil_iff.2 fun a ha => by rw [h a ha]; simpa using hq]
    rfl

/-- The receivers deliver the datagram of a packet, with any padding. -/
theorem decodes_packet {q : UserParams} {f : List (UserParams × Beat 8)} (hf : IsDatagram q f) {g : List (Beat 8)}
    (hg : Padded (packet p f) g) :
    (Rx.unpacks 8 Header.ofBytes).outs (Rx.unpacks 8 Header.ofBytes).init
        (Ip.Rx.deliveryOf (host mac ip) (W.strips C) g) = received p.ipAddress ip f ∧
      (Rx.unpacks 8 Header.ofBytes).run (Rx.unpacks 8 Header.ofBytes).init
        (Ip.Rx.deliveryOf (host mac ip) (W.strips C) g) = (Rx.unpacks 8 Header.ofBytes).init ∧
      IsFrame (·.last) g ∧ (W.strips C).Long g := by
  obtain ⟨bs, rfl⟩ := hg
  have hne : f.map packetBeat ++ bs ≠ [] := by simp [hf.frame.ne_nil]
  have hpacket : asPacket (packet p f ++ bs) =
      (headerBytes p q).map Beat.ofWord ++ asPacket (f.map packetBeat ++ bs) := by
    rw [packet_of_params p hf.params hf.frame.ne_nil, List.append_assoc, asPacket_append _ hne, List.map_map]
    rfl
  have hframe : IsFrame (·.last) (asPacket (packet p f ++ bs)) :=
    isFrame_asPacket (List.append_ne_nil_of_left_ne_nil (isFrame_packet p hf.frame).ne_nil _)
  have hlong : (W.strips C).Long (asPacket (packet p f ++ bs)) := by
    show 20 < (asPacket (packet p f ++ bs)).length
    rw [hpacket, List.length_append, List.length_map, length_headerBytes]
    omega
  refine and_assoc.1 ⟨?_, hframe, hlong⟩
  rw [hpacket, ip_delivery, received_eq ip _ hf.params]
  split_ifs with hq
  · obtain ⟨h1, h2⟩ := delivers_frame p q (isFrame_asPacket hne)
    obtain ⟨h3, h4⟩ := trim_of_datagram p hf bs
    refine ⟨h1.trans h3, h2.trans ?_⟩
    rw [h4]
    rfl
  · exact ⟨rfl, rfl⟩

/-- Nothing is delivered of the headers alone. -/
theorem decodes_headers {g : List (Beat 8)} (hg : ∀ b ∈ g, b.last = false) (hlen : g.length ≤ 28) :
    (Rx.unpacks 8 Header.ofBytes).outs (Rx.unpacks 8 Header.ofBytes).init
      (Ip.Rx.deliveryOf (host mac ip) (W.strips C) g) = [] := by
  have hdelivery : Ip.Rx.deliveryOf (host mac ip) (W.strips C) g = [] ∨
      ∃ u, Ip.Rx.deliveryOf (host mac ip) (W.strips C) g = (g.drop 20).map (u, ·) := by
    unfold Ip.Rx.deliveryOf Ip.Rx.delivery
    split_ifs
    · exact .inr ⟨_, rfl⟩
    · exact .inl rfl
  rcases hdelivery with h | ⟨u, h⟩
  · rw [h]
    rfl
  · have hbegun : ∀ y ∈ (g.drop 20).map (u, ·), y.2.last = false := by
      intro y hy
      obtain ⟨b, hb, rfl⟩ := List.mem_map.1 hy
      exact hg b (List.mem_of_mem_drop hb)
    obtain ⟨h1, -⟩ := Depacketizer.stripWords_fresh (fun y : Ip.UserParams × Beat 8 => y.2) 8 Header.ofBytes hbegun
    have hnone : ((g.drop 20).map fun b => (u, b)).drop 8 = [] := by
      rw [List.drop_eq_nil_iff, List.length_map, List.length_drop]
      omega
    rw [hnone, List.map_nil] at h1
    have hinit : (Rx.unpacks 8 Header.ofBytes).init = ([], Rx.Phase.closed) := rfl
    rw [h, Transducer.andThen_outs, hinit, h1]
    rfl

/-- Of the beginning of a packet they deliver a beginning of its datagram. -/
theorem decodes_begun {q : UserParams} {m r : List (UserParams × Beat 8)} (hf : IsDatagram q (m ++ r)) (hr : r ≠ [])
    (hm : ∀ a ∈ m, a.2.last = false) {g : List (Beat 8)} (hg : g <+: packet p m) : ∃ m', m' <+: m ∧
      (Rx.unpacks 8 Header.ofBytes).outs (Rx.unpacks 8 Header.ofBytes).init
        (Ip.Rx.deliveryOf (host mac ip) (W.strips C) g) = received p.ipAddress ip m' := by
  have hlast : ∀ b ∈ g, b.last = false := fun b hb => packet_begun p hm b (hg.subset hb)
  rcases le_or_gt g.length 28 with hlen | hlen
  · exact ⟨[], List.nil_prefix, decodes_headers C mac ip W hlast hlen⟩
  · have hne : m ≠ [] := by
      rintro rfl
      obtain rfl : g = [] := List.prefix_nil.1 hg
      cases hlen
    have hparams : ∀ a ∈ m, a.1 = q := fun a ha => hf.params a (List.mem_append_left r ha)
    -- the headers are through, the rest is a beginning of the datagram
    obtain ⟨j, rfl⟩ : ∃ j, g = (headerBytes p q).map Beat.ofWord ++ (m.take j).map packetBeat := by
      rw [packet_of_params p hparams hne] at hg
      have htake := List.prefix_iff_eq_take.1 hg
      have hfull : ((headerBytes p q).map Beat.ofWord : List (Beat 8)).length ≤ g.length := hlen.le
      rw [List.take_append, List.take_of_length_le hfull, ← List.map_take] at htake
      exact ⟨_, htake⟩
    have htake : ∀ a ∈ m.take j, a.2.last = false := fun a ha => hm a (List.mem_of_mem_take ha)
    have hsplit : m ++ r = m.take j ++ (m.drop j ++ r) := by rw [← List.append_assoc, List.take_append_drop]
    rw [hsplit] at hf
    have hbeats : ∀ b ∈ (m.take j).map packetBeat, b.last = false := by
      intro b hb
      obtain ⟨a, ha, rfl⟩ := List.mem_map.1 hb
      exact htake a ha
    -- IPv4 decides by the address, UDP cuts at a length that is not reached yet
    refine ⟨m.take j, List.take_prefix _ _, ?_⟩
    rw [ip_delivery, received_eq ip _ fun a ha => hparams a (List.mem_of_mem_take ha)]
    split_ifs with hq
    · exact (delivers_begun p q hbeats).trans (trim_of_begun p hf (by simp [hr]) htake)
    · rfl

/-- The receivers deliver the datagrams of whole packets. -/
theorem decodes_packets {fs : List (List (UserParams × Beat 8))} (hfs : ∀ f ∈ fs, ∃ q, IsDatagram q f)
    {gs : List (List (Beat 8))} (hgs : List.Forall₂ (fun f g => Padded (packet p f) g) fs gs) :
    (∀ g ∈ gs, IsFrame (·.last) g ∧ (W.strips C).Long g) ∧
      (∀ x ∈ gs.map (Ip.Rx.deliveryOf (host mac ip) (W.strips C)),
        (Rx.unpacks 8 Header.ofBytes).run (Rx.unpacks 8 Header.ofBytes).init x =
          (Rx.unpacks 8 Header.ofBytes).init) ∧
      (gs.map (Ip.Rx.deliveryOf (host mac ip) (W.strips C))).flatMap
        ((Rx.unpacks 8 Header.ofBytes).outs (Rx.unpacks 8 Header.ofBytes).init) =
          received p.ipAddress ip fs.flatten := by
  -- induction on the packets, each of them leaves both receivers as at reset
  induction hgs with
  | nil => exact ⟨nofun, nofun, rfl⟩
  | @cons f g fs gs hg _ ih =>
    obtain ⟨q, hf⟩ := hfs f List.mem_cons_self
    obtain ⟨hout, hrun, hpacket⟩ := decodes_packet C p mac ip W hf hg
    obtain ⟨ih0, ih1, ih2⟩ := ih fun f' hf' => hfs f' (List.mem_cons_of_mem f hf')
    refine ⟨?_, ?_, ?_⟩
    · intro x hx
      rcases List.mem_cons.1 hx with rfl | hx
      · exact hpacket
      · exact ih0 x hx
    · intro x hx
      rw [List.map_cons, List.mem_cons] at hx
      rcases hx with rfl | hx
      · exact hrun
      · exact ih1 x hx
    · rw [List.map_cons, List.flatMap_cons, hout, ih2, List.flatten_cons, received_append]

/-- The receivers deliver the datagrams of the packets that arrive. -/
theorem decodes_outs {fs : List (List (UserParams × Beat 8))} {m : List (UserParams × Beat 8)}
    (hfs : ∀ f ∈ fs, ∃ q, IsDatagram q f) (hm : ∀ a ∈ m, a.2.last = false)
    (hnext : m ≠ [] → ∃ q r, IsDatagram q (m ++ r)) {gs : List (List (Beat 8))} {g : List (Beat 8)}
    (hgs : List.Forall₂ Padded (fs.map (packet p)) gs) (hg : g <+: packet p m) : ∃ m', m' <+: m ∧
      (decodes C mac ip W).outs (decodes C mac ip W).init (gs.flatten ++ g) =
        received p.ipAddress ip (fs.flatten ++ m') := by
  rw [List.forall₂_map_left_iff] at hgs
  obtain ⟨hpackets, hrun, hout⟩ := decodes_packets C p mac ip W hfs hgs
  obtain ⟨m', hm', hbegun⟩ : ∃ m', m' <+: m ∧ (Rx.unpacks 8 Header.ofBytes).outs (Rx.unpacks 8 Header.ofBytes).init
      (Ip.Rx.deliveryOf (host mac ip) (W.strips C) g) = received p.ipAddress ip m' := by
    rcases eq_or_ne m [] with rfl | hne
    · obtain rfl : g = [] := List.prefix_nil.1 hg
      exact ⟨[], List.nil_prefix, decodes_headers C mac ip W nofun (Nat.zero_le _)⟩
    · obtain ⟨q, r, hf⟩ := hnext hne
      refine decodes_begun C p mac ip W hf (fun hr => ?_) hm hg
      rw [hr, List.append_nil] at hf
      obtain ⟨m₀, l, -, hl⟩ := hf.frame
      rw [hm l (List.mem_append_right m₀ List.mem_cons_self)] at hl
      cases hl
  refine ⟨m', hm', ?_⟩
  -- IPv4 hands over packet by packet, UDP takes these one after the other
  have hip := Ip.Rx.outs_packets (p := host mac ip) (W.strips C) hpackets fun b hb =>
    packet_begun p hm b (hg.subset hb)
  unfold Ip.Rx.deliveries at hip
  rw [List.flatMap_def] at hip
  have hudp := Transducer.outs_flatten _ hrun (Ip.Rx.deliveryOf (host mac ip) (W.strips C) g)
  rw [hout, hbegun, ← received_append] at hudp
  rw [Transducer.andThen_outs]
  exact (congrArg _ hip).trans hudp

theorem decodes_oks (as : List (Beat 8)) : (decodes C mac ip W).Oks (decodes C mac ip W).init as := by
  have hstrip : ∀ as, (W.strips C).strip.Oks (W.strips C).strip.init as := fun as =>
    Depacketizer.stripWords_oks id 20 _ as []
  have htrim : ∀ as, (Rx.unpacks 8 Header.ofBytes).Oks (Rx.unpacks 8 Header.ofBytes).init as := fun as =>
    (Transducer.andThen_oks _ _ _ _).2 ⟨Depacketizer.stripWords_oks _ _ _ _ _, Rx.trim_oks _ _⟩
  rw [Transducer.andThen_oks, Transducer.andThen_oks]
  exact ⟨⟨hstrip as, Ip.Rx.filter_oks _ _⟩, htrim _⟩

end Hosts

/-- Two hosts, and what carries packets from the one to the other. In a helpful environment the table of the sender
answers, and the carrier gets on. -/
structure Hosts (ε : Type) where
  helpful : ε → Prop
  senderMac : BitVec 48
  senderIp : BitVec 32
  receiverMac : BitVec 48
  receiverIp : BitVec 32
  table : ε → Ip.Table
  answers : ∀ e, helpful e → (table e).requestReady = true ∧ (table e).responseValid = true
  /-- What drives the parameters at a sink while its `valid` is zero. -/
  idleUser : ε → UserParams
  idleTx : ε → Ip.UserParams × Beat 8
  idleRx : ε → Ip.UserParams
  udpPacketizer : Packetizer Header 8
  udpPrepends : udpPacketizer.PrependsWords Header.bytes
  ipPacketizer : Packetizer Ip.Header 8
  ipPrepends : ipPacketizer.PrependsWords ipWords
  ipDepacketizer : Depacketizer Ip.HeaderBytes 8
  ipStrips : ipDepacketizer.StripsWords 20 fun bs k => bs.getD k 0
  udpDepacketizer : Depacketizer Header 8
  udpStrips : udpDepacketizer.StripsWords 8 Header.ofBytes
  carrier : Stage ε (Beat 8) (Beat 8)
  carried : Transducer (Beat 8) (Beat 8)
  carrierSim : Stage.Sim helpful carrier carried
  carries : Carries carried

namespace Hosts

variable {ε : Type} (L : Hosts ε)

/-- From the sink of `LiteEthUDPTX` at the sender to the source of `LiteEthUDPRX` at the receiver. -/
abbrev stage : Stage ε (UserParams × Beat 8) (UserParams × Beat 8) :=
  ((udptx L.idleUser L.udpPacketizer).andThen
    (Ip.iptx (host L.senderMac L.senderIp) L.ipPacketizer L.table L.idleTx)).andThen
  (L.carrier.andThen
    ((Ip.iprx (host L.receiverMac L.receiverIp) L.ipDepacketizer).andThen (udprx L.idleRx L.udpDepacketizer)))

/-- What it makes of the datagrams. -/
abbrev follows : Transducer (UserParams × Beat 8) (UserParams × Beat 8) :=
  (encodes L.senderMac L.senderIp).andThen
    (L.carried.andThen (decodes L.helpful L.receiverMac L.receiverIp L.ipStrips))

/-- The stages of both hosts and the carrier between them do what follows of the beats offered. -/
def sim : Stage.Sim L.helpful L.stage L.follows :=
  ((Tx.transmits L.udpPrepends L.helpful).andThen (Ip.Tx.transmits L.ipPrepends L.answers)).andThen
    (L.carrierSim.andThen
      ((Ip.Rx.filters (p := host L.receiverMac L.receiverIp) (L.ipStrips.strips L.helpful)).andThen (Rx.trims L.udpStrips L.helpful).sim))

/-- The datagrams offered in a run, and the beats of the next one. -/
def offered (is : List (Stage.In ε (UserParams × Beat 8))) :
    List (List (UserParams × Beat 8)) × List (UserParams × Beat 8) :=
  frames (·.2.last) (L.stage.arrivals is)

/-- The datagrams of a run are delivered. -/
structure Delivers (is : List (Stage.In ε (UserParams × Beat 8))) : Prop where
  /-- What has been delivered is in order. -/
  in_order : L.stage.given is <+: received L.senderIp L.receiverIp (L.stage.arrivals is)
  /-- All of the datagrams are delivered in the end, and perhaps a part of the one that is being offered. -/
  complete : ∀ es : ℕ → ε, (∀ k, L.helpful (es k)) → ∃ n m, m <+: (L.offered is).2 ∧
    L.stage.given (is ++ (List.range n).map fun k => Stage.Sim.settle (es k)) =
      received L.senderIp L.receiverIp ((L.offered is).1.flatten ++ m)

/-- What follows from the beats offered in a run. -/
theorem follows_outs (is : List (Stage.In ε (UserParams × Beat 8)))
    (hfs : ∀ f ∈ (L.offered is).1, ∃ q, IsDatagram q f)
    (hnext : (L.offered is).2 ≠ [] → ∃ q r, IsDatagram q ((L.offered is).2 ++ r)) :
    L.follows.Oks L.follows.init (L.stage.arrivals is) ∧ ∃ m, m <+: (L.offered is).2 ∧
      L.follows.outs L.follows.init (L.stage.arrivals is) =
        received L.senderIp L.receiverIp ((L.offered is).1.flatten ++ m) := by
  -- what is offered, cut into whole datagrams and one that has begun
  have hspec : (∀ f ∈ (L.offered is).1, IsFrame (fun a : UserParams × Beat 8 => a.2.last) f) ∧
    ∀ a ∈ (L.offered is).2, a.2.last = false := frames_spec _ (L.stage.arrivals is)
  have harr : (L.offered is).1.flatten ++ (L.offered is).2 = L.stage.arrivals is := frames_flatten _ _
  rw [← harr]
  have henc := encodes_outs L.senderMac L.senderIp hspec.1 hspec.2
  -- no frame is longer than the carrier is made for
  have hframes : ∀ g ∈ (L.offered is).1.map (packet (host L.senderMac L.senderIp)),
      IsFrame (·.last) g ∧ g.length < 2 ^ 16 := by
    intro g hg
    obtain ⟨f, hf, rfl⟩ := List.mem_map.1 hg
    obtain ⟨q, hq⟩ := hfs f hf
    have := length_packet_le (host L.senderMac L.senderIp) f
    have := hq.length_le
    exact ⟨isFrame_packet _ hq.frame, by omega⟩
  have hlen : (packet (host L.senderMac L.senderIp) (L.offered is).2).length < 2 ^ 16 := by
    have hle := length_packet_le (host L.senderMac L.senderIp) (L.offered is).2
    by_cases hne : (L.offered is).2 = []
    · rw [hne] at hle ⊢
      exact lt_of_le_of_lt hle (by decide)
    · obtain ⟨q, r, hq⟩ := hnext hne
      have := hq.length_le
      rw [List.length_append] at this
      omega
  have hlast := packet_begun (host L.senderMac L.senderIp) hspec.2
  obtain ⟨gs, g, hgs, hg, hcarried⟩ := L.carries.outs _ _ hframes hlast hlen
  obtain ⟨m, hm, hdec⟩ := decodes_outs L.helpful (host L.senderMac L.senderIp) L.receiverMac L.receiverIp L.ipStrips hfs
    hspec.2 hnext hgs hg
  have houts : L.carried.outs L.carried.init ((encodes L.senderMac L.senderIp).outs
      (encodes L.senderMac L.senderIp).init ((L.offered is).1.flatten ++ (L.offered is).2)) = gs.flatten ++ g :=
    (congrArg _ henc).trans hcarried
  have hoks : L.carried.Oks L.carried.init ((encodes L.senderMac L.senderIp).outs
      (encodes L.senderMac L.senderIp).init ((L.offered is).1.flatten ++ (L.offered is).2)) := by
    rw [henc]
    exact L.carries.oks _ _ hframes hlast hlen
  refine ⟨(Transducer.andThen_oks _ _ _ _).2 ⟨encodes_oks _ _ _, (Transducer.andThen_oks _ _ _ _).2 ⟨hoks, ?_⟩⟩, m, hm, ?_⟩
  · exact decodes_oks _ _ _ _ _
  · rw [Transducer.andThen_outs, Transducer.andThen_outs]
    exact (congrArg _ houts).trans hdec

/-- In every run, each datagram is delivered to the host with its address, in order, once, without padding, and with
its ports and its length. -/
theorem datagrams_delivered (is : List (Stage.In ε (UserParams × Beat 8)))
    (hfs : ∀ f ∈ (L.offered is).1, ∃ q, IsDatagram q f)
    (hnext : (L.offered is).2 ≠ [] → ∃ q r, IsDatagram q ((L.offered is).2 ++ r)) : L.Delivers is := by
  obtain ⟨hok, m, hm, houts⟩ := L.follows_outs is hfs hnext
  obtain ⟨o, w, hrel, ho⟩ := L.sim.run is hok
  rw [houts] at ho
  constructor
  · have harr : (L.offered is).1.flatten ++ (L.offered is).2 = L.stage.arrivals is := frames_flatten _ _
    obtain ⟨r, hr⟩ := hm
    refine List.IsPrefix.trans ⟨o, ho.symm⟩ ⟨received L.senderIp L.receiverIp r, ?_⟩
    rw [← received_append, List.append_assoc, hr, harr]
  · intro es hes
    obtain ⟨n, -, hlog⟩ := L.sim.drain es hes hrel
    refine ⟨n, m, hm, ?_⟩
    unfold Stage.given
    rw [Machine.log_append]
    exact (congrArg (fun l => _ ++ l) hlog).trans ho.symm

/-- 10.0.0.1 and 10.0.0.2 with the padding of the MAC between them, and a table that always answers. -/
def wired : Hosts Unit where
  helpful _ := True
  senderMac := 1
  senderIp := 0x0a000001
  receiverMac := 2
  receiverIp := 0x0a000002
  table _ := { requestReady := true, responseValid := true, responseMac := 2 }
  answers _ _ := ⟨rfl, rfl⟩
  idleUser _ := { srcPort := 0, dstPort := 0, ipAddress := 0, length := 0 }
  idleTx _ := ({ length := 0, protocol := 0, ipAddress := 0 }, .ofWord 0)
  idleRx _ := { length := 0, protocol := 0, ipAddress := 0 }
  udpPacketizer := .words 8 fun h k => h.bytes.getD k 0
  udpPrepends := Packetizer.prependsWords_words 8 headerLength_pos fun (h : Header) k => h.bytes.getD k 0
  ipPacketizer := .words 20 Ip.Header.bytes
  ipPrepends := Packetizer.prependsWords_words 20 Ip.headerLength_pos Ip.Header.bytes
  ipDepacketizer := .words 20 Ip.headerLength_pos fun bs k => bs.getD k 0
  ipStrips := Depacketizer.stripsWords_words 20 Ip.headerLength_pos fun bs k => bs.getD k 0
  udpDepacketizer := .words 8 headerLength_pos Header.ofBytes
  udpStrips := Depacketizer.stripsWords_words 8 headerLength_pos Header.ofBytes
  carrier := padding
  carried := pads
  carrierSim := paddingSim
  carries := carries_pads

/-- A byte from port 5 to port 7 of 10.0.0.2. -/
def oneByte : UserParams × Beat 8 :=
  ({ srcPort := 5, dstPort := 7, ipAddress := 0x0a000002, length := 1 },
    { data := 0x2a, lastBe := 1, error := 0, last := true })

/-- Two bytes from port 6 to port 8 of 10.0.0.2. -/
def twoBytes : List (UserParams × Beat 8) :=
  [(0x2b, false), (0x2c, true)].map fun x : BitVec 8 × Bool =>
    ({ srcPort := 6, dstPort := 8, ipAddress := 0x0a000002, length := 2 },
      { data := x.1, lastBe := 0, error := 0, last := x.2 })

/-- Both datagrams, with time for the headers and the padding after each beat. -/
def bothCycles : List (Stage.In Unit (UserParams × Beat 8)) :=
  (oneByte :: twoBytes).flatMap fun a => ⟨(), some a, true⟩ :: List.replicate 60 ⟨(), none, true⟩

theorem datagrams_delivered_both : wired.Delivers bothCycles := by
  have hoff : wired.offered bothCycles = ([[oneByte], twoBytes], []) := by decide +kernel
  apply datagrams_delivered
  · rw [hoff]
    intro f hf
    rcases List.mem_cons.1 hf with rfl | hf
    · refine ⟨oneByte.1, .mk [] oneByte nofun rfl, fun a ha => ?_, rfl, by decide⟩
      rw [List.mem_singleton.1 ha]
    · rw [List.mem_singleton.1 hf]
      have hframe : IsFrame (·.2.last) twoBytes := .mk (twoBytes.take 1) _ (by decide) rfl
      exact ⟨⟨6, 8, 0x0a000002, 2⟩, hframe, by decide, rfl, by decide⟩
  · rw [hoff]
    exact fun h => absurd rfl h

/-- Both are delivered without their padding. -/
example : wired.stage.given bothCycles = (oneByte :: twoBytes).map (delivered 0x0a000001) := by decide +kernel

end Hosts

end LiteEth.Core.Udp.Link
