/-
The error flag of a datagram, from the CRC checker of the MAC to `LiteEthUDPRX`. The checker shows its verdict on a
frame with the last beat; with each beat before, it shows whether the frame would be right if it ended there. The
receiver ends a datagram by its length. Where padding follows, the flag with the last byte is not that of the frame.
-/
import LiteEth.Core.UdpLink
import LiteEth.Mac.CrcChecker

namespace LiteEth.Core.Udp.CrcFlag

open LiteEth.Rtl LiteEth.Mac Mac.CRCChecker
open Link (host decodes)

/-! ## Frames -/

/-- `mac_header_length`. -/
def macHeaderLength : ℕ := 14

/-- `ethernet_type_ip`. -/
def ethernetTypeIp : BitVec 16 := 0x800

/-- The fields of the headers in the bytes of a frame, and what follows them. -/
def etherType (bs : List (BitVec 8)) : BitVec 16 := bs.getD 12 0 ++ bs.getD 13 0

/-- The bytes of the IP header in a frame. -/
def ipHeader (bs : List (BitVec 8)) : Ip.HeaderBytes := fun k => ((bs.drop macHeaderLength).take 20).getD k 0

/-- The UDP header in a frame. -/
def udpHeader (bs : List (BitVec 8)) : Header := .ofBytes ((bs.drop (macHeaderLength + 20)).take 8)

/-- What follows the UDP header in a frame. -/
def udpData (bs : List (BitVec 8)) : List (BitVec 8) := bs.drop (macHeaderLength + 28)

/-- The bytes of a frame before its FCS. -/
def content (f : List (PhyBeat 8)) : List (BitVec 8) := bytes (body f)

/-- The headers of the frame are those of a datagram for the host. -/
def IsDatagram (p : Ip.Params) (f : List (PhyBeat 8)) : Prop :=
  etherType (content f) = ethernetTypeIp ∧ Ip.Rx.Accepts p (ipHeader (content f)) ∧
    (Ip.Header.ofBytes (ipHeader (content f))).protocol = protocol

instance (p : Ip.Params) : DecidablePred (IsDatagram p) := fun _ => inferInstanceAs (Decidable (_ ∧ _))

/-- Something follows each of the headers the frame has. -/
structure HeadersFit (p : Ip.Params) (f : List (PhyBeat 8)) : Prop where
  mac : macHeaderLength < (content f).length
  ip : etherType (content f) = ethernetTypeIp → macHeaderLength + 20 < (content f).length
  udp : etherType (content f) = ethernetTypeIp → Ip.Rx.Accepts p (ipHeader (content f)) →
    macHeaderLength + 28 < (content f).length

instance (p : Ip.Params) (f : List (PhyBeat 8)) : Decidable (HeadersFit p f) :=
  decidable_of_iff (_ ∧ _ ∧ _) ⟨fun h => ⟨h.1, h.2.1, h.2.2⟩, fun h => ⟨h.mac, h.ip, h.udp⟩⟩

/-- The bytes the receiver counts for a datagram. Its count starts at zero and meets a length of zero only after
all others. -/
def counted (h : Header) : ℕ :=
  if h.length = BitVec.ofNat 16 headerLength then 2 ^ 16 else (h.length - BitVec.ofNat 16 headerLength).toNat

/-- The bytes of the datagram in a frame. -/
def size (f : List (PhyBeat 8)) : ℕ := min (counted (udpHeader (content f))) (udpData (content f)).length

/-- The beats of a frame to the end of its datagram, and as many more as an FCS has. -/
def upTo (f : List (PhyBeat 8)) : List (PhyBeat 8) := f.take (macHeaderLength + 28 + size f + 4)

/-- The beats are a frame with the right FCS, and the PHY has flagged no error with the last of them. -/
def Sound (f : List (PhyBeat 8)) : Prop := FcsRight f ∧ ∀ b ∈ f.getLast?, b.error = 0

/-- Had the frame ended with four bytes after its datagram, it would have been sound iff its FCS is right. -/
def InTime (f : List (PhyBeat 8)) : Prop := Sound (upTo f) ↔ FcsRight f

/-! ## From the checker to the receivers -/

/-- A beat in the system clock domain. -/
def onSys (b : PhyBeat 8) : Beat 8 := { data := b.data, lastBe := b.lastBe, error := b.error, last := b.last }

/-- What the MAC passes on to `LiteEthIPRX` of the beats `g` of a frame. -/
def routed (g : List (PhyBeat 8)) : List (Beat 8) :=
  if etherType (bytes g) = ethernetTypeIp then (g.drop macHeaderLength).map onSys else []

/-- What it passes on of a stream. -/
def atIp (bs : List (PhyBeat 8)) : List (Beat 8) :=
  (frames (·.last) bs).1.flatMap routed ++ routed (frames (·.last) bs).2

/-- A host, as it receives. -/
structure Receiver (ε : Type) where
  mac : BitVec 48
  ip : BitVec 32
  /-- What drives the parameters at the sink of `LiteEthUDPRX` while its `valid` is zero. -/
  idle : ε → Ip.UserParams
  ipDepacketizer : Depacketizer Ip.HeaderBytes 8
  ipStrips : ipDepacketizer.StripsWords 20 fun bs k => bs.getD k 0
  udpDepacketizer : Depacketizer Header 8
  udpStrips : udpDepacketizer.StripsWords 8 Header.ofBytes

namespace Receiver

variable {ε : Type} (R : Receiver ε)

/-- From the sink of `LiteEthIPRX` to the source of `LiteEthUDPRX`. -/
abbrev stage : Stage ε (Beat 8) (UserParams × Beat 8) :=
  (Ip.iprx (host R.mac R.ip) R.ipDepacketizer).andThen (udprx R.idle R.udpDepacketizer)

/-- The datagrams it has delivered in a run. -/
def delivered (js : List (Stage.In ε (Beat 8))) : List (List (UserParams × Beat 8)) :=
  (frames (·.2.last) (R.stage.given js)).1

/-- The frames the checker has taken in a run that hold datagrams for the host. -/
def datagrams (F : SyncFIFO (PhyBeat 8) (ratio 8 + 1)) (is : List (Stage.In Unit (PhyBeat 8))) :
    List (List (PhyBeat 8)) :=
  (frames (·.last) ((alone F).taken is)).1.filter (IsDatagram (host R.mac R.ip))

/-- A run of the checker, and one of the receivers, at which of what the checker has given some has arrived. -/
structure Reception (F : SyncFIFO (PhyBeat 8) (ratio 8 + 1)) (is : List (Stage.In Unit (PhyBeat 8)))
    (js : List (Stage.In ε (Beat 8))) : Prop where
  notInReset : (alone F).machine.Along (NotInReset F) (alone F).machine.reset is
  headersFit : ∀ f ∈ (frames (·.last) ((alone F).taken is)).1, HeadersFit (host R.mac R.ip) f
  arrives : R.stage.arrivals js <+: atIp ((alone F).given is)

end Receiver

/-- The last beat of a datagram has its error bit set. -/
def Flagged (d : List (UserParams × Beat 8)) : Prop := ∃ x ∈ d.getLast?, x.2.error = 1

/-- The datagram `d` of the frame `f` is flagged iff the FCS of the frame is wrong. -/
def FlagRight (f : List (PhyBeat 8)) (d : List (UserParams × Beat 8)) : Prop := Flagged d ↔ ¬ FcsRight f

/-! ## What is delivered -/

theorem counted_spec (h : Header) : h.length - BitVec.ofNat 16 headerLength = BitVec.ofNat 16 (counted h) ∧
    0 < counted h ∧ counted h ≤ 2 ^ 16 := by
  unfold counted
  split_ifs with hz
  · rw [hz]
    decide
  · have hlt := (h.length - BitVec.ofNat 16 headerLength).isLt
    refine ⟨by rw [BitVec.ofNat_toNat, BitVec.setWidth_eq], ?_, hlt.le⟩
    by_contra hc
    have hsub : h.length - BitVec.ofNat 16 headerLength = 0#16 := BitVec.eq_of_toNat_eq (Nat.eq_zero_of_not_pos hc)
    exact hz (BitVec.sub_eq_iff_eq_add.1 hsub |>.trans (BitVec.zero_add _))

section Packets

variable {ε : Type} (C : ε → Prop) (mac : BitVec 48) (ip : BitVec 32)

/-- The header of an IPv4 packet, and the one of UDP after it. -/
def packetHeader (y : List (Beat 8)) : Ip.HeaderBytes := fun k => ((y.take 20).map (·.data)).getD k 0

/-- The UDP header in an IP packet. -/
def packetUdpHeader (y : List (Beat 8)) : Header := .ofBytes (((y.drop 20).take 8).map (·.data))

/-- The datagram in an IPv4 packet, as it is delivered, if there is one. -/
def inPacket (p : Ip.Params) (y : List (Beat 8)) : List (UserParams × Beat 8) :=
  if Ip.Rx.Accepts p (packetHeader y) ∧ (Ip.Header.ofBytes (packetHeader y)).protocol = protocol then
    (marked ((y.drop 28).take (counted (packetUdpHeader y)))).map
      (Rx.deliveredBeat (packetUdpHeader y) (Ip.Rx.params (.ofBytes (packetHeader y))))
  else []

variable {D : Depacketizer Ip.HeaderBytes 8} (W : D.StripsWords 20 fun bs k => bs.getD k 0)

/-- The receivers deliver the datagram of a packet. -/
theorem decodes_packet {y : List (Beat 8)} (hy : IsFrame (·.last) y) (hip : 20 < y.length)
    (hudp : Ip.Rx.Accepts (host mac ip) (packetHeader y) → 28 < y.length) :
    (Rx.unpacks 8 Header.ofBytes).outs (Rx.unpacks 8 Header.ofBytes).init
        (Ip.Rx.deliveryOf (host mac ip) (W.strips C) y) = inPacket (host mac ip) y ∧
      (Rx.unpacks 8 Header.ofBytes).run (Rx.unpacks 8 Header.ofBytes).init
        (Ip.Rx.deliveryOf (host mac ip) (W.strips C) y) = (Rx.unpacks 8 Header.ofBytes).init := by
  have hheader : (W.strips C).header y = packetHeader y := rfl
  have hpayload : (W.strips C).payload y = y.drop 20 := rfl
  unfold Ip.Rx.deliveryOf Ip.Rx.delivery
  rw [hheader, hpayload]
  -- the packet is for this host
  by_cases ha : Ip.Rx.Accepts (host mac ip) (packetHeader y)
  · rw [if_pos ha]
    have hlong := hudp ha
    have hframe : IsFrame (·.last) (y.drop 20) := (W.strips C).payload_frame y hy hip
    have hframe' : IsFrame (·.last) ((y.drop 20).drop 8) := hframe.drop (by rw [List.length_drop]; omega)
    obtain ⟨h1, h2⟩ := Rx.unpacks_packet 8 Header.ofBytes (Ip.Rx.params (.ofBytes (packetHeader y))) hframe
      (by rw [List.length_drop]; omega)
    rw [h1, h2]
    -- its UDP packet is trimmed to the length of the header
    by_cases hp : (Ip.Header.ofBytes (packetHeader y)).protocol = protocol
    · obtain ⟨hn, hpos, hle⟩ := counted_spec (packetUdpHeader y)
      obtain ⟨h3, h4⟩ := Rx.trim_packet (h := packetUdpHeader y)
        (u := Ip.Rx.params (.ofBytes (packetHeader y))) hn hle hp hpos hframe'
      unfold inPacket
      rw [if_pos ⟨ha, hp⟩]
      rw [List.drop_drop] at h3 h4
      constructor
      · rw [List.drop_drop]
        exact h3
      · rw [List.drop_drop]
        exact congrArg _ h4
    · -- a packet of another protocol is dropped
      obtain ⟨h3, h4⟩ := Rx.trim_other (packetUdpHeader y) (u := Ip.Rx.params (.ofBytes (packetHeader y))) hp hframe'
      unfold inPacket
      rw [if_neg fun h => hp h.2]
      exact ⟨h3, congrArg _ h4⟩
  · -- the packet is dropped
    unfold inPacket
    rw [if_neg ha, if_neg fun h => ha h.1]
    exact ⟨rfl, rfl⟩

/-- The receivers deliver the datagrams of some packets, and then something of the next one. -/
theorem decodes_packets {ys : List (List (Beat 8))} {m : List (Beat 8)} (hm : ∀ b ∈ m, b.last = false)
    (hys : ∀ y ∈ ys, IsFrame (·.last) y ∧ 20 < y.length ∧
      (Ip.Rx.Accepts (host mac ip) (packetHeader y) → 28 < y.length)) : ∃ rest,
    (decodes C mac ip W).outs (decodes C mac ip W).init (ys.flatten ++ m) =
      ys.flatMap (inPacket (host mac ip)) ++ rest := by
  have hip := Ip.Rx.outs_packets (p := host mac ip) (W.strips C) (fun y hy => ⟨(hys y hy).1, (hys y hy).2.1⟩) hm
  unfold Ip.Rx.deliveries at hip
  rw [List.flatMap_def] at hip
  have hrun : ∀ x ∈ ys.map (Ip.Rx.deliveryOf (host mac ip) (W.strips C)),
      (Rx.unpacks 8 Header.ofBytes).run (Rx.unpacks 8 Header.ofBytes).init x = (Rx.unpacks 8 Header.ofBytes).init := by
    intro x hx
    obtain ⟨y, hy, rfl⟩ := List.mem_map.1 hx
    exact (decodes_packet C mac ip W (hys y hy).1 (hys y hy).2.1 (hys y hy).2.2).2
  have hudp := Transducer.outs_flatten _ hrun (Ip.Rx.deliveryOf (host mac ip) (W.strips C) m)
  refine ⟨(Rx.unpacks 8 Header.ofBytes).outs (Rx.unpacks 8 Header.ofBytes).init
    (Ip.Rx.deliveryOf (host mac ip) (W.strips C) m), ?_⟩
  rw [Transducer.andThen_outs]
  refine (congrArg _ hip).trans (hudp.trans ?_)
  have hpacket : ∀ y ∈ ys, (Rx.unpacks 8 Header.ofBytes).outs (Rx.unpacks 8 Header.ofBytes).init
      (Ip.Rx.deliveryOf (host mac ip) (W.strips C) y) = inPacket (host mac ip) y := fun y hy =>
    (decodes_packet C mac ip W (hys y hy).1 (hys y hy).2.1 (hys y hy).2.2).1
  rw [List.flatMap_map, List.flatMap_congr hpacket]

end Packets

/-! ## From frames to packets -/

/-- The beats of the IPv4 packet in a frame. -/
def packetOf (f : List (PhyBeat 8)) : List (Beat 8) := ((emits [] f).drop macHeaderLength).map onSys

/-- The datagram in a frame, as it is delivered. -/
def datagramOf (f : List (PhyBeat 8)) : List (UserParams × Beat 8) :=
  (marked ((packetOf f).drop 28 |>.take (counted (udpHeader (content f))))).map
    (Rx.deliveredBeat (udpHeader (content f)) (Ip.Rx.params (.ofBytes (ipHeader (content f)))))

theorem data_packetOf (f : List (PhyBeat 8)) : (packetOf f).map (·.data) = (content f).drop macHeaderLength := by
  unfold packetOf content
  rw [← bytes_emits, bytes, ← List.map_drop, List.map_map]
  rfl

theorem packetHeader_packetOf (f : List (PhyBeat 8)) : packetHeader (packetOf f) = ipHeader (content f) := by
  unfold packetHeader ipHeader
  rw [List.map_take, data_packetOf]

theorem packetUdpHeader_packetOf (f : List (PhyBeat 8)) : packetUdpHeader (packetOf f) = udpHeader (content f) := by
  unfold packetUdpHeader udpHeader
  rw [List.map_take, List.map_drop, data_packetOf, List.drop_drop]

theorem length_packetOf (f : List (PhyBeat 8)) : (packetOf f).length = (content f).length - macHeaderLength := by
  rw [← List.length_map (·.data), data_packetOf, List.length_drop]

theorem length_content (f : List (PhyBeat 8)) : (content f).length = f.length - 4 := by
  unfold content bytes body
  rw [List.length_map, List.length_take]
  omega

/-- What the MAC passes on of a frame. -/
theorem routed_emits (f : List (PhyBeat 8)) :
    routed (emits [] f) = if etherType (content f) = ethernetTypeIp then packetOf f else [] := by
  unfold routed
  rw [bytes_emits]
  rfl

theorem inPacket_packetOf (p : Ip.Params) {f : List (PhyBeat 8)} (hf : etherType (content f) = ethernetTypeIp) :
    inPacket p (packetOf f) = if IsDatagram p f then datagramOf f else [] := by
  unfold inPacket
  rw [packetHeader_packetOf, packetUdpHeader_packetOf]
  refine if_congr ?_ rfl rfl
  unfold IsDatagram
  rw [and_iff_right hf]

/-- Elements without a part do not count. -/
theorem flatMap_if {α β : Type} (q : α → Prop) [DecidablePred q] (g : α → List β) (l : List α) :
    l.flatMap (fun a => if q a then g a else []) = (l.filter q).flatMap g := by
  induction l with
  | nil => rfl
  | cons a l ih =>
    rw [List.flatMap_cons, ih, List.filter_cons]
    by_cases h : q a <;> simp [h]

/-- A frame whose headers fit is longer than its FCS. -/
theorem HeadersFit.length {p : Ip.Params} {f : List (PhyBeat 8)} (h : HeadersFit p f) : 5 ≤ f.length := by
  have hmac := h.mac
  rw [length_content] at hmac
  omega

/-- The packet of a frame whose headers fit. -/
theorem HeadersFit.packet {p : Ip.Params} {f : List (PhyBeat 8)} (h : HeadersFit p f) (hf : IsFrame (·.last) f)
    (ht : etherType (content f) = ethernetTypeIp) : IsFrame (·.last) (packetOf f) ∧ 20 < (packetOf f).length ∧
      (Ip.Rx.Accepts p (packetHeader (packetOf f)) → 28 < (packetOf f).length) := by
  have hmac : macHeaderLength < (emits [] f).length := by
    rw [← List.length_map (·.data), show (emits [] f).map (·.data) = content f from bytes_emits f]
    exact h.mac
  refine ⟨IsFrame.map (g := onSys) (fun _ => rfl) ((isFrame_emits hf h.length).drop hmac), ?_, fun ha => ?_⟩
  · have := h.ip ht
    rw [length_packetOf]
    omega
  · rw [packetHeader_packetOf] at ha
    have := h.udp ht ha
    rw [length_packetOf]
    omega

/-- A datagram has a byte, and its frame four more after it. -/
theorem size_spec {p : Ip.Params} {f : List (PhyBeat 8)} (h : HeadersFit p f) (hf : IsDatagram p f) :
    0 < size f ∧ macHeaderLength + 28 + size f + 4 ≤ f.length := by
  have hfit := h.udp hf.1 hf.2.1
  obtain ⟨-, hpos, -⟩ := counted_spec (udpHeader (content f))
  have hlen : (udpData (content f)).length = (content f).length - (macHeaderLength + 28) := List.length_drop
  have hcontent := length_content f
  unfold size
  omega

/-- The last beat of a datagram is the one the checker gives with the beat four beats later. -/
theorem getLast?_datagramOf {p : Ip.Params} {f : List (PhyBeat 8)} (h : HeadersFit p f) (hf : IsDatagram p f) :
    (datagramOf f).getLast? = (emits [] f)[macHeaderLength + 28 + size f - 1]?.map fun b =>
      Rx.deliveredBeat (udpHeader (content f)) (Ip.Rx.params (.ofBytes (ipHeader (content f)))) (onSys b, true) := by
  obtain ⟨hpos, -⟩ := size_spec h hf
  have hsize : ((packetOf f).drop 28 |>.take (counted (udpHeader (content f)))).length = size f := by
    unfold size udpData
    rw [List.length_take, List.length_drop, List.length_drop, length_packetOf, Nat.sub_sub]
  have hlast : ((packetOf f).drop 28 |>.take (counted (udpHeader (content f)))).getLast? =
      (emits [] f)[macHeaderLength + 28 + size f - 1]?.map onSys := by
    have hindex : macHeaderLength + (28 + (size f - 1)) = macHeaderLength + 28 + size f - 1 := by omega
    have hlt : size f - 1 < counted (udpHeader (content f)) := by
      have : size f ≤ counted (udpHeader (content f)) := Nat.min_le_left _ _
      omega
    rw [List.getLast?_eq_getElem?, hsize, List.getElem?_take_of_lt hlt, List.getElem?_drop, packetOf,
      List.getElem?_map, List.getElem?_drop, hindex]
  unfold datagramOf
  rw [List.getLast?_map, getLast?_marked, hlast, Option.map_map, Option.map_map]
  rfl

theorem isFrame_datagramOf {p : Ip.Params} {f : List (PhyBeat 8)} (h : HeadersFit p f) (hf : IsDatagram p f) :
    IsFrame (·.2.last) (datagramOf f) := by
  obtain ⟨-, hpos, -⟩ := counted_spec (udpHeader (content f))
  have hlen := h.udp hf.1 hf.2.1
  refine IsFrame.map (g := Rx.deliveredBeat _ _) (fun _ => rfl) (isFrame_marked ?_)
  rw [← List.length_pos_iff_ne_nil, List.length_take, List.length_drop, length_packetOf]
  omega

/-- A datagram is flagged unless its frame would have been sound had it ended there. -/
theorem flagged_datagramOf {p : Ip.Params} {f : List (PhyBeat 8)} (h : HeadersFit p f) (hf : IsDatagram p f) :
    Flagged (datagramOf f) ↔ ¬ Sound (upTo f) := by
  obtain ⟨hpos, hle⟩ := size_spec h hf
  obtain ⟨k, hk⟩ : ∃ k, macHeaderLength + 28 + size f = k + 1 := ⟨macHeaderLength + 28 + size f - 1, by omega⟩
  have hlt : k + 4 < f.length := by omega
  have hupTo : upTo f = f.take (k + 4) ++ [f[k + 4]] := by
    unfold upTo
    rw [show macHeaderLength + 28 + size f + 4 = k + 4 + 1 by omega, List.take_succ_eq_append_getElem hlt]
  have hcrc := error_iff (f := f.take (k + 4)) (by rw [List.length_take]; omega) f[k + 4]
  have hlast := getLast?_datagramOf h hf
  rw [hk, Nat.add_sub_cancel, emits_getElem? f hlt, Option.map_some] at hlast
  have hone : ∀ e : BitVec 1, e = 1 ↔ (e != 0) = true := by decide
  unfold Flagged Sound
  rw [hlast, hupTo, ← hcrc]
  simp only [Option.mem_some_iff, exists_eq_left', List.getLast?_concat, forall_eq']
  refine (hone _).trans ?_
  refine (iff_of_eq (congrArg (· = true) (error_or _ _))).trans ?_
  rw [Bool.or_eq_true, bne_iff_ne, ← Bool.not_eq_false, ← not_and_or, and_comm]

theorem flagRight_datagramOf {p : Ip.Params} {f : List (PhyBeat 8)} (h : HeadersFit p f) (hf : IsDatagram p f) :
    FlagRight f (datagramOf f) ↔ InTime f := by
  unfold FlagRight InTime
  rw [flagged_datagramOf h hf, not_iff_not]

/-- Without padding the flag is that of the frame. -/
theorem inTime_of_no_padding {p : Ip.Params} {f : List (PhyBeat 8)} (h : HeadersFit p f) (hf : IsDatagram p f)
    (hpad : (udpData (content f)).length ≤ counted (udpHeader (content f))) : InTime f ↔ LastClean f := by
  have hlen := length_content f
  have hfit := h.udp hf.1 hf.2.1
  have hsize : size f = (content f).length - (macHeaderLength + 28) := by
    unfold size
    rw [Nat.min_eq_right hpad]
    exact List.length_drop
  have hupTo : upTo f = f := List.take_of_length_le (by omega)
  unfold InTime Sound LastClean
  rw [hupTo]
  tauto

/-! ## Runs -/

namespace Receiver

variable {ε : Type} {R : Receiver ε} {F : SyncFIFO (PhyBeat 8) (ratio 8 + 1)} {is : List (Stage.In Unit (PhyBeat 8))}
  {js : List (Stage.In ε (Beat 8))}

/-- The receivers follow what they make of their packets. -/
def sim (R : Receiver ε) :
    Stage.Sim (fun _ => True) R.stage (decodes (fun _ : ε => True) R.mac R.ip R.ipStrips) :=
  (Ip.Rx.filters (p := host R.mac R.ip) (R.ipStrips.strips fun _ => True)).andThen
    (Rx.trims R.udpStrips fun _ => True).sim

/-- What arrives at the receivers is the packets of the frames, and the beginning of the next one. -/
theorem Reception.atIp_given (h : R.Reception F is js) : ∃ m : List (Beat 8), (∀ b ∈ m, b.last = false) ∧
    atIp ((alone F).given is) = (((frames (·.last) ((alone F).taken is)).1.filter
      fun f => etherType (content f) = ethernetTypeIp).map packetOf).flatten ++ m := by
  obtain ⟨-, hgiven⟩ := checker_emits is h.notInReset fun f hf => le_trans (by decide) (h.headersFit f hf).length
  have hspec := frames_spec (·.last) ((alone F).taken is)
  have hframes : frames (fun b : PhyBeat 8 => b.last) ((alone F).given is) =
      ((frames (·.last) ((alone F).taken is)).1.map (emits []), emits [] (frames (·.last) ((alone F).taken is)).2) := by
    rw [hgiven, List.flatMap_def]
    refine frames_of_frames _ (fun g hg => ?_) (last_emits hspec.2 [])
    obtain ⟨f, hf, rfl⟩ := List.mem_map.1 hg
    exact isFrame_emits (hspec.1 f hf) (h.headersFit f hf).length
  refine ⟨routed (emits [] (frames (·.last) ((alone F).taken is)).2), fun b hb => ?_, ?_⟩
  · rw [routed_emits] at hb
    split_ifs at hb
    · obtain ⟨x, hx, rfl⟩ := List.mem_map.1 hb
      exact last_emits hspec.2 [] x (List.mem_of_mem_drop hx)
    · cases hb
  · unfold atIp
    have hrouted : ∀ f ∈ (frames (·.last) ((alone F).taken is)).1, routed (emits [] f) =
        if etherType (content f) = ethernetTypeIp then packetOf f else [] := fun f _ => routed_emits f
    rw [hframes, List.flatMap_map, List.flatMap_congr hrouted, flatMap_if, List.flatMap_def]

/-- What is delivered is in order: the datagrams of the frames, and then something of the next one. -/
theorem Reception.given_begins (h : R.Reception F is js) : ∃ rest,
    R.stage.given js <+: ((R.datagrams F is).map datagramOf).flatten ++ rest := by
  have hspec := frames_spec (·.last) ((alone F).taken is)
  obtain ⟨m, hm, hatIp⟩ := h.atIp_given
  obtain ⟨r, hr⟩ := h.arrives
  -- every packet that reaches the IP layer is whole, and longer than its headers
  have hys : ∀ y ∈ ((frames (·.last) ((alone F).taken is)).1.filter
      fun f => etherType (content f) = ethernetTypeIp).map packetOf, IsFrame (·.last) y ∧ 20 < y.length ∧
        (Ip.Rx.Accepts (host R.mac R.ip) (packetHeader y) → 28 < y.length) := by
    intro y hy
    obtain ⟨f, hf, rfl⟩ := List.mem_map.1 hy
    obtain ⟨hmem, ht⟩ := List.mem_filter.1 hf
    exact (h.headersFit f hmem).packet (hspec.1 f hmem) (of_decide_eq_true ht)
  obtain ⟨rest, hrest⟩ := decodes_packets (fun _ : ε => True) R.mac R.ip R.ipStrips hm hys
  -- of these packets the datagrams are what is left
  have hdatagrams : (((frames (·.last) ((alone F).taken is)).1.filter
      fun f => etherType (content f) = ethernetTypeIp).map packetOf).flatMap (inPacket (host R.mac R.ip)) =
        ((R.datagrams F is).map datagramOf).flatten := by
    have hpacket : ∀ f ∈ (frames (·.last) ((alone F).taken is)).1.filter
        fun f => etherType (content f) = ethernetTypeIp, inPacket (host R.mac R.ip) (packetOf f) =
          if IsDatagram (host R.mac R.ip) f then datagramOf f else [] := fun f hf =>
      inPacket_packetOf _ (of_decide_eq_true (List.mem_filter.1 hf).2)
    rw [List.flatMap_map, List.flatMap_congr hpacket, flatMap_if, List.filter_filter, ← List.flatMap_def]
    have hfilter : (frames (·.last) ((alone F).taken is)).1.filter (fun f => decide (IsDatagram (host R.mac R.ip) f) &&
        decide (etherType (content f) = ethernetTypeIp)) = R.datagrams F is := by
      refine List.filter_congr fun f _ => ?_
      by_cases hf : IsDatagram (host R.mac R.ip) f
      · simp [hf, hf.1]
      · simp [hf]
    rw [hfilter]
  obtain ⟨o, w, -, ho⟩ := R.sim.run js (Link.decodes_oks _ _ _ _ _)
  refine ⟨rest, ?_⟩
  rw [← hdatagrams, ← hrest, ← hatIp, ← hr, Transducer.outs_append]
  exact (List.prefix_append _ o).trans (ho ▸ List.prefix_append _ _)

theorem getElem?_of_begins {α : Type} {xs ys : List α} (h : xs <+: ys) {k : ℕ} {x : α} (hx : xs[k]? = some x) :
    ys[k]? = some x := by
  obtain ⟨t, rfl⟩ := h
  rw [List.getElem?_append_left (List.getElem?_eq_some_iff.1 hx).1]
  exact hx

/-- In every run, whatever the timing and whatever follows the datagram in its frame: the flag on the last beat of a
datagram is that of its frame iff the frame would have been sound, had it ended with four bytes after the datagram,
iff its FCS is right. -/
theorem error_flag_iff (h : R.Reception F is js) {k : ℕ} {f : List (PhyBeat 8)} {d : List (UserParams × Beat 8)}
    (hf : (R.datagrams F is)[k]? = some f) (hd : (R.delivered js)[k]? = some d) : FlagRight f d ↔ InTime f := by
  obtain ⟨rest, hbegins⟩ := h.given_begins
  have hmem : ∀ f ∈ R.datagrams F is, HeadersFit (host R.mac R.ip) f ∧ IsDatagram (host R.mac R.ip) f := by
    intro f hf
    obtain ⟨hmem, hdatagram⟩ := List.mem_filter.1 hf
    exact ⟨h.headersFit f hmem, of_decide_eq_true hdatagram⟩
  have hfit := hmem f (List.mem_of_getElem? hf)
  obtain ⟨r, hr⟩ := hbegins
  -- what has been delivered, and what is to be delivered, begin the same stream of frames
  have hdelivered : R.delivered js <+: (frames (·.2.last) (((R.datagrams F is).map datagramOf).flatten ++ rest)).1 := by
    rw [← hr]
    exact frames_append _ _ _
  have hexpected : (R.datagrams F is).map datagramOf <+:
      (frames (·.2.last) (((R.datagrams F is).map datagramOf).flatten ++ rest)).1 := by
    have hfs : ∀ g ∈ (R.datagrams F is).map datagramOf, IsFrame (fun x : UserParams × Beat 8 => x.2.last) g := by
      intro g hg
      obtain ⟨f', hf', rfl⟩ := List.mem_map.1 hg
      exact isFrame_datagramOf (hmem f' hf').1 (hmem f' hf').2
    have hframes := frames_of_frames (fun x : UserParams × Beat 8 => x.2.last) hfs (m := []) nofun
    have happend := frames_append (fun x : UserParams × Beat 8 => x.2.last)
      (((R.datagrams F is).map datagramOf).flatten ++ []) rest
    rwa [hframes, List.append_nil] at happend
  have hk : ((R.datagrams F is).map datagramOf)[k]? = some (datagramOf f) := by
    rw [List.getElem?_map, hf]
    rfl
  -- so the `k`th of both are the same
  have hsame : d = datagramOf f :=
    Option.some.inj ((getElem?_of_begins hdelivered hd).symm.trans (getElem?_of_begins hexpected hk))
  rw [hsame]
  exact flagRight_datagramOf hfit.1 hfit.2

/-- 10.0.0.2. -/
def wired : Receiver Unit where
  mac := 2
  ip := 0x0a000002
  idle _ := { length := 0, protocol := 0, ipAddress := 0 }
  ipDepacketizer := .words 20 Ip.headerLength_pos fun bs k => bs.getD k 0
  ipStrips := Depacketizer.stripsWords_words 20 Ip.headerLength_pos fun bs k => bs.getD k 0
  udpDepacketizer := .words 8 headerLength_pos Header.ofBytes
  udpStrips := Depacketizer.stripsWords_words 8 headerLength_pos Header.ofBytes

/-- A frame from 10.0.0.1 with the datagram of one byte from port 5 to port 7, and two bytes of padding. -/
def paddedBytes : List (BitVec 8) :=
  [0, 0, 0, 0, 0, 2, 0, 0, 0, 0, 0, 1, 8, 0] ++
  [0x45, 0, 0, 29, 0, 0, 0, 0, 0x80, 0x11, 0x26, 0xce, 10, 0, 0, 1, 10, 0, 0, 2] ++
  [0, 5, 0, 7, 0, 9, 0, 0] ++ [0x2a, 0, 0]

/-- The frame, its FCS right, and its cycles at the checker. -/
def paddedFrame : List (PhyBeat 8) :=
  ((paddedBytes ++ [0xef, 0x88, 0xd2]).map fun d => ⟨d, 0, 0, false⟩) ++ [⟨0x15, 0, 0, true⟩]

/-- The padded frame with a wrong check sequence, cycle by cycle. -/
def paddedCycles : List (Stage.In Unit (PhyBeat 8)) := gapCycle :: frameCycles (paddedBytes ++ [0xef, 0x88, 0xd2]) 0x15

/-- The beats of its packet, with the running flag of the checker. -/
def paddedPacket : List (Beat 8) := ((paddedBytes.drop 14).dropLast.map fun d => ⟨d, 0, 1, false⟩) ++ [⟨0, 0, 0, true⟩]

/-- A packet, one beat in each cycle to a ready consumer. -/
def offers (bs : List (Beat 8)) : List (Stage.In Unit (Beat 8)) := bs.map fun b => ⟨(), some b, true⟩

/-- Their cycles at the receivers, which wait for the sum of the header, and to open the datagram. -/
def packetCycles : List (Stage.In Unit (Beat 8)) :=
  offers (paddedPacket.take 21) ++ List.replicate 14 ⟨(), none, true⟩ ++ offers ((paddedPacket.drop 21).take 8) ++
    [⟨(), none, true⟩] ++ offers (paddedPacket.drop 29)

/-- The datagram as it is delivered. -/
def paddedDatagram : List (UserParams × Beat 8) :=
  [({ srcPort := 5, dstPort := 7, ipAddress := 0x0a000001, length := 1 }, ⟨0x2a, 0, 1, true⟩)]

theorem reception_padded : wired.Reception (SyncFIFO.queue _ _) paddedCycles packetCycles where
  notInReset := by decide +kernel
  headersFit := by decide +kernel
  arrives := by decide +kernel

theorem datagrams_padded : (wired.datagrams (SyncFIFO.queue _ _) paddedCycles)[0]? = some paddedFrame := by
  decide +kernel

theorem delivered_padded : (wired.delivered packetCycles)[0]? = some paddedDatagram := by decide +kernel

theorem error_flag_iff_padded : FlagRight paddedFrame paddedDatagram ↔ InTime paddedFrame :=
  error_flag_iff reception_padded datagrams_padded delivered_padded

/-- The FCS of the frame is right, and its datagram is flagged. -/
theorem padded_frame_flagged : wired.Reception (SyncFIFO.queue _ _) paddedCycles packetCycles ∧
    ¬ ∀ (k : ℕ) f d, (wired.datagrams (SyncFIFO.queue _ _) paddedCycles)[k]? = some f →
      (wired.delivered packetCycles)[k]? = some d → FlagRight f d := by
  refine ⟨reception_padded, fun h => ?_⟩
  have hflagged : Flagged paddedDatagram := ⟨_, rfl, rfl⟩
  have hright : FcsRight paddedFrame := by decide +kernel
  exact (h 0 _ _ datagrams_padded delivered_padded).1 hflagged hright

end Receiver

end LiteEth.Core.Udp.CrcFlag
