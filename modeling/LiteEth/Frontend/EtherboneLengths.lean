/-
What a packet of memory-mapped beats becomes on its way from the sender: a record, an Etherbone packet, a datagram
and an IP packet, each with a length that is computed from the one above it.
-/
import LiteEth.Core.IpStream
import LiteEth.Core.UdpStream
import LiteEth.Frontend.EtherboneLink
import LiteEth.Frontend.EtherbonePacket

namespace LiteEth.Frontend.Etherbone

open LiteEth.Rtl LiteEth.Core

/-! ## The stack -/

/-- The record module of a device with what sends its records, and that of the device which receives them. In a
helpful environment the converter gets on and the ARP table answers. -/
structure Stack (ε : Type) extends RecordLink ε where
  /-- `last_ip_address`. -/
  lastIpAddress : BitVec 32
  udpPort : BitVec 16
  packetPacketizer : Packetizer PacketHeader 32
  packetPrepends : packetPacketizer.PrependsWords PacketHeader.words
  /-- The host; its data width is that of the UDP core. -/
  host : Ip.Params
  /-- The converter of the user port. -/
  ratio : ℕ
  ratio_eq : ratio * (host.dw / 8) = 4
  converter : Stage ε (Udp.UserParams × Beat 32) (Udp.UserParams × Beat host.dw)
  narrows : Stage.Sim helpful converter (narrow Udp.UserParams 32 host.dw ratio)
  udpWords : Udp.Header → List (BitVec host.dw)
  udpWords_bytes : ∀ h, host.dw / 8 * (udpWords h).length = Udp.headerLength
  udpPacketizer : Packetizer Udp.Header host.dw
  udpPrepends : udpPacketizer.PrependsWords udpWords
  ipWords : Ip.Header → List (BitVec host.dw)
  ipWords_bytes : ∀ h, host.dw / 8 * (ipWords h).length = 20
  ipPacketizer : Packetizer Ip.Header host.dw
  ipPrepends : ipPacketizer.PrependsWords ipWords
  table : ε → Ip.Table
  answers : ∀ e, helpful e → (table e).requestReady = true ∧ (table e).responseValid = true
  /-- What drives the sinks while their `valid` is zero. -/
  idlePacket : ε → PacketUserParams × Beat 32
  idleUdp : ε → Udp.UserParams
  idleIp : ε → Ip.UserParams × Beat host.dw

namespace Stack

variable {ε : Type} (S : Stack ε) (b : Burst)

/-- The record module's source, as it is connected to the transmitter of packets. -/
abbrev user (x : BitVec 16 × Beat 32) : PacketUserParams × Beat 32 :=
  ({ nr := false, pr := false, pf := false, ipAddress := S.lastIpAddress, length := x.1 }, x.2)

/-- The record transmitter and the packet transmitter, one after the other. -/
abbrev packetTx : Stage ε (MmapBeat Unit) (Udp.UserParams × Beat 32) :=
  (S.recordTx.mapped S.user).andThen (PacketTx.packetTx S.udpPort S.packetPacketizer S.idlePacket)

/-- These, the width converter and the UDP transmitter. -/
abbrev udpTx : Stage ε (MmapBeat Unit) (Ip.UserParams × Beat S.host.dw) :=
  (S.packetTx.andThen S.converter).andThen (Udp.udptx S.idleUdp S.udpPacketizer)

/-- These and the IP transmitter. -/
abbrev ipTx : Stage ε (MmapBeat Unit) (Beat S.host.dw) :=
  S.udpTx.andThen (Ip.iptx S.host S.ipPacketizer S.table S.idleIp)

/-! ## What is sent at each level -/

/-- The parameters that the packet transmitter is given. -/
def packetUserParams : PacketUserParams := (S.user (RecordMaster.length b.header, .ofWord 0)).1

/-- The parameters of the datagram. -/
def udpUserParams : Udp.UserParams := PacketTx.params S.udpPort (S.packetUserParams b)

/-- The words of the Etherbone packet. -/
def packetWords : List (BitVec 32) :=
  (PacketTx.header (S.packetUserParams b)).words ++ b.recordWords S.endianness

/-- The datagram, as the packet transmitter gives it. -/
def packetFrame : List (Udp.UserParams × Beat 32) := (wordPacket (S.packetWords b)).map (S.udpUserParams b, ·)

/-- The UDP header of the datagram. -/
def udpHeader : Udp.Header := Udp.Tx.header (S.udpUserParams b)

/-- The words of the datagram with its header. -/
def udpPacketWords : List (BitVec S.host.dw) :=
  S.udpWords (S.udpHeader b) ++ (S.packetWords b).flatMap (parts S.host.dw S.ratio)

/-- The datagram, as the UDP transmitter gives it. -/
def udpFrame : List (Ip.UserParams × Beat S.host.dw) :=
  (wordPacket (S.udpPacketWords b)).map (Udp.Tx.params (S.udpUserParams b), ·)

/-- The IP header of the packet. -/
def ipHeader : Ip.Header := Ip.Tx.sentHeader S.host (Udp.Tx.params (S.udpUserParams b))

/-- The packet, as the IP transmitter gives it. -/
def ipFrame : List (Beat S.host.dw) := wordPacket (S.ipWords (S.ipHeader b) ++ S.udpPacketWords b)

/-! ## Up the stack -/

/-- What the first two transmitters make of beats. -/
abbrev packetOf : Transducer (MmapBeat Unit) (Udp.UserParams × Beat 32) :=
  (S.recordOf.mapped S.user).andThen ((PacketTx.feed S.udpPort).sends PacketHeader.words)

/-- What the first three make of them. -/
abbrev udpOf : Transducer (MmapBeat Unit) (Ip.UserParams × Beat S.host.dw) :=
  (S.packetOf.andThen (narrow Udp.UserParams 32 S.host.dw S.ratio)).andThen (Udp.Tx.sends S.udpWords)

/-- What all of them make of them. -/
abbrev ipOf : Transducer (MmapBeat Unit) (Beat S.host.dw) := S.udpOf.andThen (Ip.Tx.sends S.host S.ipWords)

theorem ratio_pos : 0 < S.ratio := by
  refine Nat.pos_of_ne_zero fun h => ?_
  have := S.ratio_eq
  rw [h, Nat.zero_mul] at this
  omega

theorem makes_packet (hb : b.payload.length ≤ S.bufferDepth) : S.packetOf.Makes b.beats (S.packetFrame b) := by
  have hrecord : (S.recordOf.mapped S.user).Makes b.beats
      ((wordPacket (b.recordWords S.endianness)).map (S.packetUserParams b, ·)) := by
    have h := (S.makes_record b hb).mapped S.user
    rw [RecordLink.recordFrame, List.map_map] at h
    exact h
  exact hrecord.andThen (prepend_makes (S.packetUserParams b, ·) (S.udpUserParams b, ·) id
    (PacketTx.header (S.packetUserParams b)).words (List.cons_ne_nil _ _) (fun _ => rfl) (fun _ => rfl) (fun _ _ => rfl)
    (by rw [List.map_id]; rfl))

/-- The packet behind the converter. -/
theorem makes_narrow (hb : b.payload.length ≤ S.bufferDepth) :
    (S.packetOf.andThen (narrow Udp.UserParams 32 S.host.dw S.ratio)).Makes b.beats
      ((wordPacket ((S.packetWords b).flatMap (parts S.host.dw S.ratio))).map (S.udpUserParams b, ·)) :=
  (S.makes_packet b hb).andThen ⟨narrow_oks _ _ _, rfl, narrow_packet S.ratio S.ratio_pos _ (List.cons_ne_nil _ _)⟩

theorem parts_ne_nil : (S.packetWords b).flatMap (parts S.host.dw S.ratio) ≠ [] := by
  have := S.ratio_pos
  rw [packetWords, PacketHeader.words, List.cons_append, List.flatMap_cons, parts]
  simp
  omega

theorem makes_udp (hb : b.payload.length ≤ S.bufferDepth) : S.udpOf.Makes b.beats (S.udpFrame b) :=
  (S.makes_narrow b hb).andThen (prepend_makes (S.udpUserParams b, ·) (Udp.Tx.params (S.udpUserParams b), ·) id
    (S.udpWords (S.udpHeader b)) (S.parts_ne_nil b) (fun _ => rfl) (fun _ => rfl) (fun _ _ => rfl)
    (by rw [List.map_id]; rfl))

theorem makes_ip (hb : b.payload.length ≤ S.bufferDepth) : S.ipOf.Makes b.beats (S.ipFrame b) :=
  (S.makes_udp b hb).andThen (prepend_makes (Udp.Tx.params (S.udpUserParams b), ·) id id
    (S.ipWords (S.ipHeader b)) (fun h => S.parts_ne_nil b (List.append_eq_nil_iff.1 h).2) (fun _ => rfl) (fun _ => rfl)
    (fun _ _ => rfl) (by rw [List.map_id, List.map_id]; rfl))

/-! ## The stages -/

/-- The first two transmitters give what follows. -/
def sendsPackets : Stage.Sim S.helpful S.packetTx S.packetOf :=
  (S.queuesRecords.toTaking.sim.mapped S.user).andThen
    (Packetizer.transmits (PacketTx.feed S.udpPort) (·.2.last) S.idlePacket S.packetPrepends S.helpful)

/-- The first three give what follows. -/
def sendsDatagrams : Stage.Sim S.helpful S.udpTx S.udpOf :=
  (S.sendsPackets.andThen S.narrows).andThen (Udp.Tx.transmits S.udpPrepends S.helpful)

/-- All of them give what follows. -/
def sendsIp : Stage.Sim S.helpful S.ipTx S.ipOf := S.sendsDatagrams.andThen (Ip.Tx.transmits S.ipPrepends S.answers)

/-! ## Lengths -/

/-- The length that goes with each level's packet is the number of its bytes. -/
structure CountsBytes : Prop where
  record : (RecordMaster.length b.header).toNat = 4 + 4 + 4 * b.payload.length
  record_bytes : 32 / 8 * (S.recordFrame b).length = (RecordMaster.length b.header).toNat
  packet : (S.udpUserParams b).length.toNat = (RecordMaster.length b.header).toNat + 8
  packet_bytes : 32 / 8 * (S.packetFrame b).length = (S.udpUserParams b).length.toNat
  udp : (S.udpHeader b).length.toNat = (S.udpUserParams b).length.toNat + 8
  udp_params : (Udp.Tx.params (S.udpUserParams b)).length = (S.udpHeader b).length
  udp_bytes : S.host.dw / 8 * (S.udpFrame b).length = (S.udpHeader b).length.toNat
  ip : (S.ipHeader b).totalLength.toNat = (S.udpHeader b).length.toNat + 20
  ip_bytes : S.host.dw / 8 * (S.ipFrame b).length = (S.ipHeader b).totalLength.toNat

/-- Of the two counts in the header one is zero. -/
theorem record_length : (RecordMaster.length b.header).toNat = 4 + 4 + 4 * b.payload.length := by
  have hc := b.count_toNat
  have hs := b.small
  have hne : b.count ≠ 0 := fun h => by
    rw [h] at hc
    exact b.nonempty (List.length_eq_zero_iff.1 hc.symm)
  rw [RecordMaster.length, Burst.header, BitVec.toNat_ofNat]
  cases b.we with
  | true =>
    simp only [if_true, hne, ne_eq, not_false_eq_true, hc, not_true_eq_false, if_false, RecordMaster.headerLength]
    simp
    omega
  | false =>
    simp only [Bool.false_eq_true, if_true, hne, ne_eq, not_false_eq_true, hc, not_true_eq_false, if_false,
      RecordMaster.headerLength]
    simp
    omega

theorem length_packetWords : (S.packetWords b).length = 2 + (b.payload.length + 2) := by
  rw [packetWords, List.length_append, b.length_recordWords]
  rfl

/-- The bytes of the words behind the converter. -/
theorem bytes_parts (ws : List (BitVec 32)) :
    S.host.dw / 8 * (ws.flatMap (parts S.host.dw S.ratio)).length = 4 * ws.length := by
  have hlen : (ws.flatMap (parts S.host.dw S.ratio)).length = S.ratio * ws.length := by
    simp [List.length_flatMap, parts, Nat.mul_comm]
  rw [hlen, ← S.ratio_eq]
  ring

theorem bytes_udp : S.host.dw / 8 * (S.udpPacketWords b).length = 8 + 4 * (S.packetWords b).length := by
  rw [udpPacketWords, List.length_append, Nat.mul_add, S.udpWords_bytes, S.bytes_parts]
  rfl

theorem countsBytes : S.CountsBytes b := by
  -- no sum wraps, for the record is small
  have hs := b.small
  have hrecord := record_length b
  have hwords := S.length_packetWords b
  have hpacket : (S.udpUserParams b).length.toNat = (RecordMaster.length b.header).toNat + 8 := by
    show ((RecordMaster.length b.header).toNat + 8) % 65536 = _
    rw [hrecord]
    omega
  have hudp : (S.udpHeader b).length.toNat = (S.udpUserParams b).length.toNat + 8 := by
    show ((S.udpUserParams b).length.toNat + 8) % 65536 = _
    rw [hpacket, hrecord]
    omega
  have hip : (S.ipHeader b).totalLength.toNat = (S.udpHeader b).length.toNat + 20 := by
    show (20 + (S.udpHeader b).length.toNat) % 65536 = _
    rw [hudp, hpacket, hrecord]
    omega
  have hbytes := S.bytes_udp b
  refine ⟨hrecord, ?_, hpacket, ?_, hudp, rfl, ?_, hip, ?_⟩
  · rw [RecordLink.recordFrame, List.length_map, length_wordPacket, b.length_recordWords, hrecord]
    omega
  · rw [packetFrame, List.length_map, length_wordPacket, hwords, hpacket, hrecord]
    omega
  · rw [udpFrame, List.length_map, length_wordPacket, hbytes, hudp, hpacket, hrecord, hwords]
    omega
  · rw [ipFrame, length_wordPacket, List.length_append, Nat.mul_add, S.ipWords_bytes, hbytes, hip, hudp, hpacket, hrecord,
      hwords]
    omega

/-! ## Delivery -/

/-- Packets that fit in the buffers are decoded to their operations, and sent under lengths that are their numbers of
bytes. -/
theorem bursts_delivered (bs : List Burst) (hbs : ∀ b ∈ bs, b.payload.length ≤ S.bufferDepth) :
    S.link.Delivers S.helpful (bs.flatMap Burst.beats) (bs.flatMap Burst.operation) ∧
      S.recordTx.Delivers S.helpful (bs.flatMap Burst.beats) (bs.flatMap S.recordFrame) ∧
      S.packetTx.Delivers S.helpful (bs.flatMap Burst.beats) (bs.flatMap S.packetFrame) ∧
      S.udpTx.Delivers S.helpful (bs.flatMap Burst.beats) (bs.flatMap S.udpFrame) ∧
      S.ipTx.Delivers S.helpful (bs.flatMap Burst.beats) (bs.flatMap S.ipFrame) ∧ ∀ b ∈ bs, S.CountsBytes b := by
  obtain ⟨hlink, hoperations⟩ := S.link_outs hbs
  have hrecord := Transducer.Makes.flatMap bs fun b hb => S.makes_record b (hbs b hb)
  have hpacket := Transducer.Makes.flatMap bs fun b hb => S.makes_packet b (hbs b hb)
  have hudp := Transducer.Makes.flatMap bs fun b hb => S.makes_udp b (hbs b hb)
  have hip := Transducer.Makes.flatMap bs fun b hb => S.makes_ip b (hbs b hb)
  refine ⟨?_, ?_, ?_, ?_, ?_, fun b _ => S.countsBytes b⟩
  · exact hoperations ▸ S.queuesLink.toTaking.sim.delivers hlink
  · exact hrecord.outs ▸ S.queuesRecords.toTaking.sim.delivers hrecord.ok
  · exact hpacket.outs ▸ S.sendsPackets.delivers hpacket.ok
  · exact hudp.outs ▸ S.sendsDatagrams.delivers hudp.ok
  · exact hip.outs ▸ S.sendsIp.delivers hip.ok

end Stack

/-! ## A stack of words -/

/-- The `k`-th word of a header, first byte to the right. -/
def wordOf (byte : ℕ → BitVec 8) (k : ℕ) : BitVec 32 :=
  byte (4 * k + 3) ++ byte (4 * k + 2) ++ byte (4 * k + 1) ++ byte (4 * k)

/-- A user port of the width of the core needs no converter. -/
def wire_narrows : Stage.Sim (fun _ : Unit => True) Stage.wire (narrow Udp.UserParams 32 32 1) :=
  (Stage.wire_passes _ _).sim.becomes _ (fun _ => ()) (fun _ => True) trivial rfl fun _ a _ _ => by
    have hpart : ∀ {n : ℕ} (w : BitVec n), part n w 0 = w := fun w => by simp [part]
    have hout : (narrow Udp.UserParams 32 32 1).out () a = [a] := by
      show [(a.1, ({ data := part 32 a.2.data 0, lastBe := part _ a.2.lastBe 0, error := part _ a.2.error 0
                     last := a.2.last && 0 + 1 == 1 } : Beat 32))] = [a]
      rw [hpart, hpart, hpart, beq_self_eq_true, Bool.and_true]
    exact ⟨trivial, hout.symm, rfl, trivial⟩

/-- A core of 32 bits, with a table that answers at once. -/
def wordStack : Stack Unit where
  toRecordLink := wordLink
  lastIpAddress := 0xc0a80164
  udpPort := 1234
  packetPacketizer := Packetizer.words 2 fun h k => h.words.getD k 0
  packetPrepends := Packetizer.prependsWords_words 2 Nat.two_pos fun (h : PacketHeader) k => h.words.getD k 0
  host := { macAddress := 0x10e2d5000001, ipAddress := 0xc0a80132, dw := 32 }
  ratio := 1
  ratio_eq := rfl
  converter := Stage.wire
  narrows := wire_narrows
  udpWords h := (List.range 2).map (wordOf (h.bytes.getD · 0))
  udpWords_bytes _ := rfl
  udpPacketizer := Packetizer.words 2 fun h => wordOf (h.bytes.getD · 0)
  udpPrepends := Packetizer.prependsWords_words 2 Nat.two_pos fun (h : Udp.Header) => wordOf (h.bytes.getD · 0)
  ipWords h := (List.range 5).map (wordOf h.bytes)
  ipWords_bytes _ := rfl
  ipPacketizer := Packetizer.words 5 fun h => wordOf h.bytes
  ipPrepends := Packetizer.prependsWords_words 5 (Nat.succ_pos 4) fun (h : Ip.Header) => wordOf h.bytes
  table _ := { requestReady := true, responseValid := true, responseMac := 0x10e2d5000002 }
  answers _ _ := ⟨rfl, rfl⟩
  idlePacket _ := ({ nr := false, pr := false, pf := false, ipAddress := 0, length := 0 }, .ofWord 0)
  idleUdp _ := { srcPort := 0, dstPort := 0, ipAddress := 0, length := 0 }
  idleIp _ := ({ length := 0, protocol := 0, ipAddress := 0 }, .ofWord 0)

/-- A write of two words, and a read of one. -/
def writeBurst : Burst := ⟨true, 0x1000, 0xf, [(0, 7), (0, 8)], List.cons_ne_nil _ _, by decide⟩

/-- A burst with one read. -/
def readBurst : Burst := ⟨false, 0x2000, 0xf, [(0, 0x3000)], List.cons_ne_nil _ _, by decide⟩

theorem bursts_delivered_words :
    wordStack.link.Delivers wordStack.helpful ([writeBurst, readBurst].flatMap Burst.beats)
        ([writeBurst, readBurst].flatMap Burst.operation) ∧
      ∀ b ∈ [writeBurst, readBurst], wordStack.CountsBytes b :=
  have h := Stack.bursts_delivered wordStack [writeBurst, readBurst] (by decide)
  ⟨h.1, h.2.2.2.2.2⟩

end LiteEth.Frontend.Etherbone
