/-
The checksum of an echo reply. The type of an echo request is taken out of the sum, and the checksum adds it back in,
with the carry out of the top bit; so the words of the reply sum up to all ones as those of the request do.
-/
import LiteEth.Core.Icmp
import LiteEth.Rtl.OnesComplement

namespace LiteEth.Core.Icmp

open LiteEth.Rtl

variable {ε : Type} {dw : ℕ}

/-- The checksum of a message is valid: its words sum up to all ones. -/
def ChecksumValid (h : Header) (payload : List (BitVec 8)) : Prop :=
  OnesComplement.sum 16 (OnesComplement.words (h.bytes ++ payload)) = 0xffff

theorem toNat_halves (x : BitVec 16) : (x.extractLsb' 8 8).toNat * 2 ^ 8 + (x.extractLsb' 0 8).toNat = x.toNat := by
  have h := x.isLt
  rw [BitVec.extractLsb'_toNat, BitVec.extractLsb'_toNat, Nat.shiftRight_eq_div_pow, Nat.shiftRight_eq_div_pow]
  omega

/-- The ordinary sum of the words of a message, by its fields. -/
theorem words_sum (h : Header) (payload : List (BitVec 8)) :
    (OnesComplement.words (h.bytes ++ payload)).sum = h.msgtype.toNat * 2 ^ 8 + h.checksum.toNat +
      (h.code.toNat + (OnesComplement.words (h.bytes.drop 4)).sum + (OnesComplement.words payload).sum) := by
  obtain ⟨t, c, s, q⟩ := h
  simp only [Header.bytes, List.cons_append, List.nil_append, OnesComplement.words, List.sum_cons, toNat_halves,
    List.drop_succ_cons, List.drop_zero, List.sum_nil]
  omega

/-- The checksum of a reply: the type is added, less the modulus if it carries. -/
theorem toNat_reply (q : UserParams) : (reply q).header.checksum.toNat = q.header.checksum.toNat + 0x800 ∨
    ((reply q).header.checksum.toNat + (2 ^ 16 - 1) = q.header.checksum.toNat + 0x800 ∧
      (reply q).header.checksum.toNat ≠ 0) := by
  have hc := q.header.checksum.isLt
  unfold reply
  dsimp only
  rw [BitVec.toNat_add, BitVec.toNat_add, show (0x800 : BitVec 16).toNat = 0x800 from rfl]
  split_ifs with h
  · have hle : 0xf800 ≤ q.header.checksum.toNat := h
    rw [show (1 : BitVec 16).toNat = 1 from rfl]
    omega
  · have hlt : ¬ 0xf800 ≤ q.header.checksum.toNat := h
    rw [show (0 : BitVec 16).toNat = 0 from rfl]
    omega

/-- The reply to an echo request with a valid checksum has a valid checksum. -/
theorem ChecksumValid.reply {q : UserParams} {payload : List (BitVec 8)} (hq : q.header.msgtype = echoRequest)
    (h : ChecksumValid q.header payload) : ChecksumValid (reply q).header payload := by
  unfold ChecksumValid at *
  have htype : q.header.msgtype.toNat * 2 ^ 8 = 0x800 := by
    rw [hq]
    decide
  have htype' : (Icmp.reply q).header.msgtype.toNat = 0 := rfl
  have hcode : (Icmp.reply q).header.code = q.header.code := rfl
  have hquench : (Icmp.reply q).header.bytes.drop 4 = q.header.bytes.drop 4 := rfl
  rw [show 0xffff = 2 ^ 16 - 1 by decide, OnesComplement.sum_eq_all_ones_iff (by decide) (OnesComplement.words_lt _),
    words_sum] at h ⊢
  rw [htype', hcode, hquench, Nat.zero_mul, Nat.zero_add]
  rw [htype] at h
  -- what the words of the reply sum up to is the same, or less by the modulus
  rcases toNat_reply q with hr | ⟨hr, hr0⟩
  · rw [hr, Nat.add_comm _ 0x800]
    exact h
  · refine ⟨Nat.ModEq.add_right_cancel' (2 ^ 16 - 1) (?_ : _ ≡ _ [MOD 2 ^ 16 - 1]), by omega⟩
    have hsum : (Icmp.reply q).header.checksum.toNat + (q.header.code.toNat +
        (OnesComplement.words (q.header.bytes.drop 4)).sum + (OnesComplement.words payload).sum) + (2 ^ 16 - 1) =
        0x800 + q.header.checksum.toNat + (q.header.code.toNat +
        (OnesComplement.words (q.header.bytes.drop 4)).sum + (OnesComplement.words payload).sum) := by omega
    rw [hsum]
    exact h.1.trans ((Nat.modEq_zero_iff_dvd).2 (by rw [Nat.zero_add])).symm

/-- What the echo gives are the replies to what it has taken, in order. -/
theorem echo_given (F : PacketFIFO (UserParams × Beat dw) UserParams.last)
    (is : List (Stage.In ε (UserParams × Beat dw))) :
    (icmpecho F).given is ++ (F.contents ((icmpecho (ε := ε) F).machine.run is).state).map (fun a => (reply a.1, a.2)) =
      ((icmpecho F).taken is).map fun a => (reply a.1, a.2) := by
  induction is using List.reverseRecOn with
  | nil => exact congrArg (List.map _) F.contents_reset
  | append_singleton is i ih =>
    rw [Stage.given_concat, Stage.taken_concat, Stage.run_concat, List.map_append, ← ih, List.append_assoc,
      List.append_assoc]
    congr 1
    generalize (icmpecho (ε := ε) F).machine.run is = s
    have hgives : (s.gives i).toList = (F.popped s.state i.ready).toList.map fun a => (reply a.1, a.2) := by
      show (if i.ready then (F.source s.state).map _ else none).toList = _
      unfold PacketFIFO.popped
      split_ifs
      · exact Option.toList_map
      · rfl
    rw [hgives, ← List.map_append, ← List.map_append]
    exact congrArg (List.map _) (F.popped_append_contents s.state (s.offered i) i.ready)

/-- Each message the echo sends is the reply to one it has received. If that is an echo request with a valid checksum,
the reply has a valid checksum, whatever bytes the beats of the payload carry. -/
theorem echo_checksum (F : PacketFIFO (UserParams × Beat dw) UserParams.last)
    (bytes : List (Beat dw) → List (BitVec 8)) (is : List (Stage.In ε (UserParams × Beat dw))) :
    ∀ f ∈ (frames UserParams.last ((icmpecho F).given is)).1,
      ∃ g ∈ (frames UserParams.last ((icmpecho F).taken is)).1, f = g.map (fun a => (reply a.1, a.2)) ∧
        ∀ a ∈ g, a.1.header.msgtype = echoRequest →
          (reply a.1).header = ⟨0, a.1.header.code,
            a.1.header.checksum + 0x800 + if 0xf800 ≤ a.1.header.checksum then 1 else 0, a.1.header.quench⟩ ∧
          (ChecksumValid a.1.header (bytes (g.map (·.2))) → ChecksumValid (reply a.1).header (bytes (f.map (·.2)))) := by
  intro f hf
  have hbegin := frames_append UserParams.last ((icmpecho F).given is)
    ((F.contents ((icmpecho (ε := ε) F).machine.run is).state).map fun a => (reply a.1, a.2))
  rw [echo_given, frames_map UserParams.last (g := fun a => (reply a.1, a.2)) fun _ => rfl] at hbegin
  obtain ⟨g, hg, rfl⟩ := List.mem_map.1 (hbegin.subset hf)
  refine ⟨g, hg, rfl, fun a _ hrequest => ⟨rfl, fun h => ?_⟩⟩
  rw [List.map_map]
  exact h.reply hrequest

/-- An echo request whose checksum carries, of two bytes. -/
def carrying : List (UserParams × Beat 8) :=
  [(⟨⟨echoRequest, 0, 0xf800, 0⟩, 0xc0a80164, 10⟩, .ofWord 0xff),
    (⟨⟨echoRequest, 0, 0xf800, 0⟩, 0xc0a80164, 10⟩, { Beat.ofWord 0xfe with last := true })]

/-- It is offered, to a ready consumer. -/
def offersCarrying : List (Stage.In Unit (UserParams × Beat 8)) :=
  carrying.map (fun a => ⟨(), some a, true⟩) ++ List.replicate 2 ⟨(), none, true⟩

theorem echo_checksum_carrying : ∃ g ∈ (frames UserParams.last ((icmpecho (.queue _ 16 1)).taken offersCarrying)).1,
    carrying.map (fun a => (reply a.1, a.2)) = g.map (fun a => (reply a.1, a.2)) ∧
      ∀ a ∈ g, a.1.header.msgtype = echoRequest →
        (reply a.1).header = ⟨0, a.1.header.code,
          a.1.header.checksum + 0x800 + if 0xf800 ≤ a.1.header.checksum then 1 else 0, a.1.header.quench⟩ ∧
        (ChecksumValid a.1.header ((g.map (·.2)).map (·.data)) → ChecksumValid (reply a.1).header
          (((carrying.map fun a => (reply a.1, a.2)).map (·.2)).map (·.data))) :=
  echo_checksum (.queue _ 16 1) (List.map (·.data)) offersCarrying _ (by decide)

end LiteEth.Core.Icmp
