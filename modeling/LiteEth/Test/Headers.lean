/-
The header layouts of `common.py`, and the `encode` and `decode` of the packets of the test model, which are the same
code for each of the five.
-/
import LiteEth.Common
import LiteEth.Rtl.Bytes
import Mathlib.Tactic

namespace LiteEth.Test

open LiteEth.Rtl

/-- `HeaderField`. -/
structure HeaderField where
  byte : ℕ
  offset : ℕ
  width : ℕ
  deriving DecidableEq

/-- A header of `params`: its fields with their places, and its length. -/
structure Header where
  fields : List (String × HeaderField)
  length : ℕ

/-! ## The layouts -/

/-- The header of Ethernet. -/
def macHeader : Header where
  fields := [
    ("target_mac", ⟨0, 0, 48⟩),
    ("sender_mac", ⟨6, 0, 48⟩),
    ("ethernet_type", ⟨12, 0, 16⟩)]
  length := 14

/-- The header of ARP. -/
def arpHeader : Header where
  fields := [
    ("hwtype", ⟨0, 0, 16⟩),
    ("proto", ⟨2, 0, 16⟩),
    ("hwsize", ⟨4, 0, 8⟩),
    ("protosize", ⟨5, 0, 8⟩),
    ("opcode", ⟨6, 0, 16⟩),
    ("sender_mac", ⟨8, 0, 48⟩),
    ("sender_ip", ⟨14, 0, 32⟩),
    ("target_mac", ⟨18, 0, 48⟩),
    ("target_ip", ⟨24, 0, 32⟩)]
  length := 28

/-- The header of IPv4. -/
def ipv4Header : Header where
  fields := [
    ("ihl", ⟨0, 0, 4⟩),
    ("version", ⟨0, 4, 4⟩),
    ("total_length", ⟨2, 0, 16⟩),
    ("identification", ⟨4, 0, 16⟩),
    ("ttl", ⟨8, 0, 8⟩),
    ("protocol", ⟨9, 0, 8⟩),
    ("checksum", ⟨10, 0, 16⟩),
    ("sender_ip", ⟨12, 0, 32⟩),
    ("target_ip", ⟨16, 0, 32⟩)]
  length := 20

/-- The header of ICMP. -/
def icmpHeader : Header where
  fields := [
    ("msgtype", ⟨0, 0, 8⟩),
    ("code", ⟨1, 0, 8⟩),
    ("checksum", ⟨2, 0, 16⟩),
    ("quench", ⟨4, 0, 32⟩)]
  length := 8

/-- The header of UDP. -/
def udpHeader : Header where
  fields := [
    ("src_port", ⟨0, 0, 16⟩),
    ("dst_port", ⟨2, 0, 16⟩),
    ("length", ⟨4, 0, 16⟩),
    ("checksum", ⟨6, 0, 16⟩)]
  length := 8

/-! ## Encoding and decoding -/

/-- The exceptions of an encoding. -/
inductive CodecError
  | attributeError (name : String)
  | overflowError
  deriving DecidableEq

/-- `split_bytes(v, n)`, the highest byte first. -/
def splitBytes (v n : ℕ) : Except CodecError (List (BitVec 8)) :=
  if v < 256 ^ n then .ok (littleBytes v n).reverse else .error .overflowError

/-- `merge_bytes(b, endianness)`. -/
def mergeBytes (b : List (BitVec 8)) : Endianness → ℕ
  | .big => ofLittle b.reverse
  | .little => ofLittle b

namespace HeaderField

variable (f : HeaderField)

/-- `math.ceil(width/8)`. -/
def size : ℕ := (f.width + 7) / 8

end HeaderField

/-- `get_field_data`. -/
def getFieldData (f : HeaderField) (datas : List (BitVec 8)) : ℕ :=
  (mergeBytes ((datas.drop f.byte).take f.size) .big >>> f.offset) &&& (2 ^ f.width - 1)

/-- A packet: its bytes, and the attributes it was given. -/
structure Packet where
  bytes : List (BitVec 8)
  attrs : String → Option ℕ

/-- The loop of `encode`. -/
def encodeFields (attrs : String → Option ℕ) : List (String × HeaderField) → ℕ → Except CodecError ℕ
  | [], header => .ok header
  | (k, f) :: fields, header => do
    let data ← match attrs k with
      | some data => .ok data
      | none => .error (.attributeError k)
    let value := mergeBytes (← splitBytes data f.size) .little
    encodeFields attrs fields (header + value <<< (f.offset + f.byte * 8))

/-- The loop of `decode`. -/
def decodeFields (header : List (BitVec 8)) (attrs : String → Option ℕ) (fields : List (String × HeaderField)) :
    String → Option ℕ :=
  fields.foldl (fun attrs kf => Function.update attrs kf.1 (some (getFieldData kf.2 header))) attrs

namespace Header

variable (h : Header)

/-- `sorted(fields.items())`. -/
def sorted : List (String × HeaderField) := h.fields.mergeSort fun a b => a.1 ≤ b.1

/-- `Packet.encode`: the fields become bytes in front of the payload. -/
def encode (p : Packet) : Except CodecError Packet := do
  let header ← encodeFields p.attrs h.sorted 0
  let datas ← splitBytes header h.length
  .ok { p with bytes := datas.foldl (fun bytes d => d :: bytes) p.bytes }

/-- `Packet.decode`: the first bytes become fields. -/
def decode (p : Packet) : Packet where
  bytes := p.bytes.drop h.length
  attrs := decodeFields (p.bytes.take h.length) p.attrs h.sorted

end Header

/-! ## Layouts that can be decoded -/

namespace HeaderField

variable (f : HeaderField)

/-- The first bit of a field in the header. -/
def start : ℕ := f.offset + f.byte * 8

/-- The bits it takes there, whole bytes if it has more than one. -/
def len : ℕ := if f.size = 1 then f.width else 8 * f.size

/-- The field with a value. -/
def placed (v : ℕ) : Placed where
  start := f.start
  len := f.len
  number := ofLittle (littleBytes v f.size).reverse

end HeaderField

/-- A field of several bytes starts at a whole byte, fields are inside the header, and no two share a bit. -/
structure Header.WellFormed (h : Header) : Prop where
  nodup : (h.fields.map Prod.fst).Nodup
  nonempty : ∀ kf ∈ h.fields, 0 < kf.2.width
  aligned : ∀ kf ∈ h.fields, kf.2.offset = 0 ∨ kf.2.offset + kf.2.width ≤ 8
  inside : ∀ kf ∈ h.fields, kf.2.byte + kf.2.size ≤ h.length
  apart : h.fields.Pairwise fun a b => a.2.start + a.2.len ≤ b.2.start ∨ b.2.start + b.2.len ≤ a.2.start

theorem macHeader_wellFormed : macHeader.WellFormed := by
  constructor <;> decide

theorem arpHeader_wellFormed : arpHeader.WellFormed := by
  constructor <;> decide

theorem ipv4Header_wellFormed : ipv4Header.WellFormed := by
  constructor <;> decide

theorem icmpHeader_wellFormed : icmpHeader.WellFormed := by
  constructor <;> decide

theorem udpHeader_wellFormed : udpHeader.WellFormed := by
  constructor <;> decide

/-! ## One field -/

namespace HeaderField

variable (f : HeaderField)

theorem lt_256_pow {v : ℕ} (fits : v < 2 ^ f.width) : v < 256 ^ f.size := by
  have whole : f.width ≤ 8 * f.size := by unfold size; omega
  calc v < 2 ^ f.width := fits
    _ ≤ 2 ^ (8 * f.size) := Nat.pow_le_pow_right (by decide) whole
    _ = 256 ^ f.size := Nat.pow_mul 2 8 f.size

theorem placed_lt {v : ℕ} (fits : v < 2 ^ f.width) : (f.placed v).number < 2 ^ (f.placed v).len := by
  refine Nat.lt_pow_two_of_testBit _ fun k hk => ?_
  have hk : f.len ≤ k := hk
  rw [placed, testBit_swapped]
  by_cases inside : k < 8 * f.size
  · -- only a field of one byte ends before the byte does
    have one : f.size = 1 := by
      by_contra several
      rw [len, if_neg several] at hk
      omega
    rw [len, if_pos one] at hk
    rw [one] at inside ⊢
    have bit : 8 * (1 - 1 - k / 8) + k % 8 = k := by omega
    rw [bit, Nat.testBit_lt_two_pow (lt_of_lt_of_le fits (Nat.pow_le_pow_right (by decide) hk)), Bool.and_false]
  · rw [decide_eq_false inside, Bool.false_and]

/-- A slice of the bytes of a number. -/
theorem slice_littleBytes {H L b n : ℕ} (inside : b + n ≤ L) :
    ((littleBytes H L).drop b).take n = littleBytes (H >>> (8 * b)) n := by
  refine List.ext_getElem ?_ fun i hi hi' => ?_
  · simp only [List.length_take, List.length_drop, length_littleBytes]
    omega
  · simp only [List.getElem_take, List.getElem_drop, littleBytes, List.getElem_map, List.getElem_range]
    rw [← Nat.shiftRight_add, Nat.mul_add]

/-- The bits that `get_field_data` reads. -/
theorem testBit_getFieldData {H L : ℕ} (inside : f.byte + f.size ≤ L) (j : ℕ) :
    (getFieldData f (littleBytes H L)).testBit j =
      (decide (j < f.width) && (decide (f.offset + j < 8 * f.size) &&
        H.testBit (8 * f.byte + (8 * (f.size - 1 - (f.offset + j) / 8) + (f.offset + j) % 8)))) := by
  rw [getFieldData, Nat.testBit_and, Nat.testBit_two_pow_sub_one, Nat.testBit_shiftRight, slice_littleBytes inside,
    mergeBytes, testBit_swapped, Nat.testBit_shiftRight, Bool.and_comm]

/-- A field ends inside its bytes. -/
theorem last_le {L : ℕ} (nonempty : 0 < f.width) (aligned : f.offset = 0 ∨ f.offset + f.width ≤ 8)
    (inside : f.byte + f.size ≤ L) : f.start + f.len ≤ 8 * L := by
  unfold start len
  unfold size at inside ⊢
  split_ifs with one
  · omega
  · omega

/-- A number that has the field where it belongs. -/
def Holds (v H : ℕ) : Prop := ∀ k < f.len, H.testBit (f.start + k) = (f.placed v).number.testBit k

/-- The field is read back. -/
theorem getFieldData_eq {v H L : ℕ} (fits : v < 2 ^ f.width) (aligned : f.offset = 0 ∨ f.offset + f.width ≤ 8)
    (inside : f.byte + f.size ≤ L) (holds : f.Holds v H) : getFieldData f (littleBytes H L) = v := by
  refine Nat.eq_of_testBit_eq fun j => ?_
  rw [f.testBit_getFieldData inside]
  by_cases low : j < f.width
  · have whole : f.width ≤ 8 * f.size := by unfold size; omega
    -- the bit of the header, counted from the first one of the field
    obtain ⟨k, hk, within, near, position, back⟩ : ∃ k < f.len, k < 8 * f.size ∧ f.offset + j < 8 * f.size ∧
        8 * f.byte + (8 * (f.size - 1 - (f.offset + j) / 8) + (f.offset + j) % 8) = f.start + k ∧
        8 * (f.size - 1 - k / 8) + k % 8 = j := by
      unfold len start
      by_cases one : f.size = 1
      · -- in one byte the bits keep their order
        rw [if_pos one, one]
        refine ⟨j, low, ?_⟩
        omega
      · have zero : f.offset = 0 := by unfold size at one; omega
        rw [if_neg one, zero]
        refine ⟨8 * (f.size - 1 - j / 8) + j % 8, ?_⟩
        omega
    rw [decide_eq_true low, decide_eq_true near, Bool.true_and, Bool.true_and, position, holds k hk, placed,
      testBit_swapped, decide_eq_true within, Bool.true_and, back]
  · rw [decide_eq_false low, Bool.false_and]
    exact (Nat.testBit_lt_two_pow (lt_of_lt_of_le fits (Nat.pow_le_pow_right (by decide) (Nat.le_of_not_lt low)))).symm

end HeaderField

/-! ## A header -/

theorem encodeFields_ok {attrs : String → Option ℕ} {fields : List (String × HeaderField)} {value : String → ℕ}
    (given : ∀ kf ∈ fields, attrs kf.1 = some (value kf.1) ∧ value kf.1 < 2 ^ kf.2.width) (header : ℕ) :
    encodeFields attrs fields header =
      .ok (header + ((fields.map fun kf => kf.2.placed (value kf.1)).map Placed.term).sum) := by
  induction fields generalizing header with
  | nil => rfl
  | cons kf fields ih =>
    obtain ⟨k, f⟩ := kf
    obtain ⟨attr, fits⟩ := given (k, f) List.mem_cons_self
    have given := fun kf hkf => given kf (List.mem_cons_of_mem _ hkf)
    have split : splitBytes (value k) f.size = .ok (littleBytes (value k) f.size).reverse :=
      if_pos (f.lt_256_pow fits)
    simp only [encodeFields, attr, split, Except.bind, bind, ih given, List.map_cons, List.sum_cons, Nat.add_assoc]
    rfl

theorem decodeFields_of_not_mem (header : List (BitVec 8)) (attrs : String → Option ℕ)
    {fields : List (String × HeaderField)} {k : String} (absent : k ∉ fields.map Prod.fst) :
    decodeFields header attrs fields k = attrs k := by
  induction fields generalizing attrs with
  | nil => rfl
  | cons kf fields ih =>
    rw [List.map_cons, List.mem_cons, not_or] at absent
    exact (ih (Function.update attrs kf.1 _) absent.2).trans (Function.update_of_ne absent.1 _ _)

theorem decodeFields_of_mem (header : List (BitVec 8)) (attrs : String → Option ℕ)
    {fields : List (String × HeaderField)} (nodup : (fields.map Prod.fst).Nodup) {kf : String × HeaderField}
    (member : kf ∈ fields) : decodeFields header attrs fields kf.1 = some (getFieldData kf.2 header) := by
  induction fields generalizing attrs with
  | nil => cases member
  | cons gf fields ih =>
    obtain ⟨fresh, nodup⟩ := List.nodup_cons.1 nodup
    cases member with
    | head =>
      have last := decodeFields_of_not_mem header (Function.update attrs kf.1 (some (getFieldData kf.2 header))) fresh
      exact last.trans (Function.update_self _ _ _)
    | tail _ member => exact ih (Function.update attrs gf.1 _) nodup member

namespace Header

/-- Whatever is encoded is decoded. -/
def RoundTrips (h : Header) : Prop :=
  ∀ (payload : List (BitVec 8)) (attrs : String → Option ℕ),
    (∀ kf ∈ h.fields, ∃ v, attrs kf.1 = some v ∧ v < 2 ^ kf.2.width) →
    ∃ encoded, h.encode ⟨payload, attrs⟩ = .ok encoded ∧ encoded.attrs = attrs ∧
      encoded.bytes.length = h.length + payload.length ∧
      -- the packet itself, or another one made of its bytes
      ∀ attrs', (h.decode ⟨encoded.bytes, attrs'⟩).bytes = payload ∧
        (∀ kf ∈ h.fields, (h.decode ⟨encoded.bytes, attrs'⟩).attrs kf.1 = attrs kf.1) ∧
        ∀ k ∉ h.fields.map Prod.fst, (h.decode ⟨encoded.bytes, attrs'⟩).attrs k = attrs' k

variable {h : Header}

theorem sorted_perm (h : Header) : h.sorted.Perm h.fields := List.mergeSort_perm _ _

/-- The fields of a well-formed layout stand apart, in any order. -/
theorem WellFormed.placed_apart (wf : h.WellFormed) {value : String → ℕ}
    (fits : ∀ kf ∈ h.fields, value kf.1 < 2 ^ kf.2.width) :
    Placed.Apart (h.sorted.map fun kf => kf.2.placed (value kf.1)) := by
  constructor
  · rintro p hp
    obtain ⟨kf, hkf, rfl⟩ := List.mem_map.1 hp
    exact kf.2.placed_lt (fits kf (h.sorted_perm.mem_iff.1 hkf))
  · have apart : (h.fields.map fun kf => kf.2.placed (value kf.1)).Pairwise Placed.Disjoint := by
      refine List.pairwise_map.2 (wf.apart.imp fun {a b} apart k ha hb => ?_)
      obtain ⟨lower, upper⟩ := ha
      obtain ⟨lower', upper'⟩ := hb
      simp only [HeaderField.placed] at lower upper lower' upper'
      omega
    exact (h.sorted_perm.map _).pairwise_iff (fun apart => symm apart) |>.2 apart

/-- The sum fits the header. -/
theorem WellFormed.sum_lt (wf : h.WellFormed) {value : String → ℕ}
    (apart : Placed.Apart (h.sorted.map fun kf => kf.2.placed (value kf.1))) :
    ((h.sorted.map fun kf => kf.2.placed (value kf.1)).map Placed.term).sum < 256 ^ h.length := by
  rw [show 256 ^ h.length = 2 ^ (8 * h.length) from (Nat.pow_mul 2 8 h.length).symm]
  refine Nat.lt_pow_two_of_testBit _ fun k hk => Placed.testBit_sum_eq_false apart fun p hp => ?_
  obtain ⟨kf, hkf, rfl⟩ := List.mem_map.1 hp
  have member := h.sorted_perm.mem_iff.1 hkf
  have last := kf.2.last_le (wf.nonempty kf member) (wf.aligned kf member) (wf.inside kf member)
  rintro ⟨-, below⟩
  exact absurd (lt_of_lt_of_le below last) (Nat.not_lt.2 hk)

/-- The encoded header, and the number it holds. -/
theorem WellFormed.encode_ok (wf : h.WellFormed) (payload : List (BitVec 8)) {attrs : String → Option ℕ}
    (value : String → ℕ) (given : ∀ kf ∈ h.fields, attrs kf.1 = some (value kf.1) ∧ value kf.1 < 2 ^ kf.2.width) :
    ∃ H, h.encode ⟨payload, attrs⟩ = .ok ⟨littleBytes H h.length ++ payload, attrs⟩ ∧
      ∀ kf ∈ h.fields, kf.2.Holds (value kf.1) H := by
  have apart := wf.placed_apart fun kf hkf => (given kf hkf).2
  refine ⟨((h.sorted.map fun kf => kf.2.placed (value kf.1)).map Placed.term).sum, ?_, ?_⟩
  · have given : ∀ kf ∈ h.sorted, attrs kf.1 = some (value kf.1) ∧ value kf.1 < 2 ^ kf.2.width :=
      fun kf hkf => given kf (h.sorted_perm.mem_iff.1 hkf)
    rw [encode, encodeFields_ok given, Nat.zero_add]
    simp only [bind, Except.bind, splitBytes, if_pos (wf.sum_lt apart), List.foldl_flip_cons_eq_append, List.map_id',
      List.reverse_reverse]
  · intro kf hkf k hk
    exact Placed.testBit_sum apart (List.mem_map_of_mem (h.sorted_perm.mem_iff.2 hkf)) hk

theorem decode_littleBytes (H : ℕ) (payload : List (BitVec 8)) (attrs : String → Option ℕ) :
    h.decode ⟨littleBytes H h.length ++ payload, attrs⟩ =
      ⟨payload, decodeFields (littleBytes H h.length) attrs h.sorted⟩ := by
  have length : h.length = (littleBytes H h.length).length := (length_littleBytes H h.length).symm
  rw [decode]
  congr 1
  · exact List.drop_left' length.symm
  · exact congrArg (fun bytes => decodeFields bytes attrs h.sorted) (List.take_left' length.symm)

theorem WellFormed.roundTrips (wf : h.WellFormed) : h.RoundTrips := by
  intro payload attrs given
  have given : ∀ kf ∈ h.fields, attrs kf.1 = some ((attrs kf.1).getD 0) ∧ (attrs kf.1).getD 0 < 2 ^ kf.2.width := by
    intro kf hkf
    obtain ⟨v, attr, fits⟩ := given kf hkf
    rw [attr]
    exact ⟨rfl, fits⟩
  obtain ⟨H, encoded, holds⟩ := wf.encode_ok payload (fun k => (attrs k).getD 0) given
  refine ⟨_, encoded, rfl, by rw [List.length_append, length_littleBytes], fun attrs' => ?_⟩
  rw [decode_littleBytes]
  refine ⟨rfl, ?_, ?_⟩
  · intro kf hkf
    have member := h.sorted_perm.mem_iff.2 hkf
    have nodup : (h.sorted.map Prod.fst).Nodup := (h.sorted_perm.map Prod.fst).nodup_iff.2 wf.nodup
    obtain ⟨attr, fits⟩ := given kf hkf
    have read := kf.2.getFieldData_eq fits (wf.aligned kf hkf) (wf.inside kf hkf) (holds kf hkf)
    rw [attr]
    exact (decodeFields_of_mem _ _ nodup member).trans (congrArg some read)
  · intro k absent
    exact decodeFields_of_not_mem _ _ fun present => absent ((h.sorted_perm.map Prod.fst).mem_iff.1 present)

/-- The five layouts. -/
theorem headers_round_trip : macHeader.RoundTrips ∧ arpHeader.RoundTrips ∧ ipv4Header.RoundTrips ∧
    icmpHeader.RoundTrips ∧ udpHeader.RoundTrips := by
  refine ⟨?_, ?_, ?_, ?_, ?_⟩
  · exact macHeader_wellFormed.roundTrips
  · exact arpHeader_wellFormed.roundTrips
  · exact ipv4Header_wellFormed.roundTrips
  · exact icmpHeader_wellFormed.roundTrips
  · exact udpHeader_wellFormed.roundTrips

end Header

end LiteEth.Test
