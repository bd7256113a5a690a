/-
Packetizers whose headers are not a whole number of words. The bytes of a header and of the packet after it are sent
without a gap: from the header's last word on, each word is completed with bytes of the next beat, and what is left of
the last beat is sent after it.
-/
import LiteEth.Rtl.Bytes
import LiteEth.Rtl.Packet
import LiteEth.Rtl.Stream
import Mathlib.Tactic

namespace LiteEth.Rtl

/-! ## Beats as bytes -/

namespace Beat

variable {dw : ℕ} (b : Beat dw)

/-- The bytes of a beat: all of them, in the last one those up to the byte that is marked. -/
def count : ℕ := if b.last then b.lastBe.toNat.log2 + 1 else dw / 8

/-- The bytes of a beat that count, the lowest first. -/
def bytes : List (BitVec 8) := (List.range b.count).map fun k => b.data.extractLsb' (8 * k) 8

/-- What a beat carries. -/
def content : List (BitVec 8) × Bool := (b.bytes, b.last)

/-- A last beat has the mark of one byte. -/
def Marked : Prop := b.last = true → ∃ m, m < dw / 8 ∧ b.lastBe.toNat = 2 ^ m

theorem length_bytes : b.bytes.length = b.count := by simp [bytes]

/-- A beat that carries some bytes. -/
def ofContent (dw : ℕ) (c : List (BitVec 8) × Bool) : Beat dw where
  data := BitVec.ofNat dw (ofLittle c.1)
  lastBe := if c.2 then BitVec.ofNat _ (2 ^ (c.1.length - 1)) else 0
  error := 0
  last := c.2

/-- As many bytes as a beat can carry. -/
def Fits (dw : ℕ) (c : List (BitVec 8) × Bool) : Prop :=
  if c.2 then 0 < c.1.length ∧ c.1.length ≤ dw / 8 else c.1.length = dw / 8

theorem count_ofContent {c : List (BitVec 8) × Bool} (fits : Fits dw c) : (ofContent dw c).count = c.1.length := by
  obtain ⟨bs, last⟩ := c
  cases last with
  | false => exact Eq.symm fits
  | true =>
    obtain ⟨pos, le⟩ : 0 < bs.length ∧ bs.length ≤ dw / 8 := fits
    show (BitVec.ofNat (dw / 8) (2 ^ (bs.length - 1))).toNat.log2 + 1 = bs.length
    rw [BitVec.toNat_ofNat, Nat.mod_eq_of_lt (Nat.pow_lt_pow_right (by decide) (by omega)), Nat.log2_two_pow]
    omega

theorem content_ofContent {c : List (BitVec 8) × Bool} (fits : Fits dw c) : (ofContent dw c).content = c := by
  have le : c.1.length ≤ dw / 8 := by
    unfold Fits at fits
    split at fits
    · exact fits.2
    · exact fits.le
  refine Prod.ext ?_ rfl
  refine List.ext_getElem ((length_bytes _).trans (count_ofContent fits)) fun k hk hk' => ?_
  rw [content] at hk
  simp only [content, bytes, List.getElem_map, List.getElem_range]
  refine BitVec.eq_of_getLsbD_eq fun j hj => ?_
  have inside : 8 * k + j < dw := by omega
  have byte : (8 * k + j) / 8 = k := by omega
  have bit : (8 * k + j) % 8 = j := by omega
  rw [BitVec.getLsbD_extractLsb', decide_eq_true hj, Bool.true_and, ofContent, BitVec.getLsbD_ofNat,
    decide_eq_true inside, Bool.true_and, testBit_ofLittle, byte, bit, List.getD_eq_getElem _ _ hk']

theorem Marked.fits {b : Beat dw} (marked : b.Marked) : Fits dw b.content := by
  unfold Fits
  rw [content, length_bytes, count]
  cases last : b.last with
  | false => rfl
  | true =>
    obtain ⟨m, lt, mark⟩ := marked last
    rw [mark, Nat.log2_two_pow]
    exact ⟨Nat.succ_pos m, lt⟩

end Beat

/-! ## The bytes that are still to be sent -/

/-- The bytes of a packet that have been taken and not been sent, and whether they are the last ones. -/
structure Pending where
  bytes : List (BitVec 8)
  closing : Bool

namespace Pending

variable (b : ℕ) (header : List (BitVec 8))

/-- What a packetizer offers with some content at its sink. -/
def offers (q : Option Pending) (x : Option (List (BitVec 8) × Bool)) : Option (List (BitVec 8) × Bool) :=
  match q with
  | none => x.map fun _ => (header.take b, false)
  | some q =>
    if q.closing then
      some (q.bytes, true)
    else if b ≤ q.bytes.length then
      some (q.bytes.take b, false)
    else
      x.map fun y => ((q.bytes ++ y.1).take b, y.2 && decide ((q.bytes ++ y.1).length ≤ b))

/-- What is pending once that has been sent. -/
def after (q : Option Pending) (x : Option (List (BitVec 8) × Bool)) : Option Pending :=
  match q with
  | none => some ⟨header.drop b, false⟩
  | some q =>
    let y := x.getD ([], false)
    if q.closing then
      none
    else if b ≤ q.bytes.length then
      some ⟨q.bytes.drop b, false⟩
    else if y.2 && decide ((q.bytes ++ y.1).length ≤ b) then
      none
    else
      some ⟨(q.bytes ++ y.1).drop b, y.2⟩

/-- The last bytes are fewer than a word has, or as many. -/
def Closes (q : Option Pending) : Prop := ∀ p ∈ q, p.closing = true → 0 < p.bytes.length ∧ p.bytes.length ≤ b

section Fits

variable {b header} {dw : ℕ} (width : b = dw / 8) (pos : 0 < b) {q : Option Pending}
  {x : Option (List (BitVec 8) × Bool)} (fits : ∀ y ∈ x, Beat.Fits dw y)

include width pos fits

/-- What is offered fits a beat. -/
theorem fits_offers (le : b ≤ header.length) (closes : Closes b q) {c : List (BitVec 8) × Bool}
    (offered : offers b header q x = some c) : Beat.Fits dw c := by
  subst width
  -- before the packet the header has a whole beat
  obtain _ | ⟨bs, closing⟩ := q
  · obtain ⟨y, -, rfl⟩ := Option.map_eq_some_iff.1 offered
    exact List.length_take_of_le le
  · -- while the packet closes what is left fits by the invariant
    cases closing with
    | true =>
      cases offered
      exact closes _ rfl rfl
    | false =>
      -- in the middle a beat is full from what is kept, or with what is offered
      simp only [offers, Bool.false_eq_true, if_false] at offered
      split_ifs at offered with whole
      · cases offered
        exact List.length_take_of_le whole
      · obtain ⟨y, rfl, rfl⟩ := Option.map_eq_some_iff.1 offered
        obtain ⟨ys, last⟩ := y
        have fits := fits _ rfl
        cases last with
        | false =>
          have whole : ys.length = dw / 8 := fits
          show ((bs ++ ys).take (dw / 8)).length = dw / 8
          rw [List.length_take, List.length_append]
          omega
        | true =>
          obtain ⟨some, most⟩ : 0 < ys.length ∧ ys.length ≤ dw / 8 := fits
          unfold Beat.Fits
          simp only [Bool.true_and, List.length_take, List.length_append, decide_eq_true_eq]
          split_ifs
          · omega
          · omega

omit pos in
theorem closes_after : Closes b (after b header q x) := by
  subst width
  rintro p hp closing
  obtain _ | ⟨bs, closed⟩ := q
  · cases hp
    cases closing
  · simp only [after] at hp
    split_ifs at hp with done whole ends
    · cases hp
    · cases hp
      cases closing
    · cases hp
    · cases hp
      obtain _ | ⟨ys, last⟩ := x
      · cases closing
      · obtain rfl : last = true := closing
        obtain ⟨some, most⟩ : 0 < ys.length ∧ ys.length ≤ dw / 8 := fits _ rfl
        simp only [Option.getD_some, Bool.true_and, decide_eq_true_eq, List.length_append] at ends
        simp only [Option.getD_some, List.length_drop, List.length_append]
        omega

end Fits

/-- A packet ends with the beat that is marked as the last. -/
theorem isNone_after {q : Option Pending} {x : Option (List (BitVec 8) × Bool)} {c : List (BitVec 8) × Bool}
    (offered : offers b header q x = some c) : (after b header q x).isNone = c.2 := by
  obtain _ | ⟨bs, closing⟩ := q
  · obtain ⟨y, -, rfl⟩ := Option.map_eq_some_iff.1 offered
    rfl
  · cases closing with
    | true =>
      cases offered
      rfl
    | false =>
      simp only [offers, after, Bool.false_eq_true, if_false] at offered ⊢
      split_ifs at offered ⊢ with whole ends
      · cases offered
        rfl
      · obtain ⟨y, rfl, rfl⟩ := Option.map_eq_some_iff.1 offered
        exact ends.symm
      · obtain ⟨y, rfl, rfl⟩ := Option.map_eq_some_iff.1 offered
        exact (Bool.eq_false_of_not_eq_true ends).symm

end Pending

/-! ## A list in chunks -/

/-- The `i`-th chunk of `b` bytes of a list, and whether it is the last one. -/
def chunk (b : ℕ) (l : List (BitVec 8)) (i : ℕ) : List (BitVec 8) × Bool :=
  ((l.drop (i * b)).take b, decide (l.length ≤ (i + 1) * b))

/-- The number of the chunks. -/
def chunkCount (b : ℕ) (l : List (BitVec 8)) : ℕ := (l.length + b - 1) / b

/-- A list in chunks. -/
def chunks (b : ℕ) (l : List (BitVec 8)) : List (List (BitVec 8) × Bool) :=
  (List.range (chunkCount b l)).map (chunk b l)

section Chunks

variable {b : ℕ} {l : List (BitVec 8)}

theorem lt_chunkCount (pos : 0 < b) {i : ℕ} : i < chunkCount b l ↔ i * b < l.length := by
  rw [chunkCount, ← Nat.succ_le_iff, Nat.le_div_iff_mul_le pos, Nat.succ_mul]
  omega

/-- The chunks so far are the bytes so far. -/
theorem flatMap_chunk (l : List (BitVec 8)) (n : ℕ) :
    ((List.range n).map (chunk b l)).flatMap Prod.fst = l.take (n * b) := by
  induction n with
  | zero => simp
  | succ n ih =>
    rw [List.range_succ, List.map_append, List.flatMap_append, ih, List.map_singleton, List.flatMap_singleton, chunk,
      Nat.succ_mul, List.take_add]

theorem flatMap_chunks (pos : 0 < b) (l : List (BitVec 8)) : (chunks b l).flatMap Prod.fst = l := by
  have all : l.length ≤ chunkCount b l * b := Nat.not_lt.1 fun lt => lt_irrefl _ ((lt_chunkCount pos).2 lt)
  rw [chunks, flatMap_chunk, List.take_of_length_le all]

/-- The chunks of some bytes are a frame. -/
theorem isFrame_chunks (pos : 0 < b) (nonempty : 0 < l.length) : IsFrame Prod.snd (chunks b l) := by
  obtain ⟨n, count⟩ : ∃ n, chunkCount b l = n + 1 :=
    Nat.exists_eq_succ_of_ne_zero ((lt_chunkCount pos).2 (by omega)).ne'
  rw [chunks, count, List.range_succ, List.map_append, List.map_singleton]
  refine .mk _ _ (fun c hc => ?_) ?_
  · obtain ⟨i, hi, rfl⟩ := List.mem_map.1 hc
    have inner : i + 1 < chunkCount b l := by
      have := List.mem_range.1 hi
      omega
    exact decide_eq_false (Nat.not_le.2 ((lt_chunkCount pos).1 inner))
  · have ends : ¬ (n + 1) * b < l.length := mt (lt_chunkCount pos).2 (by omega)
    exact decide_eq_true (Nat.not_lt.1 ends)

end Chunks

theorem IsFrame.of_map {α β : Type} {last : α → Bool} {last' : β → Bool} {g : α → β}
    (hg : ∀ a, last' (g a) = last a) {f : List α} (h : IsFrame last' (f.map g)) : IsFrame last f := by
  generalize hf : f.map g = f' at h
  obtain ⟨m, l, inner, final⟩ := h
  obtain ⟨m', l', rfl, rfl, hl⟩ := List.map_eq_append_iff.1 hf
  obtain ⟨a, rfl, rfl⟩ := List.map_eq_singleton_iff.1 hl
  refine .mk m' a (fun b hb => ?_) ?_
  · exact (hg b).symm.trans (inner _ (List.mem_map_of_mem hb))
  · exact (hg a).symm.trans final

/-! ## A packet after its header -/

namespace Pending

variable (b : ℕ) (header ys : List (BitVec 8))

/-- The words of the header that are sent before a beat of the packet is taken. -/
def headerWords : ℕ := header.length / b

/-- What is pending after `i` beats: of the header and the packet, what has been taken and not been sent. -/
def rest : ℕ → Option Pending
  | 0 => none
  | i + 1 =>
    let k := i + 1 - headerWords b header
    some ⟨((header ++ ys).take (header.length + k * b)).drop ((i + 1) * b), decide (ys.length ≤ k * b)⟩

/-- The packet is offered beat by beat, each until it is taken; nothing is asked of what is offered before and after. -/
def Due (i : ℕ) (y : List (BitVec 8) × Bool) : Prop :=
  headerWords b header ≤ i → (i - headerWords b header) * b < ys.length → y = chunk b ys (i - headerWords b header)

variable {b header ys}

/-- Where the packet is after some beats. -/
theorem cases_rest (header : List (BitVec 8)) (pos : 0 < b) (n : ℕ) :
    (n < headerWords b header ∧ n - headerWords b header = 0 ∧ (n + 1) * b ≤ header.length) ∨
    (∃ k, n = headerWords b header + k ∧ n - headerWords b header = k ∧ n * b ≤ header.length + k * b ∧
      header.length + k * b < (n + 1) * b) := by
  have lower : headerWords b header * b ≤ header.length := Nat.div_mul_le_self _ _
  have upper : header.length < (headerWords b header + 1) * b := by
    rw [Nat.succ_mul]
    exact Nat.lt_div_mul_add pos
  by_cases inHeader : n < headerWords b header
  · refine .inl ⟨inHeader, by omega, le_trans (Nat.mul_le_mul_right b inHeader) lower⟩
  · obtain ⟨k, rfl⟩ := Nat.exists_eq_add_of_le (Nat.le_of_not_lt inHeader)
    refine .inr ⟨k, rfl, by omega, ?_, ?_⟩
    · rw [Nat.add_mul]
      omega
    · rw [Nat.add_mul, Nat.add_mul]
      rw [Nat.add_mul] at upper
      omega

/-- A beat of the packet completes what is pending. -/
theorem append_chunk {header : List (BitVec 8)} {N M : ℕ} (inside : N ≤ header.length + M * b) (more : M * b < ys.length) :
    ((header ++ ys).take (header.length + M * b)).drop N ++ (chunk b ys M).1 =
      ((header ++ ys).take (header.length + (M + 1) * b)).drop N := by
  have next : (chunk b ys M).1 = ((header ++ ys).drop (header.length + M * b)).take b := by
    rw [chunk, List.drop_append, List.drop_of_length_le (Nat.le_add_right _ _), List.nil_append, Nat.add_sub_cancel_left]
  have length : N ≤ ((header ++ ys).take (header.length + M * b)).length := by
    rw [List.length_take, List.length_append]
    omega
  rw [next, ← List.drop_append_of_le_length length, ← List.take_add, Nat.succ_mul, Nat.add_assoc]

theorem take_drop_take {l : List (BitVec 8)} {N M : ℕ} (le : N + b ≤ M) :
    ((l.take M).drop N).take b = (l.drop N).take b := by
  rw [List.drop_take, List.take_take, Nat.min_eq_left (by omega)]

/-- In the header. -/
theorem rest_header (nonempty : 0 < ys.length) {i : ℕ} (inHeader : i + 1 ≤ headerWords b header) :
    rest b header ys (i + 1) = some ⟨header.drop ((i + 1) * b), false⟩ := by
  have none_taken : i + 1 - headerWords b header = 0 := by omega
  simp only [rest, none_taken, Nat.zero_mul, Nat.add_zero, List.take_left', decide_eq_false (Nat.not_le.2 nonempty)]

/-- After the words of the header. -/
theorem rest_copy {i k : ℕ} (split : i + 1 = headerWords b header + k) :
    rest b header ys (i + 1) =
      some ⟨((header ++ ys).take (header.length + k * b)).drop ((i + 1) * b), decide (ys.length ≤ k * b)⟩ := by
  have taken : i + 1 - headerWords b header = k := by omega
  simp only [rest, taken]

theorem chunk_header {i : ℕ} (nonempty : 0 < ys.length) (whole : (i + 1) * b ≤ header.length) :
    chunk b (header ++ ys) i = ((header.drop (i * b)).take b, false) := by
  rw [Nat.succ_mul] at whole
  have more : ¬ (header ++ ys).length ≤ (i + 1) * b := by
    rw [List.length_append, Nat.succ_mul]
    omega
  rw [chunk, decide_eq_false more, List.drop_append_of_le_length (by omega),
    List.take_append_of_le_length (by rw [List.length_drop]; omega)]

section Beats

variable (pos : 0 < b) (le : b ≤ header.length) (nonempty : 0 < ys.length) {i : ℕ}
  (more : i * b < (header ++ ys).length) {y : List (BitVec 8) × Bool} (due : Due b header ys i y)

include pos le nonempty more due

/-- A packetizer that is fed a packet offers the chunks of the header and the packet, one after the other. -/
theorem step_rest : offers b header (rest b header ys i) (some y) = some (chunk b (header ++ ys) i) ∧
    after b header (rest b header ys i) (some y) =
      if (header ++ ys).length ≤ (i + 1) * b then none else rest b header ys (i + 1) := by
  have total : (header ++ ys).length = header.length + ys.length := List.length_append
  cases i with
  | zero =>
    have words : 0 + 1 ≤ headerWords b header := Nat.div_pos le pos
    have first : ¬ (header ++ ys).length ≤ (0 + 1) * b := by omega
    rw [rest_header nonempty words, if_neg first, chunk_header nonempty (by omega)]
    simp only [rest, offers, after, Option.map_some, Nat.zero_mul, List.drop_zero, Nat.zero_add, Nat.one_mul]
    exact ⟨trivial, trivial⟩
  | succ i =>
    obtain ⟨inHeader, -, whole⟩ | ⟨k, split, index, lower, upper⟩ := cases_rest header pos (i + 1)
    · have room : b ≤ (header.drop ((i + 1) * b)).length := by
        rw [List.length_drop]
        rw [Nat.succ_mul] at whole
        omega
      have further : ¬ (header ++ ys).length ≤ (i + 1 + 1) * b := by omega
      rw [rest_header nonempty inHeader.le, rest_header nonempty inHeader, if_neg further,
        chunk_header nonempty whole]
      simp only [offers, after, Bool.false_eq_true, if_false, if_pos room, List.drop_drop]
      rw [Nat.succ_mul (i + 1) b]
      exact ⟨trivial, rfl⟩
    · rw [rest_copy split, rest_copy (show i + 1 + 1 = headerWords b header + (k + 1) by omega)]
      by_cases closing : ys.length ≤ k * b
      · -- all of the packet has been taken
        have whole : (header ++ ys).take (header.length + k * b) = header ++ ys :=
          List.take_of_length_le (by omega)
        have tail : ((header ++ ys).drop ((i + 1) * b)).length ≤ b := by
          rw [List.length_drop, total]
          rw [Nat.succ_mul (i + 1)] at upper
          omega
        have ends : (header ++ ys).length ≤ (i + 1 + 1) * b := by omega
        simp only [offers, after, whole, decide_eq_true closing, if_true, if_pos ends, chunk, decide_eq_true ends,
          List.take_of_length_le tail]
        exact ⟨trivial, trivial⟩
      · have due : y = chunk b ys k := by
          have := due (by omega)
          rw [index] at this
          exact this (Nat.lt_of_not_le closing)
        have joined : ((header ++ ys).take (header.length + k * b)).drop ((i + 1) * b) ++ (chunk b ys k).1 = _ :=
          append_chunk lower (Nat.lt_of_not_le closing)
        rw [Nat.succ_mul (i + 1)] at upper ⊢
        rw [Nat.succ_mul k] at joined ⊢
        have partly : ¬ b ≤ (((header ++ ys).take (header.length + k * b)).drop ((i + 1) * b)).length := by
          rw [List.length_drop, List.length_take, total]
          omega
        have length : (((header ++ ys).take (header.length + (k * b + b))).drop ((i + 1) * b)).length =
            min (header.length + (k * b + b)) (header.length + ys.length) - (i + 1) * b := by
          rw [List.length_drop, List.length_take, total]
        -- the packet ends in this word, or one more is needed for what is left of its last beat
        have last : ((chunk b ys k).2 && decide ((((header ++ ys).take (header.length + (k * b + b))).drop
            ((i + 1) * b)).length ≤ b)) = decide ((header ++ ys).length ≤ (i + 1) * b + b) := by
          rw [Bool.eq_iff_iff, Bool.and_eq_true, decide_eq_true_iff, decide_eq_true_iff, chunk, decide_eq_true_iff,
            length, total, Nat.succ_mul]
          omega
        have flag : (chunk b ys k).2 = decide (ys.length ≤ k * b + b) := by rw [chunk, Nat.succ_mul]
        subst due
        simp only [offers, after, decide_eq_false closing, Bool.false_eq_true, if_false, if_neg partly, Option.map_some,
          Option.getD_some, joined, last, decide_eq_true_eq]
        constructor
        · rw [take_drop_take (by omega), chunk, Nat.succ_mul (i + 1)]
        · rw [List.drop_drop, flag]

end Beats

end Pending

/-! ## Packetizers -/

namespace Packetizer

variable {H : Type} {dw : ℕ}

/-- A packetizer that sends the bytes of a header and those of the packet without a gap, whatever the width of a word.
In state `s` some bytes are pending, for `Holds s q`. -/
structure PrependsBytes (P : Packetizer H dw) (bytes : H → List (BitVec 8)) where
  Holds : P.State → Option Pending → Prop
  reset : Holds P.reset none
  source : ∀ {s q}, Holds s q → ∀ (h : H) (x : Option (Beat dw)), (∀ b ∈ x, b.Marked) →
    (P.source s h x).map Beat.content = Pending.offers (dw / 8) (bytes h) q (x.map Beat.content)
  step : ∀ {s q}, Holds s q → ∀ (h : H) (x : Option (Beat dw)) (r : Bool), (∀ b ∈ x, b.Marked) →
    Holds (P.step s h x r) (if (P.source s h x).isSome && r then
      Pending.after (dw / 8) (bytes h) q (x.map Beat.content) else q)

/-- The packetizer of a header of any length; its registers are the header that is being sent and the bytes that are
pending. -/
def bytes (dw : ℕ) (encode : H → List (BitVec 8)) : Packetizer H dw where
  State := Option (H × Pending)
  reset := none
  header s := s.map Prod.fst
  source s h x := (Pending.offers (dw / 8) (encode h) (s.map Prod.snd) (x.map Beat.content)).map (Beat.ofContent dw)
  sinkReady s _ x r := match s with
    | none => x.isNone
    | some (_, q) => !q.closing && decide (q.bytes.length < dw / 8) && x.isSome && r
  step s h x r :=
    if (Pending.offers (dw / 8) (encode h) (s.map Prod.snd) (x.map Beat.content)).isSome && r then
      (Pending.after (dw / 8) (encode h) (s.map Prod.snd) (x.map Beat.content)).map ((s.map Prod.fst).getD h, ·)
    else s
  header_reset := rfl
  source_idle s h x idle := by
    obtain rfl : s = none := Option.map_eq_none_iff.1 idle
    cases x with
    | none => exact ⟨rfl, rfl⟩
    | some b => exact ⟨rfl, rfl⟩
  sinkReady_idle s h b r idle := by
    obtain rfl : s = none := Option.map_eq_none_iff.1 idle
    rfl
  header_step s h x r := by
    -- a beat that leaves keeps the header, unless it is the last one
    cases offered : Pending.offers (dw / 8) (encode h) (s.map Prod.snd) (x.map Beat.content) with
    | none => rfl
    | some c =>
      have ends := Pending.isNone_after (dw / 8) (encode h) offered
      cases r with
      | false => rfl
      | true =>
        obtain ⟨bs, last⟩ := c
        cases last with
        | true =>
          rw [Option.isNone_iff_eq_none] at ends
          simp [ends, isLast, Beat.ofContent]
        | false =>
          obtain ⟨q, some⟩ := Option.isSome_iff_exists.1 (Option.isNone_eq_false_iff.1 ends)
          simp [some, isLast, Beat.ofContent]

/-- It sends bytes without a gap. -/
def prependsBytes (encode : H → List (BitVec 8)) (pos : 0 < dw / 8) (le : ∀ h, dw / 8 ≤ (encode h).length) :
    PrependsBytes (bytes dw encode) encode where
  Holds s q := s.map Prod.snd = q ∧ Pending.Closes (dw / 8) q
  reset := ⟨rfl, nofun⟩
  source := by
    rintro s q ⟨rfl, closes⟩ h x marked
    have fits : ∀ y ∈ x.map Beat.content, Beat.Fits dw y := by
      intro y hy
      obtain ⟨b, hb, rfl⟩ := Option.map_eq_some_iff.1 hy
      exact (marked b hb).fits
    show ((Pending.offers _ _ _ _).map (Beat.ofContent dw)).map Beat.content = _
    cases offered : Pending.offers (dw / 8) (encode h) (s.map Prod.snd) (x.map Beat.content) with
    | none => rfl
    | some c => exact congrArg some (Beat.content_ofContent (Pending.fits_offers rfl pos fits (le h) closes offered))
  step := by
    rintro s q ⟨rfl, closes⟩ h x r marked
    have fits : ∀ y ∈ x.map Beat.content, Beat.Fits dw y := by
      intro y hy
      obtain ⟨b, hb, rfl⟩ := Option.map_eq_some_iff.1 hy
      exact (marked b hb).fits
    have shown : ((bytes dw encode).source s h x).isSome =
        (Pending.offers (dw / 8) (encode h) (s.map Prod.snd) (x.map Beat.content)).isSome := Option.isSome_map
    rw [shown]
    by_cases sent : ((Pending.offers (dw / 8) (encode h) (s.map Prod.snd) (x.map Beat.content)).isSome && r) = true
    · rw [if_pos sent]
      refine ⟨?_, Pending.closes_after rfl fits⟩
      refine (congrArg (Option.map Prod.snd) (if_pos sent)).trans ?_
      rw [Option.map_map]
      exact Option.map_id'
    · rw [if_neg sent]
      exact ⟨congrArg (Option.map Prod.snd) (if_neg sent), closes⟩

end Packetizer

end LiteEth.Rtl
