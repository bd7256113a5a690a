/-
`core/ip.py`: the IPv4 header checksum engine. It adds the header's words through a chain of
stages, some of them registered, and is done after as many cycles as there are registers. Only its
counter is reset between headers, so a register holds what an earlier header left in it until the
counter has reached it. Whatever that is, what it shows when it is done is the checksum of the header,
which makes the header's words sum up to all ones once it is inserted.
-/
import LiteEth.Common
import LiteEth.Rtl.Machine
import LiteEth.Rtl.OnesComplement

namespace LiteEth.Core.Ip

open LiteEth.Rtl

/-- An encoded IPv4 header, by its bytes in the order they are sent. -/
abbrev HeaderBytes := Nat → BitVec 8

/-- `ipv4_header.length`. -/
def ipv4HeaderLength : Nat := 20

/-- `ipv4_header.fields["checksum"].byte`. -/
def checksumByte : Nat := 10

/-- The `i`-th 16-bit word of the header in network byte order. -/
def word (h : HeaderBytes) (i : Nat) : Nat := (h (2 * i)).toNat * 2 ^ 8 + (h (2 * i + 1)).toNat

/-- The checksum of a header over the words `is`: the complement of their ones'-complement sum. -/
def internetChecksum (h : HeaderBytes) (is : List Nat) : BitVec 16 :=
  ~~~ BitVec.ofNat 16 (OnesComplement.sum 16 (is.map (word h)))

namespace Checksum

/-- The constructor arguments of the engine (with `dummy=False`). -/
structure Params where
  wordsPerClockCycle : Nat
  skipChecksum : Bool

variable (p : Params)

/-- The word the engine leaves out. -/
def skipped (i : Nat) : Bool := p.skipChecksum && i == checksumByte / 2

/-- The words whose stage is a register. -/
def registered (i : Nat) : Bool := !skipped p i && i % p.wordsPerClockCycle == 0

/-- The words that are added, in order. -/
def addedWords : List Nat := (List.range (ipv4HeaderLength / 2)).filter fun i => !skipped p i

/-- `n_cycles`. -/
def nCycles : Nat :=
  ((List.range (ipv4HeaderLength / 2)).filter (registered p)).length + if p.skipChecksum then 0 else 1

/-- `header[i*16:(i+1)*16]`: the first byte of a word is its low one. -/
def slice (h : HeaderBytes) (i : Nat) : Nat := (h (2 * i)).toNat + (h (2 * i + 1)).toNat * 2 ^ 8

/-- `r_next` from `r`, through the 17-bit `s_next`. -/
def stage (r w : Nat) : Nat :=
  let s := (r + w) % 2 ^ 17
  (s % 2 ^ 16 + s / 2 ^ 16) % 2 ^ 17

/-- The counter, and the register of each registered word. -/
structure State where
  counter : Nat
  stages : Nat → Nat

/-- The registers after reset. -/
def State.init : State := { counter := 0, stages := fun _ => 0 }

/-- `r` in front of the `k`-th word. -/
def State.before (s : State) (h : HeaderBytes) : Nat → Nat
  | 0 => 0
  | k + 1 =>
    if skipped p k then s.before h k
    else if registered p k then s.stages k
    else stage (s.before h k) (slice h k)

/-- The sums of all stages are there. -/
def State.done (s : State) : Bool := s.counter == nCycles p

/-- `value`: the complement of `r` with its bytes exchanged. -/
def State.value (s : State) (h : HeaderBytes) : BitVec 16 :=
  ~~~ BitVec.ofNat 16 (OnesComplement.swap 8 (s.before p h (ipv4HeaderLength / 2) % 2 ^ 16))

/-- The registers after a clock edge, given `ce`, `reset` and `header`. -/
def State.next (s : State) (ce reset : Bool) (h : HeaderBytes) : State :=
  { counter :=
      if reset then 0
      else if ce && !s.done p then (s.counter + 1) % 2 ^ bitsFor (nCycles p)
      else s.counter
    stages := fun i =>
      if ce && !s.done p && registered p i then stage (s.before p h i) (slice h i) else s.stages i }

theorem next_done {s : State} (hd : s.done p = true) (ce : Bool) (h : HeaderBytes) :
    s.next p ce false h = s := by
  simp [State.next, hd]

theorem next_hold (s : State) (h : HeaderBytes) : s.next p false false h = s := by
  simp [State.next]

/-! ## The engine computes the Internet checksum -/

theorem word_lt (h : HeaderBytes) (i : Nat) : word h i < 2 ^ 16 := by
  have h1 := (h (2 * i)).isLt
  have h2 := (h (2 * i + 1)).isLt
  rw [word]
  omega

theorem slice_eq_swap (h : HeaderBytes) (i : Nat) : slice h i = OnesComplement.swap 8 (word h i) := by
  have h2 := (h (2 * i + 1)).isLt
  rw [slice, word, OnesComplement.swap]
  omega

theorem slice_lt (h : HeaderBytes) (i : Nat) : slice h i < 2 ^ 16 := by
  rw [slice_eq_swap]
  exact OnesComplement.swap_lt (k := 8) (word_lt h i)

/-- No carry is lost: the sum of two words fits 17 bits, the folded one 16. -/
theorem stage_eq_add {r w : Nat} (hr : r < 2 ^ 16) (hw : w < 2 ^ 16) : stage r w = OnesComplement.add 16 r w := by
  have hlt : OnesComplement.add 16 r w < 2 ^ 16 := OnesComplement.fold_lt (by omega)
  rw [OnesComplement.add, OnesComplement.fold] at *
  rw [stage, Nat.mod_eq_of_lt (by omega : r + w < 2 ^ 17)]
  exact Nat.mod_eq_of_lt (by omega)

/-- The sum of the added words in front of the `k`-th one, as the engine reads them. -/
def partialSum (h : HeaderBytes) (k : Nat) : Nat :=
  OnesComplement.sum 16 (((List.range k).filter fun i => !skipped p i).map (slice h))

theorem partialSum_lt (h : HeaderBytes) (k : Nat) : partialSum p h k < 2 ^ 16 := by
  refine OnesComplement.sum_lt fun x hx => ?_
  obtain ⟨i, -, rfl⟩ := List.mem_map.1 hx
  exact slice_lt h i

theorem partialSum_succ (h : HeaderBytes) (k : Nat) : partialSum p h (k + 1) =
    if skipped p k then partialSum p h k else stage (partialSum p h k) (slice h k) := by
  rw [partialSum, List.range_succ, List.filter_append, List.map_append]
  cases hs : skipped p k with
  | true => simp [hs, partialSum]
  | false =>
    rw [stage_eq_add (partialSum_lt p h k) (slice_lt h k)]
    simp [hs, partialSum, OnesComplement.sum_concat]

/-- The place of a registered word among the registers, counted from one. -/
def rank (k : Nat) : Nat := ((List.range (k + 1)).filter (registered p)).length

/-- The registers that the counter has reached hold the sums of the header `h`. -/
structure Computes (s : State) (h : HeaderBytes) : Prop where
  le : s.counter ≤ nCycles p
  stages : ∀ k, registered p k = true → rank p k ≤ s.counter → s.stages k = partialSum p h (k + 1)

theorem before_eq {s : State} {h : HeaderBytes} :
    ∀ k, (∀ j < k, registered p j = true → s.stages j = partialSum p h (j + 1)) → s.before p h k = partialSum p h k
  | 0, _ => rfl
  | k + 1, hs => by
    have ih := before_eq (s := s) (h := h) k fun j hj => hs j (by omega)
    rw [State.before]
    split_ifs with hsk hr
    · rw [ih, partialSum_succ, if_pos hsk]
    · exact hs k (by omega) hr
    · rw [ih, partialSum_succ, if_neg hsk]

theorem rank_lt {j k : Nat} (hjk : j < k) (hk : registered p k = true) : rank p j < rank p k := by
  have hsub : rank p j ≤ ((List.range k).filter (registered p)).length := by
    refine List.Sublist.length_le (List.Sublist.filter _ ?_)
    exact List.range_sublist.2 (by omega)
  rw [rank.eq_1 p k, List.range_succ, List.filter_append, List.length_append]
  simp only [List.filter_cons, hk, if_true, List.filter_nil, List.length_cons, List.length_nil]
  omega

theorem computes_start (h : HeaderBytes) {s : State} (hs : s.counter = 0) : Computes p s h := by
  refine ⟨by omega, fun k hk hle => ?_⟩
  have : k ∈ (List.range (k + 1)).filter (registered p) := by simp [hk]
  have := List.length_pos_of_mem this
  rw [rank] at hle
  omega

/-- The counter of an engine that is not done. -/
theorem Computes.counter_next {s : State} {h : HeaderBytes} (hs : Computes p s h) (hd : s.done p = false)
    (h' : HeaderBytes) : s.counter < nCycles p ∧ (s.next p true false h').counter = s.counter + 1 := by
  have hlt : s.counter < nCycles p := by
    rw [State.done, beq_eq_false_iff_ne] at hd
    exact lt_of_le_of_ne hs.le hd
  have hw := lt_two_pow_bitsFor (nCycles p)
  refine ⟨hlt, ?_⟩
  simp only [State.next, hd, Bool.false_eq_true, if_false, Bool.not_false, Bool.and_self, if_true]
  exact Nat.mod_eq_of_lt (by omega)

/-- A cycle with `ce` puts the sum up to its word into the next register. -/
theorem Computes.next {s : State} {h : HeaderBytes} (hs : Computes p s h) (hd : s.done p = false) :
    Computes p (s.next p true false h) h := by
  obtain ⟨hlt, hc⟩ := hs.counter_next p hd h
  refine ⟨by omega, fun k hk hle => ?_⟩
  have hsk : skipped p k = false := by
    rw [registered, Bool.and_eq_true, Bool.not_eq_true'] at hk
    exact hk.1
  have hst : (s.next p true false h).stages k = stage (s.before p h k) (slice h k) := by
    simp only [State.next, hd, hk, Bool.not_false, Bool.and_self, if_true]
  rw [hst, before_eq p k, partialSum_succ, hsk]
  · rfl
  · intro j hj hjr
    have := rank_lt p hj hk
    exact hs.stages j hjr (by omega)

/-- A done engine shows the checksum. -/
theorem Computes.value {s : State} {h : HeaderBytes} (hs : Computes p s h) (hd : s.done p = true) :
    s.value p h = internetChecksum h (addedWords p) := by
  rw [State.done, beq_iff_eq] at hd
  have hb : s.before p h (ipv4HeaderLength / 2) = partialSum p h (ipv4HeaderLength / 2) := by
    refine before_eq p _ fun j hj hjr => hs.stages j hjr ?_
    have hsub : rank p j ≤ ((List.range (ipv4HeaderLength / 2)).filter (registered p)).length :=
      List.Sublist.length_le (List.Sublist.filter _ (List.range_sublist.2 hj))
    rw [hd, nCycles]
    omega
  have hw : ∀ x ∈ (addedWords p).map (word h), x < 2 ^ (2 * 8) := by
    intro x hx
    obtain ⟨i, -, rfl⟩ := List.mem_map.1 hx
    exact word_lt h i
  have hsum : partialSum p h (ipv4HeaderLength / 2) =
      OnesComplement.swap 8 (OnesComplement.sum 16 ((addedWords p).map (word h))) := by
    rw [← OnesComplement.sum_map_swap (k := 8) hw, List.map_map, partialSum, addedWords]
    congr 2
    exact funext fun i => slice_eq_swap h i
  rw [State.value, hb, Nat.mod_eq_of_lt (partialSum_lt p h _), hsum,
    OnesComplement.swap_swap (k := 8) (OnesComplement.sum_lt hw)]
  rfl

/-! ## Runs of the engine -/

/-- The inputs of one cycle. -/
structure In where
  ce : Bool
  reset : Bool
  header : HeaderBytes

/-- The engine as a machine, from reset. -/
def machine : Machine In State where
  reset := State.init
  step s i := s.next p i.ce i.reset i.header

/-- Every register fits 16 bits. -/
def Fits (s : State) : Prop := ∀ i, s.stages i < 2 ^ 16

theorem stage_lt {r w : Nat} (hr : r < 2 ^ 16) (hw : w < 2 ^ 16) : stage r w < 2 ^ 16 := by
  rw [stage_eq_add hr hw]
  exact OnesComplement.fold_lt (by omega)

theorem Fits.before {s : State} (hs : Fits s) (h : HeaderBytes) : ∀ k, s.before p h k < 2 ^ 16
  | 0 => by simp [State.before]
  | k + 1 => by
    rw [State.before]
    split_ifs
    · exact hs.before h k
    · exact hs k
    · exact stage_lt (hs.before h k) (slice_lt h k)

theorem Fits.next {s : State} (hs : Fits s) (i : In) : Fits ((machine p).step s i) := by
  intro k
  show (if _ then stage (s.before p i.header k) (slice i.header k) else s.stages k) < 2 ^ 16
  split_ifs
  · exact stage_lt (hs.before p i.header k) (slice_lt i.header k)
  · exact hs k

/-- In every state that is reached, the registers fit 16 bits. -/
theorem fits_run (is : List In) : Fits ((machine p).run is) := by
  induction is using List.reverseRecOn with
  | nil => exact fun _ => by simp [Machine.run, machine, State.init]
  | append_singleton is i ih =>
    rw [Machine.run, Machine.runFrom_concat]
    exact ih.next p i

/-- The engine after cycles with the given `ce`, without a reset and with a stable header. -/
def State.after (s : State) (h : HeaderBytes) (ces : List Bool) : State :=
  (machine p).runFrom s (ces.map fun ce => ⟨ce, false, h⟩)

/-- A cycle without a reset: it counts if `ce` is set, up to `n_cycles`. -/
theorem Computes.cycle {s : State} {h : HeaderBytes} (hs : Computes p s h) (ce : Bool) :
    Computes p (s.next p ce false h) h ∧
      (s.next p ce false h).counter = min (nCycles p) (s.counter + if ce then 1 else 0) := by
  have hle := hs.le
  cases hd : s.done p with
  | true =>
    rw [next_done p hd]
    rw [State.done, beq_iff_eq] at hd
    exact ⟨hs, by omega⟩
  | false =>
    cases ce with
    | false =>
      rw [next_hold]
      exact ⟨hs, by simp only [Bool.false_eq_true, if_false]; omega⟩
    | true =>
      obtain ⟨hlt, hc⟩ := hs.counter_next p hd h
      exact ⟨hs.next p hd, by rw [hc, if_pos rfl]; omega⟩

theorem Computes.after {s : State} {h : HeaderBytes} (hs : Computes p s h) (ces : List Bool) :
    Computes p (s.after p h ces) h ∧ (s.after p h ces).counter = min (nCycles p) (s.counter + ces.count true) := by
  have hle := hs.le
  induction ces generalizing s with
  | nil => exact ⟨hs, by rw [List.count_nil]; exact (min_eq_right hle).symm⟩
  | cons ce ces ih =>
    obtain ⟨hnext, hcount⟩ := hs.cycle p ce
    obtain ⟨hrun, hsum⟩ := ih hnext hnext.le
    refine ⟨hrun, hsum.trans ?_⟩
    rw [hcount, List.count_cons]
    cases ce <;> simp <;> omega

/-- It is done after `n_cycles` cycles with `ce`. -/
theorem done_after_iff {s : State} (hs : s.counter = 0) (h : HeaderBytes) (ces : List Bool) :
    (s.after p h ces).done p = true ↔ nCycles p ≤ ces.count true := by
  rw [State.done, beq_iff_eq, ((computes_start p h hs).after p ces).2, hs]
  omega

/-- The engine shows `v` once it is done with the header `h`, in some run from a state in which only its counter is
reset. -/
def Reads (h : HeaderBytes) (v : BitVec 16) : Prop :=
  ∃ (s : State) (ces : List Bool), s.counter = 0 ∧ (s.after p h ces).done p = true ∧ (s.after p h ces).value p h = v

/-- What it shows then is the Internet checksum of the header. -/
theorem reads_iff (h : HeaderBytes) (v : BitVec 16) : Reads p h v ↔ v = internetChecksum h (addedWords p) := by
  constructor
  · rintro ⟨s, ces, hs, hd, rfl⟩
    exact ((computes_start p h hs).after p ces).1.value p hd
  · rintro rfl
    refine ⟨.init, List.replicate (nCycles p) true, rfl, ?_, ?_⟩
    · rw [done_after_iff p rfl, List.count_replicate_self]
    · refine ((computes_start p h rfl).after p _).1.value p ?_
      rw [done_after_iff p rfl, List.count_replicate_self]

/-! ## The model of the tests -/

/-- `carry_around_add` of the test model. -/
def carryAroundAdd (a b : Nat) : Nat :=
  let c := a + b
  c % 2 ^ 16 + c / 2 ^ 16

/-- The loop of `checksum` of the test model. -/
def checksumLoop (s : Nat) : List (BitVec 8) → Nat
  | b₀ :: b₁ :: msg => checksumLoop (carryAroundAdd s (b₀.toNat + b₁.toNat * 2 ^ 8)) msg
  | _ => s

/-- `checksum` of the test model. -/
def modelChecksum (msg : List (BitVec 8)) : BitVec 16 := ~~~ BitVec.ofNat 16 (checksumLoop 0 msg)

/-- A 16-bit word with its bytes exchanged. -/
def swapBytes (v : BitVec 16) : BitVec 16 := v.extractLsb' 0 8 ++ v.extractLsb' 8 8

/-- The bytes of the added words. -/
def addedBytes (h : HeaderBytes) : List (BitVec 8) := (addedWords p).flatMap fun i => [h (2 * i), h (2 * i + 1)]

theorem checksumLoop_words (h : HeaderBytes) (is : List Nat) (s : Nat) :
    checksumLoop s (is.flatMap fun i => [h (2 * i), h (2 * i + 1)]) =
      (is.map (slice h)).foldl (OnesComplement.add 16) s := by
  induction is generalizing s with
  | nil => rfl
  | cons i is ih =>
    rw [List.flatMap_cons]
    exact ih _

theorem swapBytes_toNat (v : BitVec 16) : (swapBytes v).toNat = OnesComplement.swap 8 v.toNat := by
  have h := v.isLt
  rw [swapBytes, BitVec.toNat_append, BitVec.extractLsb'_toNat, BitVec.extractLsb'_toNat, OnesComplement.swap,
    ← Nat.shiftLeft_add_eq_or_of_lt (Nat.mod_lt _ (by decide)), Nat.shiftLeft_eq, Nat.shiftRight_eq_div_pow,
    Nat.shiftRight_eq_div_pow]
  omega

theorem swapBytes_not (v : BitVec 16) : swapBytes (~~~ v) = ~~~ swapBytes v := by
  have h := v.isLt
  rw [← BitVec.toNat_inj, swapBytes_toNat, BitVec.toNat_not, BitVec.toNat_not, swapBytes_toNat, OnesComplement.swap,
    OnesComplement.swap]
  omega

/-- The checksum of the header is that of the test model with its bytes exchanged. -/
theorem internetChecksum_eq_model (h : HeaderBytes) :
    internetChecksum h (addedWords p) = swapBytes (modelChecksum (addedBytes p h)) := by
  have hw : ∀ x ∈ (addedWords p).map (word h), x < 2 ^ (2 * 8) := by
    intro x hx
    obtain ⟨i, -, rfl⟩ := List.mem_map.1 hx
    exact word_lt h i
  have hlt : OnesComplement.sum 16 ((addedWords p).map (word h)) < 2 ^ 16 := OnesComplement.sum_lt hw
  have hloop : checksumLoop 0 (addedBytes p h) =
      OnesComplement.swap 8 (OnesComplement.sum 16 ((addedWords p).map (word h))) := by
    rw [← OnesComplement.sum_map_swap (k := 8) hw, List.map_map, addedBytes, checksumLoop_words]
    congr 2
    exact funext fun i => slice_eq_swap h i
  have hswap : swapBytes (BitVec.ofNat 16 (checksumLoop 0 (addedBytes p h))) =
      BitVec.ofNat 16 (OnesComplement.sum 16 ((addedWords p).map (word h))) := by
    rw [← BitVec.toNat_inj, swapBytes_toNat, hloop, BitVec.toNat_ofNat, BitVec.toNat_ofNat, Nat.mod_eq_of_lt hlt,
      Nat.mod_eq_of_lt (OnesComplement.swap_lt (k := 8) hlt), OnesComplement.swap_swap (k := 8) hlt]
  rw [modelChecksum, swapBytes_not, hswap]
  rfl

/-! ## The checksum field -/

/-- The header with `c` in its checksum field. -/
def withChecksum (h : HeaderBytes) (c : BitVec 16) : HeaderBytes := fun k =>
  if k = checksumByte then c.extractLsb' 8 8 else if k = checksumByte + 1 then c.extractLsb' 0 8 else h k

theorem word_withChecksum (h : HeaderBytes) (c : BitVec 16) (i : Nat) :
    word (withChecksum h c) i = if i = checksumByte / 2 then c.toNat else word h i := by
  have hc := c.isLt
  unfold word withChecksum checksumByte
  by_cases hi : i = 5
  · subst hi
    simp [Nat.shiftRight_eq_div_pow]
    omega
  · rw [if_neg (by omega), if_neg (by omega), if_neg (by omega), if_neg (by omega), if_neg (by omega)]

/-- The value is zero for the headers whose words sum up to all ones. -/
theorem internetChecksum_eq_zero_iff (h : HeaderBytes) (is : List Nat) :
    internetChecksum h is = 0 ↔ OnesComplement.sum 16 (is.map (word h)) = 0xffff := by
  have hsum : OnesComplement.sum 16 (is.map (word h)) < 2 ^ 16 := by
    refine OnesComplement.sum_lt fun x hx => ?_
    obtain ⟨i, -, rfl⟩ := List.mem_map.1 hx
    exact word_lt h i
  unfold internetChecksum
  rw [← BitVec.toNat_inj, BitVec.toNat_not, BitVec.toNat_ofNat, Nat.mod_eq_of_lt hsum]
  show 2 ^ 16 - 1 - _ = 0 ↔ _
  omega

theorem addedWords_skipping (w : Nat) : addedWords ⟨w, true⟩ = [0, 1, 2, 3, 4, 6, 7, 8, 9] := rfl

theorem addedWords_all (w : Nat) : addedWords ⟨w, false⟩ = List.range 10 := rfl

/-- With the checksum of its other words in its field, a header's words sum up to all ones. -/
theorem sum_of_checksum (h : HeaderBytes) {w : Nat}
    (hc : word h (checksumByte / 2) = (internetChecksum h (addedWords ⟨w, true⟩)).toNat) :
    OnesComplement.sum 16 ((List.range 10).map (word h)) = 0xffff := by
  have hlt : ∀ is : List Nat, ∀ x ∈ is.map (word h), x < 2 ^ 16 := by
    intro is x hx
    obtain ⟨i, -, rfl⟩ := List.mem_map.1 hx
    exact word_lt h i
  refine OnesComplement.sum_check (hlt (addedWords ⟨w, true⟩)) (hlt (List.range 10)) ?_
  rw [internetChecksum, BitVec.toNat_not, BitVec.toNat_ofNat, Nat.mod_eq_of_lt (OnesComplement.sum_lt (hlt _)),
    show checksumByte / 2 = 5 by decide] at hc
  rw [← hc, addedWords_skipping, show List.range 10 = [0, 1, 2, 3, 4, 5, 6, 7, 8, 9] by decide]
  simp only [List.map_cons, List.map_nil, List.sum_cons, List.sum_nil]
  omega

/-- The engine computes the Internet checksum of every header, the byte swap of that of the test model, and loses no
carry. Inserted in the header it makes the engine that skips nothing read zero, as only the headers whose words sum
up to all ones do. -/
theorem reads_internetChecksum (h : HeaderBytes) :
    (∀ v, Reads p h v ↔ v = internetChecksum h (addedWords p)) ∧
    internetChecksum h (addedWords p) = swapBytes (modelChecksum (addedBytes p h)) ∧
    (∀ (s : State) (ces : List Bool), s.counter = 0 →
      ((s.after p h ces).done p = true ↔ nCycles p ≤ ces.count true)) ∧
    (∀ is, Fits ((machine p).run is) ∧ ∀ k, ((machine p).run is).before p h k + slice h k < 2 ^ 17) ∧
    (∀ w w' v v', Reads ⟨w, true⟩ h v → Reads ⟨w', false⟩ (withChecksum h v) v' → v' = 0) ∧
    ∀ w, Reads ⟨w, false⟩ h 0 ↔ OnesComplement.sum 16 ((List.range 10).map (word h)) = 0xffff := by
  refine ⟨reads_iff p h, internetChecksum_eq_model p h, fun s ces hs => done_after_iff p hs h ces, ?_, ?_, ?_⟩
  · -- the partial sums stay inside of their registers
    intro is
    have hfits := fits_run p is
    refine ⟨hfits, fun k => ?_⟩
    have h1 := hfits.before p h k
    have h2 := slice_lt h k
    omega
  · -- the words of the header with its own checksum add up to zero
    intro w w' v v' hv hv'
    rw [reads_iff] at hv hv'
    rw [hv', addedWords_all, internetChecksum_eq_zero_iff]
    refine sum_of_checksum _ (w := w) ?_
    have hothers : (addedWords ⟨w, true⟩).map (word (withChecksum h v)) = (addedWords ⟨w, true⟩).map (word h) := by
      refine List.map_congr_left fun i hi => ?_
      rw [word_withChecksum, if_neg]
      rintro rfl
      rw [addedWords_skipping] at hi
      revert hi
      decide
    rw [word_withChecksum, if_pos rfl, internetChecksum, hothers, hv]
    rfl
  · -- a header is accepted if its words add up to ones
    intro w
    rw [reads_iff, addedWords_all, eq_comm, internetChecksum_eq_zero_iff]

end Checksum

end LiteEth.Core.Ip
