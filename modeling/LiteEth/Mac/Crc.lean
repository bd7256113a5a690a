/-
`mac/crc.py`: the CRC engine, whose equations are unrolled symbolically for a whole data word, and
the CRC-32 built on it. The register of the engine, read backwards, is that of the reflected CRC, so
the value the inserter appends is the standard CRC-32, low byte first, and the checker's residue is
reached by no other four bytes.
-/
import LiteEth.Rtl.Crc
import LiteEth.Rtl.Machine

namespace LiteEth.Mac

open LiteEth.Rtl

/-! ## The engine -/

namespace CRCEngine

/-- A term of an equation: `("state", i)` or `("din", i)`. -/
inductive Tap
  | state (i : ℕ)
  | din (i : ℕ)
  deriving DecidableEq

/-- `d[e] += 1`, or `d[e] = 1` for a new key. -/
def bump (e : Tap) : List (Tap × ℕ) → List (Tap × ℕ)
  | [] => [(e, 1)]
  | (k, n) :: d => if k = e then (k, n + 1) :: d else (k, n) :: bump e d

/-- `_optimize_eq`: the terms that occur an odd number of times, each once. -/
def optimizeEq (l : List Tap) : List Tap :=
  ((l.foldl (fun d e => bump e d) []).filter fun x => x.2 % 2 != 0).map (·.1)

/-- The loop body for data bit `i`. -/
def unroll (polynom : ℕ) (curval : List (List Tap)) (i : ℕ) : List (List Tap) :=
  let feedback := curval.getLastD [] ++ [.din i]
  feedback :: curval.dropLast.mapIdx fun j eq =>
    optimizeEq (if polynom.testBit (j + 1) then eq ++ feedback else eq)

/-- `curval` after the loop. -/
def equations (dataWidth width polynom : ℕ) : List (List Tap) :=
  (List.range dataWidth).foldl (unroll polynom) ((List.range width).map fun i => [.state i])

variable {dataWidth width : ℕ}

/-- The bit a term stands for. -/
def Tap.value (last : BitVec width) (data : BitVec dataWidth) : Tap → Bool
  | .state i => last.getLsbD i
  | .din i => data.getLsbD i

/-- `reduce(xor, xors)` for the terms of an equation. -/
def xors (last : BitVec width) (data : BitVec dataWidth) (eq : List Tap) : Bool :=
  (eq.map (Tap.value last data)).foldr xor false

/-- The next CRC. -/
def next (polynom : ℕ) (last : BitVec width) (data : BitVec dataWidth) : BitVec width :=
  (BitVec.ofBoolListLE ((equations dataWidth width polynom).map (xors last data))).setWidth width

/-! ## The equations, bit by bit -/

section Equations

variable (last : BitVec width) (data : BitVec dataWidth)

theorem xors_cons (t : Tap) (l : List Tap) : xors last data (t :: l) = (t.value last data ^^ xors last data l) := rfl

theorem xors_append (l m : List Tap) : xors last data (l ++ m) = (xors last data l ^^ xors last data m) := by
  induction l with
  | nil => exact (Bool.false_xor _).symm
  | cons t l ih => rw [List.cons_append, xors_cons, xors_cons, ih, Bool.xor_assoc]

/-- The terms counted an odd number of times. -/
def odds (d : List (Tap × ℕ)) : List Tap := (d.filter fun x => x.2 % 2 != 0).map (·.1)

theorem odds_cons (k : Tap) (n : ℕ) (d : List (Tap × ℕ)) :
    xors last data (odds ((k, n) :: d)) = ((decide (n % 2 ≠ 0) && k.value last data) ^^ xors last data (odds d)) := by
  unfold odds
  rw [List.filter_cons]
  rcases Nat.mod_two_eq_zero_or_one n with h | h
  · simp [h]
  · simp [h, xors_cons]

theorem xors_bump (e : Tap) (d : List (Tap × ℕ)) :
    xors last data (odds (bump e d)) = (e.value last data ^^ xors last data (odds d)) := by
  induction d with
  | nil => simp [bump, odds_cons]
  | cons x d ih =>
    unfold bump
    split
    · rename_i hk
      rw [odds_cons, odds_cons, hk]
      rcases Nat.mod_two_eq_zero_or_one x.2 with h | h
      · have h1 : (x.2 + 1) % 2 = 1 := by omega
        simp [h, h1]
      · have h1 : (x.2 + 1) % 2 = 0 := by omega
        simp [h, h1]
    · rw [odds_cons, odds_cons, ih, ← Bool.xor_assoc, ← Bool.xor_assoc, Bool.xor_comm (e.value last data)]

/-- Dropping pairs of equal terms does not change the sum. -/
theorem xors_optimizeEq (l : List Tap) : xors last data (optimizeEq l) = xors last data l := by
  have h : ∀ (l : List Tap) (d : List (Tap × ℕ)), xors last data (odds (l.foldl (fun d e => bump e d) d)) =
      (xors last data l ^^ xors last data (odds d)) := by
    intro l
    induction l with
    | nil => exact fun d => (Bool.false_xor _).symm
    | cons e l ih =>
      intro d
      rw [List.foldl_cons, ih, xors_bump, xors_cons, ← Bool.xor_assoc, Bool.xor_comm (xors last data l)]
  have := h l []
  rwa [show xors last data (odds []) = false from rfl, Bool.xor_false] at this

/-- The polynomial of the reflected register. -/
def reflected (width polynom : ℕ) : BitVec width := (BitVec.ofNat width polynom).reverse

theorem getLsbD_reflected {polynom j : ℕ} (h : j < width) :
    (reflected width polynom).getLsbD j = polynom.testBit (width - 1 - j) := by
  unfold reflected
  rw [BitVec.getLsbD_reverse, BitVec.getMsbD_eq_getLsbD, BitVec.getLsbD_ofNat]
  have h1 : width - 1 - j < width := by omega
  simp [h, h1]

/-- The equations `curval` are those of the register `c`, read backwards. -/
structure Describes (curval : List (List Tap)) (c : BitVec width) : Prop where
  length : curval.length = width
  bit : ∀ k (h : k < curval.length), xors last data curval[k] = c.getLsbD (width - 1 - k)

theorem describes_start : Describes last data ((List.range width).map fun i => [.state i]) last.reverse := by
  constructor
  · rw [List.length_map, List.length_range]
  · intro k hk
    rw [List.length_map, List.length_range] at hk
    have h1 : width - 1 - k < width := by omega
    have h2 : width - 1 - (width - 1 - k) = k := by omega
    rw [BitVec.getLsbD_reverse, BitVec.getMsbD_eq_getLsbD]
    simp [xors, Tap.value, h1, h2]

variable {last data} in
theorem Describes.unroll {polynom : ℕ} (hp : polynom.testBit 0 = true) (hw : 0 < width) {curval : List (List Tap)}
    {c : BitVec width} (h : Describes last data curval c) (i : ℕ) :
    Describes last data (unroll polynom curval i) (Crc.feedBit (reflected width polynom) c (data.getLsbD i)) := by
  obtain ⟨hlen, hbit⟩ := h
  have hne : curval ≠ [] := by rintro rfl; rw [List.length_nil] at hlen; omega
  -- the feedback is the bit that leaves the register, with the data bit added
  have hfb : xors last data (curval.getLastD [] ++ [.din i]) = (c.getLsbD 0 ^^ data.getLsbD i) := by
    have hl := hbit (curval.length - 1) (by omega)
    rw [← List.getLast_eq_getElem hne, show width - 1 - (curval.length - 1) = 0 by omega] at hl
    rw [xors_append, List.getLastD_eq_getLast?, List.getLast?_eq_some_getLast hne, Option.getD_some, hl]
    simp [xors, Tap.value]
  have hfeed : ∀ j < width, (Crc.feedBit (reflected width polynom) c (data.getLsbD i)).getLsbD j =
      (c.getLsbD (j + 1) ^^ ((c.getLsbD 0 ^^ data.getLsbD i) && polynom.testBit (width - 1 - j))) := by
    intro j hj
    unfold Crc.feedBit Crc.feed Crc.shifts Crc.shifts
    rw [Crc.getLsbD_shift, getLsbD_reflected hj]
    simp [hw]
  constructor
  · unfold CRCEngine.unroll
    simp only [List.length_cons, List.length_mapIdx, List.length_dropLast]
    omega
  · intro k hk
    have hkw : k < width := by
      unfold CRCEngine.unroll at hk
      simp only [List.length_cons, List.length_mapIdx, List.length_dropLast] at hk
      omega
    rw [hfeed _ (by omega), show width - 1 - (width - 1 - k) = k by omega]
    cases k with
    | zero =>
      rw [show width - 1 - 0 + 1 = width by omega, BitVec.getLsbD_of_ge c width le_rfl, hp, Bool.and_true,
        Bool.false_xor]
      exact hfb
    | succ k =>
      have hck := hbit k (by omega)
      rw [show width - 1 - (k + 1) + 1 = width - 1 - k by omega, ← hck]
      have hget : (CRCEngine.unroll polynom curval i)[k + 1] = optimizeEq
          (if polynom.testBit (k + 1) then curval[k] ++ (curval.getLastD [] ++ [.din i]) else curval[k]) := by
        simp [CRCEngine.unroll]
      rw [hget, xors_optimizeEq]
      cases polynom.testBit (k + 1) with
      | false => simp
      | true => rw [if_pos rfl, xors_append, hfb, Bool.and_true]

theorem describes_equations {polynom : ℕ} (hp : polynom.testBit 0 = true) (hw : 0 < width) :
    Describes last data (equations dataWidth width polynom)
      ((List.range dataWidth).foldl
        (fun c i => Crc.feedBit (reflected width polynom) c (data.getLsbD i)) last.reverse) := by
  have h : ∀ (is : List ℕ) (curval : List (List Tap)) (c : BitVec width), Describes last data curval c →
      Describes last data (is.foldl (CRCEngine.unroll polynom) curval)
        (is.foldl (fun c i => Crc.feedBit (reflected width polynom) c (data.getLsbD i)) c) := by
    intro is
    induction is with
    | nil => exact fun _ _ h => h
    | cons i is ih => exact fun _ _ h => ih _ _ (h.unroll hp hw i)
  exact h _ _ _ (describes_start last data)

end Equations

/-- The next CRC, read backwards, is the reflected register after the data. -/
theorem next_reverse {polynom : ℕ} (hp : polynom.testBit 0 = true) (hw : 0 < width) (hd : dataWidth ≤ width)
    (last : BitVec width) (data : BitVec dataWidth) :
    (next polynom last data).reverse = Crc.feed (reflected width polynom) last.reverse data := by
  obtain ⟨hlen, hbit⟩ := describes_equations last data hp hw
  rw [Crc.feed_bits hd] at hbit
  apply BitVec.eq_of_getLsbD_eq
  intro j hj
  have h1 : width - 1 - j < width := by omega
  have h2 : width - 1 - (width - 1 - j) = j := by omega
  have h3 := hbit (width - 1 - j) (by omega)
  rw [h2] at h3
  rw [BitVec.getLsbD_reverse, BitVec.getMsbD_eq_getLsbD, next, BitVec.getLsbD_setWidth, BitVec.getLsbD_ofBoolListLE,
    List.getD_eq_getElem?_getD, List.getElem?_map, List.getElem?_eq_getElem (by omega), Option.map_some,
    Option.getD_some, h3]
  simp [hj, h1]

/-! ## The serial register -/

/-- A clock of the bit-serial register: the bit that leaves it, with the data bit added, is fed back at the taps. -/
def serialStep (polynom : ℕ) (c : BitVec width) (b : Bool) : BitVec width :=
  c <<< 1 ^^^ (if c.msb ^^ b then BitVec.ofNat width polynom else 0)

/-- The serial register after the bits of `data`. -/
def serial (polynom : ℕ) (last : BitVec width) (data : BitVec dataWidth) : BitVec width :=
  (List.range dataWidth).foldl (fun c i => serialStep polynom c (data.getLsbD i)) last

theorem getLsbD_serialStep (polynom : ℕ) (c : BitVec width) (b : Bool) {k : ℕ} (hk : k < width) :
    (serialStep polynom c b).getLsbD k =
      ((!decide (k < 1) && c.getLsbD (k - 1)) ^^ ((c.msb ^^ b) && polynom.testBit k)) := by
  unfold serialStep
  rw [BitVec.getLsbD_xor, BitVec.getLsbD_shiftLeft]
  cases c.msb ^^ b with
  | false => simp [hk]
  | true =>
    have htap : (BitVec.ofNat width polynom).getLsbD k = polynom.testBit k := by
      rw [BitVec.getLsbD_ofNat, decide_eq_true hk, Bool.true_and]
    simp only [if_true, htap, hk, decide_true, Bool.true_and]

/-- Read backwards, it is the reflected register. -/
theorem serialStep_reverse (polynom : ℕ) (c : BitVec width) (b : Bool) :
    (serialStep polynom c b).reverse = Crc.feedBit (reflected width polynom) c.reverse b := by
  apply BitVec.eq_of_getLsbD_eq
  intro j hj
  have hfeed : (Crc.feedBit (reflected width polynom) c.reverse b).getLsbD j =
      (c.reverse.getLsbD (j + 1) ^^ ((c.reverse.getLsbD 0 ^^ b) && polynom.testBit (width - 1 - j))) := by
    unfold Crc.feedBit Crc.feed Crc.shifts Crc.shifts
    rw [Crc.getLsbD_shift, getLsbD_reflected hj]
    have hw : 0 < width := by omega
    simp [hw]
  have hmsb : c.reverse.getLsbD 0 = c.msb := by
    rw [BitVec.getLsbD_reverse]
    rfl
  have hbit : c.reverse.getLsbD (j + 1) = (!decide (width - 1 - j < 1) && c.getLsbD (width - 1 - j - 1)) := by
    rw [BitVec.getLsbD_reverse, BitVec.getMsbD_eq_getLsbD, show width - 1 - (j + 1) = width - 1 - j - 1 by omega]
    congr 1
    rw [← decide_not]
    exact decide_eq_decide.2 (by omega)
  rw [hfeed, hmsb, hbit, ← getLsbD_serialStep polynom c b (by omega), BitVec.getLsbD_reverse, BitVec.getMsbD_eq_getLsbD]
  simp [hj]

theorem serial_reverse (polynom : ℕ) (last : BitVec width) (data : BitVec dataWidth) :
    (serial polynom last data).reverse = (List.range dataWidth).foldl
      (fun c i => Crc.feedBit (reflected width polynom) c (data.getLsbD i)) last.reverse := by
  unfold serial
  induction List.range dataWidth generalizing last with
  | nil => rfl
  | cons i is ih => rw [List.foldl_cons, List.foldl_cons, ih, serialStep_reverse]

/-- The equation of a bit of the next CRC is that bit of the serial register. -/
theorem xors_equations {polynom : ℕ} (hp : polynom.testBit 0 = true) (hw : 0 < width) (last : BitVec width)
    (data : BitVec dataWidth) {k : ℕ} (hk : k < (equations dataWidth width polynom).length) :
    xors last data (equations dataWidth width polynom)[k] = (serial polynom last data).getLsbD k := by
  obtain ⟨hlen, hbit⟩ := describes_equations last data hp hw
  have h1 : width - 1 - k < width := by omega
  have h2 : width - 1 - (width - 1 - k) = k := by omega
  rw [hbit k hk, ← serial_reverse, BitVec.getLsbD_reverse, BitVec.getMsbD_eq_getLsbD, h2]
  simp [h1]

/-- The serial register takes every value, whatever the data. -/
theorem serial_surjective {polynom : ℕ} (hp : polynom.testBit 0 = true) (hw : 0 < width) (data : BitVec dataWidth) :
    Function.Surjective fun last : BitVec width => serial polynom last data := by
  have htop : (reflected width polynom).getLsbD (width - 1) = true := by
    rw [getLsbD_reflected (by omega), show width - 1 - (width - 1) = 0 by omega]
    exact hp
  have hstep : ∀ b, Function.Injective fun c : BitVec width => Crc.feedBit (reflected width polynom) c b := fun b c d h =>
    (BitVec.xor_left_inj _).1 (Crc.shifts_injective htop 1 h)
  have hrun : ∀ is : List ℕ, Function.Injective fun c : BitVec width =>
      is.foldl (fun c i => Crc.feedBit (reflected width polynom) c (data.getLsbD i)) c := by
    intro is
    induction is with
    | nil => exact Function.injective_id
    | cons i is ih => exact ih.comp (hstep _)
  have : Finite (BitVec width) := Finite.of_injective BitVec.toFin fun _ _ => BitVec.eq_of_toFin_eq
  refine Finite.surjective_of_injective fun c d h => ?_
  have h' := congrArg BitVec.reverse h
  simp only [serial_reverse] at h'
  rw [← BitVec.reverse_reverse_eq (x := c), hrun _ h', BitVec.reverse_reverse_eq]

/-- The next CRC is what the serial register makes of the data, and no equation runs out of terms. -/
theorem next_eq_serial {polynom : ℕ} (hp : polynom.testBit 0 = true) (hw : 0 < width) (last : BitVec width)
    (data : BitVec dataWidth) : next polynom last data = serial polynom last data ∧
      (equations dataWidth width polynom).length = width ∧ ∀ eq ∈ equations dataWidth width polynom, eq ≠ [] := by
  have hlen := (describes_equations last data hp hw).length
  refine ⟨?_, hlen, ?_⟩
  · apply BitVec.eq_of_getLsbD_eq
    intro k hk
    rw [next, BitVec.getLsbD_setWidth, BitVec.getLsbD_ofBoolListLE, List.getD_eq_getElem?_getD, List.getElem?_map,
      List.getElem?_eq_getElem (by omega), Option.map_some, Option.getD_some, xors_equations hp hw]
    simp [hk]
  · rintro eq heq rfl
    obtain ⟨k, hk, hnil⟩ := List.getElem_of_mem heq
    -- some register has a one there after the data
    obtain ⟨c, hc⟩ := serial_surjective hp hw data (BitVec.allOnes width)
    have hone := xors_equations hp hw c data hk
    rw [hnil, show serial polynom c data = _ from hc, BitVec.getLsbD_allOnes] at hone
    have hzero : xors c data [] = false := rfl
    rw [hzero, eq_comm, decide_eq_false_iff_not] at hone
    omega

theorem next_eq_serial_crc5 : next 0x05 (0x1f : BitVec 5) (0x2a5 : BitVec 11) =
    serial 0x05 0x1f (0x2a5 : BitVec 11) ∧
      (equations 11 5 0x05).length = 5 ∧ ∀ eq ∈ equations 11 5 0x05, eq ≠ [] :=
  next_eq_serial (by decide) (by decide) _ _

end CRCEngine

/-! ## CRC-32 -/

namespace CRC32

/-- The width of the CRC. -/
abbrev width : ℕ := 32

/-- Its polynomial. -/
def polynom : ℕ := 0x04C11DB7

/-- Its initial value. -/
def init : BitVec width := BitVec.ofNat width (2 ^ width - 1)

/-- What it is after data and their check sequence. -/
def check : BitVec width := 0xC704DD7B

/-- The inputs of one cycle: `data`, and the `reset` and `ce` of the two inserters. -/
structure In (dw : ℕ) where
  reset : Bool
  ce : Bool
  data : BitVec dw

variable {dw : ℕ}

/-- `engine.next`. -/
def next (reg : BitVec width) (data : BitVec dw) : BitVec width := CRCEngine.next polynom reg data

/-- One cycle of the register. -/
def step (reg : BitVec width) (i : In dw) : BitVec width :=
  if i.reset then init else if i.ce then next reg i.data else reg

/-- The `value` output. -/
def value (reg : BitVec width) : BitVec width := ~~~ reg.reverse

/-- The `error` output. -/
def error (reg : BitVec width) (data : BitVec dw) : Bool := next reg data != check

end CRC32

/-- `LiteEthMACCRC32`. -/
def crc32Module (dw : ℕ) : Machine (CRC32.In dw) (BitVec CRC32.width) where
  reset := CRC32.init
  step := CRC32.step

/-- `chooser(signal, shift, output, reverse=reverse)` for a `shift` of `bits` bits. -/
def chooser {w : ℕ} (signal : BitVec w) (bits shift dw : ℕ) (reverse : Bool) : BitVec dw :=
  signal.extractLsb' ((if reverse then 2 ^ bits - shift - 1 else shift) * dw) dw

/-! ## The standard CRC-32 -/

/-- The polynomial of `binascii.crc32`. -/
def crc32Poly : BitVec 32 := 0xEDB88320

/-- `binascii.crc32`. -/
def crc32 (m : List (BitVec 8)) : BitVec 32 := ~~~ (m.foldl (Crc.feed crc32Poly) 0xffffffff)

example : crc32 ((List.range 9).map fun k => BitVec.ofNat 8 (0x31 + k)) = 0xCBF43926 := by decide +kernel

/-- `split_bytes(v, n, "little")`. -/
def splitBytes {w : ℕ} (v : BitVec w) (n : ℕ) : List (BitVec 8) :=
  (List.range n).map fun k => v.extractLsb' (8 * k) 8


namespace CRC32

theorem reflected_polynom : CRCEngine.reflected width polynom = crc32Poly := by decide +kernel

theorem next_reverse (reg : BitVec width) (data : BitVec 8) :
    (next reg data).reverse = Crc.feed crc32Poly reg.reverse data := by
  have h : (CRCEngine.next polynom reg data).reverse = Crc.feed (CRCEngine.reflected width polynom) reg.reverse data :=
    CRCEngine.next_reverse (by decide) (by decide) (by decide) reg data
  rw [reflected_polynom] at h
  exact h

/-- The register after the bytes `m`, one a cycle. -/
def after (m : List (BitVec 8)) : BitVec width := (crc32Module 8).run (m.map fun b => ⟨false, true, b⟩)

theorem after_concat (m : List (BitVec 8)) (b : BitVec 8) : after (m ++ [b]) = next (after m) b := by
  unfold after Machine.run
  rw [List.map_append, List.map_singleton, Machine.runFrom_concat]
  rfl

/-- Read backwards, it is the register of the reflected CRC. -/
theorem after_reverse (m : List (BitVec 8)) : (after m).reverse = m.foldl (Crc.feed crc32Poly) 0xffffffff := by
  induction m using List.reverseRecOn with
  | nil => decide +kernel
  | append_singleton m b ih => rw [after_concat, next_reverse, List.foldl_append, ih]; rfl

theorem value_after (m : List (BitVec 8)) : value (after m) = crc32 m := by
  unfold value crc32
  rw [after_reverse]

/-- The four bytes the inserter appends after `m`, its `cnt` going from 3 down to 0. -/
def appended (m : List (BitVec 8)) : List (BitVec 8) := [3, 2, 1, 0].map fun cnt => chooser (value (after m)) 2 cnt 8 true

/-- They are the standard CRC-32 of `m`, low byte first. -/
theorem appended_eq (m : List (BitVec 8)) : appended m = splitBytes (crc32 m) 4 := by
  unfold appended
  rw [value_after]
  rfl

theorem getLsbD_bytes (t₀ t₁ t₂ t₃ : BitVec 8) (i : ℕ) :
    BitVec.getLsbD (t₃ ++ t₂ ++ t₁ ++ t₀) i = if i < 8 then t₀.getLsbD i else
      if i < 16 then t₁.getLsbD (i - 8) else if i < 24 then t₂.getLsbD (i - 16) else t₃.getLsbD (i - 24) := by
  simp only [BitVec.getLsbD_append]
  split_ifs <;> first | rfl | omega

/-- Four bytes are those of the word they make. -/
theorem splitBytes_bytes (t₀ t₁ t₂ t₃ : BitVec 8) :
    splitBytes (t₃ ++ t₂ ++ t₁ ++ t₀ : BitVec 32) 4 = [t₀, t₁, t₂, t₃] := by
  have h : ∀ (k : ℕ) (t : BitVec 8), (∀ i < 8, BitVec.getLsbD (t₃ ++ t₂ ++ t₁ ++ t₀) (8 * k + i) = t.getLsbD i) →
      BitVec.extractLsb' (8 * k) 8 (t₃ ++ t₂ ++ t₁ ++ t₀ : BitVec 32) = t := by
    intro k t hk
    apply BitVec.eq_of_getLsbD_eq
    intro i hi
    rw [BitVec.getLsbD_extractLsb', hk i hi]
    simp [hi]
  have h0 := h 0 t₀ fun i hi => by rw [getLsbD_bytes, if_pos (by omega)]; simp
  have h1 := h 1 t₁ fun i hi => by
    rw [getLsbD_bytes, if_neg (by omega), if_pos (by omega)]; congr 1; omega
  have h2 := h 2 t₂ fun i hi => by
    rw [getLsbD_bytes, if_neg (by omega), if_neg (by omega), if_pos (by omega)]; congr 1; omega
  have h3 := h 3 t₃ fun i hi => by
    rw [getLsbD_bytes, if_neg (by omega), if_neg (by omega), if_neg (by omega)]; congr 1; omega
  show [BitVec.extractLsb' (8 * 0) 8 _, BitVec.extractLsb' (8 * 1) 8 _, BitVec.extractLsb' (8 * 2) 8 _,
    BitVec.extractLsb' (8 * 3) 8 _] = _
  rw [h0, h1, h2, h3]

theorem splitBytes_injective : Function.Injective fun v : BitVec 32 => splitBytes v 4 := by
  intro a b hab
  have hbit : ∀ k < 4, a.extractLsb' (8 * k) 8 = b.extractLsb' (8 * k) 8 := by
    intro k hk
    exact List.map_inj_left.1 hab k (List.mem_range.2 hk)
  apply BitVec.eq_of_getLsbD_eq
  intro i hi
  have h := congrArg (fun v : BitVec 8 => v.getLsbD (i % 8)) (hbit (i / 8) (by omega))
  simp only [BitVec.getLsbD_extractLsb', Nat.div_add_mod] at h
  simpa [Nat.mod_lt] using h

/-- The residue is what the register reaches after its own complement. -/
theorem check_reverse : check.reverse = Crc.shifts crc32Poly 32 0xffffffff := by decide +kernel

/-- The register after four more bytes is the residue iff they are the CRC-32 of those before. -/
theorem error_after_eq_false_iff (m : List (BitVec 8)) (t₀ t₁ t₂ t₃ : BitVec 8) :
    error (after (m ++ [t₀, t₁, t₂])) t₃ = false ↔ [t₀, t₁, t₂, t₃] = splitBytes (crc32 m) 4 := by
  -- the four bytes are fed as one word
  have hfeed : (next (after (m ++ [t₀, t₁, t₂])) t₃).reverse =
      Crc.feed crc32Poly (m.foldl (Crc.feed crc32Poly) 0xffffffff) (t₃ ++ t₂ ++ t₁ ++ t₀) := by
    rw [next_reverse, after_reverse, List.foldl_append, List.foldl_cons, List.foldl_cons, List.foldl_cons,
      List.foldl_nil, Crc.feed_append (by decide), Crc.feed_append (by decide), Crc.feed_append (by decide)]
  have herr : error (after (m ++ [t₀, t₁, t₂])) t₃ = false ↔
      (next (after (m ++ [t₀, t₁, t₂])) t₃).reverse = check.reverse := by
    unfold error
    rw [bne_eq_false_iff_eq]
    constructor
    · intro h; rw [h]
    · intro h
      rw [← BitVec.reverse_reverse_eq (x := next _ t₃), h, BitVec.reverse_reverse_eq]
  rw [herr, hfeed, check_reverse, Crc.feed_eq_iff (by decide +kernel), ← splitBytes_bytes, splitBytes_injective.eq_iff]
  unfold crc32
  rw [← BitVec.xor_allOnes]
  exact Iff.rfl

/-- The checker accepts exactly the four bytes the inserter appends, which are those of the standard
CRC-32. -/
theorem acceptance_exact (m : List (BitVec 8)) (t₀ t₁ t₂ t₃ : BitVec 8) :
    (error (after (m ++ [t₀, t₁, t₂])) t₃ = false ↔ [t₀, t₁, t₂, t₃] = appended m) ∧
      appended m = splitBytes (crc32 m) 4 := by
  constructor
  · rw [error_after_eq_false_iff, appended_eq]
  · exact appended_eq m

end CRC32

end LiteEth.Mac
