/-
The converters of `mac/core.py` between the words of a 32-bit core and the bytes of its PHY, by what the core relies
on: a word is sent byte by byte, the most significant one first if the core is big-endian, each byte with its own bit
of `last_be` and of `error`; the bytes that arrive are loaded into a word in the same order, and the places that the
end of a packet leaves free keep what they held.
-/
import LiteEth.Mac.Sram
import LiteEth.Rtl.StreamSim
import Mathlib.Data.List.GetD

namespace LiteEth.Mac.Converter

open LiteEth.Rtl

/-! ## Bytes and words -/

/-- The place in a word of the `k`-th of its bytes: the converters are `reverse` if the core is big-endian. -/
def lane (e : Endianness) (k : ℕ) : ℕ :=
  match e with
  | .big => 3 - k
  | .little => k

theorem lane_lt (e : Endianness) {k : ℕ} (hk : k < 4) : lane e k < 4 := by
  cases e <;> simp only [lane]
  · omega
  · exact hk

theorem lane_lane (e : Endianness) {k : ℕ} (hk : k < 4) : lane e (lane e k) = k := by
  cases e
  · exact Nat.sub_sub_self (Nat.le_of_lt_succ hk)
  · rfl

theorem lane_inj (e : Endianness) {j k : ℕ} (hj : j < 4) (hk : k < 4) : lane e j = lane e k ↔ j = k := by
  cases e
  · simp only [lane]
    omega
  · rfl

/-- A byte of a word, with its bits of `last_be` and `error`. -/
def byteOf (w : PhyBeat 32) (l : ℕ) (last : Bool) : PhyBeat 8 :=
  { data := w.data.extractLsb' (8 * l) 8, lastBe := w.lastBe.extractLsb' l 1, error := w.error.extractLsb' l 1
    last := last }

/-- The word of the bytes in its places. -/
def wordOf (lanes : ℕ → PhyBeat 8) (last : Bool) : PhyBeat 32 :=
  { data := (lanes 3).data ++ (lanes 2).data ++ (lanes 1).data ++ (lanes 0).data
    lastBe := (lanes 3).lastBe ++ (lanes 2).lastBe ++ (lanes 1).lastBe ++ (lanes 0).lastBe
    error := (lanes 3).error ++ (lanes 2).error ++ (lanes 1).error ++ (lanes 0).error
    last := last }

/-- The parts of a word of four. -/
theorem extract_part {n : ℕ} (a b c d : BitVec n) {l : ℕ} (hl : l < 4) :
    (a ++ b ++ c ++ d).extractLsb' (n * l) n = if l = 3 then a else if l = 2 then b else if l = 1 then c else d := by
  have hlow : ∀ {k : ℕ} (hi : BitVec k) (lo : BitVec n), (hi ++ lo).extractLsb' (n * 0) n = lo := fun hi lo => by
    rw [BitVec.extractLsb'_append_eq_of_add_le (by omega), Nat.mul_zero, BitVec.extractLsb'_eq_self]
  have hhigh : ∀ {k : ℕ} (hi : BitVec k) (lo : BitVec n) (l : ℕ),
      (hi ++ lo).extractLsb' (n * (l + 1)) n = hi.extractLsb' (n * l) n := fun hi lo l => by
    rw [Nat.mul_succ, BitVec.extractLsb'_append_eq_of_le (by omega), Nat.add_sub_cancel]
  interval_cases l
  · exact hlow _ d
  · exact (hhigh _ d 0).trans (hlow _ c)
  · exact (hhigh _ d 1).trans ((hhigh _ c 0).trans (hlow a b))
  · refine (hhigh _ d 2).trans ((hhigh _ c 1).trans ((hhigh a b 0).trans ?_))
    rw [Nat.mul_zero, BitVec.extractLsb'_eq_self]
    rfl

/-- The bytes of a word are those it is made of. -/
theorem byteOf_wordOf (lanes : ℕ → PhyBeat 8) (last : Bool) {l : ℕ} (hl : l < 4) :
    byteOf (wordOf lanes last) l (lanes l).last = lanes l := by
  have hdata := extract_part (lanes 3).data (lanes 2).data (lanes 1).data (lanes 0).data hl
  have hlastBe := extract_part (lanes 3).lastBe (lanes 2).lastBe (lanes 1).lastBe (lanes 0).lastBe hl
  have herror := extract_part (lanes 3).error (lanes 2).error (lanes 1).error (lanes 0).error hl
  have hpick : ∀ {β : Type} (g : PhyBeat 8 → β), (if l = 3 then g (lanes 3) else if l = 2 then g (lanes 2)
      else if l = 1 then g (lanes 1) else g (lanes 0)) = g (lanes l) := fun g => by interval_cases l <;> rfl
  rw [hpick (·.data)] at hdata
  rw [hpick (·.lastBe), Nat.one_mul] at hlastBe
  rw [hpick (·.error), Nat.one_mul] at herror
  show PhyBeat.mk _ _ _ _ = PhyBeat.mk _ _ _ _
  exact congr (congr (congr (congrArg PhyBeat.mk hdata) hlastBe) herror) rfl

/-- `last_be` with the mark of the `j`-th byte. -/
def mark (e : Endianness) (j : ℕ) : BitVec 4 := BitVec.ofNat 4 (2 ^ lane e j)

theorem extract_mark (e : Endianness) {j k : ℕ} (hj : j < 4) (hk : k < 4) :
    (mark e j).extractLsb' (lane e k) 1 = if j = k then 1 else 0 := by
  cases e <;> interval_cases j <;> interval_cases k <;> rfl

/-- The bytes of a word, in order; `last` comes with the last of them. -/
def bytesOf (e : Endianness) (w : PhyBeat 32) : List (PhyBeat 8) :=
  (List.range 4).map fun k => byteOf w (lane e k) (w.last && k == 3)

/-- The bytes of the data of a word, in order. -/
def dataBytes (e : Endianness) (d : BitVec 32) : List (BitVec 8) :=
  (List.range 4).map fun k => d.extractLsb' (8 * lane e k) 8

/-! ## Packets in words -/

/-- The words of a packet of the bytes `ds`. The last word may have places to spare. -/
inductive Carries (e : Endianness) : List (BitVec 8) → List (PhyBeat 32) → Prop
  | last (n : ℕ) (hn : n < 4) (w : PhyBeat 32) (hl : w.last = true) (hbe : w.lastBe = mark e n)
      (herr : w.error &&& w.lastBe = 0) : Carries e ((dataBytes e w.data).take (n + 1)) [w]
  | word (w : PhyBeat 32) (hl : w.last = false) (hbe : w.lastBe = 0) {ds : List (BitVec 8)} {ws : List (PhyBeat 32)}
      (h : Carries e ds ws) : Carries e (dataBytes e w.data ++ ds) (w :: ws)

theorem length_dataBytes (e : Endianness) (d : BitVec 32) : (dataBytes e d).length = 4 := by simp [dataBytes]

theorem Carries.length {e : Endianness} {ds : List (BitVec 8)} {ws : List (PhyBeat 32)} (h : Carries e ds ws) :
    0 < ds.length ∧ ws.length = (ds.length + 3) / 4 := by
  induction h with
  | last n hn w hl hbe herr =>
    rw [List.length_take, length_dataBytes, List.length_singleton]
    omega
  | word w hl hbe h ih =>
    rw [List.length_append, length_dataBytes, List.length_cons]
    omega

/-! ## From words to bytes -/

/-- What a converter to bytes makes of its words. -/
abbrev split (e : Endianness) : Transducer (PhyBeat 32) (PhyBeat 8) where
  State := Unit
  init := ()
  next _ _ := ()
  out _ w := bytesOf e w
  ok _ _ := True

theorem split_makes (e : Endianness) (ws : List (PhyBeat 32)) : (split e).Makes ws (ws.flatMap (bytesOf e)) := by
  induction ws with
  | nil => exact ⟨trivial, rfl, rfl⟩
  | cons w ws ih => exact ⟨⟨trivial, ih.ok⟩, rfl, congrArg (bytesOf e w ++ ·) ih.outs⟩

/-! ## From bytes to words -/

/-- A word that is being loaded: the bytes so far, and what is in its places. -/
structure Loading where
  count : ℕ
  lanes : ℕ → PhyBeat 8

namespace Loading

variable (e : Endianness) (q : Loading) (b : PhyBeat 8)

/-- The word is complete with the byte. -/
def full : Bool := q.count == 3 || b.last

/-- The places with one more byte. -/
def load : ℕ → PhyBeat 8 := Function.update q.lanes (lane e q.count) b

end Loading

/-- What a converter to words makes of its bytes. -/
abbrev joined (e : Endianness) : Transducer (PhyBeat 8) (PhyBeat 32) where
  State := Loading
  init := ⟨0, fun _ => ⟨0, 0, 0, false⟩⟩
  next q b := ⟨if q.full b then 0 else q.count + 1, q.load e b⟩
  out q b := if q.full b then [wordOf (q.load e b) b.last] else []
  ok _ _ := True

section Joined

variable {e : Endianness} {q : Loading}

theorem load_lane (b : PhyBeat 8) (hc : q.count < 4) {j : ℕ} (hj : j < 4) :
    q.load e b (lane e j) = if j = q.count then b else q.lanes (lane e j) := by
  unfold Loading.load
  simp only [Function.update_apply, lane_inj e hj hc]

theorem getD_concat {α : Type} (m : List α) (b d : α) (j : ℕ) :
    (m ++ [b]).getD j d = if j = m.length then b else m.getD j d := by
  rcases Nat.lt_trichotomy j m.length with hlt | rfl | hgt
  · rw [if_neg hlt.ne, List.getD_append _ _ _ _ hlt]
  · simp
  · rw [if_neg hgt.ne', List.getD_eq_default _ _ hgt.le, List.getD_eq_default _ _ (by simpa using hgt)]

/-- The first bytes of a word. -/
theorem joined_begun (hq : q.count = 0) {m : List (PhyBeat 8)} (hm : ∀ b ∈ m, b.last = false) (hlen : m.length ≤ 3) :
    (joined e).outs q m = [] ∧ ((joined e).run q m).count = m.length ∧
      ∀ j < 4, ((joined e).run q m).lanes (lane e j) = m.getD j (q.lanes (lane e j)) := by
  induction m using List.reverseRecOn with
  | nil => exact ⟨rfl, hq, fun _ _ => rfl⟩
  | append_singleton m b ih =>
    rw [List.length_append, List.length_singleton] at hlen
    obtain ⟨h1, h2, h3⟩ := ih (fun x hx => hm x (List.mem_append_left _ hx)) (by omega)
    have hfull : ((joined e).run q m).full b = false := by
      unfold Loading.full
      rw [h2, hm b (by simp), Bool.or_false]
      exact beq_false_of_ne (by omega)
    rw [Transducer.outs_append, Transducer.run_append, h1, Transducer.outs_cons, Transducer.run_cons]
    simp only [hfull, Bool.false_eq_true, if_false, Transducer.outs_nil, Transducer.run_nil, h2, List.length_append,
      List.length_singleton, List.append_nil, true_and]
    intro j hj
    rw [load_lane b (by rw [h2]; omega) hj, h2, h3 j hj, getD_concat]

/-- A word is put together. -/
theorem joined_word (hq : q.count = 0) {m : List (PhyBeat 8)} (hm : ∀ b ∈ m, b.last = false) {b : PhyBeat 8}
    (hlen : m.length ≤ 3) (hb : m.length = 3 ∨ b.last = true) : ∃ lanes : ℕ → PhyBeat 8,
      (joined e).outs q (m ++ [b]) = [wordOf lanes b.last] ∧ (joined e).run q (m ++ [b]) = ⟨0, lanes⟩ ∧
        ∀ j < 4, lanes (lane e j) = (m ++ [b]).getD j (q.lanes (lane e j)) := by
  obtain ⟨h1, h2, h3⟩ := joined_begun (e := e) hq hm hlen
  have hfull : ((joined e).run q m).full b = true := by
    unfold Loading.full
    rw [h2, Bool.or_eq_true, beq_iff_eq]
    exact hb
  refine ⟨((joined e).run q m).load e b, ?_, ?_, fun j hj => ?_⟩
  · rw [Transducer.outs_append, h1, Transducer.outs_cons]
    simp only [hfull, if_true, Transducer.outs_nil, List.nil_append, List.append_nil]
  · rw [Transducer.run_append, Transducer.run_cons]
    simp only [hfull, if_true, Transducer.run_nil]
  · rw [load_lane b (by omega) hj, h2, h3 j hj, getD_concat]

/-- The data of a word. -/
theorem dataBytes_wordOf (lanes : ℕ → PhyBeat 8) (last : Bool) :
    dataBytes e (wordOf lanes last).data = (List.range 4).map fun j => (lanes (lane e j)).data :=
  List.map_congr_left fun _ hj => congrArg PhyBeat.data (byteOf_wordOf lanes last (lane_lt e (List.mem_range.1 hj)))

variable (e) in
/-- Bits that agree at every place. -/
theorem eq_of_lanes {x y : BitVec 4} (h : ∀ j < 4, x.extractLsb' (lane e j) 1 = y.extractLsb' (lane e j) 1) : x = y := by
  apply BitVec.eq_of_getLsbD_eq
  intro l hl
  have hbit := h (lane e l) (lane_lt e hl)
  rw [lane_lane e hl] at hbit
  rw [BitVec.getLsbD_eq_extractLsb', BitVec.getLsbD_eq_extractLsb', hbit]

theorem lastBe_wordOf (lanes : ℕ → PhyBeat 8) (last : Bool) {j : ℕ} (hj : j < 4) :
    (wordOf lanes last).lastBe.extractLsb' (lane e j) 1 = (lanes (lane e j)).lastBe :=
  congrArg PhyBeat.lastBe (byteOf_wordOf lanes last (lane_lt e hj))

theorem error_wordOf (lanes : ℕ → PhyBeat 8) (last : Bool) {j : ℕ} (hj : j < 4) :
    (wordOf lanes last).error.extractLsb' (lane e j) 1 = (lanes (lane e j)).error :=
  congrArg PhyBeat.error (byteOf_wordOf lanes last (lane_lt e hj))

/-- The beats of a packet as the converter is given it: `last_be` comes with `last`, and the last byte has no error. -/
structure Received (f : List (PhyBeat 8)) : Prop where
  frame : IsFrame (·.last) f
  lastBe : ∀ b ∈ f, b.lastBe = if b.last then 1 else 0
  error : ∀ b ∈ f, b.last = true → b.error = 0

/-- No place holds a mark. -/
def Loading.Tidy (q : Loading) : Prop := q.count = 0 ∧ ∀ l < 4, (q.lanes l).lastBe = 0

/-- The end of a packet. -/
theorem joined_last (hq : q.Tidy) {f : List (PhyBeat 8)} (hf : Received f) (hlen : f.length ≤ 4) :
    Carries e (f.map (·.data)) ((joined e).outs q f) ∧ ((joined e).run q f).count = 0 := by
  obtain ⟨⟨m, b, hm, hb⟩, hbe, herr⟩ := hf
  rw [List.length_append, List.length_singleton] at hlen
  obtain ⟨lanes, h1, h2, h3⟩ := joined_word (e := e) hq.1 hm (by omega) (.inr hb)
  rw [h1, h2, hb]
  refine ⟨?_, rfl⟩
  -- lane by lane: the bytes of the frame, then what the lanes held before
  have hlane : ∀ j < 4, lanes (lane e j) = if j = m.length then b else m.getD j (q.lanes (lane e j)) := fun j hj => by
    rw [h3 j hj, getD_concat]
  have hmark : ∀ j < 4, (lanes (lane e j)).lastBe = if m.length = j then 1 else 0 := fun j hj => by
    rw [hlane j hj]
    by_cases hj' : m.length = j
    · rw [if_pos hj'.symm, if_pos hj', hbe b (by simp), hb, if_pos rfl]
    · rw [if_neg (Ne.symm hj'), if_neg hj']
      -- a lane behind the last byte is as the last word left it, without a mark
      rcases Nat.lt_or_ge j m.length with hlt | hge
      · have hmem := List.getElem_mem hlt
        rw [List.getD_eq_getElem _ _ hlt, hbe _ (List.mem_append_left _ hmem), hm _ hmem]
        rfl
      · rw [List.getD_eq_default _ _ hge]
        exact hq.2 _ (lane_lt e hj)
  have hdata : (m ++ [b]).map (·.data) = (dataBytes e (wordOf lanes true).data).take (m.length + 1) := by
    rw [dataBytes_wordOf, ← List.map_take, List.take_range, Nat.min_eq_left (by omega)]
    refine List.ext_getElem (by simp) fun j hj _ => ?_
    rw [List.length_map, List.length_append, List.length_singleton] at hj
    rw [List.getElem_map, List.getElem_map, List.getElem_range, h3 j (by omega),
      List.getD_eq_getElem _ _ (by simpa using hj)]
  rw [hdata]
  -- the mark is at the last byte, and the error is masked by it
  refine .last m.length (by omega) _ rfl (eq_of_lanes e fun j hj => ?_) (eq_of_lanes e fun j hj => ?_)
  · rw [lastBe_wordOf lanes true hj, hmark j hj, extract_mark e (by omega) hj]
  · rw [BitVec.extractLsb'_and, error_wordOf lanes true hj, lastBe_wordOf lanes true hj, hmark j hj]
    by_cases hj' : m.length = j
    · rw [hlane j hj, if_pos hj'.symm, herr b (by simp) hb, if_pos hj']
      cases e <;> interval_cases j <;> rfl
    · rw [if_neg hj']
      simp

/-- A word inside a packet. -/
theorem joined_inside (hq : q.count = 0) {m : List (PhyBeat 8)} (hlen : m.length = 4) (hm : ∀ b ∈ m, b.last = false)
    (hbe : ∀ b ∈ m, b.lastBe = 0) : ∃ w : PhyBeat 32, w.last = false ∧ w.lastBe = 0 ∧
      dataBytes e w.data = m.map (·.data) ∧ (joined e).outs q m = [w] ∧ ((joined e).run q m).Tidy := by
  obtain ⟨m, b, rfl⟩ := (List.eq_nil_or_concat' m).resolve_left (by rintro rfl; cases hlen)
  rw [List.length_append, List.length_singleton] at hlen
  obtain ⟨lanes, h1, h2, h3⟩ := joined_word (e := e) (b := b) hq (fun x hx => hm x (List.mem_append_left _ hx))
    (by omega) (.inl (by omega))
  have hlane : ∀ j < 4, ∃ hj : j < (m ++ [b]).length, lanes (lane e j) = (m ++ [b])[j] := fun j hj => by
    have hj' : j < (m ++ [b]).length := by
      rw [List.length_append, List.length_singleton]
      omega
    exact ⟨hj', by rw [h3 j hj, List.getD_eq_getElem _ _ hj']⟩
  have hzero : ∀ j < 4, (lanes (lane e j)).lastBe = 0 := fun j hj => by
    obtain ⟨hj', h⟩ := hlane j hj
    rw [h]
    exact hbe _ (List.getElem_mem hj')
  refine ⟨_, hm b (by simp), eq_of_lanes e fun j hj => ?_, ?_, h1, ?_⟩
  · rw [lastBe_wordOf lanes _ hj, hzero j hj]
    simp
  · rw [dataBytes_wordOf]
    refine List.ext_getElem (by simp; omega) fun j hj _ => ?_
    rw [List.length_map, List.length_range] at hj
    rw [List.getElem_map, List.getElem_map, List.getElem_range]
    exact congrArg PhyBeat.data (hlane j hj).2
  · rw [h2]
    refine ⟨rfl, fun l hl => ?_⟩
    have h := hzero (lane e l) (lane_lt e hl)
    rwa [lane_lane e hl] at h

/-- A packet of more than one word is put together, whatever the places held before. -/
theorem joined_frame {f : List (PhyBeat 8)} (hf : Received f) (hq : q.count = 0) (hlen : q.Tidy ∨ 4 < f.length) :
    Carries e (f.map (·.data)) ((joined e).outs q f) ∧ ((joined e).run q f).count = 0 := by
  induction hn : f.length using Nat.strong_induction_on generalizing f q with
  | _ n ih =>
    by_cases h4 : f.length ≤ 4
    · exact joined_last (hlen.resolve_right (by omega)) hf h4
    · obtain ⟨hframe, hbe, herr⟩ := hf
      have hopen : ∀ b ∈ f.take 4, b.last = false := by
        obtain ⟨m, l, hm, hl⟩ := hframe
        rw [List.length_append, List.length_singleton] at h4
        rw [List.take_append_of_le_length (by omega)]
        exact fun b hb => hm b (List.mem_of_mem_take hb)
      obtain ⟨w, hw, hwbe, hdata, houts, htidy⟩ := joined_inside (e := e) hq (m := f.take 4)
        (List.length_take_of_le (by omega)) hopen fun b hb => by
          rw [hbe b (List.mem_of_mem_take hb), hopen b hb]
          rfl
      have hrest : Received (f.drop 4) := ⟨hframe.drop (by omega), fun b hb => hbe b (List.mem_of_mem_drop hb),
        fun b hb => herr b (List.mem_of_mem_drop hb)⟩
      obtain ⟨hcarry, hcount⟩ := ih (f.length - 4) (by omega) hrest htidy.1 (.inl htidy) List.length_drop
      have hsplit := List.take_append_drop 4 f
      rw [← hsplit, Transducer.outs_append, Transducer.run_append, houts, List.map_append, ← hdata]
      exact ⟨.word w hw hwbe hcarry, hcount⟩

end Joined

/-! ## Converters -/

/-- The converters of a core, by what they make of their streams. A word of bytes comes after its last byte is taken. -/
structure Converters (e : Endianness) where
  tx : Stage Unit (PhyBeat 32) (PhyBeat 8)
  splits : Stage.Sim (fun _ => True) tx (split e)
  rx : Stage Unit (PhyBeat 8) (PhyBeat 32)
  joins : Stage.Taking (fun _ => True) rx (joined e)

/-- A converter that shows the bytes of its word, one after the other; its register is the number of the byte. -/
abbrev shifter (e : Endianness) : Stage Unit (PhyBeat 32) (PhyBeat 8) where
  State := ℕ
  reset := 0
  source mux _ a := a.map fun w => byteOf w (lane e mux) (w.last && mux == 3)
  ready mux _ _ r := r && mux == 3
  step mux _ a r := if a.isSome && r then (if mux = 3 then 0 else mux + 1) else mux

section Shifter

variable {e : Endianness}

theorem bytesOf_drop (w : PhyBeat 32) {mux : ℕ} (h : mux < 4) :
    (bytesOf e w).drop mux = byteOf w (lane e mux) (w.last && mux == 3) :: (bytesOf e w).drop (mux + 1) := by
  rw [List.drop_eq_getElem_cons (by simpa [bytesOf] using h)]
  simp [bytesOf]

variable (e) in
/-- The bytes of the word at the sink that are still to be given. -/
def shifts (s : (shifter e).Run) (p : List (PhyBeat 8)) : Prop :=
  s.state < 4 ∧ (s.held = none → s.state = 0) ∧ p = s.held.elim [] fun w => (bytesOf e w).drop s.state

theorem shifts_cycle {s : (shifter e).Run} {p : List (PhyBeat 8)} (h : shifts e s p) (i : Stage.In Unit (PhyBeat 32)) :
    ∃ p', p ++ (split e).outs () (s.arrives i).toList = (s.gives i).toList ++ p' ∧ shifts e (s.next i) p' ∧
      (s.gives i = none → s.held = none ∧ s.arrives i = none ∧ p = [] ∨ s.source i ≠ none ∧ i.ready = false) ∧
      ∀ x, s.source i = some x → i.ready = false → ∀ j, (s.next i).source j = some x := by
  obtain ⟨mux, held⟩ := s
  obtain ⟨offer, ready⟩ : ∃ o r, i = ⟨(), o, r⟩ := ⟨i.offer, i.ready, rfl⟩
  obtain ⟨ready, rfl⟩ := ready
  obtain ⟨hmux, hrest, rfl⟩ := h
  have howed : (held.elim [] fun w => (bytesOf e w).drop mux) ++ (split e).outs ()
      ((⟨mux, held⟩ : (shifter e).Run).arrives ⟨(), offer, ready⟩).toList =
        (held.or offer).elim [] fun w => (bytesOf e w).drop mux := by
    cases held with
    | some w => exact List.append_nil _
    | none =>
      obtain rfl : mux = 0 := hrest rfl
      cases offer with
      | none => rfl
      | some w => exact List.append_nil _
  rw [howed]
  have hheld : ∀ {b}, held.or offer = b → (⟨mux, held⟩ : (shifter e).Run).next ⟨(), offer, ready⟩ =
      ⟨if b.isSome && ready then (if mux = 3 then 0 else mux + 1) else mux,
        if ready && mux == 3 then none else b⟩ := by
    rintro b rfl
    rfl
  cases hoff : held.or offer with
  | none =>
    obtain ⟨rfl, rfl⟩ := Option.or_eq_none_iff.1 hoff
    refine ⟨[], ?_, ?_, fun _ => .inl ⟨rfl, rfl, rfl⟩, nofun⟩
    · cases ready <;> rfl
    · rw [hheld hoff]
      exact ⟨hmux, fun _ => hrest rfl, by rw [ite_self]; rfl⟩
  | some w =>
    have hsource : (⟨mux, held⟩ : (shifter e).Run).source ⟨(), offer, ready⟩ =
        some (byteOf w (lane e mux) (w.last && mux == 3)) := by
      show (held.or offer).map _ = _
      rw [hoff]
      rfl
    rw [hheld hoff, Stage.Run.gives, hsource]
    cases ready with
    | false => exact ⟨_, rfl, ⟨hmux, nofun, rfl⟩, fun _ => .inr ⟨nofun, rfl⟩, fun x hx _ j => hx⟩
    | true =>
      refine ⟨(bytesOf e w).drop (mux + 1), bytesOf_drop w hmux, ?_, nofun, nofun⟩
      by_cases h3 : mux = 3
      · subst h3
        exact ⟨Nat.zero_lt_succ 3, fun _ => rfl, rfl⟩
      · have hne : (mux == 3) = false := beq_false_of_ne h3
        refine ⟨?_, ?_, ?_⟩
        · simp only [Option.isSome_some, Bool.and_self, if_true, if_neg h3]
          exact Nat.succ_lt_succ (Nat.lt_of_le_of_ne (Nat.le_of_lt_succ hmux) h3)
        · simp only [hne, Bool.and_false, Bool.false_eq_true, if_false]
          exact nofun
        · simp only [hne, Bool.and_false, Bool.false_eq_true, if_false, Option.isSome_some, Bool.and_self, if_true,
            if_neg h3]
          rfl

/-- It splits its words. -/
def shifter_splits : Stage.Sim (fun _ => True) (shifter e) (split e) where
  W := ℕ
  linear := inferInstance
  wf := wellFoundedLT_nat
  Rel s _ p w := shifts e s p ∧ w = 0
  reset := ⟨0, ⟨Nat.zero_lt_succ 3, fun _ => rfl, rfl⟩, rfl⟩
  cycle := by
    rintro s q p w ⟨h, rfl⟩ i -
    obtain ⟨p', hp, hnext, hprog, -⟩ := shifts_cycle h i
    refine ⟨p', 0, hp, ⟨hnext, rfl⟩, fun _ _ _ hg => ?_⟩
    rcases hprog hg with h1 | h1
    · exact .inl ⟨h1.1, h1.2.2, le_rfl⟩
    · exact .inr (.inl h1)
  stable := by
    rintro s q p w ⟨h, -⟩ i - x hx hr j
    obtain ⟨p', -, -, -, hstable⟩ := shifts_cycle h i
    exact hstable x hx hr j

end Shifter

/-- The registers of a converter to words: the word that is loaded, and whether it is valid and the last of its packet. -/
structure Loader where
  loading : Loading
  valid : Bool
  last : Bool

/-- A converter that loads its bytes into the word at its source. -/
abbrev loader (e : Endianness) : Stage Unit (PhyBeat 8) (PhyBeat 32) where
  State := Loader
  reset := ⟨(joined e).init, false, false⟩
  source s _ _ := if s.valid then some (wordOf s.loading.lanes s.last) else none
  ready s _ _ r := !s.valid || r
  step s _ b r :=
    if !s.valid || r then
      match b with
      | none => { s with valid := false }
      | some x => ⟨(joined e).next s.loading x, s.loading.full x, x.last⟩
    else s

/-- It puts its bytes together. -/
def loader_joins (e : Endianness) : Stage.Lazy (fun _ => True) (loader e) (joined e) where
  W := ℕ
  linear := inferInstance
  wf := wellFoundedLT_nat
  Rel s q p w := s.loading = q ∧ p = (if s.valid then [wordOf s.loading.lanes s.last] else []) ∧ w = 0
  reset := ⟨0, rfl, rfl, rfl⟩
  cycle := by
    rintro ⟨q, valid, last⟩ _ p w ⟨rfl, rfl, rfl⟩ _ b r -
    refine ⟨_, 0, ?_, ⟨?_, rfl, rfl⟩, fun _ hready hsource => ?_⟩
    · cases b with
      | none => cases valid <;> cases r <;> rfl
      | some x =>
        have hout : (joined e).outs q [x] = if q.full x then [wordOf (q.load e x) x.last] else [] := List.append_nil _
        cases valid <;> cases r <;> simp [hout]
    · cases b <;> cases valid <;> cases r <;> rfl
    · cases valid with
      | true => exact .inr (.inl nofun)
      | false => exact .inl ⟨hready rfl, rfl, le_rfl⟩
  stable := by
    rintro ⟨q, valid, last⟩ _ p w - _ b - x hx _ b' -
    cases valid with
    | true => exact hx
    | false => cases hx

/-- Converters of a few registers. -/
def Converters.registers (e : Endianness) : Converters e :=
  ⟨shifter e, shifter_splits, loader e, (loader_joins e).taking⟩

end LiteEth.Mac.Converter
