/-
`mac/padding.py`: the padding inserter, with the buffer after it. The inserter takes `last` back in the
very cycle in which the beat is taken, so that its source depends on `source.ready`; the buffer at the
sink of the CRC inserter sees it only then, and the two together are a stage like any other.
-/
import LiteEth.Mac.Sram
import LiteEth.Rtl.StreamFifo

namespace LiteEth.Mac

open LiteEth.Rtl

namespace PaddingInserter

/-- The states of the FSM. -/
inductive Fsm
  | idle
  | padding
  deriving DecidableEq, Repr

/-- The registers: the FSM and the words of the packet. -/
structure State where
  fsm : Fsm
  counter : ℕ

/-- `padding_limit`. -/
def paddingLimit (dw padding : ℕ) : ℕ := (padding + dw / 8 - 1) / (dw / 8) - 1

/-- A beat of padding. -/
def zero (dw : ℕ) (last : Bool) : PhyBeat dw := { data := 0, lastBe := 0, error := 0, last := last }

variable {dw : ℕ} (padding : ℕ) (s : State) (b : Option (PhyBeat dw)) (r : Bool)

/-- The packet is long enough. -/
def State.counterDone (dw : ℕ) : Bool := paddingLimit dw padding ≤ s.counter

/-- The source, which depends on `source.ready`. -/
def State.source : Option (PhyBeat dw) :=
  match s.fsm with
  | .idle => b.map fun x => if r && x.last && !s.counterDone padding dw then { x with last := false } else x
  | .padding => some (zero dw (s.counterDone padding dw))

/-- `sink.ready`, none while padding is sent. -/
def State.ready : Bool :=
  match s.fsm with
  | .idle => r
  | .padding => false

/-- One cycle of the inserter. -/
def State.next : State :=
  match s.fsm, b, r with
  | .idle, some x, true =>
    if x.last then
      if s.counterDone padding dw then { s with counter := 0 }
      else { fsm := .padding, counter := (s.counter + 1) % 2 ^ 16 }
    else { s with counter := (s.counter + 1) % 2 ^ 16 }
  | .idle, _, _ => s
  | .padding, _, true =>
    if s.counterDone padding dw then { fsm := .idle, counter := 0 }
    else { s with counter := (s.counter + 1) % 2 ^ 16 }
  | .padding, _, false => s

end PaddingInserter

/-- `LiteEthMACPaddingInserter` with the buffer `F` after it. -/
abbrev paddingInserter {ε : Type} {H : ε → Prop} (dw padding : ℕ) (F : Fifo H (PhyBeat dw)) :
    Stage ε (PhyBeat dw) (PhyBeat dw) where
  State := PaddingInserter.State × F.State
  reset := ({ fsm := .idle, counter := 0 }, F.reset)
  source s e _ := F.source s.2 e
  ready s e _ r := s.1.ready (F.ready s.2 e r)
  step s e b r :=
    let ready := F.ready s.2 e r
    (s.1.next padding b ready, F.step s.2 e (s.1.source padding b ready) r)

namespace PaddingInserter

/-! ## Padded frames -/

/-- `n` beats of padding, the last of them the last of the frame. -/
def fill (dw : ℕ) : ℕ → List (PhyBeat dw)
  | 0 => []
  | n + 1 => zero dw (n == 0) :: fill dw n

/-- The padding follows the last beat of a frame that is too short; the state is the number of beats
before it. -/
abbrev padded (dw padding : ℕ) : Transducer (PhyBeat dw) (PhyBeat dw) where
  State := ℕ
  init := 0
  next k b := if b.last then 0 else k + 1
  out k b :=
    if b.last && decide (k < paddingLimit dw padding) then
      { b with last := false } :: fill dw (paddingLimit dw padding - k)
    else [b]
  ok k _ := k < 2 ^ 16

section Frames

variable {dw : ℕ} (padding : ℕ)

theorem fill_succ (n : ℕ) : fill dw (n + 1) = List.replicate n (zero dw false) ++ [zero dw true] := by
  induction n with
  | zero => rfl
  | succ n ih => rw [fill, ih, List.replicate_succ]; rfl

/-- Before its last beat a frame is not changed. -/
theorem padded_open {m : List (PhyBeat dw)} (hm : ∀ b ∈ m, b.last = false) (k : ℕ) :
    (padded dw padding).outs k m = m ∧ (padded dw padding).run k m = k + m.length := by
  induction m generalizing k with
  | nil => exact ⟨rfl, rfl⟩
  | cons b m ih =>
    have hb := hm b List.mem_cons_self
    obtain ⟨h1, h2⟩ := ih (fun x hx => hm x (List.mem_cons_of_mem b hx)) (k + 1)
    rw [Transducer.outs_cons, Transducer.run_cons]
    simp only [hb, Bool.false_and, Bool.false_eq_true, if_false, h1, h2, List.length_cons]
    exact ⟨rfl, by omega⟩

theorem oks_open {m : List (PhyBeat dw)} (hm : ∀ b ∈ m, b.last = false) {k : ℕ} (hk : k + m.length ≤ 2 ^ 16) :
    (padded dw padding).Oks k m := by
  induction m generalizing k with
  | nil => trivial
  | cons b m ih =>
    rw [List.length_cons] at hk
    have hb := hm b List.mem_cons_self
    refine ⟨by omega, ?_⟩
    simp only [hb, Bool.false_eq_true, if_false]
    exact ih (fun x hx => hm x (List.mem_cons_of_mem b hx)) (by omega)

/-- A frame is padded to its minimal length. -/
theorem padded_frame {f : List (PhyBeat dw)} (hf : IsFrame (·.last) f) :
    IsFrame (·.last) ((padded dw padding).outs 0 f) ∧ (padded dw padding).run 0 f = 0 ∧
      ((padded dw padding).outs 0 f).map (·.data) =
        f.map (·.data) ++ List.replicate (paddingLimit dw padding + 1 - f.length) 0 := by
  obtain ⟨m, l, hm, hl⟩ := hf
  obtain ⟨h1, h2⟩ := padded_open padding hm 0
  rw [Transducer.outs_append, Transducer.run_append, h1, h2, Nat.zero_add, Transducer.outs_cons, Transducer.run_cons]
  -- shorter than the minimum: the last beat is not marked, and zeros follow it
  by_cases hlim : m.length < paddingLimit dw padding
  · obtain ⟨n, hn⟩ : ∃ n, paddingLimit dw padding - m.length = n + 1 := ⟨_, (Nat.succ_pred (by omega)).symm⟩
    have hlen : paddingLimit dw padding + 1 - (m ++ [l]).length = n + 1 := by
      rw [List.length_append, List.length_singleton]; omega
    simp only [hl, hlim, hn, hlen, decide_true, Bool.and_self, if_true, fill_succ, Transducer.outs_nil,
      Transducer.run_nil, List.append_nil]
    refine ⟨?_, trivial, ?_⟩
    · rw [← List.cons_append, ← List.append_assoc]
      refine .mk _ _ (fun b hb => ?_) rfl
      rcases List.mem_append.1 hb with hb | hb
      · exact hm b hb
      · rcases List.mem_cons.1 hb with rfl | hb
        · rfl
        · rw [List.eq_of_mem_replicate hb]; rfl
    · simp [zero, List.replicate_succ']
  · have hlen : paddingLimit dw padding + 1 - (m ++ [l]).length = 0 := by
      rw [List.length_append, List.length_singleton]; omega
    simp only [hl, hlim, hlen, decide_false, Bool.and_false, Bool.false_eq_true, if_false, if_true, Transducer.outs_nil,
      Transducer.run_nil, List.append_nil, List.replicate_zero]
    exact ⟨.mk m l hm hl, trivial, trivial⟩

theorem oks_frame {f : List (PhyBeat dw)} (hf : IsFrame (·.last) f) (hlen : f.length ≤ 2 ^ 16) :
    (padded dw padding).Oks 0 f := by
  obtain ⟨m, l, hm, hl⟩ := hf
  rw [List.length_append, List.length_singleton] at hlen
  rw [Transducer.oks_append, (padded_open padding hm 0).2, Nat.zero_add]
  exact ⟨oks_open padding hm (by omega), by omega, trivial⟩

end Frames

/-! ## The inserter -/

variable {dw padding : ℕ}

/-- In state `s`, after the beats taken so far, `pad` of the padding is still to be given. -/
inductive Rel (dw padding : ℕ) : State → ℕ → List (PhyBeat dw) → Prop
  | idle (k : ℕ) : Rel dw padding { fsm := .idle, counter := k % 2 ^ 16 } k []
  | padding (c : ℕ) (hc : c ≤ paddingLimit dw padding) :
      Rel dw padding { fsm := .padding, counter := c } 0 (fill dw (paddingLimit dw padding + 1 - c))

/-- One cycle of the inserter: what it gives to the buffer. -/
theorem Rel.cycle (hlim : paddingLimit dw padding < 2 ^ 16) {s : State} {k : ℕ} {pad : List (PhyBeat dw)}
    (h : Rel dw padding s k pad) (b : Option (PhyBeat dw)) (r : Bool) (hok : (padded dw padding).Oks k b.toList) :
    ∃ pad', pad ++ (padded dw padding).outs k (if s.ready r then b else none).toList =
        (if r then (s.source padding b r).toList else []) ++ pad' ∧
      Rel dw padding (s.next padding b r) ((padded dw padding).run k (if s.ready r then b else none).toList) pad' := by
  cases r with
  | false =>
    refine ⟨pad, ?_, ?_⟩
    · cases h <;> simp [State.ready]
    · cases h with
      | idle => cases b <;> exact .idle k
      | padding c hc => cases b <;> exact .padding c hc
  | true =>
    cases h with
    | idle =>
      cases b with
      | none => exact ⟨[], rfl, .idle k⟩
      | some x =>
        obtain ⟨hk, -⟩ := hok
        rw [Nat.mod_eq_of_lt hk]
        simp only [State.ready, State.source, State.next, State.counterDone, if_true, Option.toList_some,
          Transducer.outs_cons, Transducer.outs_nil, Transducer.run_cons, Transducer.run_nil, Option.map_some,
          List.append_nil, List.nil_append, Bool.true_and]
        -- the last beat of a frame starts the padding, if the frame was short
        by_cases hx : x.last = true
        · by_cases hd : k < paddingLimit dw padding
          · refine ⟨fill dw (paddingLimit dw padding - k), ?_, ?_⟩
            · simp [hx, hd]
            · have hmod : (k + 1) % 65536 = k + 1 := Nat.mod_eq_of_lt (by omega)
              have : Rel dw padding _ 0 _ := Rel.padding (k + 1) hd
              rw [Nat.add_sub_add_right] at this
              simpa [hx, not_le.2 hd, hmod] using this
          · refine ⟨[], ?_, ?_⟩
            · simp [hx, hd]
            · simpa [hx, not_lt.1 hd] using (Rel.idle 0 : Rel dw padding _ _ _)
        · refine ⟨[], ?_, ?_⟩
          · simp [hx]
          · simpa [hx] using (Rel.idle (k + 1) : Rel dw padding _ _ _)
    | padding c hc =>
      refine ⟨fill dw (paddingLimit dw padding - c), ?_, ?_⟩
      · have hfill : fill dw (paddingLimit dw padding + 1 - c) =
            zero dw (paddingLimit dw padding ≤ c) :: fill dw (paddingLimit dw padding - c) := by
          rw [Nat.succ_sub hc, fill]
          congr 2
          rw [Bool.eq_iff_iff, beq_iff_eq, decide_eq_true_iff]
          omega
        rw [hfill]
        simp [State.ready, State.source, State.counterDone]
      · by_cases hd : paddingLimit dw padding ≤ c
        · have hz : paddingLimit dw padding - c = 0 := by omega
          rw [hz, fill]
          simpa [State.ready, State.next, State.counterDone, hd] using (Rel.idle 0 : Rel dw padding _ _ _)
        · have hmod : (c + 1) % 65536 = c + 1 := Nat.mod_eq_of_lt (by omega)
          have : Rel dw padding _ 0 _ := Rel.padding (c + 1) (by omega)
          rw [Nat.add_sub_add_right] at this
          simpa [State.ready, State.next, State.counterDone, hd, hmod] using this

/-- With nothing at its source the inserter has nothing to do. -/
theorem Rel.source_none {s : State} {k : ℕ} {pad : List (PhyBeat dw)} (h : Rel dw padding s k pad)
    {b : Option (PhyBeat dw)} {r : Bool} (hs : s.source padding b r = none) : b = none ∧ pad = [] := by
  cases h with
  | idle => exact ⟨Option.map_eq_none_iff.1 hs, rfl⟩
  | padding => cases hs

/-- What bounds the cycles until a beat moves: the padding to come, then the buffer. -/
def rank {ε : Type} {H : ε → Prop} (F : Fifo H (PhyBeat dw)) (pad : List (PhyBeat dw)) (f : F.State) : ℕ ×ₗ ℕ :=
  toLex (pad.length, F.rank f)

/-- The inserter and the buffer pad the frames. -/
def pads {ε : Type} {H : ε → Prop} (F : Fifo H (PhyBeat dw)) (hlim : paddingLimit dw padding < 2 ^ 16) :
    Stage.Lazy H (paddingInserter dw padding F) (padded dw padding) where
  W := ℕ ×ₗ ℕ
  linear := inferInstance
  wf := inferInstance
  Rel s k p w := ∃ pad, Rel dw padding s.1 k pad ∧ p = F.contents s.2 ++ pad ∧ w = rank F pad s.2
  reset := ⟨_, [], .idle 0, by rw [F.contents_reset]; rfl, rfl⟩
  cycle := by
    rintro s k p w ⟨pad, h, rfl, rfl⟩ e b r hok
    obtain ⟨pad', hpad, h'⟩ := h.cycle hlim b (F.ready s.2 e r) hok
    refine ⟨_, _, ?_, ⟨pad', h', rfl, rfl⟩, ?_⟩
    · rw [List.append_assoc, hpad, ← List.append_assoc, F.contents_next, List.append_assoc]
    · intro hH hready hsrc
      have htake : (if s.1.ready (F.ready s.2 e r) then b else none) = none := by
        split
        · exact hready ‹_›
        · rfl
      have hlen := congrArg List.length hpad
      rw [htake, Option.toList_none, Transducer.outs_nil, List.append_nil, List.length_append] at hlen
      by_cases hsrc' : F.source s.2 e = none
      · unfold rank
        rw [Prod.Lex.toLex_lt_toLex, Prod.Lex.toLex_le_toLex]
        by_cases hpush : s.1.source padding b (F.ready s.2 e r) = none ∨ F.ready s.2 e r = false
        · obtain ⟨h1, h2⟩ := F.rank_step s.2 e _ r hH hsrc' hpush
          have hpad' : pad'.length = pad.length := by
            rcases hpush with hn | hn <;> simp [hn] at hlen <;> omega
          by_cases hrest : F.contents s.2 ≠ [] ∨ s.1.source padding b (F.ready s.2 e r) ≠ none
          · exact .inr (.inr (.inr ⟨hpad', h2 hrest⟩))
          · rw [not_or, not_not, not_not] at hrest
            obtain ⟨hb, hp⟩ := h.source_none hrest.2
            exact .inl ⟨hb, by rw [hrest.1, hp]; rfl, .inr ⟨hpad', h1⟩⟩
        · rw [not_or, Bool.not_eq_false] at hpush
          obtain ⟨x, hx⟩ := Option.ne_none_iff_exists'.1 hpush.1
          rw [hx, hpush.2] at hlen
          refine .inr (.inr (.inl ?_))
          simp at hlen
          simp only; omega
      · exact .inr (.inl hsrc')
  stable := by
    rintro s k p w - e b - x hx e' b' -
    exact F.stable s.2 e _ x hx e'

end PaddingInserter

end LiteEth.Mac
