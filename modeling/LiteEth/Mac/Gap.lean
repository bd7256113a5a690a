/-
`mac/gap.py`: the interpacket gap. It passes the beats on, and after the last beat of a frame it is silent
for the cycles the gap takes.
-/
import LiteEth.Mac.Sram
import LiteEth.Rtl.StreamFifo

namespace LiteEth.Mac

open LiteEth.Rtl

namespace Gap

/-- The states of the FSM. -/
inductive Fsm
  | copy
  | gap
  deriving DecidableEq, Repr

/-- The registers: the FSM and the cycles of the gap. -/
structure State where
  fsm : Fsm
  counter : ℕ

/-- `gap`, in cycles. -/
def gap (dw : ℕ) : ℕ := (ethInterpacketGap + dw / 8 - 1) / (dw / 8)

variable {dw : ℕ} (s : State) (b : Option (PhyBeat dw)) (r : Bool)

/-- The beat at the source, none in the gap. -/
def State.source : Option (PhyBeat dw) :=
  match s.fsm with
  | .copy => b
  | .gap => none

/-- `sink.ready`. -/
def State.ready : Bool :=
  match s.fsm with
  | .copy => r
  | .gap => false

/-- One cycle. -/
def State.next : State :=
  match s.fsm with
  | .copy => { fsm := if b.any (·.last) && r then .gap else .copy, counter := 0 }
  | .gap =>
    { fsm := if s.counter = gap dw - 1 then .copy else .gap
      counter := (s.counter + 1) % 2 ^ bitsFor (gap dw - 1) }

end Gap

/-- `LiteEthMACGap`. -/
abbrev gapInserter {ε : Type} (dw : ℕ) : Stage ε (PhyBeat dw) (PhyBeat dw) where
  State := Gap.State
  reset := { fsm := .copy, counter := 0 }
  source s _ b := s.source b
  ready s _ _ r := s.ready r
  step s _ b r := s.next b r

namespace Gap

variable {dw : ℕ}

/-- `w` more cycles of the gap are to come. -/
inductive Rel (dw : ℕ) : State → ℕ → Prop
  | copy (n : ℕ) : Rel dw { fsm := .copy, counter := n } 0
  | gap (n w : ℕ) (h : n + w = gap dw) (hw : 0 < w) : Rel dw { fsm := .gap, counter := n } w

/-- The gap counts down. -/
theorem Rel.next {s : State} {w : ℕ} (h : Rel dw s w) (hw : 0 < w) (b : Option (PhyBeat dw)) (r : Bool) :
    Rel dw (s.next b r) (w - 1) := by
  cases h with
  | copy => omega
  | gap n w h =>
    by_cases hn : n = Gap.gap dw - 1
    · have hw1 : w - 1 = 0 := by omega
      simpa [State.next, hn, hw1] using Rel.copy _
    · have hlt : n + 1 < 2 ^ bitsFor (Gap.gap dw - 1) :=
        lt_of_le_of_lt (by omega) (lt_two_pow_bitsFor (Gap.gap dw - 1))
      have hnext : State.next { fsm := .gap, counter := n } b r = { fsm := .gap, counter := n + 1 } := by
        simp [State.next, hn, Nat.mod_eq_of_lt hlt]
      rw [hnext]
      exact .gap (n + 1) (w - 1) (by omega) (by omega)

theorem Rel.source {s : State} {w : ℕ} (h : Rel dw s w) (hw : 0 < w) (b : Option (PhyBeat dw)) :
    s.source b = none := by
  cases h with
  | copy => omega
  | gap => rfl

/-- The gap begins after the last beat of a frame. -/
theorem Rel.last (hgap : 0 < Gap.gap dw) {s : State} {w : ℕ} (h : Rel dw s w) {b : Option (PhyBeat dw)} {x : PhyBeat dw}
    (hs : s.source b = some x) (hx : x.last = true) : Rel dw (s.next b true) (Gap.gap dw) := by
  cases h with
  | gap => cases hs
  | copy n =>
    have hb : b = some x := hs
    subst hb
    simpa [State.next, hx] using Rel.gap 0 (Gap.gap dw) (Nat.zero_add _) hgap

/-- The gap does not change the stream. -/
def passes {ε : Type} (H : ε → Prop) (hgap : 0 < Gap.gap dw) :
    Stage.Lazy H (gapInserter dw) (Fifo.same (PhyBeat dw)) where
  W := ℕ
  linear := inferInstance
  wf := wellFoundedLT_nat
  Rel s _ p w := Rel dw s w ∧ p = []
  reset := ⟨0, .copy 0, rfl⟩
  cycle := by
    rintro s q p w ⟨h, rfl⟩ e b r -
    -- in the gap nothing passes, outside of it every beat does
    cases w with
    | succ w =>
      have hnext := h.next (Nat.succ_pos w) b r
      cases h with
      | gap n w hn hw => exact ⟨[], w, by cases r <;> rfl, ⟨hnext, rfl⟩, fun _ _ _ => .inr (.inr (Nat.lt_succ_self w))⟩
    | zero =>
      cases h with
      | gap n w hn hw => omega
      | copy n =>
        cases r with
        | false =>
          refine ⟨[], 0, rfl, ⟨?_, rfl⟩, fun _ _ _ => ?_⟩
          · simpa [State.next] using Rel.copy 0
          · cases b with
            | none => exact .inl ⟨rfl, rfl, le_rfl⟩
            | some x => exact .inr (.inl nofun)
        | true =>
          cases b with
          | none => exact ⟨[], 0, rfl, ⟨.copy 0, rfl⟩, fun _ _ _ => .inl ⟨rfl, rfl, le_rfl⟩⟩
          | some x =>
            cases hx : x.last with
            | false =>
              refine ⟨[], 0, rfl, ⟨?_, rfl⟩, fun _ h _ => absurd (h rfl) nofun⟩
              simpa [State.next, hx] using Rel.copy 0
            | true =>
              refine ⟨[], Gap.gap dw, rfl, ⟨?_, rfl⟩, fun _ h _ => absurd (h rfl) nofun⟩
              exact (Rel.copy n).last hgap (b := some x) rfl hx
  stable := by
    rintro s q p w ⟨h, rfl⟩ e b - x hx e' b' hb
    cases h with
    | gap => cases hx
    | copy n =>
      have hne : b ≠ none := by
        rintro rfl
        cases hx
      have hnext : State.next { fsm := .copy, counter := n } b false = { fsm := .copy, counter := 0 } := by
        simp [State.next]
      show State.source (State.next { fsm := .copy, counter := n } b false) b' = some x
      rw [hnext, hb rfl hne]
      exact hx

end Gap

end LiteEth.Mac
