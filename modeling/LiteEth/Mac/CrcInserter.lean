/-
`mac/crc.py`: the CRC inserter. It copies the frame, taking `last` away, and then sends the value of the
CRC word by word, the low word first, with `last` on the last of them.
-/
import LiteEth.Mac.Crc
import LiteEth.Mac.Sram
import LiteEth.Rtl.StreamSim

namespace LiteEth.Mac

open LiteEth.Rtl

namespace CRCInserter

/-- The states of the FSM. -/
inductive Fsm
  | idle
  | copy
  | crc
  deriving DecidableEq, Repr

/-- The registers: the FSM, the CRC, and the beats of it that are left. -/
structure State where
  fsm : Fsm
  crc : BitVec CRC32.width
  cnt : ℕ

/-- `ratio`, the words of the CRC. -/
def ratio (dw : ℕ) : ℕ := CRC32.width / dw

variable {dw : ℕ} (s : State) (b : Option (PhyBeat dw)) (r : Bool)

/-- `cnt_done`. With a single word there is no `cnt`, and that word is the last. -/
def State.cntDone (dw : ℕ) : Bool := ratio dw ≤ 1 || s.cnt == 0

/-- The word of the CRC that is sent. -/
def State.word (dw : ℕ) : BitVec dw :=
  if 1 < ratio dw then chooser (CRC32.value s.crc) (bitsFor (ratio dw - 1)) s.cnt dw true
  else (CRC32.value s.crc).setWidth dw

/-- The beat at the source: the packet's, and then the CRC. -/
def State.source : Option (PhyBeat dw) :=
  match s.fsm with
  | .idle => none
  | .copy => b.map fun x => { x with last := false }
  | .crc => some { data := s.word dw, lastBe := 0, error := 0, last := s.cntDone dw }

/-- `sink.ready`: in `IDLE` only while nothing is offered. -/
def State.ready : Bool :=
  match s.fsm with
  | .idle => b.isNone
  | .copy => r
  | .crc => false

/-- One cycle of the inserter. -/
def State.next : State where
  fsm := match s.fsm with
    | .idle => if b.isSome then .copy else .idle
    | .copy => if b.any (·.last) && r then .crc else .copy
    | .crc => if s.cntDone dw && r then .idle else .crc
  crc := CRC32.step s.crc
    { reset := s.fsm == .idle, ce := s.fsm == .copy && b.isSome && r, data := b.elim 0 (·.data) }
  cnt := match s.fsm with
    | .idle => ratio dw - 1
    | .copy => s.cnt
    | .crc => if s.cntDone dw then s.cnt else s.cnt - r.toNat

end CRCInserter

/-- `LiteEthMACCRC32Inserter`. -/
abbrev crc32Inserter {ε : Type} (dw : ℕ) : Stage ε (PhyBeat dw) (PhyBeat dw) where
  State := CRCInserter.State
  reset := { fsm := .idle, crc := CRC32.init, cnt := CRCInserter.ratio dw - 1 }
  source s _ b := s.source b
  ready s _ b r := s.ready b r
  step s _ b r := s.next b r

namespace CRCInserter

/-! ## Frames with their CRC -/

/-- The last `n` words of the CRC of the bytes `m`. -/
def tail (m : List (BitVec 8)) : ℕ → List (PhyBeat 8)
  | 0 => []
  | n + 1 => { data := chooser (CRC32.value (CRC32.after m)) 2 n 8 true, lastBe := 0, error := 0, last := n == 0 } ::
      tail m n

/-- The CRC follows the last beat of a frame; the state is the bytes before it. -/
abbrev appended : Transducer (PhyBeat 8) (PhyBeat 8) where
  State := List (BitVec 8)
  init := []
  next m b := if b.last then [] else m ++ [b.data]
  out m b := { b with last := false } :: if b.last then tail (m ++ [b.data]) 4 else []
  ok _ _ := True

/-- Before its last beat a frame is not changed. -/
theorem appended_open {m : List (PhyBeat 8)} (hm : ∀ b ∈ m, b.last = false) (c : List (BitVec 8)) :
    appended.outs c m = m ∧ appended.run c m = c ++ m.map (·.data) := by
  induction m generalizing c with
  | nil => exact ⟨rfl, (List.append_nil c).symm⟩
  | cons b m ih =>
    have hb := hm b List.mem_cons_self
    obtain ⟨h1, h2⟩ := ih (fun x hx => hm x (List.mem_cons_of_mem b hx)) (c ++ [b.data])
    rw [Transducer.outs_cons, Transducer.run_cons]
    simp only [hb, Bool.false_eq_true, if_false, h1, h2, List.map_cons]
    refine ⟨?_, List.append_assoc c [b.data] _⟩
    rw [List.singleton_append, ← hb]

/-- A frame gets the CRC-32 of its bytes. -/
theorem appended_frame {f : List (PhyBeat 8)} (hf : IsFrame (·.last) f) :
    IsFrame (·.last) (appended.outs [] f) ∧ appended.run [] f = [] ∧
      (appended.outs [] f).map (·.data) = f.map (·.data) ++ splitBytes (crc32 (f.map (·.data))) 4 := by
  obtain ⟨m, l, hm, hl⟩ := hf
  obtain ⟨h1, h2⟩ := appended_open hm []
  rw [Transducer.outs_append, Transducer.run_append, h1, h2, List.nil_append, Transducer.outs_cons, Transducer.run_cons,
    Transducer.outs_nil, Transducer.run_nil, List.append_nil]
  simp only [hl, if_true]
  refine ⟨?_, trivial, ?_⟩
  · show IsFrame _ (m ++ ({ l with last := false } :: tail _ 4))
    rw [show ({ l with last := false } :: tail (m.map (·.data) ++ [l.data]) 4) =
      ({ l with last := false } :: (tail (m.map (·.data) ++ [l.data]) 4).dropLast) ++
        [{ data := chooser (CRC32.value (CRC32.after (m.map (·.data) ++ [l.data]))) 2 0 8 true, lastBe := 0,
           error := 0, last := true }] from rfl, ← List.append_assoc]
    refine .mk _ _ (fun b hb => ?_) rfl
    rcases List.mem_append.1 hb with hb | hb
    · exact hm b hb
    · simp only [tail, List.dropLast, List.mem_cons, List.not_mem_nil, or_false] at hb
      rcases hb with rfl | rfl | rfl | rfl <;> rfl
  · rw [List.map_append, List.map_append, List.map_singleton, ← CRC32.appended_eq, List.append_assoc]; rfl

/-! ## The inserter -/

/-- In state `s`, after the bytes `m` of a frame were taken, `p` of its CRC is still to be given; `w` counts
the cycles until a beat moves. -/
inductive Rel : State → List (BitVec 8) → List (PhyBeat 8) → ℕ → Prop
  | idle (c : BitVec CRC32.width) (n : ℕ) : Rel { fsm := .idle, crc := c, cnt := n } [] [] 1
  | copy (m : List (BitVec 8)) : Rel { fsm := .copy, crc := CRC32.after m, cnt := 3 } m [] 0
  | crc (m : List (BitVec 8)) (n : ℕ) (hn : n < 4) :
      Rel { fsm := .crc, crc := CRC32.after m, cnt := n } [] (tail m (n + 1)) 0

theorem next_idle (c : BitVec CRC32.width) (n : ℕ) (x : PhyBeat 8) (r : Bool) :
    State.next { fsm := .idle, crc := c, cnt := n } (some x) r = { fsm := .copy, crc := CRC32.after [], cnt := 3 } := rfl

theorem next_copy (m : List (BitVec 8)) (x : PhyBeat 8) :
    State.next { fsm := .copy, crc := CRC32.after m, cnt := 3 } (some x) true =
      { fsm := if x.last then .crc else .copy, crc := CRC32.after (m ++ [x.data]), cnt := 3 } := by
  rw [CRC32.after_concat]
  simp [State.next, CRC32.step]

theorem next_crc (m : List (BitVec 8)) (n : ℕ) (b : Option (PhyBeat 8)) :
    State.next { fsm := .crc, crc := CRC32.after m, cnt := n } b true =
      { fsm := if n = 0 then .idle else .crc, crc := CRC32.after m, cnt := n - 1 } := by
  have hdone : State.cntDone { fsm := .crc, crc := CRC32.after m, cnt := n } 8 = (n == 0) := rfl
  cases n <;> simp [State.next, CRC32.step, hdone]

/-- Nothing happens while the consumer is not ready. -/
theorem next_wait {s : State} (hs : s.fsm ≠ .idle) (b : Option (PhyBeat 8)) : s.next b false = s := by
  obtain ⟨fsm, c, n⟩ := s
  cases fsm
  · exact absurd rfl hs
  · simp [State.next, CRC32.step]
  · simp [State.next, CRC32.step]

/-- One cycle of the inserter. -/
theorem Rel.cycle {s : State} {m : List (BitVec 8)} {p : List (PhyBeat 8)} {w : ℕ} (h : Rel s m p w)
    (b : Option (PhyBeat 8)) (r : Bool) : ∃ p' w',
      p ++ appended.outs m (if s.ready b r then b else none).toList = (if r then s.source b else none).toList ++ p' ∧
        Rel (s.next b r) (appended.run m (if s.ready b r then b else none).toList) p' w' ∧
        ((s.ready b r = true → b = none) → (r = true → s.source b = none) →
          (b = none ∧ p = [] ∧ w' ≤ w) ∨ s.source b ≠ none ∨ w' < w) := by
  cases h with
  | idle c n =>
    cases b with
    | none => exact ⟨[], 1, by cases r <;> rfl, .idle _ _, fun _ _ => .inl ⟨rfl, rfl, le_rfl⟩⟩
    | some x =>
      rw [next_idle]
      exact ⟨[], 0, by cases r <;> rfl, .copy [], fun _ _ => .inr (.inr Nat.zero_lt_one)⟩
  | copy =>
    cases r with
    | false =>
      rw [next_wait (by simp)]
      refine ⟨[], 0, rfl, .copy m, fun _ _ => ?_⟩
      cases b with
      | none => exact .inl ⟨rfl, rfl, le_rfl⟩
      | some x => exact .inr (.inl nofun)
    | true =>
      cases b with
      | none => exact ⟨[], 0, rfl, .copy m, fun _ _ => .inl ⟨rfl, rfl, le_rfl⟩⟩
      | some x =>
        rw [next_copy]
        have htake : (if State.ready { fsm := .copy, crc := CRC32.after m, cnt := 3 } (some x) true then some x
          else none).toList = [x] := rfl
        rw [htake, Transducer.outs_cons, Transducer.outs_nil, Transducer.run_cons, Transducer.run_nil]
        -- the last beat is followed by the four bytes
        cases hx : x.last with
        | false =>
          refine ⟨[], 0, by simp [hx, State.source], ?_, fun h _ => absurd (h rfl) nofun⟩
          simpa [hx] using Rel.copy (m ++ [x.data])
        | true =>
          refine ⟨tail (m ++ [x.data]) 4, 0, by simp [hx, State.source], ?_, fun h _ => absurd (h rfl) nofun⟩
          simpa [hx] using Rel.crc (m ++ [x.data]) 3 (by omega)
  | crc m n hn =>
    have htake : (if State.ready { fsm := .crc, crc := CRC32.after m, cnt := n } b r then b else none).toList = [] := rfl
    rw [htake, Transducer.outs_nil, Transducer.run_nil, List.append_nil]
    cases r with
    | false =>
      rw [next_wait (by simp)]
      exact ⟨tail m (n + 1), 0, rfl, .crc m n hn, fun _ _ => .inr (.inl nofun)⟩
    | true =>
      rw [next_crc]
      cases n with
      | zero => exact ⟨[], 1, rfl, .idle _ _, fun _ h => absurd (h rfl) nofun⟩
      | succ n => exact ⟨tail m (n + 1), 0, rfl, .crc m n (by omega), fun _ h => absurd (h rfl) nofun⟩

/-- What is offered and not taken stays at the source. -/
theorem Rel.stable {s : State} {m : List (BitVec 8)} {p : List (PhyBeat 8)} {w : ℕ} (h : Rel s m p w)
    {b : Option (PhyBeat 8)} {x : PhyBeat 8} (hx : s.source b = some x) {b' : Option (PhyBeat 8)}
    (hb : s.ready b false = false → b ≠ none → b' = b) : (s.next b false).source b' = some x := by
  cases h with
  | idle => cases hx
  | crc =>
    rw [next_wait (by simp)]
    exact hx
  | copy =>
    have hne : b ≠ none := by
      rintro rfl
      cases hx
    rw [next_wait (by simp), hb rfl hne]
    exact hx

/-- The inserter appends the CRC to the frames. -/
def appends {ε : Type} (H : ε → Prop) : Stage.Lazy H (crc32Inserter 8) appended where
  W := ℕ
  linear := inferInstance
  wf := wellFoundedLT_nat
  Rel := Rel
  reset := ⟨1, .idle _ _⟩
  cycle := by
    rintro s m p w h e b r -
    obtain ⟨p', w', h1, h2, h3⟩ := h.cycle b r
    exact ⟨p', w', h1, h2, fun _ => h3⟩
  stable := by
    rintro s m p w h e b - x hx e' b' hb
    exact h.stable hx hb

end CRCInserter

end LiteEth.Mac
