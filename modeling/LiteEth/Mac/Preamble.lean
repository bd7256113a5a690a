/-
`mac/preamble.py`: the preamble inserter, which sends the eight bytes of the preamble while the
first beat of the frame waits at its sink, and the preamble checker, which drops everything up to
the start frame delimiter, and reports the packets without one.
-/
import LiteEth.Mac.Crc
import LiteEth.Mac.Sram
import LiteEth.Rtl.StreamSim
import Mathlib.Data.List.TakeWhile

namespace LiteEth.Mac

open LiteEth.Rtl

/-! ## The inserter -/

namespace PreambleInserter

/-- The states of the FSM. -/
inductive Fsm
  | idle
  | preamble
  | copy
  deriving DecidableEq, Repr

/-- The registers: the FSM and the words of the preamble. -/
structure State where
  fsm : Fsm
  count : ℕ

/-- The width of `count`: `Signal(max=(64//dw)-1)`. -/
def countbits (dw : ℕ) : ℕ := bitsFor (64 / dw - 1 - 1)

variable {dw : ℕ} (s : State) (b : Option (PhyBeat dw)) (r : Bool)

/-- The beat at the source: the preamble, and then the packet. -/
def State.source : Option (PhyBeat dw) :=
  match s.fsm with
  | .idle => none
  | .preamble => some {
      data := chooser ethPreamble (countbits dw) s.count dw false
      lastBe := b.elim 0 (·.lastBe)
      error := 0
      last := false }
  | .copy => b

/-- `sink.ready`: in `IDLE` only while nothing is offered. -/
def State.ready : Bool :=
  match s.fsm with
  | .idle => b.isNone
  | .preamble => false
  | .copy => r

/-- One cycle of the inserter. -/
def State.next : State :=
  match s.fsm with
  | .idle => { fsm := if b.isSome then .preamble else .idle, count := 0 }
  | .preamble =>
    if r then
      if s.count = 64 / dw - 1 then { s with fsm := .copy }
      else { s with count := (s.count + 1) % 2 ^ countbits dw }
    else s
  | .copy => if b.any (·.last) && r then { s with fsm := .idle } else s

end PreambleInserter

/-- `LiteEthMACPreambleInserter`. -/
abbrev preambleInserter {ε : Type} (dw : ℕ) : Stage ε (PhyBeat dw) (PhyBeat dw) where
  State := PreambleInserter.State
  reset := { fsm := .idle, count := 0 }
  source s _ b := s.source b
  ready s _ b r := s.ready b r
  step s _ b r := s.next b r

namespace PreambleInserter

/-- The preamble and the delimiter, sent while `b` waits at the sink. -/
def preambleBeats (b : PhyBeat 8) : List (PhyBeat 8) :=
  (List.range 8).map fun k => { data := chooser ethPreamble 3 k 8 false, lastBe := b.lastBe, error := 0, last := false }

/-- The preamble goes before the first beat of a frame; the state tells whether a frame has begun. -/
abbrev prepended : Transducer (PhyBeat 8) (PhyBeat 8) where
  State := Bool
  init := false
  next _ b := !b.last
  out begun b := if begun then [b] else preambleBeats b ++ [b]
  ok _ _ := True

/-- After the beats offered so far, `p` is still to be given; `w` counts the cycles until a beat moves. -/
inductive Rel {ε : Type} : (preambleInserter (ε := ε) 8).Run → Bool → List (PhyBeat 8) → ℕ → Prop
  | idle (n : ℕ) : Rel ⟨{ fsm := .idle, count := n }, none⟩ false [] 1
  | preamble (n : ℕ) (hn : n < 8) (b : PhyBeat 8) :
      Rel ⟨{ fsm := .preamble, count := n }, some b⟩ (!b.last) ((preambleBeats b).drop n ++ [b]) 0
  | copy (n : ℕ) (b : Option (PhyBeat 8)) :
      Rel ⟨{ fsm := .copy, count := n }, b⟩ (prepended.run true b.toList) b.toList 0

theorem drop_preambleBeats {n : ℕ} (hn : n < 8) (b : PhyBeat 8) : (preambleBeats b).drop n =
    { data := chooser ethPreamble 3 n 8 false, lastBe := b.lastBe, error := 0, last := false } ::
      (preambleBeats b).drop (n + 1) := by
  have hlen : n < (preambleBeats b).length := by simpa [preambleBeats] using hn
  rw [List.drop_eq_getElem_cons hlen]
  simp [preambleBeats]

theorem next_preamble {n : ℕ} (hn : n < 8) (b : Option (PhyBeat 8)) :
    State.next { fsm := .preamble, count := n } b true =
      if n = 7 then { fsm := .copy, count := n } else { fsm := .preamble, count := n + 1 } := by
  have hmod : n ≠ 7 → (n + 1) % 2 ^ countbits 8 = n + 1 := fun h =>
    Nat.mod_eq_of_lt (lt_of_le_of_lt (show n + 1 ≤ 7 by omega) (by decide))
  by_cases h : n = 7
  · subst h; rfl
  · simp [State.next, h, hmod]

variable {ε : Type}

/-- The frame waits for the consumer. -/
theorem next_wait (n : ℕ) (b : Option (PhyBeat 8)) (e : ε) (offer : Option (PhyBeat 8)) :
    (⟨{ fsm := .copy, count := n }, b⟩ : (preambleInserter (ε := ε) 8).Run).next ⟨e, offer, false⟩ =
      ⟨{ fsm := .copy, count := n }, b.or offer⟩ := by
  unfold Stage.Run.next
  simp [State.next, State.ready, Stage.Run.offered]

/-- A beat of the frame is passed on. -/
theorem Rel.copied (n : ℕ) (x : PhyBeat 8) : ∃ w,
    Rel (ε := ε) ⟨State.next { fsm := .copy, count := n } (some x) true, none⟩ (!x.last) [] w := by
  cases hx : x.last with
  | false =>
    refine ⟨0, ?_⟩
    simpa [State.next, hx] using Rel.copy n none
  | true =>
    refine ⟨1, ?_⟩
    simpa [State.next, hx] using Rel.idle n

/-- One cycle of the inserter. -/
theorem Rel.cycle {s : (preambleInserter (ε := ε) 8).Run} {q : Bool} {p : List (PhyBeat 8)} {w : ℕ} (h : Rel s q p w)
    (i : Stage.In ε (PhyBeat 8)) : ∃ p' w', p ++ prepended.outs q (s.arrives i).toList = (s.gives i).toList ++ p' ∧
      Rel (s.next i) (prepended.run q (s.arrives i).toList) p' w' ∧
      (s.arrives i = none → s.takes i = none → s.gives i = none →
        (s.held = none ∧ p = [] ∧ w' ≤ w) ∨ (s.source i ≠ none ∧ i.ready = false) ∨ w' < w) := by
  obtain ⟨e, offer, r⟩ := i
  cases h with
  | idle n =>
    cases offer with
    | none => exact ⟨[], 1, by cases r <;> rfl, .idle 0, fun _ _ _ => .inl ⟨rfl, rfl, le_rfl⟩⟩
    | some b => exact ⟨preambleBeats b ++ [b], 0, by cases r <;> rfl, .preamble 0 (by omega) b, nofun⟩
  | preamble n hn b =>
    cases r with
    | false =>
      refine ⟨(preambleBeats b).drop n ++ [b], 0, ?_, .preamble n hn b, fun _ _ _ => .inr (.inl ⟨nofun, rfl⟩)⟩
      exact List.append_nil _
    | true =>
      show ∃ p' w', (preambleBeats b).drop n ++ [b] ++ [] = _ ∧
        Rel ⟨State.next { fsm := .preamble, count := n } (some b) true, some b⟩ (!b.last) p' w' ∧ _
      rw [next_preamble hn]
      refine ⟨(preambleBeats b).drop (n + 1) ++ [b], 0, ?_, ?_, fun _ _ h => absurd h nofun⟩
      · rw [drop_preambleBeats hn]
        exact List.append_nil _
      · -- the eighth byte is the last of them
        by_cases h7 : n = 7
        · subst h7
          exact .copy 7 (some b)
        · rw [if_neg h7]
          exact .preamble (n + 1) (by omega) b
  | copy n b =>
    cases b with
    | some x =>
      cases r with
      | false =>
        rw [next_wait]
        exact ⟨[x], 0, rfl, .copy n (some x), fun _ _ _ => .inr (.inl ⟨nofun, rfl⟩)⟩
      | true =>
        obtain ⟨w', h⟩ := Rel.copied n x
        exact ⟨[], w', rfl, h, fun _ _ h => absurd h nofun⟩
    | none =>
      cases offer with
      | none => exact ⟨[], 0, by cases r <;> rfl, by cases r <;> exact .copy n none, fun _ _ _ => .inl ⟨rfl, rfl, le_rfl⟩⟩
      | some x =>
        cases r with
        | false =>
          rw [next_wait]
          exact ⟨[x], 0, rfl, .copy n (some x), nofun⟩
        | true =>
          obtain ⟨w', h⟩ := Rel.copied n x
          exact ⟨[], w', rfl, h, nofun⟩

/-- What is offered and not taken stays at the source. -/
theorem Rel.stable {s : (preambleInserter (ε := ε) 8).Run} {q : Bool} {p : List (PhyBeat 8)} {w : ℕ} (h : Rel s q p w)
    {i : Stage.In ε (PhyBeat 8)} {x : PhyBeat 8} (hx : s.source i = some x) (hr : i.ready = false)
    (j : Stage.In ε (PhyBeat 8)) : (s.next i).source j = some x := by
  obtain ⟨e, offer, r⟩ := i
  subst hr
  cases h with
  | idle n => cases hx
  | preamble n hn b => exact hx
  | copy n b =>
    rw [next_wait]
    show (b.or offer).or j.offer = some x
    have hx' : b.or offer = some x := hx
    rw [hx']; rfl

/-- The inserter sends the preamble before each frame. -/
def prepends (H : ε → Prop) : Stage.Sim H (preambleInserter 8) prepended where
  W := ℕ
  linear := inferInstance
  wf := wellFoundedLT_nat
  Rel := Rel
  reset := ⟨1, .idle 0⟩
  cycle := by
    rintro s q p w h i -
    obtain ⟨p', w', h1, h2, h3⟩ := h.cycle i
    exact ⟨p', w', h1, h2, fun _ => h3⟩
  stable := by
    rintro s q p w h i - x hx hr j
    exact h.stable hx hr j

/-! ## Frames with their preamble -/

/-- The preamble and the delimiter. -/
def preambleBytes : List (BitVec 8) := List.replicate 7 0x55 ++ [0xd5]

theorem preambleBeats_data (b : PhyBeat 8) : (preambleBeats b).map (·.data) = preambleBytes := by
  unfold preambleBeats
  rw [List.map_map]
  show (List.range 8).map (fun k => chooser ethPreamble 3 k 8 false) = preambleBytes
  decide

theorem preambleBeats_last (b : PhyBeat 8) : ∀ x ∈ preambleBeats b, x.last = false := by
  intro x hx
  obtain ⟨k, -, rfl⟩ := List.mem_map.1 hx
  rfl

/-- After its first beat a frame is not changed before its last. -/
theorem prepended_open {m : List (PhyBeat 8)} (hm : ∀ b ∈ m, b.last = false) :
    prepended.outs true m = m ∧ prepended.run true m = true := by
  induction m with
  | nil => exact ⟨rfl, rfl⟩
  | cons b m ih =>
    have hb := hm b List.mem_cons_self
    obtain ⟨h1, h2⟩ := ih fun x hx => hm x (List.mem_cons_of_mem b hx)
    rw [Transducer.outs_cons, Transducer.run_cons]
    simp only [hb, Bool.not_false, if_true, h1, h2]
    exact ⟨rfl, trivial⟩

/-- The beginning of a frame, with its preamble. -/
theorem prepended_begun {m : List (PhyBeat 8)} (hm : ∀ b ∈ m, b.last = false) :
    prepended.outs false m = (m.head?.elim [] preambleBeats) ++ m := by
  cases m with
  | nil => rfl
  | cons b m =>
    have hb := hm b List.mem_cons_self
    rw [Transducer.outs_cons]
    simp only [hb, Bool.not_false, Bool.false_eq_true, if_false,
      (prepended_open fun x hx => hm x (List.mem_cons_of_mem b hx)).1]
    exact List.append_assoc _ _ _

/-- A frame gets its preamble. -/
theorem prepended_frame {f : List (PhyBeat 8)} (hf : IsFrame (·.last) f) :
    IsFrame (·.last) (prepended.outs false f) ∧ prepended.run false f = false ∧
      (prepended.outs false f).map (·.data) = preambleBytes ++ f.map (·.data) := by
  obtain ⟨m, l, hm, hl⟩ := hf
  cases m with
  | nil =>
    rw [List.nil_append, Transducer.outs_cons, Transducer.run_cons]
    simp only [hl, Bool.not_true, Bool.false_eq_true, if_false, Transducer.outs_nil, Transducer.run_nil, List.append_nil]
    refine ⟨.mk _ l (preambleBeats_last l) hl, trivial, ?_⟩
    rw [List.map_append, preambleBeats_data]
  | cons b m =>
    have hb := hm b List.mem_cons_self
    obtain ⟨h1, h2⟩ := prepended_open fun x hx => hm x (List.mem_cons_of_mem b hx)
    rw [List.cons_append, Transducer.outs_cons, Transducer.run_cons, Transducer.outs_append, Transducer.run_append]
    simp only [hb, Bool.not_false, Bool.false_eq_true, if_false, h1, h2, Transducer.outs_cons, Transducer.run_cons, hl,
      Bool.not_true, if_true, Transducer.outs_nil, Transducer.run_nil]
    refine ⟨?_, trivial, ?_⟩
    · rw [List.append_nil, ← List.append_assoc]
      refine .mk _ l (fun x hx => ?_) hl
      rcases List.mem_append.1 hx with hx | hx
      · rcases List.mem_append.1 hx with hx | hx
        · exact preambleBeats_last b x hx
        · rw [List.mem_singleton.1 hx]
          exact hb
      · exact hm x (List.mem_cons_of_mem b hx)
    · simp [preambleBeats_data]

end PreambleInserter

/-! ## The checker -/

namespace PreambleChecker

/-- The states of the FSM. -/
inductive Fsm
  | preamble
  | copy
  deriving DecidableEq, Repr

/-- The start frame delimiter. -/
def sfd : BitVec 8 := (ethPreamble >>> 56).setWidth 8

variable (s : Fsm) (b : Option (PhyBeat 8)) (r : Bool)

/-- The beat at the source, none before the start of the frame. -/
def Fsm.source : Option (PhyBeat 8) :=
  match s with
  | .preamble => none
  | .copy => b

/-- `sink.ready`: what comes before the start of a frame is dropped. -/
def Fsm.ready : Bool :=
  match s with
  | .preamble => true
  | .copy => r

/-- The `error` output. -/
def Fsm.error : Bool :=
  match s with
  | .preamble => b.any (·.last)
  | .copy => false

/-- One cycle of the checker. -/
def Fsm.next : Fsm :=
  match s with
  | .preamble => if b.any fun x => !x.last && x.data == sfd then .copy else .preamble
  | .copy => if b.any (·.last) && r then .preamble else .copy

end PreambleChecker

/-- `LiteEthMACPreambleChecker`, for `dw = 8`. -/
abbrev preambleChecker {ε : Type} : Stage ε (PhyBeat 8) (PhyBeat 8) where
  State := PreambleChecker.Fsm
  reset := .preamble
  source s _ b := s.source b
  ready s _ _ r := s.ready r
  step s _ b r := s.next b r

namespace PreambleChecker

/-! ## What the checker makes of a packet -/

/-- The delimiter comes before the last byte of a packet. -/
def hasSfd (f : List (PhyBeat 8)) : Bool := f.dropLast.any (·.data == sfd)

/-- What comes after the first delimiter of a packet, if this is before its last byte. -/
def content (f : List (PhyBeat 8)) : List (PhyBeat 8) := if hasSfd f then (f.dropWhile (·.data != sfd)).tail else []

theorem hasSfd_concat (m : List (PhyBeat 8)) (b : PhyBeat 8) : hasSfd (m ++ [b]) = m.any (·.data == sfd) := by
  rw [hasSfd, List.dropLast_concat]

theorem dropWhile_without {m : List (PhyBeat 8)} (hm : m.any (·.data == sfd) = false) (bs : List (PhyBeat 8)) :
    (m ++ bs).dropWhile (·.data != sfd) = bs.dropWhile (·.data != sfd) := by
  induction m with
  | nil => rfl
  | cons b m ih =>
    rw [List.any_cons, Bool.or_eq_false_iff] at hm
    rw [List.cons_append, List.dropWhile_cons_of_pos, ih hm.2]
    simpa using hm.1

/-- A delimiter that is the last byte has nothing after it. -/
theorem content_eq (f : List (PhyBeat 8)) : content f = (f.dropWhile (·.data != sfd)).tail := by
  unfold content
  cases f using List.reverseRecOn with
  | nil => rfl
  | append_singleton m b =>
    rw [hasSfd_concat]
    split_ifs with h
    · rfl
    · rw [dropWhile_without (by simpa using h), List.dropWhile_cons]
      split_ifs <;> rfl

@[simp] theorem content_nil : content [] = [] := rfl

theorem content_without {m : List (PhyBeat 8)} (hm : m.any (·.data == sfd) = false) (b : PhyBeat 8) :
    content (m ++ [b]) = [] := by
  rw [content, hasSfd_concat, hm, if_neg Bool.false_ne_true]

theorem content_begun {m : List (PhyBeat 8)} (hm : m.any (·.data == sfd) = true) (b : PhyBeat 8) :
    content (m ++ [b]) = content m ++ [b] := by
  have hne : m.dropWhile (·.data != sfd) ≠ [] := by
    obtain ⟨x, hx, hsfd⟩ := List.any_eq_true.1 hm
    intro h
    have := List.dropWhile_eq_nil_iff.1 h x hx
    rw [bne, hsfd] at this
    cases this
  rw [content_eq, content_eq, List.dropWhile_append, if_neg (by simpa using hne), List.tail_append_of_ne_nil hne]

/-- What is passed on of a packet ends with its last byte. -/
theorem isFrame_content {f : List (PhyBeat 8)} (hf : IsFrame (·.last) f) (h : hasSfd f = true) :
    IsFrame (·.last) (content f) := by
  obtain ⟨m, l, hm, hl⟩ := hf
  rw [hasSfd_concat] at h
  rw [content_begun h, content_eq]
  refine .mk _ l (fun b hb => hm b ?_) hl
  exact (List.dropWhile_sublist _).subset (List.mem_of_mem_tail hb)

/-! ## Runs of the checker -/

section Runs

variable {ε : Type}

/-- The cycles in which `error` is high. -/
def errors (is : List (Stage.In ε (PhyBeat 8))) : List Unit :=
  preambleChecker.machine.log (fun s i => if s.state.error (s.offered i) then [()] else []) preambleChecker.machine.reset is

theorem errors_concat (is : List (Stage.In ε (PhyBeat 8))) (i : Stage.In ε (PhyBeat 8)) :
    errors (is ++ [i]) = errors is ++ if (preambleChecker.machine.run is).state.error
      ((preambleChecker.machine.run is).offered i) then [()] else [] := by
  unfold errors
  rw [Machine.log_concat]
  rfl

/-- The checker copies if the delimiter has been in what it has taken of a packet; of this, and of the packets before,
it has given what there is to give. -/
structure Holds (is : List (Stage.In ε (PhyBeat 8))) : Prop where
  fsm : (preambleChecker.machine.run is).state =
    if (frames (·.last) (preambleChecker.taken is)).2.any (·.data == sfd) then .copy else .preamble
  given : preambleChecker.given is = (frames (·.last) (preambleChecker.taken is)).1.flatMap content ++
    content (frames (·.last) (preambleChecker.taken is)).2
  pulses : (errors is).length = ((frames (·.last) (preambleChecker.taken is)).1.filter fun f => !hasSfd f).length

/-- A cycle in which no beat is taken. -/
theorem Holds.idle {is : List (Stage.In ε (PhyBeat 8))} (h : Holds is) {i : Stage.In ε (PhyBeat 8)}
    (htakes : (preambleChecker.machine.run is).takes i = none) (hgives : (preambleChecker.machine.run is).gives i = none)
    (herror : (preambleChecker.machine.run is).state.error ((preambleChecker.machine.run is).offered i) = false)
    (hfsm : ((preambleChecker.machine.run is).next i).state = (preambleChecker.machine.run is).state) :
    Holds (is ++ [i]) := by
  have htaken : preambleChecker.taken (is ++ [i]) = preambleChecker.taken is := by
    rw [Stage.taken_concat, htakes]
    exact List.append_nil _
  refine ⟨?_, ?_, ?_⟩
  · rw [Stage.run_concat, hfsm, htaken]
    exact h.fsm
  · rw [Stage.given_concat, hgives, htaken]
    exact (List.append_nil _).trans h.given
  · rw [errors_concat, herror, htaken, if_neg Bool.false_ne_true, List.append_nil]
    exact h.pulses

/-- A byte before the delimiter of its packet is dropped; if it is the last one this is an error. -/
theorem Holds.dropped {is : List (Stage.In ε (PhyBeat 8))} (h : Holds is) {i : Stage.In ε (PhyBeat 8)}
    (hfsm : (preambleChecker.machine.run is).state = .preamble) {b : PhyBeat 8}
    (hb : (preambleChecker.machine.run is).offered i = some b) : Holds (is ++ [i]) := by
  have hm : (frames (·.last) (preambleChecker.taken is)).2.any (·.data == sfd) = false := by
    have := h.fsm
    rw [hfsm] at this
    split_ifs at this with hany
    simpa using hany
  have htaken : preambleChecker.taken (is ++ [i]) = preambleChecker.taken is ++ [b] := by
    rw [Stage.taken_concat, Stage.Run.takes, hb, hfsm]
    rfl
  have hgiven : preambleChecker.given (is ++ [i]) = preambleChecker.given is := by
    rw [Stage.given_concat, Stage.Run.gives, Stage.Run.source, hb, hfsm]
    cases i.ready <;> exact List.append_nil _
  have hnext : (preambleChecker.machine.run (is ++ [i])).state = Fsm.next .preamble (some b) i.ready := by
    rw [Stage.run_concat, Stage.Run.next, hb, hfsm]
  have hcontent : content (frames (·.last) (preambleChecker.taken is)).2 = [] := by
    have := dropWhile_without hm []
    rw [List.append_nil] at this
    rw [content_eq, this]
    rfl
  have herrors : (errors (is ++ [i])).length = (errors is).length + if b.last then 1 else 0 := by
    rw [errors_concat, hb, hfsm, List.length_append]
    congr 1
    cases hl : b.last <;> simp [Fsm.error, hl]
  cases hl : b.last with
  | true =>
    refine ⟨?_, ?_, ?_⟩
    · rw [hnext, htaken, frames_concat, frameStep, if_pos hl]
      simp [Fsm.next, hl]
    · rw [hgiven, htaken, frames_concat, frameStep, if_pos hl, h.given, hcontent]
      simp [content_without hm]
    · rw [herrors, htaken, frames_concat, frameStep, if_pos hl, h.pulses]
      simp [hasSfd_concat, hm, hl]
  | false =>
    refine ⟨?_, ?_, ?_⟩
    · rw [hnext, htaken, frames_concat, frameStep, if_neg (ne_true_of_eq_false hl), List.any_append, hm]
      simp [Fsm.next, hl]
    · rw [hgiven, htaken, frames_concat, frameStep, if_neg (ne_true_of_eq_false hl), h.given, hcontent]
      simp [content_without hm]
    · rw [herrors, htaken, frames_concat, frameStep, if_neg (ne_true_of_eq_false hl), h.pulses, hl]
      rfl

/-- A byte after the delimiter of its packet is passed on. -/
theorem Holds.copied {is : List (Stage.In ε (PhyBeat 8))} (h : Holds is) {i : Stage.In ε (PhyBeat 8)}
    (hfsm : (preambleChecker.machine.run is).state = .copy) (hr : i.ready = true) {b : PhyBeat 8}
    (hb : (preambleChecker.machine.run is).offered i = some b) : Holds (is ++ [i]) := by
  have hm : (frames (·.last) (preambleChecker.taken is)).2.any (·.data == sfd) = true := by
    have := h.fsm
    rw [hfsm] at this
    split_ifs at this with hany
    exact hany
  have htaken : preambleChecker.taken (is ++ [i]) = preambleChecker.taken is ++ [b] := by
    rw [Stage.taken_concat, Stage.Run.takes, hb, hfsm, hr]
    rfl
  have hgiven : preambleChecker.given (is ++ [i]) = preambleChecker.given is ++ [b] := by
    rw [Stage.given_concat, Stage.Run.gives, Stage.Run.source, hb, hfsm, hr]
    rfl
  have hnext : (preambleChecker.machine.run (is ++ [i])).state = Fsm.next .copy (some b) true := by
    rw [Stage.run_concat, Stage.Run.next, hb, hfsm, hr]
  have herrors : (errors (is ++ [i])).length = (errors is).length := by
    rw [errors_concat, hfsm]
    exact congrArg List.length (List.append_nil _)
  cases hl : b.last with
  | true =>
    refine ⟨?_, ?_, ?_⟩
    · rw [hnext, htaken, frames_concat, frameStep, if_pos hl]
      simp [Fsm.next, hl]
    · rw [hgiven, htaken, frames_concat, frameStep, if_pos hl, h.given]
      simp [content_begun hm]
    · rw [herrors, htaken, frames_concat, frameStep, if_pos hl, h.pulses]
      simp [hasSfd_concat, hm]
  | false =>
    refine ⟨?_, ?_, ?_⟩
    · rw [hnext, htaken, frames_concat, frameStep, if_neg (ne_true_of_eq_false hl), List.any_append, hm]
      simp [Fsm.next, hl]
    · rw [hgiven, htaken, frames_concat, frameStep, if_neg (ne_true_of_eq_false hl), h.given, content_begun hm,
        List.append_assoc]
    · rw [herrors, htaken, frames_concat, frameStep, if_neg (ne_true_of_eq_false hl), h.pulses]

theorem holds (is : List (Stage.In ε (PhyBeat 8))) : Holds is := by
  induction is using List.reverseRecOn with
  | nil => exact ⟨rfl, rfl, rfl⟩
  -- each beat is looked for the delimiter, or copied behind it
  | append_singleton is i ih =>
    cases hb : (preambleChecker.machine.run is).offered i with
    | none =>
      refine ih.idle ?_ ?_ ?_ ?_
      · unfold Stage.Run.takes
        rw [hb, ite_self]
      · unfold Stage.Run.gives Stage.Run.source
        rw [hb]
        cases (preambleChecker.machine.run is).state <;> exact ite_self _
      · rw [hb]
        cases (preambleChecker.machine.run is).state <;> rfl
      · show Fsm.next _ ((preambleChecker.machine.run is).offered i) i.ready = _
        rw [hb]
        cases (preambleChecker.machine.run is).state <;> rfl
    | some b =>
      cases hfsm : (preambleChecker.machine.run is).state with
      | preamble => exact ih.dropped hfsm hb
      | copy =>
        cases hr : i.ready with
        | true => exact ih.copied hfsm hr hb
        | false =>
          refine ih.idle ?_ ?_ ?_ ?_
          · unfold Stage.Run.takes
            rw [hfsm, hr]
            rfl
          · unfold Stage.Run.gives
            rw [hr]
            rfl
          · rw [hfsm]
            rfl
          · show Fsm.next _ ((preambleChecker.machine.run is).offered i) i.ready = _
            rw [hfsm, hb, hr]
            simp [Fsm.next]

/-- Whatever the packets and the timing, each packet yields what comes after its first delimiter if this is before its
last byte, and nothing but one error otherwise; a consumer that is ready is never kept waiting. -/
theorem preambleChecker_packets (is : List (Stage.In ε (PhyBeat 8))) :
    preambleChecker.given is = (frames (·.last) (preambleChecker.taken is)).1.flatMap content ++
      content (frames (·.last) (preambleChecker.taken is)).2 ∧
    (errors is).length = ((frames (·.last) (preambleChecker.taken is)).1.filter fun f => !hasSfd f).length ∧
    (∀ f ∈ (frames (·.last) (preambleChecker.taken is)).1, hasSfd f = true → IsFrame (·.last) (content f)) ∧
    ∀ i : Stage.In ε (PhyBeat 8), i.ready = true →
      (preambleChecker.machine.run is).takes i = (preambleChecker.machine.run is).offered i := by
  refine ⟨(holds is).given, (holds is).pulses, fun f hf h => isFrame_content ((frames_spec _ _).1 f hf) h, ?_⟩
  intro i hr
  unfold Stage.Run.takes
  rw [hr]
  cases (preambleChecker.machine.run is).state <;> rfl

end Runs

end PreambleChecker

end LiteEth.Mac
