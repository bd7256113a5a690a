/-
Frames too short for an FCS, at the preamble checker and the CRC checker after it. The CRC checker
takes the first byte of a frame in `IDLE`, where it does not look at `last`: a frame of one byte
leaves it in `COPY` with that byte in the FIFO, and the frame after it is taken for its
continuation. Shorter frames of two to four bytes do no harm.
-/
import LiteEth.Mac.CrcChecker
import LiteEth.Mac.Preamble
import Mathlib.Data.List.ReduceOption

namespace LiteEth.Mac.Runts

open LiteEth.Rtl CRCChecker

variable {F : SyncFIFO (PhyBeat 8) (ratio 8 + 1)}

/-! ## Frames on the wire -/

/-- The two checkers. -/
abbrev checkers (F : SyncFIFO (PhyBeat 8) (ratio 8 + 1)) : Stage Unit (PhyBeat 8) (PhyBeat 8) :=
  preambleChecker.andThen (crc32Checker F)

/-- A cycle with an always ready consumer. -/
def cycle (b : Option (PhyBeat 8)) : Stage.In Unit (PhyBeat 8) := ⟨(), b, true⟩

/-- A frame as received: a preamble, the delimiter, the content and at least one idle cycle. -/
structure WireFrame where
  preamble : List (Option (PhyBeat 8))
  sfd : PhyBeat 8
  content : List (Option (PhyBeat 8))
  final : PhyBeat 8
  gap : ℕ
  preamble_beat : ∀ b ∈ preamble.reduceOption, b.last = false ∧ b.data ≠ PreambleChecker.sfd
  sfd_data : sfd.data = PreambleChecker.sfd
  sfd_last : sfd.last = false
  content_last : ∀ b ∈ content.reduceOption, b.last = false
  final_last : final.last = true

/-- The content after the delimiter. -/
def WireFrame.beats (f : WireFrame) : List (PhyBeat 8) := f.content.reduceOption ++ [f.final]

/-- A frame on the wire, cycle by cycle. -/
def WireFrame.cycles (f : WireFrame) : List (Stage.In Unit (PhyBeat 8)) :=
  (f.preamble ++ some f.sfd :: f.content ++ some f.final :: List.replicate (f.gap + 1) none).map cycle

/-- The beats delivered in some cycles. -/
def delivered (F : SyncFIFO (PhyBeat 8) (ratio 8 + 1)) (s : (checkers F).Run)
    (is : List (Stage.In Unit (PhyBeat 8))) : List (PhyBeat 8) :=
  (checkers F).machine.log (fun s i => (s.gives i).toList) s is

/-- The frame is delivered as if it came first after reset, and a frame too short for an FCS not at
all. -/
structure AsFirst (F : SyncFIFO (PhyBeat 8) (ratio 8 + 1)) (s : (checkers F).Run) (f : WireFrame) : Prop where
  same : delivered F s f.cycles = delivered F (checkers F).machine.reset f.cycles
  runt : f.beats.length < 5 → delivered F s f.cycles = []

/-- Every frame of the sequence is. -/
def AllAsFirst (F : SyncFIFO (PhyBeat 8) (ratio 8 + 1)) : (checkers F).Run → List WireFrame → Prop
  | _, [] => True
  | s, f :: fs => AsFirst F s f ∧ AllAsFirst F ((checkers F).machine.runFrom s f.cycles) fs

/-- No frame of four bytes or more directly follows an odd number of frames of one byte; `odd`
tells of those before the sequence. -/
def NoLongAfterOddRunts : Bool → List WireFrame → Prop
  | _, [] => True
  | odd, f :: fs => (odd = true → f.beats.length < 4) ∧ NoLongAfterOddRunts (!odd && f.beats.length == 1) fs

/-! ## Beats after those in the FIFO -/

/-- A byte left behind shows iff the frame has four bytes or more. -/
theorem emits_singleton_eq_iff (x : PhyBeat 8) (bs : List (PhyBeat 8)) :
    emits [x] bs = emits [] bs ↔ bs.length < 4 := by
  have h1 := emits_length bs [x]
  have h0 := emits_length bs []
  rw [List.length_singleton] at h1
  rw [List.length_nil] at h0
  constructor
  · intro h
    rw [h] at h1
    omega
  · intro h
    rw [List.length_eq_zero_iff.1 (by omega : (emits [x] bs).length = 0),
      List.length_eq_zero_iff.1 (by omega : (emits [] bs).length = 0)]

/-! ## One cycle -/

/-- The two checkers, with no beat held. -/
abbrev between (q : PreambleChecker.Fsm) (c : State F) : (checkers F).Run := ⟨(q, c), none⟩

theorem fifoIn_ready {c : State F} (b : PhyBeat 8) : c.fifoIn (some b) true = true := by
  rw [fifoIn_iff, Bool.or_true]

/-- Every beat is taken in the cycle it is offered. -/
theorem between_next (q : PreambleChecker.Fsm) (c : State F) (b : Option (PhyBeat 8)) :
    (between q c).next (cycle b) = between (q.next b true) (c.next (q.source b) true) := by
  have hready : q.ready (c.fifoIn (q.source b) true) = true ∨ b = none := by
    cases q with
    | preamble => exact .inl rfl
    | copy =>
      cases b with
      | none => exact .inr rfl
      | some b => exact .inl (fifoIn_ready b)
  have hnext : q.next b (c.fifoIn (q.source b) true) = q.next b true := by
    cases q with
    | preamble => rfl
    | copy =>
      cases b with
      | none => rfl
      | some b =>
        unfold PreambleChecker.Fsm.source
        simp only [fifoIn_ready]
  have hheld : (if q.ready (c.fifoIn (q.source b) true) then none else b) = none := by
    rcases hready with h | h <;> simp [h]
  calc (between q c).next (cycle b)
      = ⟨(q.next b (c.fifoIn (q.source b) true), c.next (q.source b) true),
          if q.ready (c.fifoIn (q.source b) true) then none else b⟩ := rfl
    _ = between (q.next b true) (c.next (q.source b) true) := by rw [hnext, hheld]

theorem between_gives (q : PreambleChecker.Fsm) (c : State F) (b : Option (PhyBeat 8)) :
    (between q c).gives (cycle b) = c.source (q.source b) := rfl

theorem source_none (c : State F) : c.source none = none := by
  unfold State.source; simp

theorem delivered_cons (q : PreambleChecker.Fsm) (c : State F) (b : Option (PhyBeat 8)) (bs : List (Option (PhyBeat 8))) :
    delivered F (between q c) ((b :: bs).map cycle) = (c.source (q.source b)).toList ++
      delivered F (between (q.next b true) (c.next (q.source b) true)) (bs.map cycle) := by
  unfold delivered
  rw [List.map_cons, Machine.log_cons, Stage.machine_step, between_next, between_gives]

theorem runFrom_cons (q : PreambleChecker.Fsm) (c : State F) (b : Option (PhyBeat 8)) (bs : List (Option (PhyBeat 8))) :
    (checkers F).machine.runFrom (between q c) ((b :: bs).map cycle) =
      (checkers F).machine.runFrom (between (q.next b true) (c.next (q.source b) true)) (bs.map cycle) := by
  rw [List.map_cons, Machine.runFrom_cons, Stage.machine_step, between_next]

theorem delivered_append (s : (checkers F).Run) (bs cs : List (Option (PhyBeat 8))) :
    delivered F s ((bs ++ cs).map cycle) = delivered F s (bs.map cycle) ++
      delivered F ((checkers F).machine.runFrom s (bs.map cycle)) (cs.map cycle) := by
  unfold delivered
  rw [List.map_append, Machine.log_append]

theorem runFrom_append (s : (checkers F).Run) (bs cs : List (Option (PhyBeat 8))) :
    (checkers F).machine.runFrom s ((bs ++ cs).map cycle) =
      (checkers F).machine.runFrom ((checkers F).machine.runFrom s (bs.map cycle)) (cs.map cycle) := by
  rw [List.map_append, Machine.runFrom_append]

/-! ## The parts of a frame -/

/-- Before the delimiter nothing reaches the CRC checker. -/
theorem quiet_run (bs : List (Option (PhyBeat 8)))
    (hq : ∀ b ∈ bs.reduceOption, b.last = false ∧ b.data ≠ PreambleChecker.sfd) (c : State F) (g : List (PhyBeat 8))
    (h : Inv c g) :
    delivered F (between .preamble c) (bs.map cycle) = [] ∧
      ∃ c', Inv c' g ∧ (checkers F).machine.runFrom (between .preamble c) (bs.map cycle) = between .preamble c' := by
  induction bs generalizing c with
  | nil => exact ⟨rfl, c, h, rfl⟩
  | cons b bs ih =>
    have hstay : PreambleChecker.Fsm.next .preamble b true = .preamble := by
      cases b with
      | none => rfl
      | some b =>
        have hb := (hq b (by simp)).2
        unfold PreambleChecker.Fsm.next
        simp [hb]
    have hbs : ∀ x ∈ bs.reduceOption, x.last = false ∧ x.data ≠ PreambleChecker.sfd := fun x hx => hq x (by
      cases b with
      | none => rwa [List.reduceOption_cons_of_none]
      | some b => rw [List.reduceOption_cons_of_some]; exact List.mem_cons_of_mem _ hx)
    obtain ⟨h1, c', h2, h3⟩ := ih hbs (c.next none true) (h.idle rfl).1
    rw [delivered_cons, runFrom_cons, hstay]
    exact ⟨by rw [PreambleChecker.Fsm.source, source_none, h1]; rfl, c', h2, h3⟩

/-- After a cycle without a beat the CRC checker is not in `RESET`. -/
theorem fsm_next_none (c : State F) (r : Bool) : (c.next none r).fsm ≠ .reset := by
  unfold State.next State.fifoIn
  cases c.fsm <;> simp

/-- The content of a frame before its last beat. -/
theorem content_run (bs : List (Option (PhyBeat 8))) (hl : ∀ b ∈ bs.reduceOption, b.last = false) (c : State F)
    (g : List (PhyBeat 8)) (h : Inv c g) (hc : c.fsm ≠ .reset) :
    delivered F (between .copy c) (bs.map cycle) = emits g bs.reduceOption ∧
      ∃ c', Inv c' (g ++ bs.reduceOption) ∧ c'.fsm ≠ .reset ∧
        (checkers F).machine.runFrom (between .copy c) (bs.map cycle) = between .copy c' := by
  -- induction on the cycles; a gap changes nothing
  induction bs generalizing c g with
  | nil => exact ⟨rfl, c, by rw [List.reduceOption_nil, List.append_nil]; exact h, hc, rfl⟩
  | cons b bs ih =>
    rw [delivered_cons, runFrom_cons]
    cases b with
    | none =>
      rw [List.reduceOption_cons_of_none] at hl ⊢
      obtain ⟨h1, h2⟩ := ih hl (c.next none true) g (h.idle rfl).1 (fsm_next_none c true)
      exact ⟨by rw [PreambleChecker.Fsm.source, source_none]; exact h1, h2⟩
    | some b =>
      rw [List.reduceOption_cons_of_some] at hl ⊢
      have hb : b.last = false := hl b (List.mem_cons_self ..)
      have htake := h.take (fifoIn_ready b) hc
      have htrack : track g b = g ++ [b] := by unfold track; rw [hb]; rfl
      have hnext : PreambleChecker.Fsm.next .copy (some b) true = .copy := by
        unfold PreambleChecker.Fsm.next; simp [hb]
      rw [htrack] at htake
      have hcopy := htake.copy.2 (by simp)
      obtain ⟨h1, c', h2, h3⟩ := ih (fun x hx => hl x (List.mem_cons_of_mem _ hx)) _ _ htake (by rw [hcopy]; simp)
      rw [hnext, List.append_cons]
      refine ⟨?_, c', h2, h3⟩
      rw [PreambleChecker.Fsm.source, (h.fed hc).source, emits]
      exact congrArg _ h1

/-- The beats left in the CRC checker by a frame, after the beats `g` it came after. -/
def left (g : List (PhyBeat 8)) (f : WireFrame) : List (PhyBeat 8) := track (g ++ f.content.reduceOption) f.final

/-- A whole frame. -/
theorem frame_run (f : WireFrame) (c : State F) (g : List (PhyBeat 8)) (h : Inv c g) :
    delivered F (between .preamble c) f.cycles = emits g f.beats ∧
      ∃ c', Inv c' (left g f) ∧ (checkers F).machine.runFrom (between .preamble c) f.cycles = between .preamble c' := by
  -- the preamble, the delimiter, the content and the gap, one after the other
  obtain ⟨d1, c1, i1, r1⟩ := quiet_run f.preamble f.preamble_beat c g h
  have hsfd : PreambleChecker.Fsm.next .preamble (some f.sfd) true = .copy := by
    unfold PreambleChecker.Fsm.next
    simp [f.sfd_data, f.sfd_last]
  obtain ⟨d2, c2, i2, n2, r2⟩ := content_run f.content f.content_last (c1.next none true) g (i1.idle rfl).1
    (fsm_next_none c1 true)
  have hfin : PreambleChecker.Fsm.next .copy (some f.final) true = .preamble := by
    unfold PreambleChecker.Fsm.next
    simp [f.final_last]
  obtain ⟨d3, c3, i3, r3⟩ := quiet_run (List.replicate (f.gap + 1) none)
    (by
      intro b hb
      rw [List.reduceOption_replicate_none] at hb
      cases hb)
    _ _ (i2.take (fifoIn_ready f.final) n2)
  have hcycles : f.cycles = (f.preamble ++ (some f.sfd :: (f.content ++
      some f.final :: List.replicate (f.gap + 1) none))).map cycle := by
    unfold WireFrame.cycles
    rw [List.append_assoc, List.cons_append]
  rw [hcycles]
  constructor
  · rw [delivered_append, d1, r1, delivered_cons, hsfd, delivered_append, List.nil_append]
    unfold PreambleChecker.Fsm.source
    simp only
    rw [source_none, d2, r2, delivered_cons, hfin]
    unfold PreambleChecker.Fsm.source
    simp only
    rw [d3, (i2.fed n2).source, WireFrame.beats, emits_concat, List.append_nil]
    rfl
  · refine ⟨c3, i3, ?_⟩
    rw [runFrom_append, r1, runFrom_cons, hsfd, runFrom_append]
    unfold PreambleChecker.Fsm.source
    simp only
    rw [r2, runFrom_cons, hfin]
    exact r3

/-! ## Sequences of frames -/

theorem length_beats (f : WireFrame) : f.beats.length = f.content.reduceOption.length + 1 := by
  unfold WireFrame.beats
  rw [List.length_append, List.length_singleton]

/-- A frame of one byte leaves it behind, unless it came after one left behind. -/
theorem left_eq (g : List (PhyBeat 8)) (f : WireFrame) :
    left g f = if g = [] ∧ f.beats.length = 1 then [f.final] else [] := by
  have hlen := length_beats f
  have hnil : g ++ f.content.reduceOption = [] ↔ g = [] ∧ f.beats.length = 1 := by
    rw [List.append_eq_nil_iff, hlen, Nat.add_eq_right, List.length_eq_zero_iff]
  unfold left track
  by_cases h : g ++ f.content.reduceOption = []
  · rw [if_neg (fun hc => hc.2 h), if_pos (hnil.1 h), h]; rfl
  · rw [if_pos ⟨f.final_last, h⟩, if_neg (fun hc => h (hnil.2 hc))]

theorem asFirst_iff (f : WireFrame) (c : State F) (g : List (PhyBeat 8)) (h : Inv c g) (hg : g.length ≤ 1) :
    AsFirst F (between .preamble c) f ↔ (g.length = 1 → f.beats.length < 4) := by
  have hs := (frame_run f c g h).1
  have hr : delivered F (checkers F).machine.reset f.cycles = emits [] f.beats :=
    (frame_run f (State.init F) [] inv_init).1
  have hlen := emits_length f.beats []
  rw [List.length_nil] at hlen
  have hrunt : f.beats.length < 5 → emits [] f.beats = [] := fun h5 => List.length_eq_zero_iff.1 (by omega)
  rcases g with _ | ⟨x, _ | ⟨y, g⟩⟩
  · constructor
    · intro _ h1; cases h1
    · intro _
      exact ⟨hs.trans hr.symm, fun h5 => hs.trans (hrunt h5)⟩
  · constructor
    · rintro ⟨hsame, -⟩ _
      rw [hs, hr] at hsame
      exact (emits_singleton_eq_iff x f.beats).1 hsame
    · intro h4
      have hsame := (emits_singleton_eq_iff x f.beats).2 (h4 rfl)
      exact ⟨by rw [hs, hr, hsame], fun h5 => by rw [hs, hsame, hrunt h5]⟩
  · simp at hg

theorem allAsFirst_iff (fs : List WireFrame) (c : State F) (g : List (PhyBeat 8)) (h : Inv c g) (hg : g.length ≤ 1) :
    AllAsFirst F (between .preamble c) fs ↔ NoLongAfterOddRunts (g.length == 1) fs := by
  induction fs generalizing c g with
  | nil => exact Iff.rfl
  | cons f fs ih =>
    obtain ⟨-, c', h', hrun⟩ := frame_run f c g h
    have hleft := left_eq g f
    have hle : (left g f).length ≤ 1 := by
      rw [hleft]
      split_ifs <;> simp
    have hodd : ((left g f).length == 1) = (!(g.length == 1) && f.beats.length == 1) := by
      have h0 : g = [] ↔ ¬ g.length = 1 := by
        rw [← List.length_eq_zero_iff]; omega
      rw [hleft, Bool.eq_iff_iff]
      split_ifs with hc
      · simp [h0.1 hc.1, hc.2]
      · simpa [h0] using hc
    have hrest := ih c' (left g f) h' hle
    rw [hodd] at hrest
    unfold AllAsFirst NoLongAfterOddRunts
    rw [hrun, hrest, asFirst_iff f c g h hg, beq_iff_eq]

/-- In every sequence of frames: each is delivered as if it came first after reset, and those too
short for an FCS not at all, iff no frame of four bytes or more directly follows an odd number of
frames of one byte. -/
theorem runts_harmless_iff (F : SyncFIFO (PhyBeat 8) (ratio 8 + 1)) (fs : List WireFrame) :
    AllAsFirst F (checkers F).machine.reset fs ↔ NoLongAfterOddRunts false fs :=
  allAsFirst_iff fs (State.init F) [] inv_init (Nat.zero_le _)

/-- A frame of the bytes `ds` and `d`, with nothing but the delimiter before it. -/
def bareFrame (ds : List (BitVec 8)) (d : BitVec 8) : WireFrame where
  preamble := []
  sfd := ⟨PreambleChecker.sfd, 0, 0, false⟩
  content := ds.map fun x => some ⟨x, 0, 0, false⟩
  final := ⟨d, 0, 0, true⟩
  gap := 0
  preamble_beat := by
    intro b hb
    cases hb
  sfd_data := rfl
  sfd_last := rfl
  content_last := by
    intro b hb
    rw [List.reduceOption_mem_iff] at hb
    obtain ⟨x, -, hx⟩ := List.mem_map.1 hb
    cases hx; rfl
  final_last := rfl

/-- After a frame of one byte, a frame of five is delivered as two bytes, the first one not its own. -/
theorem runt_disturbs_next :
    ¬ AllAsFirst (SyncFIFO.queue _ _) (checkers (SyncFIFO.queue _ _)).machine.reset
      [bareFrame [] 0xAA, bareFrame [1, 2, 3, 4] 5] := by
  rintro ⟨-, h, -⟩
  have := congrArg (List.map (·.data)) h.same
  exact absurd this (by decide)

end LiteEth.Mac.Runts
