/-
The receive pipeline of `mac/core.py` for a core of 32 bits: the checkers, and what is behind them. The CRC checker
takes a beat in `RESET` and loses it; `patientChecker` is the checker that lets it wait. The two differ in no other
cycle, and the patient one is a simulation of what it makes of the frames.
-/
import LiteEth.Mac.Converter
import LiteEth.Mac.CrcChecker
import LiteEth.Mac.Preamble
import LiteEth.Rtl.StreamFifo
import LiteEth.Rtl.StreamTaken

namespace LiteEth.Mac

open LiteEth.Rtl

variable {ε : Type}

/-! ## Frames of bytes -/

/-- The beats of a frame of bytes: no error, and no `last_be`. -/
def frameBeats (ds : List (BitVec 8)) : List (PhyBeat 8) := (marked ds).map fun x => ⟨x.1, 0, 0, x.2⟩

/-- A beat without an error and without `last_be`. -/
def PhyBeat.Plain (b : PhyBeat 8) : Prop := b.lastBe = 0 ∧ b.error = 0

theorem plain_frameBeats (ds : List (BitVec 8)) : ∀ b ∈ frameBeats ds, b.Plain := by
  intro b hb
  obtain ⟨x, -, rfl⟩ := List.mem_map.1 hb
  exact ⟨rfl, rfl⟩

theorem isFrame_frameBeats {ds : List (BitVec 8)} (h : ds ≠ []) : IsFrame (·.last) (frameBeats ds) :=
  (isFrame_marked h).map (g := fun x : BitVec 8 × Bool => (⟨x.1, 0, 0, x.2⟩ : PhyBeat 8)) fun _ => rfl

theorem data_marked {δ : Type} (ds : List δ) : (marked ds).map Prod.fst = ds := by
  rcases List.eq_nil_or_concat' ds with rfl | ⟨ds, d, rfl⟩
  · rfl
  · rw [marked_concat, List.map_append, List.map_map]
    exact congrArg (· ++ [d]) (List.map_id ds)

theorem data_frameBeats (ds : List (BitVec 8)) : (frameBeats ds).map (·.data) = ds := by
  unfold frameBeats
  rw [List.map_map]
  exact data_marked ds

theorem length_frameBeats (ds : List (BitVec 8)) : (frameBeats ds).length = ds.length := by
  conv_rhs => rw [← data_frameBeats ds, List.length_map]

/-- A frame of plain beats is that of its bytes. -/
theorem eq_frameBeats {f : List (PhyBeat 8)} (hf : IsFrame (·.last) f) (hplain : ∀ b ∈ f, b.Plain) :
    f = frameBeats (f.map (·.data)) := by
  unfold frameBeats
  rw [← hf.map_marked (·.data), List.map_map]
  conv_lhs => rw [← List.map_id f]
  refine List.map_congr_left fun b hb => ?_
  obtain ⟨hbe, herr⟩ := hplain b hb
  obtain ⟨d, be, er, l⟩ := b
  obtain rfl : be = 0 := hbe
  obtain rfl : er = 0 := herr
  rfl

/-- What a transducer makes of some beats has what it gives to each of them. -/
theorem outs_forall {α β : Type} (T : Transducer α β) {P : α → Prop} {Q : β → Prop}
    (h : ∀ q a, P a → ∀ b ∈ T.out q a, Q b) {as : List α} (has : ∀ a ∈ as, P a) : ∀ q, ∀ b ∈ T.outs q as, Q b := by
  induction as with
  | nil => exact fun _ => nofun
  | cons a as ih =>
    intro q b hb
    rcases List.mem_append.1 hb with hb | hb
    · exact h q a (has a List.mem_cons_self) b hb
    · exact ih (fun x hx => has x (List.mem_cons_of_mem a hx)) _ b hb

/-! ## The preamble checker -/

namespace PreambleChecker

/-- What the checker makes of its beats; it is meant for packets that do not make it report an error. -/
abbrev checked : Transducer (PhyBeat 8) (PhyBeat 8) where
  State := Fsm
  init := .preamble
  next s b := s.next (some b) true
  out s b := (s.source (some b)).toList
  ok s b := s.error (some b) = false

/-- The checker gives it in the cycle in which it takes the beat. -/
def checks (H : ε → Prop) : Stage.Lazy H preambleChecker checked where
  W := ℕ
  linear := inferInstance
  wf := wellFoundedLT_nat
  Rel s q p w := s = q ∧ p = [] ∧ w = 0
  reset := ⟨0, rfl, rfl, rfl⟩
  cycle := by
    rintro s q p w ⟨rfl, rfl, rfl⟩ e b r -
    -- the state is the transducer's own, nothing is ever owed
    refine ⟨[], 0, ?_, ⟨?_, rfl, rfl⟩, fun _ hready _ => ?_⟩
    · cases b <;> cases s <;> cases r <;> rfl
    · cases b <;> cases s <;> cases r <;> simp [Fsm.next, Fsm.ready]
    · cases b with
      | none => exact .inl ⟨rfl, rfl, le_rfl⟩
      | some x =>
        cases s with
        | copy => exact .inr (.inl nofun)
        | preamble => cases hready rfl
  stable := by
    rintro s q p w ⟨rfl, -, -⟩ e b - x hx e' b' hb
    cases s with
    | preamble => cases hx
    | copy =>
      have hne : b ≠ none := by
        rintro rfl
        cases hx
      rw [hb rfl hne]
      simpa [Fsm.next] using hx

/-- After the delimiter a frame passes. -/
theorem checked_copy {m : List (PhyBeat 8)} (hm : ∀ b ∈ m, b.last = false) :
    checked.Oks .copy m ∧ checked.run .copy m = .copy ∧ checked.outs .copy m = m := by
  induction m with
  | nil => exact ⟨trivial, rfl, rfl⟩
  | cons b m ih =>
    have hnext : checked.next .copy b = .copy := by
      show Fsm.next .copy (some b) true = .copy
      simp [Fsm.next, hm b List.mem_cons_self]
    obtain ⟨h1, h2, h3⟩ := ih fun x hx => hm x (List.mem_cons_of_mem b hx)
    rw [Transducer.oks_cons, Transducer.run_cons, Transducer.outs_cons, hnext, h3]
    exact ⟨⟨rfl, h1⟩, h2, rfl⟩

theorem checked_content {f : List (PhyBeat 8)} (hf : IsFrame (·.last) f) :
    checked.Oks .copy f ∧ checked.run .copy f = .preamble ∧ checked.outs .copy f = f := by
  obtain ⟨m, l, hm, hl⟩ := hf
  obtain ⟨h1, h2, h3⟩ := checked_copy hm
  have hnext : checked.next .copy l = .preamble := by
    show Fsm.next .copy (some l) true = .preamble
    simp [Fsm.next, hl]
  rw [Transducer.oks_append, Transducer.run_append, Transducer.outs_append, h2, h3, Transducer.run_cons, hnext]
  exact ⟨⟨h1, rfl, trivial⟩, rfl, rfl⟩

/-- The preamble and the delimiter are taken away. -/
theorem checked_frame {ds : List (BitVec 8)} (h : ds ≠ []) :
    checked.Makes (frameBeats (PreambleInserter.preambleBytes ++ ds)) (frameBeats ds) := by
  have hbegin : frameBeats (PreambleInserter.preambleBytes ++ ds) =
      PreambleInserter.preambleBytes.map (fun d => ⟨d, 0, 0, false⟩) ++ frameBeats ds := by
    unfold frameBeats
    rw [marked_append _ h, List.map_append, List.map_map]
    rfl
  have hoks : checked.Oks .preamble (PreambleInserter.preambleBytes.map fun d => ⟨d, 0, 0, false⟩) :=
    ⟨rfl, rfl, rfl, rfl, rfl, rfl, rfl, rfl, trivial⟩
  have hrun : checked.run .preamble (PreambleInserter.preambleBytes.map fun d => ⟨d, 0, 0, false⟩) = .copy := by decide
  have houts : checked.outs .preamble (PreambleInserter.preambleBytes.map fun d => ⟨d, 0, 0, false⟩) = [] := by decide
  obtain ⟨h1, h2, h3⟩ := checked_content (isFrame_frameBeats h)
  rw [hbegin]
  refine ⟨(Transducer.oks_append _ _ _ _).2 ⟨hoks, ?_⟩, ?_, ?_⟩
  · rw [hrun]
    exact h1
  · rw [Transducer.run_append, hrun]
    exact h2
  · rw [Transducer.outs_append, houts, hrun]
    exact h3

end PreambleChecker

/-! ## The CRC checker -/

/-- The CRC checker, but for `RESET`, in which it does not take a beat. -/
abbrev patientChecker (F : SyncFIFO (PhyBeat 8) (CRCChecker.ratio 8 + 1)) : Stage ε (PhyBeat 8) (PhyBeat 8) where
  State := CRCChecker.State F
  reset := CRCChecker.State.init F
  source s _ b := if s.fsm = .reset then none else s.source b
  ready s _ b r := s.fsm != .reset && s.fifoIn b r
  step s _ b r := s.next (if s.fsm = .reset then none else b) r

namespace CRCChecker

variable {F : SyncFIFO (PhyBeat 8) (ratio 8 + 1)}

/-- While nothing is offered in `RESET` the two checkers do the same. -/
theorem patient_eq (s : State F) (e : ε) (b : Option (PhyBeat 8)) (r : Bool) (h : s.fsm = .reset → b = none) :
    (crc32Checker F).source s e b = (patientChecker F).source s e b ∧
      (crc32Checker F).ready s e b r = (patientChecker F).ready s e b r ∧
      (crc32Checker F).step s e b r = (patientChecker F).step s e b r := by
  show s.source b = (if s.fsm = .reset then none else s.source b) ∧ s.fifoIn b r = (s.fsm != .reset && s.fifoIn b r) ∧
    s.next b r = s.next (if s.fsm = .reset then none else b) r
  by_cases hs : s.fsm = .reset
  · rw [h hs, if_pos hs, if_pos hs, hs]
    refine ⟨?_, rfl, rfl⟩
    unfold State.source
    simp
  · rw [if_neg hs, if_neg hs]
    exact ⟨rfl, by simp [hs], rfl⟩

/-- What the checker makes of the beats it takes; the state is the beats of the frame so far. -/
abbrev emitted : Transducer (PhyBeat 8) (PhyBeat 8) where
  State := List (PhyBeat 8)
  init := []
  next := track
  out f b := (emit f b).toList
  ok _ _ := True

/-- No error is reported before the last beat of a frame, and none if the FCS is right. -/
theorem error_eq_false {s : State F} {f : List (PhyBeat 8)} (h : Fed s f) {b : PhyBeat 8}
    (hb : b.last = true → 3 ≤ f.length ∧ FcsRight (f ++ [b])) : s.error (some b) = false := by
  unfold State.error State.crcError
  rw [h.crc, Option.any_some]
  cases hl : b.last with
  | false => rw [Bool.and_false, Bool.false_and]
  | true => rw [(error_iff (hb hl).1 b).2 (hb hl).2, Bool.and_false]

/-- A beat that waits for the consumer. -/
theorem not_fifoIn {s : State F} {b : PhyBeat 8} {r : Bool} (h : s.fifoIn (some b) r = false) :
    s.fifoFull = true ∧ r = false := by
  rw [fifoIn_iff] at h
  simpa using h

theorem source_isSome {s : State F} (b : PhyBeat 8) : (s.source (some b)).isSome = s.fifoFull := by
  unfold State.source
  cases s.fifoFull <;> rfl

/-- Without a beat the checker does not go to `RESET`. -/
theorem fsm_next {s : State F} (hs : s.fsm ≠ .reset) {b : Option (PhyBeat 8)} {r : Bool} (hin : s.fifoIn b r = false) :
    (s.next b r).fsm ≠ .reset := by
  unfold State.next
  cases hf : s.fsm with
  | reset => exact absurd hf hs
  | idle | copy => simp [hin]

/-- The checker goes to `RESET` when it takes the last beat of a frame. -/
theorem last_of_reset {s : State F} {b : Option (PhyBeat 8)} {r : Bool} (h : (s.next b r).fsm = .reset) :
    s.fsm ≠ .reset ∧ ∃ x, b = some x ∧ x.last = true ∧ s.fifoIn b r = true := by
  unfold State.next at h
  cases hf : s.fsm with
  | reset => simp [hf] at h
  | idle =>
    simp only [hf] at h
    split_ifs at h
  | copy =>
    simp only [hf] at h
    split_ifs at h with hin
    obtain ⟨h1, h2⟩ := Bool.and_eq_true_iff.1 hin
    cases b with
    | none => cases h2
    | some x => exact ⟨nofun, x, rfl, h2, h1⟩

/-- The patient checker delivers the frames as they are taken. -/
def delivers (H : ε → Prop) : Stage.Lazy H (patientChecker F) emitted where
  W := ℕ
  linear := inferInstance
  wf := wellFoundedLT_nat
  Rel s f p w := Inv s f ∧ p = [] ∧ w = if s.fsm = .reset then 1 else 0
  reset := ⟨1, inv_init, rfl, rfl⟩
  cycle := by
    rintro s f p w ⟨h, rfl, rfl⟩ e b r -
    -- in reset no beat is looked at, and the next cycle leaves it
    by_cases hs : s.fsm = .reset
    · have hnext : (s.next none r).fsm = .idle := by simp [State.next, hs]
      have hstep : (patientChecker F).step s e b r = s.next none r := by
        show s.next (ite _ _ _) r = _
        rw [if_pos hs]
      have hready : (patientChecker F).ready s e b r = false := by
        show (s.fsm != .reset && _) = false
        rw [hs]
        rfl
      have hsource : (patientChecker F).source s e b = none := if_pos hs
      rw [hready, hsource, hstep, if_pos hs, ite_self]
      refine ⟨[], 0, rfl, ⟨(h.idle rfl).1, rfl, ?_⟩, fun _ _ _ => .inr (.inr Nat.one_pos)⟩
      rw [hnext]
      rfl
    · have hstep : (patientChecker F).step s e b r = s.next b r := by
        show s.next (ite _ _ _) r = _
        rw [if_neg hs]
      have hready : (patientChecker F).ready s e b r = s.fifoIn b r := by
        show (s.fsm != .reset && _) = _
        simp [hs]
      have hsource : (patientChecker F).source s e b = s.source b := if_neg hs
      rw [hready, hsource, hstep, if_neg hs]
      cases hin : s.fifoIn b r with
      | true =>
        cases b with
        | none => cases hin
        | some x =>
          refine ⟨[], _, ?_, ⟨h.take hin hs, rfl, rfl⟩, fun _ htake _ => absurd (htake rfl) nofun⟩
          rw [(h.fed hs).gives hin, List.append_nil]
          exact List.append_nil _
      | false =>
        obtain ⟨hinv, hgive⟩ := h.idle hin
        have hnone : (if r = true then s.source b else none) = none := by
          rcases hgive with hgive | rfl
          · rw [hgive, ite_self]
          · rfl
        rw [hnone]
        refine ⟨[], 0, rfl, ⟨hinv, rfl, (if_neg (fsm_next hs hin)).symm⟩, fun _ _ _ => ?_⟩
        cases b with
        | none => exact .inl ⟨rfl, rfl, le_rfl⟩
        | some x =>
          have hsome := source_isSome (s := s) x
          rw [(not_fifoIn hin).1] at hsome
          exact .inr (.inl (Option.isSome_iff_ne_none.1 hsome))
  stable := by
    rintro s f p w ⟨h, -, -⟩ e b - x hx e' b' hb
    -- what is shown is shown outside of reset only
    have hs : s.fsm ≠ .reset := by
      intro hc
      have hsource : (patientChecker F).source s e b = none := if_pos hc
      rw [hsource] at hx
      cases hx
    have hsource : ∀ t : State F, t.fsm ≠ .reset → ∀ (e : ε) (b : Option (PhyBeat 8)),
        (patientChecker F).source t e b = t.source b := fun t ht _ _ => if_neg ht
    have hstep : (patientChecker F).step s e b false = s.next b false := by
      show s.next (ite _ _ _) false = _
      rw [if_neg hs]
    rw [hsource s hs] at hx
    cases b with
    | none =>
      unfold State.source at hx
      simp at hx
    | some y =>
      have hfull := source_isSome (s := s) y
      rw [hx] at hfull
      have hin : s.fifoIn (some y) false = false := by
        rw [fifoIn_iff, ← hfull]
        rfl
      have hready : (patientChecker F).ready s e (some y) false = false := by
        show (_ && s.fifoIn (some y) false) = false
        rw [hin, Bool.and_false]
      have hs' := fsm_next hs hin
      rw [hb hready nofun, hstep, hsource _ hs', (((h.idle hin).1).fed hs').source, ← (h.fed hs).source, hx]

/-- Before its last beat. -/
theorem emitted_open {m : List (PhyBeat 8)} (hm : ∀ b ∈ m, b.last = false) (g : List (PhyBeat 8)) :
    emitted.run g m = g ++ m ∧ emitted.outs g m = emits g m := by
  induction m generalizing g with
  | nil => exact ⟨(List.append_nil g).symm, rfl⟩
  | cons b m ih =>
    have hnext : emitted.next g b = g ++ [b] := by
      show track g b = _
      unfold track
      rw [hm b List.mem_cons_self]
      rfl
    obtain ⟨h1, h2⟩ := ih (fun x hx => hm x (List.mem_cons_of_mem b hx)) (g ++ [b])
    rw [Transducer.run_cons, Transducer.outs_cons, hnext, h1, h2, List.append_assoc]
    exact ⟨rfl, rfl⟩

theorem length_splitBytes {w : ℕ} (v : BitVec w) (n : ℕ) : (splitBytes v n).length = n := by
  simp [splitBytes]

/-- The FCS of a frame that was sent is right. -/
theorem fcsRight_frameBeats (ds : List (BitVec 8)) : FcsRight (frameBeats (ds ++ splitBytes (crc32 ds) 4)) := by
  have hlen : (frameBeats (ds ++ splitBytes (crc32 ds) 4)).length - 4 = ds.length := by
    rw [length_frameBeats, List.length_append, length_splitBytes, Nat.add_sub_cancel]
  have hbody : bytes (body (frameBeats (ds ++ splitBytes (crc32 ds) 4))) = ds := by
    unfold bytes body
    rw [hlen, List.map_take, data_frameBeats, List.take_left]
  unfold FcsRight
  rw [hbody]
  unfold bytes fcs
  rw [hlen, List.map_drop, data_frameBeats, List.drop_left]

/-- The last beat of a frame with the right FCS is delivered without an error. -/
theorem error_emits {f : List (PhyBeat 8)} (hf : IsFrame (·.last) f) (hlen : 5 ≤ f.length) (hplain : ∀ b ∈ f, b.Plain)
    (hright : FcsRight f) {x : PhyBeat 8} (hx : x ∈ emits [] f) (hl : x.last = true) : x.error = 0 := by
  have hclean : LastClean f := fun _ b hb => (hplain b (List.mem_of_mem_getLast? hb)).2
  have hmem : seen x ∈ wholly f := by
    rw [← emits_seen_frame hf hlen hclean]
    exact List.mem_map_of_mem hx
  unfold wholly at hmem
  rw [decide_eq_true hright] at hmem
  have hseen : seen x = (x.data, some (x.error != 0)) := by
    unfold seen
    rw [hl]
    rfl
  rw [hseen] at hmem
  rcases List.mem_append.1 hmem with hmem | hmem
  · obtain ⟨d, -, hd⟩ := List.mem_map.1 hmem
    cases congrArg Prod.snd hd
  · obtain ⟨d, -, hd⟩ := List.mem_map.1 hmem
    have herr : (x.error != 0) = false := (Option.some.inj (congrArg Prod.snd hd)).symm
    simpa using herr

/-- A frame is delivered without its FCS. -/
theorem emitted_frame {ds : List (BitVec 8)} (h : ds ≠ []) {f : List (PhyBeat 8)}
    (hf : f = frameBeats (ds ++ splitBytes (crc32 ds) 4)) : emitted.run [] f = [] ∧
      emitted.outs [] f = emits [] f ∧ IsFrame (·.last) (emits [] f) ∧ (emits [] f).map (·.data) = ds ∧
      ∀ x ∈ emits [] f, x.last = true → x.error = 0 := by
  -- the frame is right: its four last bytes are the remainder of the others
  have hframe : IsFrame (·.last) f := by
    rw [hf]
    exact isFrame_frameBeats (List.append_ne_nil_of_left_ne_nil h _)
  have hplain : ∀ b ∈ f, b.Plain := by
    rw [hf]
    exact plain_frameBeats _
  have hright : FcsRight f := by
    rw [hf]
    exact fcsRight_frameBeats ds
  have hlen : f.length = ds.length + 4 := by
    rw [hf, length_frameBeats, List.length_append, length_splitBytes]
  have hpos := List.length_pos_of_ne_nil h
  have hdata : (emits [] f).map (·.data) = ds := by
    refine (bytes_emits f).trans ?_
    unfold bytes body
    rw [hlen, Nat.add_sub_cancel, hf, List.map_take, data_frameBeats, List.take_left]
  refine and_assoc.1 ⟨?_, isFrame_emits hframe (by omega), hdata,
    fun x hx => error_emits hframe (by omega) hplain hright hx⟩
  obtain ⟨m, l, hm, hl⟩ := hframe
  rw [List.length_append, List.length_singleton] at hlen
  obtain ⟨h1, h2⟩ := emitted_open hm []
  rw [List.nil_append] at h1
  have hemits := emits_concat m l []
  rw [List.nil_append] at hemits
  have htrack : track m l = [] := by
    unfold track
    rw [if_pos ⟨hl, List.ne_nil_of_length_pos (by omega)⟩]
  rw [Transducer.run_append, Transducer.outs_append, h1, h2, hemits]
  exact ⟨htrack, congrArg (_ ++ ·) (List.append_nil _)⟩

end CRCChecker

/-! ## Behind the checkers -/

/-- `LiteEthMACPaddingChecker`. -/
abbrev paddingChecker : Stage ε (PhyBeat 8) (PhyBeat 8) := Stage.wire

/-- The beat of `LiteEthMACRXLastBE`: `last_be` is `last`. -/
def RxLastBE.marked (b : PhyBeat 8) : PhyBeat 8 := { b with lastBe := if b.last then 1 else 0 }

/-- `LiteEthMACRXLastBE`. -/
abbrev rxLastBE : Stage ε (PhyBeat 8) (PhyBeat 8) := Stage.wire.mapped RxLastBE.marked

namespace Receive

open Converter

variable {e : Endianness} (C : Converters e) (F : SyncFIFO (PhyBeat 8) (CRCChecker.ratio 8 + 1))

/-- `rx_pipeline` behind the CRC checker. -/
abbrev behind : Stage Unit (PhyBeat 8) (PhyBeat 32) := (paddingChecker.andThen rxLastBE).andThen C.rx

/-- The CRC checker and what is behind it. -/
abbrev receiver : Stage Unit (PhyBeat 8) (PhyBeat 32) := (crc32Checker F).andThen (behind C)

/-- The same with the patient checker. -/
abbrev patient : Stage Unit (PhyBeat 8) (PhyBeat 32) := (patientChecker F).andThen (behind C)

/-- What is made of the beats before they are put together. -/
abbrev passed : Transducer (PhyBeat 8) (PhyBeat 8) := (Fifo.same _).andThen ((Fifo.same _).mapped RxLastBE.marked)

/-- What is made of the beats behind the CRC checker. -/
abbrev loaded (e : Endianness) : Transducer (PhyBeat 8) (PhyBeat 32) := passed.andThen (joined e)

/-- What is made of the frames. -/
abbrev received (e : Endianness) : Transducer (PhyBeat 8) (PhyBeat 32) := CRCChecker.emitted.andThen (loaded e)

theorem passed_oks (q : passed.State) (bs : List (PhyBeat 8)) : passed.Oks q bs :=
  passed.oks_of_forall (fun _ _ => ⟨trivial, trivial, trivial⟩) bs q

theorem joined_oks (q : (joined e).State) (bs : List (PhyBeat 8)) : (joined e).Oks q bs :=
  (joined e).oks_of_forall (fun _ _ => trivial) bs q

theorem received_oks (q : (received e).State) (bs : List (PhyBeat 8)) : (received e).Oks q bs := by
  rw [Transducer.andThen_oks, Transducer.andThen_oks]
  exact ⟨CRCChecker.emitted.oks_of_forall (fun _ _ => trivial) _ _, passed_oks _ _, joined_oks _ _⟩

section Passes

/-- A connection in the receive pipeline. -/
def connection : Stage.Taking (fun _ : Unit => True) paddingChecker (Fifo.same (PhyBeat 8)) :=
  (Stage.wire_passes _ _).taking

/-- Each beat goes on, marked. -/
def marking : Stage.Taking (fun _ : Unit => True) rxLastBE ((Fifo.same (PhyBeat 8)).mapped RxLastBE.marked) :=
  (Stage.wire_maps _ _).taking

theorem marked_oks (q : ((Fifo.same (PhyBeat 8)).mapped RxLastBE.marked).State) (bs : List (PhyBeat 8)) :
    ((Fifo.same _).mapped RxLastBE.marked).Oks q bs := (Transducer.mapped_oks _ _ _ _).2 (Fifo.same_oks q bs)

/-- The beats of the checker's FIFO go on as they are. -/
def connection_direct : Stage.Direct (paddingChecker (ε := Unit)) (Fifo.same (PhyBeat 8)) :=
  connection.direct Fifo.same_oks fun h => h.1

/-- The connections pass the beats on, all of them at once. -/
def passes : Stage.Taking (fun _ : Unit => True) (paddingChecker.andThen rxLastBE) passed :=
  connection.behind connection_direct marking marked_oks

/-- Each beat goes on, marked, through both stages. -/
def passes_direct : Stage.Direct (paddingChecker.andThen (rxLastBE (ε := Unit))) passed :=
  connection_direct.andThen (marking.direct marked_oks fun h => h.1)

end Passes

/-- What is behind the CRC checker makes that of the beats it takes. -/
def loads : Stage.Taking (fun _ => True) (behind C) (loaded e) := passes.behind passes_direct C.joins joined_oks

theorem loaded_oks (q : (loaded e).State) (bs : List (PhyBeat 8)) : (loaded e).Oks q bs :=
  (Transducer.andThen_oks _ _ _ _).2 ⟨passed_oks _ _, joined_oks _ _⟩

/-- The checker gives the frames without their check sequence. -/
def delivers_direct : Stage.Direct (patientChecker (ε := Unit) F) CRCChecker.emitted :=
  (CRCChecker.delivers fun _ => True).taking.direct
    (fun q as => CRCChecker.emitted.oks_of_forall (fun _ _ => trivial) as q)
    fun h => h.2.1

/-- The receiver makes that of the beats it takes, if it is patient. -/
def receives : Stage.Taking (fun _ => True) (patient C F) (received e) :=
  (CRCChecker.delivers _).taking.behind (delivers_direct F) (loads C) loaded_oks

/-- Between two frames. -/
def Rest (q : (received e).State) : Prop := q.1 = [] ∧ q.2.2.count = 0

theorem passed_outs (q : passed.State) (bs : List (PhyBeat 8)) : passed.outs q bs = bs.map RxLastBE.marked := by
  rw [Transducer.andThen_outs, Transducer.mapped_outs, Fifo.same_outs, Fifo.same_outs]

theorem loaded_outs (q : (loaded e).State) (bs : List (PhyBeat 8)) :
    (loaded e).outs q bs = (joined e).outs q.2 (bs.map RxLastBE.marked) := by
  rw [Transducer.andThen_outs, passed_outs]

theorem loaded_run (q : (loaded e).State) (bs : List (PhyBeat 8)) :
    ((loaded e).run q bs).2 = (joined e).run q.2 (bs.map RxLastBE.marked) := by
  rw [Transducer.andThen_run, passed_outs]

theorem received_outs (q : (received e).State) (f : List (PhyBeat 8)) : (received e).outs q f =
    (joined e).outs q.2.2 ((CRCChecker.emitted.outs q.1 f).map RxLastBE.marked) :=
  (Transducer.andThen_outs _ _ f q).trans (loaded_outs q.2 _)

theorem received_run (q : (received e).State) (f : List (PhyBeat 8)) :
    ((received e).run q f).1 = CRCChecker.emitted.run q.1 f ∧ ((received e).run q f).2.2 =
      (joined e).run q.2.2 ((CRCChecker.emitted.outs q.1 f).map RxLastBE.marked) := by
  have h := Transducer.andThen_run CRCChecker.emitted (loaded e) f q
  exact ⟨congrArg Prod.fst h, (congrArg (fun x => x.2.2) h).trans (loaded_run q.2 _)⟩

/-- The beats that are put together. -/
theorem received_emits {f : List (PhyBeat 8)} (hf : IsFrame (·.last) f)
    (herr : ∀ x ∈ f, x.last = true → x.error = 0) : Received (f.map RxLastBE.marked) := by
  refine ⟨hf.map (g := RxLastBE.marked) fun _ => rfl, fun b hb => ?_, fun b hb hl => ?_⟩
  · obtain ⟨x, hx, rfl⟩ := List.mem_map.1 hb
    rfl
  · obtain ⟨x, hx, rfl⟩ := List.mem_map.1 hb
    exact herr x hx hl

/-- The words of a frame that was sent carry its bytes. -/
theorem received_frame {q : (received e).State} (hq : Rest q) {ds : List (BitVec 8)} (h : 4 < ds.length) :
    let f := frameBeats (ds ++ splitBytes (crc32 ds) 4)
    Rest ((received e).run q f) ∧ Carries e ds ((received e).outs q f) := by
  intro f
  obtain ⟨h1, h2, hframe, hdata, herr⟩ := CRCChecker.emitted_frame (List.ne_nil_of_length_pos (by omega))
    (show f = _ from rfl)
  have hlen := congrArg List.length hdata
  rw [List.length_map] at hlen
  obtain ⟨hcarry, hcount⟩ := joined_frame (e := e) (received_emits hframe herr) hq.2
    (.inr (by rw [List.length_map]; omega))
  rw [List.map_map] at hcarry
  obtain ⟨hrun, hjoined⟩ := received_run q f
  rw [hq.1, h1] at hrun
  rw [hq.1, h2] at hjoined
  have houts := received_outs q f
  rw [hq.1, h2] at houts
  refine ⟨⟨hrun, hjoined ▸ hcount⟩, ?_⟩
  rw [houts]
  conv_lhs => rw [← hdata]
  exact hcarry

/-- The last beat of a frame makes a word. -/
theorem received_last {q : (received e).State} (hq : Rest q) {f ys rest : List (PhyBeat 8)} (hf : IsFrame (·.last) f)
    (hlen : 5 ≤ f.length) (hsplit : f = ys ++ rest) (hrest : rest ≠ []) :
    (received e).outs ((received e).run q ys) rest ≠ [] := by
  obtain ⟨rest, x, rfl⟩ := (List.eq_nil_or_concat' rest).resolve_left hrest
  obtain ⟨m, l, hm, hl⟩ := hf
  rw [← List.append_assoc] at hsplit
  obtain ⟨rfl, hx⟩ := List.append_inj' hsplit rfl
  obtain rfl := List.singleton_inj.1 hx
  rw [List.length_append, List.length_singleton] at hlen
  obtain ⟨hrun, -⟩ := received_run q (ys ++ rest)
  rw [hq.1, (CRCChecker.emitted_open hm []).1, List.nil_append] at hrun
  have hout : ∃ y, CRCChecker.emitted.outs ((received e).run q (ys ++ rest)).1 [l] = [y] ∧ y.last = true := by
    rw [hrun]
    refine ⟨_, (List.append_nil _).trans (congrArg Option.toList (dif_pos (by omega))), hl⟩
  obtain ⟨y, hy, hylast⟩ := hout
  rw [Transducer.outs_append, ← Transducer.run_append, received_outs _ [l], hy]
  refine List.append_ne_nil_of_right_ne_nil _ ?_
  show (joined e).out _ (RxLastBE.marked y) ++ _ ≠ []
  have hfull : (((received e).run q (ys ++ rest)).2.2).full (RxLastBE.marked y) = true := by
    unfold Loading.full RxLastBE.marked
    rw [hylast, Bool.or_true]
  show (if _ then _ else _) ++ _ ≠ []
  rw [if_pos hfull]
  exact nofun

end Receive

end LiteEth.Mac
