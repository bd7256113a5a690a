/-
`mac/last_be.py`: `LiteEthMACTXLastBE` on a stream of bytes. A packet ends at its first byte with `last_be`, and what
follows up to the byte marked `last` is swallowed, at full speed.
-/
import LiteEth.Mac.Sram
import LiteEth.Rtl.StreamTaken

namespace LiteEth.Mac

open LiteEth.Rtl

namespace TxLastBE

/-- The states of the FSM. -/
inductive Fsm
  | copy
  | waitLast
  deriving DecidableEq, Repr

variable (s : Fsm) (b : Option (PhyBeat 8)) (r : Bool)

/-- A byte as it is copied: `last` is its `last_be`, and `last_be` is not driven. -/
def copied (x : PhyBeat 8) : PhyBeat 8 := { x with lastBe := 0, last := x.lastBe == 1 }

/-- The beat at the source, none after the last byte. -/
def Fsm.source : Option (PhyBeat 8) :=
  match s with
  | .copy => b.map copied
  | .waitLast => none

/-- `sink.ready`. -/
def Fsm.ready : Bool :=
  match s with
  | .copy => r
  | .waitLast => true

/-- One cycle: after the byte that `last_be` marks the rest of the packet is swallowed. -/
def Fsm.next : Fsm :=
  match s with
  | .copy => if r && b.any fun x => x.lastBe == 1 && !x.last then .waitLast else .copy
  | .waitLast => if b.any (·.last) then .copy else .waitLast

end TxLastBE

/-- `LiteEthMACTXLastBE(8)`. -/
abbrev txLastBE {ε : Type} : Stage ε (PhyBeat 8) (PhyBeat 8) where
  State := TxLastBE.Fsm
  reset := .copy
  source s _ b := s.source b
  ready s _ _ r := s.ready r
  step s _ b r := s.next b r

namespace TxLastBE

/-! ## Truncated packets -/

/-- The bytes of a packet up to the first with `last_be`. -/
def upToLastBe : List (PhyBeat 8) → List (PhyBeat 8)
  | [] => []
  | b :: bs => if b.lastBe = 1 then [b] else b :: upToLastBe bs

/-- What is sent of a packet. -/
def truncated (f : List (PhyBeat 8)) : List (PhyBeat 8) := (upToLastBe f).map copied

/-- One of the bytes has `last_be`. -/
def Ended (f : List (PhyBeat 8)) : Prop := ∃ b ∈ f, b.lastBe = 1

instance : DecidablePred Ended := fun f => inferInstanceAs (Decidable (∃ b ∈ f, b.lastBe = 1))

theorem upToLastBe_ended {m : List (PhyBeat 8)} (hm : Ended m) (b : PhyBeat 8) :
    upToLastBe (m ++ [b]) = upToLastBe m := by
  induction m with
  | nil =>
    obtain ⟨x, hx, -⟩ := hm
    cases hx
  | cons a m ih =>
    rw [List.cons_append, upToLastBe, upToLastBe]
    split_ifs with ha
    · rfl
    · rw [ih]
      obtain ⟨x, hx, hbe⟩ := hm
      rcases List.mem_cons.1 hx with rfl | hx
      · exact absurd hbe ha
      · exact ⟨x, hx, hbe⟩

theorem upToLastBe_open {m : List (PhyBeat 8)} (hm : ¬ Ended m) (bs : List (PhyBeat 8)) :
    upToLastBe (m ++ bs) = m ++ upToLastBe bs := by
  induction m with
  | nil => rfl
  | cons a m ih =>
    have ha : ¬ a.lastBe = 1 := fun h => hm ⟨a, List.mem_cons_self, h⟩
    rw [List.cons_append, upToLastBe, if_neg ha, ih, List.cons_append]
    rintro ⟨x, hx, hbe⟩
    exact hm ⟨x, List.mem_cons_of_mem a hx, hbe⟩

/-- A packet with `last_be` is sent as a frame. -/
theorem isFrame_truncated {f : List (PhyBeat 8)} (hf : Ended f) : IsFrame (·.last) (truncated f) := by
  induction f with
  | nil =>
    obtain ⟨x, hx, -⟩ := hf
    cases hx
  | cons a f ih =>
    unfold truncated
    rw [upToLastBe]
    split_ifs with ha
    · exact .mk [] (copied a) nofun (beq_iff_eq.2 ha)
    · obtain ⟨x, hx, hbe⟩ := hf
      have hf' : Ended f := by
        rcases List.mem_cons.1 hx with rfl | hx
        · exact absurd hbe ha
        · exact ⟨x, hx, hbe⟩
      have h := ih hf'
      rw [List.map_cons]
      unfold truncated at h
      generalize List.map copied (upToLastBe f) = g at h
      obtain ⟨m, l, hm, hl⟩ := h
      refine .mk (copied a :: m) l (fun b hb => ?_) hl
      rcases List.mem_cons.1 hb with rfl | hb
      · exact beq_false_of_ne ha
      · exact hm b hb

/-! ## By the bytes taken -/

/-- What follows from the bytes taken. -/
abbrev truncates : Transducer (PhyBeat 8) (PhyBeat 8) where
  State := Fsm
  init := .copy
  next s b := s.next (some b) true
  out s b := (s.source (some b)).toList
  ok _ _ := True

/-- The stage gives it in the cycle in which it takes the byte. -/
def follows {ε : Type} (H : ε → Prop) : Stage.Lazy H txLastBE truncates where
  W := ℕ
  linear := inferInstance
  wf := wellFoundedLT_nat
  Rel s q p w := s = q ∧ p = [] ∧ w = 0
  reset := ⟨0, rfl, rfl, rfl⟩
  cycle := by
    rintro s q p w ⟨rfl, rfl, rfl⟩ e b r -
    -- the state is the transducer's own, nothing is ever owed
    refine ⟨[], 0, ?_, ⟨?_, rfl, rfl⟩, fun _ hready _ => ?_⟩
    · cases b <;> cases s <;> cases r <;> rfl
    · cases b <;> cases s <;> cases r <;> rfl
    · cases b with
      | none => exact .inl ⟨rfl, rfl, le_rfl⟩
      | some x =>
        cases s with
        | copy => exact .inr (.inl nofun)
        | waitLast => cases hready rfl
  stable := by
    rintro s q p w ⟨rfl, -, -⟩ e b - x hx e' b' hb
    cases s with
    | copy =>
      have hne : b ≠ none := by
        rintro rfl
        cases hx
      rw [hb rfl hne]
      exact hx
    | waitLast => cases hx

theorem truncates_oks (q : Fsm) (bs : List (PhyBeat 8)) : truncates.Oks q bs :=
  truncates.oks_of_forall (fun _ _ => trivial) bs q

/-- A byte that is taken inside of a packet: it is copied, unless the packet has had its last byte. -/
theorem next_byte (m : List (PhyBeat 8)) (b : PhyBeat 8) (hb : b.last = false) :
    (if Ended m then Fsm.waitLast else .copy).next (some b) true = if Ended (m ++ [b]) then .waitLast else .copy := by
  by_cases hm : Ended m
  · have hm' : Ended (m ++ [b]) := by
      obtain ⟨x, hx, hbe⟩ := hm
      exact ⟨x, List.mem_append_left _ hx, hbe⟩
    rw [if_pos hm, if_pos hm']
    show (if b.last then Fsm.copy else .waitLast) = _
    rw [hb]
    rfl
  · have hiff : Ended (m ++ [b]) ↔ b.lastBe = 1 := by
      constructor
      · rintro ⟨x, hx, hbe⟩
        rcases List.mem_append.1 hx with hx | hx
        · exact absurd ⟨x, hx, hbe⟩ hm
        · rw [← List.mem_singleton.1 hx]
          exact hbe
      · intro hbe
        exact ⟨b, List.mem_append_right m (List.mem_singleton.2 rfl), hbe⟩
    rw [if_neg hm]
    simp only [hiff]
    show (if b.lastBe == 1 && !b.last then Fsm.waitLast else .copy) = _
    rw [hb, Bool.not_false, Bool.and_true]
    simp only [beq_iff_eq]

/-- The last byte of a packet. -/
theorem next_last (q : Fsm) {b : PhyBeat 8} (hb : b.last = true) : q.next (some b) true = .copy := by
  unfold Fsm.next
  cases q with
  | copy =>
    show (if b.lastBe == 1 && !b.last then Fsm.waitLast else .copy) = .copy
    rw [hb, Bool.not_true, Bool.and_false]
    rfl
  | waitLast => exact if_pos hb

theorem truncated_concat (m : List (PhyBeat 8)) (b : PhyBeat 8) :
    truncated (m ++ [b]) = truncated m ++ ((if Ended m then Fsm.waitLast else .copy).source (some b)).toList := by
  unfold truncated
  by_cases hm : Ended m
  · rw [upToLastBe_ended hm, if_pos hm]
    exact (List.append_nil _).symm
  · have hself := upToLastBe_open hm []
    have hbyte : upToLastBe [b] = [b] := by
      rw [upToLastBe]
      split_ifs <;> rfl
    rw [List.append_nil, upToLastBe, List.append_nil] at hself
    rw [upToLastBe_open hm, hbyte, hself, if_neg hm, List.map_append]
    rfl

/-- Each packet of a stream is truncated, also the one that has only begun. -/
theorem truncates_eq (bs : List (PhyBeat 8)) :
    truncates.run .copy bs = (if Ended (frames (·.last) bs).2 then .waitLast else .copy) ∧
      truncates.outs .copy bs = (packets (·.last) bs).flatMap truncated := by
  -- induction on the beats, the packet that has begun decides the state
  induction bs using List.reverseRecOn with
  | nil => exact ⟨rfl, rfl⟩
  | append_singleton bs b ih =>
    obtain ⟨hrun, houts⟩ := ih
    unfold packets at houts ⊢
    rw [Transducer.run_append, Transducer.outs_append, hrun, houts, frames_concat, frameStep, List.flatMap_append,
      List.flatMap_singleton, List.append_assoc]
    generalize (frames (·.last) bs).2 = m
    have hsent : (truncates.outs (if Ended m then .waitLast else .copy) [b]) =
        ((if Ended m then Fsm.waitLast else .copy).source (some b)).toList := List.append_nil _
    rw [hsent, ← truncated_concat]
    cases hb : b.last with
    | true =>
      constructor
      · exact next_last _ hb
      · show _ = List.flatMap truncated ((frames (·.last) bs).1 ++ [m ++ [b]] ++ [[]])
        rw [List.flatMap_append, List.flatMap_append, List.flatMap_singleton, List.flatMap_singleton]
        exact (List.append_nil _).symm
    | false =>
      constructor
      · exact next_byte m b hb
      · show _ = List.flatMap truncated ((frames (·.last) bs).1 ++ [m ++ [b]])
        rw [List.flatMap_append, List.flatMap_singleton]

section Runs

variable {ε : Type} (is : List (Stage.In ε (PhyBeat 8)))

/-- The state and what has been given, after a run. -/
theorem sent : (txLastBE.machine.run is).state =
      (if Ended (frames (·.last) (txLastBE.taken is)).2 then .waitLast else .copy) ∧
    txLastBE.given is = (packets (·.last) (txLastBE.taken is)).flatMap truncated := by
  have hdirect := ((follows fun _ : ε => True).taking.direct (fun q as => truncates_oks q as)
    (by rintro s q p w ⟨-, hp, -⟩; exact hp)).run is
  obtain ⟨⟨w, hstate, -⟩, hgiven⟩ := hdirect
  obtain ⟨hrun, houts⟩ := truncates_eq (txLastBE.taken is)
  exact ⟨hstate.trans hrun, hgiven.trans houts⟩

/-- A ready consumer lets the byte that is held be taken. -/
theorem taken_settle (e : ε) : txLastBE.taken (is ++ [Stage.Sim.settle e]) = txLastBE.arrivals is := by
  have harrivals := Stage.arrivals_eq (A := txLastBE) is
  rw [Stage.taken_concat, harrivals]
  congr 2
  have hready : (txLastBE.machine.run is).state.ready true = true := by
    cases (txLastBE.machine.run is).state <;> rfl
  show (if (txLastBE.machine.run is).state.ready true then (txLastBE.machine.run is).held.or none else none) = _
  rw [hready, if_pos rfl, Option.or_none]

/-- In every run each packet is given up to its first byte with `last_be`, which is the last of a frame. What follows it
is taken whatever the consumer does, and never given; and whatever is offered is taken once the consumer is ready. -/
theorem truncates_packets :
    txLastBE.given is = (packets (·.last) (txLastBE.taken is)).flatMap truncated ∧
      (∀ f ∈ packets (·.last) (txLastBE.taken is), Ended f → IsFrame (·.last) (truncated f)) ∧
      (Ended (frames (·.last) (txLastBE.taken is)).2 → ∀ i, (txLastBE.machine.run is).gives i = none ∧
        (txLastBE.machine.run is).takes i = (txLastBE.machine.run is).offered i) ∧
      ∀ fs : List (List (PhyBeat 8)), (∀ f ∈ fs, IsFrame (·.last) f) → txLastBE.arrivals is = fs.flatten → ∀ e,
        txLastBE.given (is ++ [Stage.Sim.settle e]) = fs.flatMap truncated := by
  obtain ⟨hstate, hgiven⟩ := sent is
  refine ⟨hgiven, fun f _ hf => isFrame_truncated hf, fun hended i => ?_, fun fs hfs harrivals e => ?_⟩
  · rw [if_pos hended] at hstate
    constructor
    · show (if i.ready then Fsm.source (txLastBE.machine.run is).state _ else none) = none
      rw [hstate]
      exact ite_self none
    · show (if Fsm.ready (txLastBE.machine.run is).state i.ready then _ else none) = _
      rw [hstate]
      rfl
  · have hframes := frames_of_frames (fun b : PhyBeat 8 => b.last) hfs (List.forall_mem_nil _)
    rw [List.append_nil] at hframes
    obtain ⟨-, h⟩ := sent (is ++ [Stage.Sim.settle e])
    rw [h, taken_settle, harrivals, packets, hframes, List.flatMap_append, List.flatMap_singleton]
    exact List.append_nil _

end Runs

end TxLastBE

end LiteEth.Mac
