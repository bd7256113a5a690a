/-
The looped line takes one packet at a time: if the words of a packet come only when all words of the one before it have
been given, nothing is offered to the CRC checker in `RESET`. So the line does what it would do with the patient checker:
it gives words that carry the padded bytes of the packet, and no error is reported.
-/
import LiteEth.Mac.Line

namespace LiteEth.Mac.Line

open LiteEth.Rtl Converter Stage.Sim Receive

variable {e : Endianness} (C : Converters e) (txBuffer rxBuffer : Fifo (fun _ : Unit => True) (PhyBeat 8))
  (F : SyncFIFO (PhyBeat 8) (CRCChecker.ratio 8 + 1))

/-- The stages between the clock domain crossings, with the PHY looped back. -/
abbrev line : Stage Unit (PhyBeat 32) (PhyBeat 32) := (looped C txBuffer rxBuffer).andThen (receiver C F)

/-- The same with the patient checker. -/
abbrev patientLine : Stage Unit (PhyBeat 32) (PhyBeat 32) := (looped C txBuffer rxBuffer).andThen (patient C F)

variable {C txBuffer rxBuffer F}

/-- The FSM of the CRC checker. -/
abbrev checker (s : (line C txBuffer rxBuffer F).Run) : CRCChecker.State F := s.state.2.1

/-- What is offered to the CRC checker. -/
def offers (s : (line C txBuffer rxBuffer F).Run) (i : Stage.In Unit (PhyBeat 32)) : Option (PhyBeat 8) :=
  (looped C txBuffer rxBuffer).source s.state.1 i.env (s.offered i)

/-- The registers, as those of the patient line. -/
def patiently (s : (line C txBuffer rxBuffer F).Run) : (patientLine C txBuffer rxBuffer F).Run := ⟨s.state, s.held⟩

/-- The two lines do the same if nothing is offered in `RESET`. -/
theorem line_eq (s : (line C txBuffer rxBuffer F).State) (a : Option (PhyBeat 32))
    (h : s.2.1.fsm = .reset → (looped C txBuffer rxBuffer).source s.1 () a = none) :
    (line C txBuffer rxBuffer F).source s () a = (patientLine C txBuffer rxBuffer F).source s () a ∧ ∀ r,
      (line C txBuffer rxBuffer F).ready s () a r = (patientLine C txBuffer rxBuffer F).ready s () a r ∧
      (line C txBuffer rxBuffer F).step s () a r = (patientLine C txBuffer rxBuffer F).step s () a r := by
  have heq := fun r => CRCChecker.patient_eq s.2.1 () _ r h
  have hsource := (heq true).1
  have hready := fun r => (heq r).2.1
  have hstep := fun r => (heq r).2.2
  refine ⟨?_, fun r => ⟨?_, ?_⟩⟩
  · show (behind C).source s.2.2 () ((crc32Checker F).source s.2.1 () _) = _
    rw [hsource]
  · show (looped C txBuffer rxBuffer).ready s.1 () a ((crc32Checker F).ready s.2.1 () _ ((behind C).ready s.2.2 ()
      ((crc32Checker F).source s.2.1 () _) r)) = _
    rw [hsource, hready]
  · show ((looped C txBuffer rxBuffer).step s.1 () a ((crc32Checker F).ready s.2.1 () _ ((behind C).ready s.2.2 ()
      ((crc32Checker F).source s.2.1 () _) r)), (crc32Checker F).step s.2.1 () _ ((behind C).ready s.2.2 ()
      ((crc32Checker F).source s.2.1 () _) r), (behind C).step s.2.2 () ((crc32Checker F).source s.2.1 () _) r) = _
    rw [hsource, hready, hstep]

theorem patiently_eq {s : (line C txBuffer rxBuffer F).Run} {i : Stage.In Unit (PhyBeat 32)}
    (h : (checker s).fsm = .reset → offers s i = none) : (patiently s).source i = s.source i ∧
      (patiently s).takes i = s.takes i ∧ (patiently s).gives i = s.gives i ∧
      (patiently s).next i = patiently (s.next i) := by
  obtain ⟨hsource, heq⟩ := line_eq s.state (s.offered i) h
  obtain ⟨hready, hstep⟩ := heq i.ready
  refine ⟨hsource.symm, ?_, ?_, ?_⟩
  · show (if (patientLine C txBuffer rxBuffer F).ready s.state () (s.offered i) i.ready then s.offered i else none) = _
    rw [← hready]
    rfl
  · show (if i.ready then (patientLine C txBuffer rxBuffer F).source s.state () (s.offered i) else none) = _
    rw [← hsource]
    rfl
  · show Stage.Run.mk ((patientLine C txBuffer rxBuffer F).step s.state () (s.offered i) i.ready)
      (if (patientLine C txBuffer rxBuffer F).ready s.state () (s.offered i) i.ready then none else s.offered i) = _
    rw [← hready, ← hstep]
    rfl

/-! ## One packet -/

/-- What is made of the words of a packet. -/
abbrev crossed (e : Endianness) : Transducer (PhyBeat 32) (PhyBeat 32) := (sent e).andThen (received e)

/-- Before a packet, with the receiver in `q`. -/
def begun (q : (received e).State) : (crossed e).State := ((sent e).init, q)

/-- The words that follow from those of a packet so far. -/
def made (q : (received e).State) (as : List (PhyBeat 32)) : List (PhyBeat 32) := (crossed e).outs (begun q) as

theorem made_eq (q : (received e).State) (as : List (PhyBeat 32)) :
    made q as = (received e).outs q ((sent e).outs (sent e).init as) := Transducer.andThen_outs (sent e) (received e) as _

theorem crossed_run (q : (received e).State) (as : List (PhyBeat 32)) : (crossed e).run (begun q) as =
    ((sent e).run (sent e).init as, (received e).run q ((sent e).outs (sent e).init as)) :=
  Transducer.andThen_run (sent e) (received e) as _

theorem crossed_fst (q : (received e).State) (as : List (PhyBeat 32)) :
    ((crossed e).run (begun q) as).1 = (sent e).run (sent e).init as := congrArg Prod.fst (crossed_run q as)

/-- The words `as` of a packet have been offered, and of those that follow `G` has been given, and `p` has not; the
receiver was in `q` before. Of the beats of its frame `ys` has been taken by the CRC checker, `b` is offered to it, and
`rest` is to come. -/
structure Turn (s : (line C txBuffer rxBuffer F).Run) (q : (received e).State) (as G p : List (PhyBeat 32))
    (w : ((sends C txBuffer rxBuffer).andThen (receives C F).sim).W) (b : Option (PhyBeat 8))
    (ys rest : List (PhyBeat 8)) : Prop where
  between : ∃ qB pB wA wB, Between (sends C txBuffer rxBuffer) (receives C F).sim (patiently s)
    ((crossed e).run (begun q) as) p w b qB pB rest wA wB
  taken : ∃ p₀ w₀, (receives C F).Rel (second (patiently s) b) ((received e).run q ys) p₀ w₀ ∧
    (received e).outs q ys = G ++ p₀
  outs : (sent e).outs (sent e).init as = ys ++ (b.toList ++ rest)
  given : made q as = G ++ p
  quiet : (checker s).fsm = .reset → b = none ∧ rest = []

/-- Nothing follows the last beat of a frame. -/
theorem frame_ends {f ys zs : List (PhyBeat 8)} {x : PhyBeat 8} (hf : IsFrame (·.last) f) (h : ys ++ x :: zs <+: f)
    (hx : x.last = true) : zs = [] ∧ f = ys ++ [x] ∧ ∀ y ∈ ys, y.last = false := by
  obtain ⟨ts, hts⟩ := h
  obtain ⟨m, l, hm, hl⟩ := hf
  rw [List.append_assoc, List.cons_append] at hts
  rcases List.eq_nil_or_concat' (zs ++ ts) with h0 | ⟨us, u, hu⟩
  · rw [h0] at hts
    obtain ⟨rfl, -⟩ := List.append_inj' hts rfl
    exact ⟨(List.append_eq_nil_iff.1 h0).1, hts.symm, hm⟩
  · rw [hu, ← List.cons_append, ← List.append_assoc] at hts
    have hmem : x ∈ m := by
      rw [← (List.append_inj' hts rfl).1]
      exact List.mem_append_right _ List.mem_cons_self
    exact absurd (hm x hmem) (by simp [hx])

section Cycle

variable {s : (line C txBuffer rxBuffer F).Run} {q : (received e).State} {as G p : List (PhyBeat 32)}
  {w : ((sends C txBuffer rxBuffer).andThen (receives C F).sim).W} {b : Option (PhyBeat 8)} {ys rest : List (PhyBeat 8)}

theorem Turn.stays (h : Turn s q as G p w b ys rest) :
    ∀ x, b = some x → ∀ j, (first (patiently s)).source j = some x := by
  obtain ⟨qB, pB, wA, wB, hb⟩ := h.between
  exact hb.stays

/-- In `RESET` nothing is offered. -/
theorem Turn.offers_eq (h : Turn s q as G p w b ys rest) (i : Stage.In Unit (PhyBeat 32))
    (hs : (checker s).fsm = .reset) : offers s i = none := by
  obtain ⟨hb, hrest⟩ := h.quiet hs
  obtain ⟨qB, pB, wA, wB, hbetween⟩ := h.between
  have hleft := hbetween.left
  rw [hb, hrest] at hleft
  -- the buffer shows only what it holds
  let i₀ : Stage.In Unit (PhyBeat 32) := ⟨(), none, i.ready⟩
  have harrives : (first (patiently s)).arrives i₀ = none := by
    unfold Stage.Run.arrives
    exact ite_self none
  obtain ⟨p', hp⟩ := (sends C txBuffer rxBuffer).head hleft i₀ (by rw [harrives]; trivial)
  rw [harrives] at hp
  have hsource : offers s i = (first (patiently s)).source i₀ := rfl
  rw [hsource]
  exact Option.toList_eq_nil_iff.1 (List.append_eq_nil_iff.1 hp.symm).1

theorem Turn.patiently_eq (h : Turn s q as G p w b ys rest) (i : Stage.In Unit (PhyBeat 32)) :
    (patiently s).source i = s.source i ∧ (patiently s).takes i = s.takes i ∧ (patiently s).gives i = s.gives i ∧
      (patiently s).next i = patiently (s.next i) := Line.patiently_eq (h.offers_eq i)

/-- What is offered to the CRC checker. -/
theorem Turn.offered (h : Turn s q as G p w b ys rest) (i : Stage.In Unit (PhyBeat 32)) :
    b.toList ++ ((second (patiently s) b).arrives (inner (patiently s) i)).toList = (offers s i).toList := by
  have hoffered := Stage.Run.offered_toList (second (patiently s) b) (inner (patiently s) i)
  rw [second_offered h.stays] at hoffered
  exact hoffered

/-- It comes after what has been taken. -/
theorem Turn.split (h : Turn s q as G p w b ys rest) {i : Stage.In Unit (PhyBeat 32)}
    {rest' : List (PhyBeat 8)} (hrest : rest ++ (sent e).outs ((sent e).run (sent e).init as) (s.arrives i).toList =
      ((second (patiently s) b).arrives (inner (patiently s) i)).toList ++ rest') :
    (sent e).outs (sent e).init (as ++ (s.arrives i).toList) = ys ++ ((offers s i).toList ++ rest') := by
  rw [Transducer.outs_append, h.outs, List.append_assoc, List.append_assoc, hrest, ← List.append_assoc b.toList,
    h.offered i]

/-- The checker goes to `RESET` when it takes what is offered, and that is the last beat of a frame. -/
theorem Turn.reset_next (h : Turn s q as G p w b ys rest) {i : Stage.In Unit (PhyBeat 32)}
    (hs : (checker (s.next i)).fsm = .reset) : ∃ x, offers s i = some x ∧ x.last = true ∧
      ((second (patiently s) b).next (inner (patiently s) i)).held = none := by
  have hchecker : checker (s.next i) = ((patiently s).next i).state.2.1 := by
    rw [(h.patiently_eq i).2.2.2]
    rfl
  rw [hchecker] at hs
  obtain ⟨hreset, x, hx, hlast, hin⟩ := CRCChecker.last_of_reset hs
  rw [if_neg hreset] at hx hin
  refine ⟨x, hx, hlast, ?_⟩
  unfold Stage.Run.next
  rw [second_offered h.stays i]
  refine if_pos ?_
  show ((checker s).fsm != .reset && CRCChecker.State.fifoIn (checker s) (offers s i) _) = true
  rw [Bool.and_eq_true]
  exact ⟨bne_iff_ne.2 hreset, hin⟩

/-- One cycle. -/
theorem Turn.cycle (h : Turn s q as G p w b ys rest) (i : Stage.In Unit (PhyBeat 32)) {f : List (PhyBeat 8)}
    (hf : IsFrame (·.last) f) (hok : (sent e).Oks (sent e).init (as ++ (s.arrives i).toList))
    (hbegin : (sent e).outs (sent e).init (as ++ (s.arrives i).toList) <+: f) : ∃ p' w' b' ys' rest',
      Turn (s.next i) q (as ++ (s.arrives i).toList) (G ++ (s.gives i).toList) p' w' b' ys' rest' ∧
      (s.arrives i = none → s.takes i = none → s.gives i = none →
        (s.held = none ∧ p = [] ∧ w' ≤ w) ∨ (s.source i ≠ none ∧ i.ready = false) ∨ w' < w) := by
  -- the receive path as if it never paused in reset, and what it takes
  obtain ⟨hsource, htakes, hgives, hnext⟩ := h.patiently_eq i
  obtain ⟨qB, pB, wA, wB, hbetween⟩ := h.between
  obtain ⟨p₀, w₀, htaken, houts⟩ := h.taken
  have hstay := h.stays
  rw [Transducer.oks_append] at hok
  obtain ⟨p', w', qB', pB', rest', wA', wB', hrest, hp, hbetween', hprog⟩ := hbetween.cycle i
    ((Transducer.andThen_oks _ _ _ _).2 ⟨crossed_fst q as ▸ hok.2, received_oks _ _⟩)
  rw [crossed_fst] at hrest
  have hsplit := h.split hrest
  obtain ⟨p₀', w₀', hp₀, htaken', -⟩ := (receives C F).cycle htaken (inner (patiently s) i) (received_oks _ _)
  have hmove := Stage.Run.arrives_held (second (patiently s) b) (inner (patiently s) i)
  have hoffered : (offers s i).toList = ((second (patiently s) b).takes (inner (patiently s) i)).toList ++
      ((second (patiently s) b).next (inner (patiently s) i)).held.toList := (h.offered i).symm.trans hmove
  rw [hgives] at hp
  rw [← gives_eq hstay, hgives] at hp₀
  rw [hsource, htakes, hgives] at hprog
  refine ⟨p', w', ((second (patiently s) b).next (inner (patiently s) i)).held,
    ys ++ ((second (patiently s) b).takes (inner (patiently s) i)).toList, rest',
    ⟨⟨qB', pB', wA', wB', ?_⟩, ⟨p₀', w₀', ?_, ?_⟩, ?_, ?_, fun hs => ?_⟩, hprog trivial⟩
  · rw [hnext] at hbetween'
    rw [Transducer.run_append]
    exact hbetween'
  · rw [Transducer.run_append, ← hnext, second_next hstay]
    exact htaken'
  · rw [Transducer.outs_append, houts, List.append_assoc, hp₀, List.append_assoc]
  · rw [hsplit, hoffered, List.append_assoc, List.append_assoc]
  · have hmade : made q (as ++ (s.arrives i).toList) = made q as ++
        (crossed e).outs ((crossed e).run (begun q) as) (s.arrives i).toList := Transducer.outs_append _ _ _ _
    rw [hmade, h.given, List.append_assoc, List.append_assoc]
    exact congrArg (G ++ ·) hp
  · -- a pause in reset needs the end of a frame before it
    obtain ⟨x, hx, hlast, hheld⟩ := h.reset_next hs
    rw [hsplit, hx, Option.toList_some, List.singleton_append] at hbegin
    exact ⟨hheld, (frame_ends hf hbegin hlast).1⟩

/-! ## Errors -/

/-- The `error` output of the preamble checker, with a word at the sink of the line. -/
def preambleError (s : (line C txBuffer rxBuffer F).State) (a : Option (PhyBeat 32)) : Bool :=
  s.1.1.2.error ((transmitter C txBuffer).source s.1.1.1 () a)

/-- The `error` output of the CRC checker. -/
def crcError (s : (line C txBuffer rxBuffer F).State) (a : Option (PhyBeat 32)) : Bool :=
  s.2.1.error ((looped C txBuffer rxBuffer).source s.1 () a)

theorem Turn.preambleError_eq (h : Turn s q as G p w b ys rest) (i : Stage.In Unit (PhyBeat 32))
    (hok : (sent e).Oks (sent e).init (as ++ (s.arrives i).toList)) : preambleError s.state (s.offered i) = false := by
  obtain ⟨qB, pB, wA, wB, hbetween⟩ := h.between
  have hleft := hbetween.left
  rw [crossed_fst] at hleft
  rw [Transducer.oks_append] at hok
  obtain ⟨b₁, q₁, p₁, rest₁, wA₁, wB₁, hlooped⟩ := hleft
  have hchecked := hlooped.left
  obtain ⟨q₂, p₂, w₂, ⟨hstate, -⟩, hoffered⟩ := (PreambleChecker.checks _).offered (transmits C txBuffer) hchecked
    (outer (first (patiently s)) i) ((Transducer.andThen_oks _ _ _ _).1 hok.2).1
  have hfsm : s.state.1.1.2 = q₂ := hstate
  have hoffered : PreambleChecker.checked.Oks q₂
    ((transmitter C txBuffer).source s.state.1.1.1 i.env (s.offered i)).toList := hoffered
  unfold preambleError
  rw [hfsm]
  cases hx : (transmitter C txBuffer).source s.state.1.1.1 i.env (s.offered i) with
  | none => cases q₂ <;> rfl
  | some x =>
    rw [hx] at hoffered
    exact hoffered.1

/-- The CRC checker reports no error for a frame with its FCS. -/
theorem Turn.crcError_eq (h : Turn s q as G p w b ys rest) (hq : Rest q) (i : Stage.In Unit (PhyBeat 32))
    {f : List (PhyBeat 8)} (hf : IsFrame (·.last) f) (hlen : 4 ≤ f.length) (hright : CRCChecker.FcsRight f)
    (hok : (sent e).Oks (sent e).init (as ++ (s.arrives i).toList))
    (hbegin : (sent e).outs (sent e).init (as ++ (s.arrives i).toList) <+: f) :
    crcError s.state (s.offered i) = false := by
  show (checker s).error (offers s i) = false
  -- only a beat outside of reset is compared
  cases hx : offers s i with
  | none => rfl
  | some x =>
    have hs : (checker s).fsm ≠ .reset := fun hs => by
      rw [h.offers_eq i hs] at hx
      cases hx
    obtain ⟨qB, pB, wA, wB, hbetween⟩ := h.between
    rw [Transducer.oks_append] at hok
    obtain ⟨rest', wA', hrest, -⟩ := hbetween.split i (crossed_fst q as ▸ hok.2)
    rw [crossed_fst] at hrest
    rw [h.split hrest, hx, Option.toList_some, List.singleton_append] at hbegin
    obtain ⟨p₀, w₀, htaken, -⟩ := h.taken
    obtain ⟨⟨b', hb', hdirect, -⟩, -⟩ := htaken
    obtain ⟨w', hinv, -⟩ := hdirect
    -- at the last beat the whole frame has been through the checker, and it is right
    refine CRCChecker.error_eq_false (hinv.fed hs) fun hlast => ?_
    obtain ⟨-, hall, hopen⟩ := frame_ends hf hbegin hlast
    obtain ⟨hrun, -⟩ := received_run q ys
    rw [hq.1, (CRCChecker.emitted_open hopen []).1, List.nil_append] at hrun
    rw [hrun, ← hall]
    refine ⟨?_, hright⟩
    rw [hall, List.length_append, List.length_singleton] at hlen
    omega

/-- When all of its words have been given, the whole frame has been taken. -/
theorem Turn.all_taken (h : Turn s q as G [] w b ys rest) (hq : Rest q) {f : List (PhyBeat 8)} (hf : IsFrame (·.last) f)
    (hlen : 5 ≤ f.length) (hframe : (sent e).outs (sent e).init as = f) : b = none ∧ rest = [] ∧ ys = f := by
  obtain ⟨p₀, w₀, -, houts⟩ := h.taken
  have hsplit := h.outs
  have hgiven := h.given
  rw [made_eq, hsplit, Transducer.outs_append, houts, List.append_nil, List.append_assoc] at hgiven
  have hnone := (List.append_eq_nil_iff.1 (List.append_right_eq_self.1 hgiven)).2
  rw [hframe] at hsplit
  have hall : b.toList ++ rest = [] := by
    by_contra hne
    exact received_last hq hf hlen hsplit hne hnone
  obtain ⟨hb, hrest⟩ := List.append_eq_nil_iff.1 hall
  rw [hall, List.append_nil] at hsplit
  exact ⟨Option.toList_eq_nil_iff.1 hb, hrest, hsplit.symm⟩

/-- Then the next packet may come. -/
theorem Turn.again (h : Turn s q as G [] w b ys rest) (hq : Rest q) {f : List (PhyBeat 8)} (hf : IsFrame (·.last) f)
    (hlen : 5 ≤ f.length) (hmakes : (sent e).Makes as f) : Turn s ((received e).run q f) [] [] [] w none [] [] := by
  obtain ⟨rfl, rfl, rfl⟩ := h.all_taken hq hf hlen hmakes.outs
  obtain ⟨qB, pB, wA, wB, hbetween⟩ := h.between
  obtain ⟨p₀, w₀, htaken, houts⟩ := h.taken
  have hgiven := h.given
  rw [made_eq, hmakes.outs, houts, List.append_nil] at hgiven
  obtain rfl : p₀ = [] := List.append_right_eq_self.1 hgiven
  refine ⟨⟨qB, pB, wA, wB, ?_⟩, ⟨[], w₀, htaken, rfl⟩, rfl, rfl, fun _ => ⟨rfl, rfl⟩⟩
  rw [crossed_run, hmakes.run, hmakes.outs] at hbetween
  exact hbetween

end Cycle

variable (C txBuffer rxBuffer F) in
theorem turn_reset : ∃ w, Turn (⟨(line C txBuffer rxBuffer F).reset, none⟩ : (line C txBuffer rxBuffer F).Run)
    (received e).init [] [] [] w none [] [] := by
  obtain ⟨wA, hA⟩ := (sends C txBuffer rxBuffer).reset
  obtain ⟨wB, hB⟩ := (receives C F).sim.reset
  obtain ⟨w, hw⟩ := (receives C F).reset
  exact ⟨_, ⟨(received e).init, [], wA, wB, ⟨hA, hB, nofun, rfl, rfl, trivial, rfl⟩⟩, ⟨[], w, hw, rfl⟩, rfl, rfl,
    fun _ => ⟨rfl, rfl⟩⟩

end LiteEth.Mac.Line
