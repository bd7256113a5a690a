/-
Whole runs of the looped MAC. If software waits for each reception and acknowledges it, all receptions are those of the
transmissions, in order and with the bytes, and no error is counted; and if the clocks do not stop, each transmission is
received in the end.
-/
import LiteEth.Mac.Flight
import LiteEth.Mac.SramSlots

namespace LiteEth.Mac.Loopback

open LiteEth.Rtl Converter Line Receive

variable {e : Endianness} {nrxslots ntxslots : ℕ} {τ : Type} {P : Parts e nrxslots ntxslots τ} {s : State P}
  {i : In e ntxslots τ}

/-! ## One step -/

/-- Where a transmission is, `n` receptions having been acknowledged before: it is not there yet, it is under way, its
bytes are stored, it is reported. -/
inductive Phase (s : State P) (n : ℕ) : List (Reader.Issued (wishboneParams ntxslots e)) → Prop
  | quiet {held : Option (PhyBeat 32)} {q : (received e).State} (h : Still s held q) (hw : Writer.Storing s.writer [])
      (hs : AtSlot s (n % nrxslots)) : Phase s n []
  | flying {c : Reader.Issued (wishboneParams ntxslots e)} {q : (received e).State} {v : Places}
      {w : ((sends P.converters P.txBuffer P.rxBuffer).andThen (receives P.converters P.crcFifo).sim).W}
      (h : Flying s c q v w) (hs : AtSlot s (n % nrxslots)) : Phase s n [c]
  | stored {c : Reader.Issued (wishboneParams ntxslots e)} {held : Option (PhyBeat 32)} {q : (received e).State}
      (h : Still s held q) (hw : Writer.Stored s.writer (Transmit.padded c.bytes)) (hs : AtSlot s (n % nrxslots)) :
      Phase s n [c]
  | reported {c : Reader.Issued (wishboneParams ntxslots e)} {en : StatEntry τ} {held : Option (PhyBeat 32)}
      {q : (received e).State} (h : Still s held q) (hw : Writer.Announced s.writer en)
      (hs : AtSlot s ((n + 1) % nrxslots)) (hr : Receives e nrxslots n c (en, s.writer.mems en.slot)) : Phase s n [c]

theorem pending_nil (h : s.writer.queued = []) : s.pending = [] := by
  unfold State.pending
  rw [h]
  rfl

theorem acknowledges_none (h : s.writer.queued = []) : s.acknowledges i = none := by
  unfold State.acknowledges
  rw [pending_nil h]
  exact ite_self _

/-- The stored bytes are those of the reception. -/
theorem receives_of_stored {c : Reader.Issued (wishboneParams ntxslots e)} {n : ℕ} {m : ℕ → BitVec 32} {t : τ}
    (hm : slotData e m (Transmit.padded c.bytes).length = Transmit.padded c.bytes) :
    Receives e nrxslots n c (⟨n % nrxslots, (Transmit.padded c.bytes).length, t⟩, m) := by
  have hlen : c.bytes.length = c.1.length.toNat := length_slotData _ _ _
  refine ⟨rfl, ?_, hm.trans ?_⟩
  · show (Transmit.padded c.bytes).length = _
    rw [length_padded, hlen]
  · unfold Transmit.padded
    rw [hlen]

/-- A stored packet is reported at the next edge of the system clock. -/
theorem stored_next {c : Reader.Issued (wishboneParams ntxslots e)} {n : ℕ} (hn : 0 < nrxslots)
    (hslots : 2 ^ (wishboneParams nrxslots e).slotbits = nrxslots) (hw : Writer.Stored s.writer (Transmit.padded c.bytes))
    (hs : AtSlot s (n % nrxslots)) : if i.sys = none then (s.next i).writer = s.writer else
      AtSlot (s.next i) ((n + 1) % nrxslots) ∧ ∃ en, Writer.Announced (s.next i).writer en ∧
        Receives e nrxslots n c (en, (s.next i).writer.mems en.slot) := by
  split_ifs with hsys
  · unfold State.next
    rw [hsys]
    rfl
  · obtain ⟨a, ha⟩ := Option.ne_none_iff_exists'.1 hsys
    have hwriter : (s.next i).writer = s.writer.next (s.writerIn a) := by
      unfold State.next
      rw [ha]
      rfl
    obtain ⟨⟨t, hreport⟩, hslot, herrors, hmems⟩ := hw.report hn (s.writerIn a)
    unfold AtSlot
    rw [hwriter, hslot, hslots, hs.1, herrors, hmems, Nat.mod_add_mod]
    rw [hs.1] at hreport
    refine ⟨⟨rfl, hs.2⟩, _, hreport, ?_⟩
    have hholds := hw.holds
    rw [hs.1] at hholds
    exact receives_of_stored hholds

/-- Software acknowledges a reception, or not yet. -/
theorem reported_next {en : StatEntry τ} {n : ℕ} (hw : Writer.Announced s.writer en) (hs : AtSlot s n)
    (hleaves : s.leaves i = none) : AtSlot (s.next i) n ∧
      ((s.acknowledges i = some (en, s.writer.mems en.slot) ∧ Writer.Storing (s.next i).writer []) ∨
        (s.acknowledges i = none ∧ Writer.Announced (s.next i).writer en ∧ (s.next i).writer.mems = s.writer.mems)) := by
  have hpending : s.pending = [(en, s.writer.mems en.slot)] := by
    unfold State.pending
    rw [hw.queued]
    rfl
  unfold AtSlot State.acknowledges State.next
  rw [hpending]
  unfold State.leaves ClockDomainCrossing.gives State.rxReady at hleaves
  -- without an edge of the software's clock nothing is acknowledged
  cases hsys : i.sys with
  | none => exact ⟨hs, .inr ⟨rfl, hw, rfl⟩⟩
  | some a =>
    rw [hsys] at hleaves
    obtain ⟨hnext, hslot, herrors, hmems⟩ := hw.next (i := s.writerIn a) hleaves
    refine ⟨⟨hslot.trans hs.1, herrors.trans hs.2⟩, ?_⟩
    have hclear : (s.writerIn a).clear = a.clear := rfl
    rw [hclear] at hnext
    cases hc : a.clear with
    | true =>
      rw [hc, if_pos rfl] at hnext
      exact .inl ⟨by simp [hc], hnext⟩
    | false =>
      rw [hc, if_neg Bool.false_ne_true] at hnext
      exact .inr ⟨by simp [hc], hnext, hmems⟩

/-- A step: the reception of a transmission is acknowledged, or there is one more transmission, or there is not. -/
theorem Phase.next {n : ℕ} {cs : List (Reader.Issued (wishboneParams ntxslots e))} (h : Phase s n cs)
    (hn : 0 < nrxslots) (hslots : 2 ^ (wishboneParams nrxslots e).slotbits = nrxslots) (hi : Fair s i)
    (hcs : ∀ c ∈ cs, c.Proper ∧ c.Long) (hturn : s.issues i ≠ none → cs = [])
    (hproper : ∀ c, s.issues i = some c → c.Proper) : s.errors i = [] ∧
    ((s.acknowledges i = none ∧ Phase (s.next i) n (cs ++ (s.issues i).toList)) ∨
      ∃ c r, cs = [c] ∧ s.issues i = none ∧ s.acknowledges i = some r ∧ Receives e nrxslots n c r ∧
        Phase (s.next i) (n + 1) []) := by
  have hwaits : ∀ c, cs = [c] → s.issues i = none := fun c hc => by
    by_contra hne
    rw [hturn hne] at hc
    cases hc
  cases h with
  | quiet h hw hs =>
    refine (?_ : _ ∧ _).imp_right fun hphase => .inl ⟨acknowledges_none hw.queued, hphase⟩
    cases hissue : s.issues i with
    | none =>
      obtain ⟨herrors, hleaves, held', hstill⟩ := h.next hi hissue
      obtain ⟨hstoring, hslot⟩ := writer_gap hw hs hleaves
      exact ⟨herrors, .quiet hstill hstoring hslot⟩
    | some c =>
      obtain ⟨herrors, hslot, v, w, hflying⟩ := h.issue hw hs hi (hproper c hissue) hissue
      exact ⟨herrors, .flying hflying hslot⟩
  | @flying c q v w h hs =>
    obtain ⟨hc, hlong⟩ := hcs c List.mem_cons_self
    have hissue := hwaits c rfl
    obtain ⟨herrors, hslot, hnext⟩ := h.next hn hs hc hlong hi hissue
    rw [hissue, Option.toList_none, List.append_nil]
    refine ⟨herrors, .inl ⟨acknowledges_none h.writer.queued, ?_⟩⟩
    rcases hnext with ⟨hstored, held', q', hstill⟩ | ⟨v', w', hflying, -⟩
    · exact .stored hstill hstored hslot
    · exact .flying hflying hslot
  | @stored c held q h hw hs =>
    have hissue := hwaits c rfl
    obtain ⟨herrors, -, held', hstill⟩ := h.next hi hissue
    rw [hissue, Option.toList_none, List.append_nil]
    refine ⟨herrors, .inl ⟨acknowledges_none hw.queued, ?_⟩⟩
    have hnext := stored_next (i := i) hn hslots hw hs
    split_ifs at hnext
    · refine .stored hstill (hnext ▸ hw) ?_
      unfold AtSlot
      rw [hnext]
      exact hs
    · obtain ⟨hslot, en, hreported, hr⟩ := hnext
      exact .reported hstill hreported hslot hr
  | @reported c en held q h hw hs hr =>
    have hissue := hwaits c rfl
    obtain ⟨herrors, hleaves, held', hstill⟩ := h.next hi hissue
    obtain ⟨hslot, ⟨hack, hstoring⟩ | ⟨hack, hreported, hmems⟩⟩ := reported_next hw hs hleaves
    · exact ⟨herrors, .inr ⟨c, _, rfl, hissue, hack, hr, .quiet hstill hstoring hslot⟩⟩
    · rw [hissue, Option.toList_none, List.append_nil]
      refine ⟨herrors, .inl ⟨hack, .reported hstill hreported hslot ?_⟩⟩
      rw [hmems]
      exact hr

/-! ## Runs -/

section Runs

variable (P) (t : τ) (is : List (In e ntxslots τ)) (i : In e ntxslots τ)

theorem run_concat : (loopback P t).run (is ++ [i]) = ((loopback P t).run is).next i :=
  (loopback P t).runFrom_concat _ is i

theorem transmissions_concat : transmissions P t (is ++ [i]) =
    transmissions P t is ++ (((loopback P t).run is).issues i).toList := (loopback P t).log_concat _ _ is i

theorem acknowledged_concat : acknowledged P t (is ++ [i]) =
    acknowledged P t is ++ (((loopback P t).run is).acknowledges i).toList := (loopback P t).log_concat _ _ is i

theorem errors_concat : errors P t (is ++ [i]) = errors P t is ++ ((loopback P t).run is).errors i :=
  (loopback P t).log_concat _ _ is i

/-- The run so far: of the transmissions `cs` have not been acknowledged. -/
structure Progress (cs : List (Reader.Issued (wishboneParams ntxslots e))) : Prop where
  answered : ∃ done, transmissions P t is = done ++ cs ∧ done.length = (acknowledged P t is).length ∧
    Answers nrxslots done (acknowledged P t is)
  proper : ∀ c ∈ cs, c.Proper ∧ c.Long
  clean : errors P t is = []
  phase : Phase ((loopback P t).run is) (acknowledged P t is).length cs

theorem progress_nil : Progress P t [] [] := by
  obtain ⟨w, hw⟩ := turn_reset P.converters P.txBuffer P.rxBuffer P.crcFifo
  have hstill : Still (State.init P t) none (received e).init :=
    ⟨⟨⟨P.cmdFifo.contents_reset, nofun, nofun⟩, rfl⟩, ⟨P.txCdc.contents_reset, nofun⟩, ⟨w, _, _, _, hw⟩, ⟨rfl, rfl⟩,
      P.rxCdc.contents_reset⟩
  exact ⟨⟨[], rfl, rfl, nofun⟩, nofun, rfl, .quiet hstill ⟨rfl, rfl, Writer.Holds.nil _, P.statFifo.contents_reset⟩
    ⟨(Nat.zero_mod _).symm, rfl⟩⟩

variable {P t is i} {cs done : List (Reader.Issued (wishboneParams ntxslots e))} {rs : List (Reception τ)}

theorem Answers.append (h : Answers nrxslots done rs) : Answers nrxslots (done ++ cs) rs := by
  intro k r hk
  obtain ⟨c, hc, hr⟩ := h k r hk
  exact ⟨c, (List.getElem?_append_left (List.getElem?_eq_some_iff.1 hc).1).trans hc, hr⟩

theorem Answers.concat (h : Answers nrxslots done rs) (hlen : done.length = rs.length)
    {c : Reader.Issued (wishboneParams ntxslots e)} {r : Reception τ} (hr : Receives e nrxslots rs.length c r) :
    Answers nrxslots (done ++ [c]) (rs ++ [r]) := by
  intro k r' hk
  rcases Nat.lt_or_ge k rs.length with hlt | hge
  · rw [List.getElem?_append_left hlt] at hk
    exact h.append k r' hk
  · rw [List.getElem?_append_right hge, List.getElem?_singleton] at hk
    split_ifs at hk with h0
    obtain rfl : k = rs.length := by omega
    obtain rfl := Option.some.inj hk
    exact ⟨c, by rw [← hlen, List.getElem?_concat_length], hr⟩

/-- What is issued is proper. -/
theorem Polite.proper (h : Polite P t is i) {c : Reader.Issued (wishboneParams ntxslots e)}
    (hissue : ((loopback P t).run is).issues i = some c) : c.Proper := by
  obtain ⟨a, ha, hissue⟩ := Option.bind_eq_some_iff.1 hissue
  exact (h.fair a ha).proper c hissue

theorem Progress.next (h : Progress P t is cs) (hn : 0 < nrxslots)
    (hslots : 2 ^ (wishboneParams nrxslots e).slotbits = nrxslots) (hi : Polite P t is i) :
    ∃ cs', Progress P t (is ++ [i]) cs' := by
  obtain ⟨done, htrans, hdone, hanswers⟩ := h.answered
  -- the software starts a transmission only after it has read the one before
  have hturn : ((loopback P t).run is).issues i ≠ none → cs = [] := fun hne => by
    have hlen := hi.turn hne
    rw [htrans, List.length_append, hdone] at hlen
    exact List.length_eq_zero_iff.1 (by omega)
  obtain ⟨herrors, hnext⟩ := h.phase.next hn hslots hi.fair h.proper hturn fun c => hi.proper
  have hclean : errors P t (is ++ [i]) = [] := by
    rw [errors_concat, h.clean, herrors]
    rfl
  -- nothing acknowledged in this cycle: a transmission may have been started
  rcases hnext with ⟨hack, hphase⟩ | ⟨c, r, rfl, hissue, hack, hr, hphase⟩
  · have hacks : acknowledged P t (is ++ [i]) = acknowledged P t is := by
      rw [acknowledged_concat, hack]
      exact List.append_nil _
    refine ⟨cs ++ (((loopback P t).run is).issues i).toList, ⟨done, ?_, ?_, ?_⟩, fun c hc => ?_, hclean, ?_⟩
    · rw [transmissions_concat, htrans, List.append_assoc]
    · rw [hacks, hdone]
    · rw [hacks]
      exact hanswers
    · rcases List.mem_append.1 hc with hc | hc
      · exact h.proper c hc
      · have hissue := Option.mem_toList.1 hc
        exact ⟨hi.proper hissue, hi.long c hissue⟩
    · rw [run_concat, hacks]
      exact hphase
  · have hacks : acknowledged P t (is ++ [i]) = acknowledged P t is ++ [r] := by rw [acknowledged_concat, hack]; rfl
    refine ⟨[], ⟨done ++ [c], ?_, ?_, ?_⟩, nofun, hclean, ?_⟩
    · rw [transmissions_concat, htrans, hissue]
      rfl
    · rw [hacks, List.length_append, List.length_append, hdone]
      rfl
    · rw [hacks]
      exact hanswers.concat hdone hr
    · rw [run_concat, hacks, List.length_append]
      exact hphase

/-- After a run that has come so far, all is right. -/
theorem Progress.correct (h : Progress P t is cs) (hm : 0 < ntxslots) : Correct P t is := by
  obtain ⟨done, htrans, hdone, hanswers⟩ := h.answered
  have hphase := h.phase
  have hall : ((loopback P t).run is).pending = [] → Answers nrxslots (transmissions P t is) (receptions P t is) :=
    fun hpending => by
      unfold receptions
      rw [hpending, List.append_nil, htrans]
      exact hanswers.append
  have hready : cs ≠ [] → ¬ (transmissions P t is).length = (acknowledged P t is).length := fun hne heq => by
    rw [htrans, List.length_append, hdone] at heq
    exact hne (List.length_eq_zero_iff.1 (by omega))
  -- only where nothing is on its way the two counts are equal
  cases hphase with
  | quiet hs hw hslot =>
    refine ⟨hall (pending_nil hw.queued), hslot.2, h.clean, fun _ => ?_⟩
    rw [P.cmdFifo.sinkReady_iff, hs.reader.queued.contents]
    exact hm
  | flying hf hslot =>
    exact ⟨hall (pending_nil hf.writer.queued), hslot.2, h.clean, fun heq =>
      absurd heq (hready (List.cons_ne_nil _ _))⟩
  | stored hs hw hslot =>
    exact ⟨hall (pending_nil hw.queued), hslot.2, h.clean, fun heq =>
      absurd heq (hready (List.cons_ne_nil _ _))⟩
  | reported hs hw hslot hr =>
    refine ⟨?_, hslot.2, h.clean, fun heq => absurd heq (hready (List.cons_ne_nil _ _))⟩
    unfold receptions State.pending
    rw [hw.queued, htrans]
    exact hanswers.concat hdone hr

end Runs

/-! ## Waiting for the clocks -/

section Ranks

variable {c : Reader.Issued (wishboneParams ntxslots e)} {q : (received e).State} {v : Places}
  {w w' : ((sends P.converters P.txBuffer P.rxBuffer).andThen (receives P.converters P.crcFifo).sim).W}

/-- A word in the crossing from the line comes out with the edges of the system clock. -/
theorem Stuck.leaving (h : Flying s c q v w) (hstuck : Stuck s i v w w') (hreturning : v.returning ≠ []) :
    P.rxCdc.waits (s.next i).rxCdc ≤ P.rxCdc.waits s.rxCdc ∧
      (i.sys ≠ none → P.rxCdc.waits (s.next i).rxCdc < P.rxCdc.waits s.rxCdc) := by
  obtain ⟨hle, hlt⟩ := P.rxCdc.waits_step (h.returning ▸ hreturning) (s.rxSink i) hstuck.leaves
  refine ⟨hle, fun hsys => ?_⟩
  obtain ⟨a, ha⟩ := Option.ne_none_iff_exists'.1 hsys
  have hready : State.rxReady i = some true := by
    unfold State.rxReady
    rw [ha]
    rfl
  have hleaves := hstuck.leaves
  unfold State.leaves at hleaves
  rw [hready] at hleaves
  exact hlt hleaves (by rw [hready]; exact nofun)

/-- What is left when all words of the packet have come to the line. -/
theorem Flying.pending_eq (h : Flying s c q v w) (hcrossing : v.crossing = []) (hunsent : v.unsent = []) :
    v.pending = v.left := by
  obtain ⟨b, ys, rest, hturn⟩ := h.under
  have hpacket := h.packet
  have hwhole := h.whole
  rw [hcrossing, hunsent, List.append_nil, List.append_nil] at hpacket
  rw [hpacket, hturn.given, List.append_assoc] at hwhole
  exact List.append_cancel_left (List.append_cancel_left hwhole)

/-- The line gives a word with the edges of its clock, if the crossing behind it is empty. -/
theorem Stuck.giving (h : Flying s c q v w) (hstuck : Stuck s i v w w') (hreturning : v.returning = [])
    (hline : v.held = none → v.crossing = [] ∧ v.unsent = []) :
    toLex (P.rxCdc.refuses (s.next i).rxCdc, w') ≤ toLex (P.rxCdc.refuses s.rxCdc, w) ∧
      (i.eth = true → toLex (P.rxCdc.refuses (s.next i).rxCdc, w') < toLex (P.rxCdc.refuses s.rxCdc, w)) := by
  have hempty : P.rxCdc.contents s.rxCdc = [] := h.returning.trans hreturning
  obtain ⟨hle, hlt⟩ := P.rxCdc.refuses_step hempty (State.rxReady i) hstuck.returns
  have hlex : w' ≤ w → toLex (P.rxCdc.refuses (s.next i).rxCdc, w') ≤ toLex (P.rxCdc.refuses s.rxCdc, w) := fun hw => by
    rw [Prod.Lex.toLex_le_toLex]
    exact hle.lt_or_eq.imp_right fun heq => ⟨heq, hw⟩
  cases heth : i.eth with
  | false => exact ⟨hlex (hstuck.keeps heth).le, nofun⟩
  | true =>
    refine (fun hlt => ⟨hlt.le, fun _ => hlt⟩) ?_
    rw [Prod.Lex.toLex_lt_toLex]
    rcases hstuck.progress heth with ⟨hheld, hpending, -⟩ | ⟨hsource, hready⟩ | hw
    · obtain ⟨hcrossing, hunsent⟩ := hline hheld
      have hopen := h.open
      rw [hreturning, ← h.pending_eq hcrossing hunsent, hpending] at hopen
      exact absurd rfl hopen
    · refine .inl (hlt hready ?_)
      unfold State.rxSink
      rw [if_pos heth]
      exact nofun
    · exact hle.lt_or_eq.imp_right fun heq => ⟨heq, hw⟩

/-- A word in the crossing to the line comes out with the edges of the clock of the line. -/
theorem Stuck.loading (h : Flying s c q v w) (hstuck : Stuck s i v w w') (hheld : v.held = none)
    (hcrossing : v.crossing ≠ []) : P.txCdc.waits (s.next i).txCdc ≤ P.txCdc.waits s.txCdc ∧
      (i.eth = true → P.txCdc.waits (s.next i).txCdc < P.txCdc.waits s.txCdc) := by
  have hcontents := h.waiting.contents
  rw [hheld, Option.toList_none, List.nil_append] at hcontents
  obtain ⟨hle, hlt⟩ := P.txCdc.waits_step (hcontents ▸ hcrossing) (s.txSink i) hstuck.loads
  refine ⟨hle, fun heth => hlt (hstuck.shown heth hheld) ?_⟩
  unfold State.txReady
  rw [if_pos heth]
  exact nofun

/-- What the reader waits for, with nothing in the crossing behind it. -/
def untilSent (s : State P) : ℕ := (if s.reader.source = none then 1 else 0) + P.txCdc.refuses s.txCdc

/-- The reader sends a word with the edges of the system clock, if the crossing behind it is empty. -/
theorem Stuck.entering (h : Flying s c q v w) (hstuck : Stuck s i v w w') (hheld : v.held = none)
    (hcrossing : v.crossing = []) (hunsent : v.unsent ≠ []) :
    untilSent (s.next i) ≤ untilSent s ∧ (i.sys ≠ none → untilSent (s.next i) < untilSent s) := by
  have hempty := h.waiting.contents
  rw [hheld, hcrossing] at hempty
  obtain ⟨hle, hlt⟩ := P.txCdc.refuses_step hempty (s.txReady i) hstuck.enters
  have hle : P.txCdc.refuses (s.next i).txCdc ≤ P.txCdc.refuses s.txCdc := hle
  unfold untilSent
  by_cases hsys : i.sys = none
  · rw [hstuck.waits hsys]
    exact ⟨by omega, fun hne => absurd hsys hne⟩
  · obtain ⟨a, ha⟩ := Option.ne_none_iff_exists'.1 hsys
    rw [if_neg (hstuck.reads hsys hunsent)]
    refine (fun hlt => ⟨hlt.le, fun _ => hlt⟩) ?_
    cases hready : P.txCdc.ready s.txCdc with
    | false =>
      have hlt : P.txCdc.refuses (s.next i).txCdc < P.txCdc.refuses s.txCdc := hlt hready (by
        unfold State.txSink
        rw [ha]
        exact nofun)
      omega
    | true =>
      have henters := hstuck.enters
      unfold State.enters ClockDomainCrossing.takes State.txSink at henters
      rw [hready, ha] at henters
      have hsource : s.reader.source = none := henters
      rw [if_pos hsource]
      omega

end Ranks

section Unending

variable {t : τ} {js : ℕ → In e ntxslots τ} {c : Reader.Issued (wishboneParams ntxslots e)} {q : (received e).State}
  {v : Places} {w : ((sends P.converters P.txBuffer P.rxBuffer).andThen (receives P.converters P.crcFifo).sim).W} {n : ℕ}

theorem upTo_succ (js : ℕ → In e ntxslots τ) (n : ℕ) : upTo js (n + 1) = upTo js n ++ [js n] := by
  unfold upTo
  rw [List.range_succ, List.map_append]
  rfl

variable (P t js) in
/-- After `n` steps. -/
abbrev after (n : ℕ) : State P := (loopback P t).run (upTo js n)

theorem after_succ (n : ℕ) : after P t js (n + 1) = (after P t js n).next (js n) := by
  unfold after
  rw [upTo_succ, run_concat]

variable (P t js) in
/-- One transmission has not been acknowledged. -/
structure Owes (n : ℕ) : Prop where
  owes : (transmissions P t (upTo js n)).length = (acknowledged P t (upTo js n)).length + 1
  slot : ∃ k, AtSlot (after P t js n) (k % nrxslots)

theorem Owes.waits (h : Owes P t js n) (hi : Polite P t (upTo js n) (js n)) : (after P t js n).issues (js n) = none := by
  by_contra hne
  have := hi.turn hne
  have := h.owes
  omega

/-- Until it is reported, nothing is issued or acknowledged. -/
theorem Owes.next (h : Owes P t js n) (hi : Polite P t (upTo js n) (js n)) (hq : (after P t js n).writer.queued = [])
    (hslot : ∃ k, AtSlot ((after P t js n).next (js n)) (k % nrxslots)) : Owes P t js (n + 1) := by
  refine ⟨?_, by rwa [after_succ]⟩
  rw [upTo_succ, transmissions_concat, acknowledged_concat, acknowledges_none hq, h.waits hi]
  simpa using h.owes

variable (P t js c q) in
/-- After `n` steps the packet is under way. -/
structure Flies (v : Places) (n : ℕ)
    (w : ((sends P.converters P.txBuffer P.rxBuffer).andThen (receives P.converters P.crcFifo).sim).W) : Prop where
  owing : Owes P t js n
  flying : Flying (after P t js n) c q v w

variable (P t js c) in
/-- After `n` steps the packet is stored. -/
structure Stores (n : ℕ) : Prop where
  owing : Owes P t js n
  stored : Writer.Stored (after P t js n).writer (Transmit.padded c.bytes)

variable (P t js c q) in
/-- It is stored, or there are fewer moves to come. -/
def Nearer (v : Places) (n : ℕ) : Prop :=
  Stores P t js c n ∨ ∃ v' w, Flies P t js c q v' n w ∧ v'.work < v.work

variable (hn : 0 < nrxslots) (hpolite : ∀ n, Polite P t (upTo js n) (js n)) (hc : c.Proper) (hlong : c.Long)

include hn hpolite hc hlong

theorem Flies.next (h : Flies P t js c q v n w) : Nearer P t js c q v (n + 1) ∨
    ∃ w', Flies P t js c q v (n + 1) w' ∧ Stuck (after P t js n) (js n) v w w' := by
  obtain ⟨howes, hflying⟩ := h
  obtain ⟨k, hslot⟩ := howes.slot
  have hqueued := hflying.writer.queued
  obtain ⟨-, hslot', hnext⟩ := hflying.next hn hslot hc hlong (hpolite n).fair (howes.waits (hpolite n))
  have howes' := howes.next (hpolite n) hqueued ⟨k, hslot'⟩
  rw [← after_succ] at hnext
  rcases hnext with ⟨hstored, -⟩ | ⟨v', w', hflying', hless | ⟨rfl, hstuck⟩⟩
  · exact .inl (.inl ⟨howes', hstored⟩)
  · exact .inl (.inr ⟨v', w', ⟨howes', hflying'⟩, hless⟩)
  · exact .inr ⟨w', ⟨howes', hflying'⟩, hstuck⟩

/-- What waits for a clock, with a rank that sinks with its edges, happens. -/
theorem Flies.leads {R : Type} [LinearOrder R] [WellFoundedLT R] {tick : ℕ → Prop} (hfair : ∀ n, ∃ m ≥ n, tick m)
    (rank : State P → ((sends P.converters P.txBuffer P.rxBuffer).andThen (receives P.converters P.crcFifo).sim).W → R)
    (hrank : ∀ n w w', Flying (after P t js n) c q v w → Stuck (after P t js n) (js n) v w w' →
      rank ((after P t js n).next (js n)) w' ≤ rank (after P t js n) w ∧
        (tick n → rank ((after P t js n).next (js n)) w' < rank (after P t js n) w))
    (h : Flies P t js c q v n w) : ∃ m > n, Nearer P t js c q v m := by
  refine leads_to hfair (P := fun n r => ∃ w, Flies P t js c q v n w ∧ rank (after P t js n) w = r)
    (fun n r ⟨w, h, hr⟩ => ?_) ⟨w, h, rfl⟩
  refine (h.next hn hpolite hc hlong).imp_right fun ⟨w', h', hstuck⟩ => ?_
  obtain ⟨hle, hlt⟩ := hrank n w w' h.flying hstuck
  rw [← after_succ, hr] at hle hlt
  exact ⟨_, hle, ⟨w', h', rfl⟩, hlt⟩

/-- One of the words moves: one on the way back, or else one of the line, or one on the way there. -/
theorem Flies.nearer (hclock : Clocked js) (h : Flies P t js c q v n w) : ∃ m > n, Nearer P t js c q v m := by
  by_cases hreturning : v.returning = []
  · by_cases hline : v.held = none → v.crossing = [] ∧ v.unsent = []
    · exact h.leads hn hpolite hc hlong hclock.eth (fun s w => toLex (P.rxCdc.refuses s.rxCdc, w))
        fun n w w' hf hs => hs.giving hf hreturning hline
    · have hheld : v.held = none := by
        by_contra hne
        exact hline fun h => absurd h hne
      by_cases hcrossing : v.crossing = []
      · have hunsent : v.unsent ≠ [] := fun hnil => hline fun _ => ⟨hcrossing, hnil⟩
        exact h.leads hn hpolite hc hlong hclock.sys (fun s _ => untilSent s)
          fun n w w' hf hs => hs.entering hf hheld hcrossing hunsent
      · exact h.leads hn hpolite hc hlong hclock.eth (fun s _ => P.txCdc.waits s.txCdc)
          fun n w w' hf hs => hs.loading hf hheld hcrossing
  · exact h.leads hn hpolite hc hlong hclock.sys (fun s _ => P.rxCdc.waits s.rxCdc)
      fun n w w' hf hs => hs.leaving hf hreturning

/-- The packet is stored in the end. -/
theorem Flies.stores (hclock : Clocked js) (h : Flies P t js c q v n w) : ∃ m > n, Stores P t js c m := by
  induction hwork : v.work using Nat.strong_induction_on generalizing n v w with
  | _ k ih =>
    obtain ⟨m, hm, hstores | ⟨v', w', h', hless⟩⟩ := h.nearer hn hpolite hc hlong hclock
    · exact ⟨m, hm, hstores⟩
    · obtain ⟨m', hm', hstores⟩ := ih _ (hwork ▸ hless) h' rfl
      exact ⟨m', hm.trans hm', hstores⟩

omit hc hlong in
/-- It is reported then. -/
theorem Stores.reports (hslots : 2 ^ (wishboneParams nrxslots e).slotbits = nrxslots) (hclock : Clocked js)
    (h : Stores P t js c n) : ∃ m > n, Owes P t js m ∧ ∃ en, Writer.Announced (after P t js m).writer en := by
  refine leads_to hclock.sys (P := fun n (r : ℕ) => Stores P t js c n ∧ r = 0) (fun n r ⟨h, hr⟩ => ?_) ⟨h, rfl⟩
  obtain ⟨howes, hstored⟩ := h
  obtain ⟨k, hslot⟩ := howes.slot
  have hnext := stored_next (i := js n) hn hslots hstored hslot
  split_ifs at hnext with hsys
  · have howes' := howes.next (hpolite n) hstored.queued ⟨k, by unfold AtSlot; rwa [hnext]⟩
    exact .inr ⟨r, le_rfl, ⟨⟨howes', by rwa [after_succ, hnext]⟩, hr⟩, fun hne => absurd hsys hne⟩
  · obtain ⟨hslot', en, hreported, -⟩ := hnext
    exact .inl ⟨howes.next (hpolite n) hstored.queued ⟨k + 1, hslot'⟩, en, by rwa [after_succ]⟩

end Unending

/-! ## All runs -/

theorem politeRun_upTo (P : Parts e nrxslots ntxslots τ) (t : τ) {js : ℕ → In e ntxslots τ}
    (h : ∀ n, Polite P t (upTo js n) (js n)) (n : ℕ) : PoliteRun P t (upTo js n) := by
  induction n with
  | zero => exact fun js i hj => absurd hj (by simp [upTo])
  | succ n ih =>
    intro ks i hk
    rw [upTo_succ] at hk
    rcases List.prefix_concat_iff.1 hk with heq | hk
    · obtain ⟨rfl, hi⟩ := List.append_inj' heq rfl
      obtain rfl := List.singleton_inj.1 hi
      exact h n
    · exact ih ks i hk

theorem transmissions_le (P : Parts e nrxslots ntxslots τ) (t : τ) (js : ℕ → In e ntxslots τ) {n m : ℕ} (h : n ≤ m) :
    (transmissions P t (upTo js n)).length ≤ (transmissions P t (upTo js m)).length := by
  induction m, h using Nat.le_induction with
  | base => exact le_rfl
  | succ m _ ih =>
    rw [upTo_succ, transmissions_concat, List.length_append]
    omega

section All

variable (P) (t : τ) (hn : 0 < nrxslots) (hslots : 2 ^ (wishboneParams nrxslots e).slotbits = nrxslots)

include hn hslots

theorem progress {is : List (In e ntxslots τ)} (h : PoliteRun P t is) : ∃ cs, Progress P t is cs := by
  induction is using List.reverseRecOn with
  | nil => exact ⟨[], progress_nil P t⟩
  | append_singleton is i ih =>
    obtain ⟨cs, hcs⟩ := ih fun js j hj => h js j (hj.trans (List.prefix_append _ _))
    exact hcs.next hn hslots (h is i (List.prefix_rfl))

theorem complete {js : ℕ → In e ntxslots τ} (hpolite : ∀ n, Polite P t (upTo js n) (js n)) (hclock : Clocked js) :
    Complete P t js := by
  intro n
  obtain ⟨cs, h⟩ := progress P t hn hslots (politeRun_upTo P t hpolite n)
  obtain ⟨done, htrans, hdone, -⟩ := h.answered
  have howes : ∀ c, cs = [c] → (transmissions P t (upTo js n)).length = (acknowledged P t (upTo js n)).length + 1 :=
    fun c hc => by rw [htrans, hc, List.length_append, hdone]; rfl
  -- what is stored is reported, and nothing has been issued in between
  have hstored : ∀ c m, n ≤ m → Stores P t js c m →
      ∃ m ≥ n, (transmissions P t (upTo js n)).length ≤ (receptions P t (upTo js m)).length := fun c m hm hs => by
    obtain ⟨m', hm', howes', en, hreported⟩ := hs.reports hn hpolite hslots hclock
    refine ⟨m', by omega, (transmissions_le P t js (by omega : n ≤ m')).trans ?_⟩
    unfold receptions State.pending
    rw [howes'.owes, List.length_append, List.length_map, hreported.queued]
    rfl
  have hphase := h.phase
  cases hphase with
  | quiet hs hw hslot =>
    refine ⟨n, le_rfl, ?_⟩
    unfold receptions
    rw [htrans, List.append_nil, hdone, List.length_append]
    omega
  | @flying c q v w hf hslot =>
    obtain ⟨hc, hlong⟩ := h.proper c List.mem_cons_self
    have hflies : Flies P t js c q v n w := ⟨⟨howes c rfl, _, hslot⟩, hf⟩
    obtain ⟨m, hm, hstores⟩ := hflies.stores hn hpolite hc hlong hclock
    exact hstored c m (by omega) hstores
  | @stored c held q hs hw hslot => exact hstored c n le_rfl ⟨⟨howes c rfl, _, hslot⟩, hw⟩
  | @reported c en held q hs hw hslot hr =>
    refine ⟨n, le_rfl, ?_⟩
    unfold receptions State.pending
    rw [howes c rfl, List.length_append, List.length_map, hw.queued]
    rfl

end All

/-- Software that waits for each reception and acknowledges it receives each packet that it has sent, padded, from the
slots in turn, and no error is counted. -/
theorem loopback_delivers (P : Parts e nrxslots ntxslots τ) (t : τ) {k : ℕ} (hk : 1 ≤ k) (hn : nrxslots = 2 ^ k)
    (hm : 0 < ntxslots) : (∀ is, PoliteRun P t is → Correct P t is) ∧
      ∀ js, (∀ n, Polite P t (upTo js n) (js n)) → Clocked js → Complete P t js := by
  have hpos : 0 < nrxslots := by
    rw [hn]
    positivity
  have hslots := Writer.slotbits_of_two_pow (p := wishboneParams nrxslots e) hk hn
  refine ⟨fun is his => ?_, fun js => complete P t hpos hslots⟩
  obtain ⟨cs, h⟩ := progress P t hpos hslots his
  exact h.correct hm

/-- A MAC with two slots each way. -/
def twoSlots : Parts .big 2 2 Unit where
  cmdFifo := SyncFIFO.queue _ _
  statFifo := SyncFIFO.queue _ _
  txCdc := ClockDomainCrossing.queue _ 32 (by decide)
  rxCdc := ClockDomainCrossing.queue _ 32 (by decide)
  converters := Converters.registers _
  txBuffer := Fifo.pipeValid _ _
  rxBuffer := Fifo.pipeValid _ _
  crcFifo := SyncFIFO.queue _ _

/-- Software writes a packet of five bytes and sends it, with both clocks at the same pace. -/
def sendOnce (n : ℕ) : In .big 2 Unit where
  sys := some
    { start := if n = 2 then some ⟨0, 5⟩ else none
      write := match n with
        | 0 => some ⟨0, 0, 0x11223344⟩
        | 1 => some ⟨0, 1, 0x55000000⟩
        | _ => none
      clear := false
      timestamp := () }
  eth := true

theorem issues_sendOnce {s : State twoSlots} {n : ℕ} {c : Reader.Issued (wishboneParams 2 .big)}
    (h : s.issues (sendOnce n) = some c) : n = 2 ∧ c.1 = ⟨0, 5⟩ := by
  have hstart : (if n = 2 then some ⟨0, 5⟩ else none) = some c.1 := Reader.start_of_issues (s := s.reader) h
  split_ifs at hstart with hn
  exact ⟨hn, (Option.some.inj hstart).symm⟩

theorem acknowledged_sendOnce (n : ℕ) : acknowledged twoSlots () (upTo sendOnce n) = [] := by
  induction n with
  | zero => rfl
  | succ n ih =>
    rw [upTo_succ, acknowledged_concat, ih]
    rfl

theorem polite_sendOnce (n : ℕ) : Polite twoSlots () (upTo sendOnce n) (sendOnce n) := by
  refine ⟨fun h => ?_, fun a ha => ⟨fun c hc => ?_, fun w hw => ?_⟩, fun c hc => ?_⟩
  · obtain ⟨c, hc⟩ := Option.ne_none_iff_exists'.1 h
    obtain ⟨rfl, -⟩ := issues_sendOnce hc
    rw [acknowledged_sendOnce]
    rfl
  · obtain rfl := Option.some.inj ha
    obtain ⟨-, hc⟩ := issues_sendOnce (n := n) hc
    exact ⟨by rw [hc]; decide, by rw [hc]; decide, by rw [hc]; decide⟩
  · obtain rfl := Option.some.inj ha
    rcases n with _ | _ | n
    · exact nofun
    · exact nofun
    · cases hw
  · obtain ⟨-, hc⟩ := issues_sendOnce hc
    unfold Reader.Issued.Long
    rw [hc]
    decide

theorem transmissions_sendOnce {n : ℕ} (h : 3 ≤ n) :
    transmissions twoSlots () (upTo sendOnce n) = transmissions twoSlots () (upTo sendOnce 3) := by
  induction n, h using Nat.le_induction with
  | base => rfl
  | succ n hn ih =>
    have hissue : (after twoSlots () sendOnce n).issues (sendOnce n) = none := by
      by_contra hne
      obtain ⟨c, hc⟩ := Option.ne_none_iff_exists'.1 hne
      have := (issues_sendOnce hc).1
      omega
    rw [upTo_succ, transmissions_concat, hissue, ih]
    exact List.append_nil _

/-- The five bytes are received with zeros behind them. -/
theorem loopback_delivers_five : ∃ m r, receptions twoSlots () (upTo sendOnce m) = [r] ∧ r.1.slot = 0 ∧ r.1.length = 60 ∧
    slotData .big r.2 60 = [0x11, 0x22, 0x33, 0x44, 0x55] ++ List.replicate 55 0 ∧
      errors twoSlots () (upTo sendOnce m) = [] := by
  obtain ⟨hcorrect, hcomplete⟩ := loopback_delivers twoSlots () (k := 1) le_rfl rfl (by decide)
  obtain ⟨m, hm, hlen⟩ := hcomplete sendOnce polite_sendOnce ⟨fun n => ⟨n, le_rfl, nofun⟩, fun n => ⟨n, le_rfl, rfl⟩⟩ 3
  have hright := hcorrect _ (politeRun_upTo twoSlots () polite_sendOnce m)
  have hreceives := hright.receives
  rw [transmissions_sendOnce hm] at hreceives
  have hsent : ∃ mems, transmissions twoSlots () (upTo sendOnce 3) = [(⟨0, 5⟩, mems)] ∧
      slotData .big mems 5 = [0x11, 0x22, 0x33, 0x44, 0x55] := ⟨_, rfl, by decide +kernel⟩
  obtain ⟨mems, hsent, hbytes⟩ := hsent
  rw [hsent] at hreceives hlen
  -- the number of receptions is one, by completeness
  match hrs : receptions twoSlots () (upTo sendOnce m) with
  | [] =>
    rw [hrs] at hlen
    cases hlen
  | [r] =>
    rw [hrs] at hreceives
    obtain ⟨q, hq, hslot, hlength, hr⟩ := hreceives 0 r rfl
    obtain rfl := Option.some.inj hq
    have hlength : r.1.length = 60 := hlength
    rw [hlength] at hr
    exact ⟨m, r, hrs, hslot, hlength, hr.trans (congrArg (· ++ List.replicate 55 0) hbytes), hright.checkers⟩
  | r :: r' :: rs =>
    rw [hrs] at hreceives
    obtain ⟨q, hq, -⟩ := hreceives 1 r' rfl
    cases hq

end LiteEth.Mac.Loopback
