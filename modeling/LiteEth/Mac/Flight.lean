/-
One transmission of the looped MAC: its words go from the reader to the crossing, through the line, to the other crossing
and to the writer. In each step each of them stays where it is or goes on to the next place; the slot of the writer has
the bytes when the last word has come there, and nothing is left of the packet anywhere else.
-/
import LiteEth.Mac.Loopback

namespace LiteEth.Mac.Loopback

open LiteEth.Rtl Converter Line Receive

variable {e : Endianness} {nrxslots ntxslots : ℕ} {τ : Type} {P : Parts e nrxslots ntxslots τ}

/-! ## The frame of a packet, and its words -/

/-- A word inside a packet. -/
def blank : PhyBeat 32 := { data := 0, lastBe := 0, error := 0, last := false }

/-- Words may be put into a packet before any of its words. -/
theorem carries_blanks {ds : List (BitVec 8)} {as : List (PhyBeat 32)} {w : PhyBeat 32} {ws : List (PhyBeat 32)} (n : ℕ)
    (h : Carries e ds (as ++ w :: ws)) : ∃ ds', ds'.length = ds.length + 4 * n ∧
      Carries e ds' (as ++ (List.replicate n blank ++ w :: ws)) := by
  induction as generalizing ds with
  | nil =>
    induction n with
    | zero => exact ⟨ds, rfl, h⟩
    | succ n ih =>
      obtain ⟨ds', hlen, hds'⟩ := ih
      refine ⟨_, ?_, .word blank rfl rfl hds'⟩
      rw [List.length_append, length_dataBytes, hlen]
      omega
  | cons a as ih =>
    generalize hpacket : a :: as ++ w :: ws = packet at h
    cases h with
    | last => exact absurd (List.cons.inj hpacket).2 (by simp)
    | word _ hl hbe h =>
      obtain ⟨rfl, rfl⟩ := List.cons.inj hpacket
      obtain ⟨ds', hlen, hds'⟩ := ih h
      refine ⟨_, ?_, .word a hl hbe hds'⟩
      rw [List.length_append, List.length_append, hlen, Nat.add_assoc]

/-- A frame is not the beginning of another one. -/
theorem frame_eq {f g : List (PhyBeat 8)} (hf : IsFrame (·.last) f) (hg : IsFrame (·.last) g) (h : f <+: g) : f = g := by
  obtain ⟨m, l, -, hl⟩ := hf
  exact (frame_ends hg h hl).2.1.symm

theorem length_padded (ds : List (BitVec 8)) : (Transmit.padded ds).length = max ds.length 60 := by
  unfold Transmit.padded
  rw [List.length_append, List.length_replicate]
  omega

theorem length_withFcs (ds : List (BitVec 8)) : (withFcs ds).length = max ds.length 60 + 4 := by
  unfold withFcs
  rw [List.length_append, CRCChecker.length_splitBytes, length_padded]

theorem withFcs_ne_nil (ds : List (BitVec 8)) : withFcs ds ≠ [] := List.ne_nil_of_length_pos (by
  rw [length_withFcs]
  omega)

/-- The frame is not complete before the last word. -/
theorem sent_open {ds : List (BitVec 8)} {as : List (PhyBeat 32)} {w : PhyBeat 32} {ws : List (PhyBeat 32)}
    (h : Carries e ds (as ++ w :: ws)) (herr : ∀ x ∈ as ++ w :: ws, x.error = 0) (hlen : ds.length ≤ 2 ^ 15) :
    (sent e).outs (sent e).init as ≠ frameBeats (withFcs ds) := by
  intro hframe
  -- a longer packet that begins with the same words
  obtain ⟨ds', hlen', hds'⟩ := carries_blanks 16 h
  have herr' : ∀ x ∈ as ++ (List.replicate 16 blank ++ w :: ws), x.error = 0 := by
    intro x hx
    rcases List.mem_append.1 hx with hx | hx
    · exact herr x (List.mem_append_left _ hx)
    · rcases List.mem_append.1 hx with hx | hx
      · rw [List.eq_of_mem_replicate hx]
        rfl
      · exact herr x (List.mem_append_right _ hx)
  have hmakes := sent_makes hds' herr' (by omega)
  have hbegin : frameBeats (withFcs ds) <+: frameBeats (withFcs ds') :=
    ⟨_, by rw [← hframe, ← Transducer.outs_append, hmakes.outs]⟩
  have heq := congrArg List.length (frame_eq (isFrame_frameBeats (withFcs_ne_nil ds))
    (isFrame_frameBeats (withFcs_ne_nil ds')) hbegin)
  rw [length_frameBeats, length_frameBeats, length_withFcs, length_withFcs] at heq
  omega

/-! ## The places of the words -/

namespace State

variable (s : State P) (i : In e ntxslots τ)

/-- The word that goes from the reader to the crossing in a step. -/
def enters : Option (PhyBeat 32) := P.txCdc.takes s.txCdc (s.txSink i)

/-- The word that goes from there to the line. -/
def loads : Option (PhyBeat 32) := P.txCdc.gives s.txCdc (s.txReady i)

/-- The word that goes from the line to the other crossing. -/
def returns : Option (PhyBeat 32) := P.rxCdc.takes s.rxCdc (s.rxSink i)

/-- The word that goes from there to the writer. -/
def leaves : Option (PhyBeat 32) := P.rxCdc.gives s.rxCdc (rxReady i)

end State

variable {s : State P} {held : Option (PhyBeat 32)} {xs as G p : List (PhyBeat 32)} {q : (received e).State}
  {w : ((sends P.converters P.txBuffer P.rxBuffer).andThen (receives P.converters P.crcFifo).sim).W}

/-- The crossing to the line has the word that the line has refused, and the words `xs`, which it has not seen. -/
structure Waiting (s : State P) (held : Option (PhyBeat 32)) (xs : List (PhyBeat 32)) : Prop where
  contents : P.txCdc.contents s.txCdc = held.toList ++ xs
  stays : ∀ x, held = some x → s.word = some x

/-- Of the words of a packet `as` has come to the line; of what is made of them it has given `G`, and not `p`. -/
def Under (s : State P) (held : Option (PhyBeat 32)) (q : (received e).State) (as G p : List (PhyBeat 32))
    (w : ((sends P.converters P.txBuffer P.rxBuffer).andThen (receives P.converters P.crcFifo).sim).W) : Prop :=
  ∃ b ys rest, Turn (⟨s.line, held⟩ : P.line.Run) q as G p w b ys rest

/-- The line in a step: the word `a` has come to it. -/
structure LineStep (s : State P) (i : In e ntxslots τ) (held : Option (PhyBeat 32)) (xs : List (PhyBeat 32))
    (q : (received e).State) (as G p : List (PhyBeat 32))
    (w : ((sends P.converters P.txBuffer P.rxBuffer).andThen (receives P.converters P.crcFifo).sim).W)
    (a held' : Option (PhyBeat 32)) (xs' p' : List (PhyBeat 32))
    (w' : ((sends P.converters P.txBuffer P.rxBuffer).andThen (receives P.converters P.crcFifo).sim).W) : Prop where
  comes : xs = a.toList ++ xs'
  loads : held.toList ++ a.toList = (s.loads i).toList ++ held'.toList
  waiting : Waiting (s.next i) held' (xs' ++ (s.enters i).toList)
  under : Under (s.next i) held' q (as ++ a.toList) (G ++ (s.returns i).toList) p' w'
  shown : i.eth = true → held = none → a = s.word
  keeps : i.eth = false → w' = w
  progress : i.eth = true → a = none → s.loads i = none → s.returns i = none →
    (held = none ∧ p = [] ∧ w' ≤ w) ∨ (P.line.source s.line () s.word ≠ none ∧ s.ready = false) ∨ w' < w

theorem Waiting.next (h : Waiting s held xs) {i : In e ntxslots τ} {a held' : Option (PhyBeat 32)}
    {xs' : List (PhyBeat 32)} (hcomes : xs = a.toList ++ xs')
    (hloads : held.toList ++ a.toList = (s.loads i).toList ++ held'.toList)
    (hstays : ∀ x, held' = some x → (s.next i).word = some x) :
    Waiting (s.next i) held' (xs' ++ (s.enters i).toList) := by
  refine ⟨?_, hstays⟩
  have hmove := P.txCdc.contents_next s.txCdc (s.txSink i) (s.txReady i)
  rw [h.contents, hcomes, ← List.append_assoc, hloads, List.append_assoc, List.append_assoc] at hmove
  exact (List.append_cancel_left hmove).symm

theorem Waiting.shown (h : Waiting s held xs) : held = none ∨ held = s.word := by
  cases held with
  | none => exact .inl rfl
  | some x => exact .inr (h.stays x rfl).symm

/-- The word that comes to the line is the next one of those it has not seen. -/
theorem Waiting.comes (h : Waiting s held xs) :
    ∃ xs', xs = (Stage.Run.arrives (⟨s.line, held⟩ : P.line.Run) ⟨(), s.word, s.ready⟩).toList ++ xs' := by
  cases held with
  | some x => exact ⟨xs, rfl⟩
  | none =>
    cases hx : s.word with
    | none => exact ⟨xs, rfl⟩
    | some x =>
      obtain ⟨xs', hxs⟩ := P.txCdc.source_eq _ x hx
      exact ⟨xs', h.contents.symm.trans hxs⟩

theorem line_next (ds : List (BitVec 8)) (hwait : Waiting s held xs) (h : Under s held q as G p w)
    (hq : Rest q) (hok : (sent e).Oks (sent e).init (as ++ xs))
    (hbegin : (sent e).outs (sent e).init (as ++ xs) <+: frameBeats (withFcs ds)) (i : In e ntxslots τ) :
    s.errors i = [] ∧ ∃ a held' xs' p' w', LineStep s i held xs q as G p w a held' xs' p' w' := by
  obtain ⟨b, ys, rest, h⟩ := h
  unfold State.errors
  cases heth : i.eth with
  | false =>
    have hnone : s.txReady i = none := by simp [State.txReady, heth]
    have hline : (s.next i).line = s.line := by simp [State.next, heth]
    have hloads : s.loads i = none := by simp [State.loads, ClockDomainCrossing.gives, hnone]
    have hreturns : s.returns i = none := by simp [State.returns, ClockDomainCrossing.takes, State.rxSink, heth]
    have hmove : held.toList ++ (none : Option (PhyBeat 32)).toList = (s.loads i).toList ++ held.toList := by
      rw [hloads]
      simp
    refine ⟨rfl, none, held, xs, p, w, rfl, hmove, hwait.next rfl hmove fun x hx => ?_, ⟨b, ys, rest, ?_⟩, ?_, ?_, ?_⟩
    · exact P.txCdc.stable _ _ _ _ (hwait.stays x hx) (by rw [hnone]; exact nofun)
    · rw [hline, hreturns, Option.toList_none, List.append_nil, List.append_nil]
      exact h
    · rw [heth]
      exact nofun
    · exact fun _ => rfl
    · rw [heth]
      exact nofun
  | true =>
    -- the line sees the word that waits as what its stage is offered
    let j : Stage.In Unit (PhyBeat 32) := ⟨(), s.word, s.ready⟩
    let r : P.line.Run := ⟨s.line, held⟩
    obtain ⟨xs', hcomes⟩ := hwait.comes
    rw [hcomes, ← List.append_assoc] at hok hbegin
    rw [Transducer.oks_append] at hok
    rw [Transducer.outs_append] at hbegin
    have hbegin := (List.prefix_append _ _).trans hbegin
    have hframe := isFrame_frameBeats (withFcs_ne_nil ds)
    have hlen : 5 ≤ (frameBeats (withFcs ds)).length := by
      rw [length_frameBeats, length_withFcs]
      omega
    -- the frame on the line is right, so that neither checker reports an error
    have hright : CRCChecker.FcsRight (frameBeats (withFcs ds)) := CRCChecker.fcsRight_frameBeats _
    obtain ⟨hoffered, htakes, hsource, hgives, hnext⟩ := Stage.Queueing.run_eq (A := P.line) (s := s.line) () s.ready
      hwait.shown
    have hpre := h.preambleError_eq j hok.1
    have hcrc := h.crcError_eq hq j hframe (by omega) hright hok.1 hbegin
    obtain ⟨p', w', b', ys', rest', hturn, hprog⟩ := h.cycle j hframe hok.1 hbegin
    rw [hoffered] at hpre hcrc
    rw [hnext] at hturn
    rw [hsource] at hprog
    have hready : s.txReady i = some (P.line.ready s.line () s.word s.ready) := by simp [State.txReady, heth]
    have hline : (s.next i).line = P.line.step s.line () s.word s.ready := by simp [State.next, heth]
    have hloads : r.takes j = s.loads i := by
      rw [htakes]
      unfold State.loads ClockDomainCrossing.gives
      rw [hready]
      rfl
    have hreturns : r.gives j = s.returns i := by
      rw [hgives]
      unfold State.returns ClockDomainCrossing.takes State.rxSink
      rw [if_pos heth]
      rfl
    have hmove := Stage.Run.arrives_held r j
    rw [hloads, hnext] at hmove
    rw [hreturns] at hturn
    rw [hloads, hreturns] at hprog
    refine ⟨?_, r.arrives j, _, xs', p', w', hcomes, hmove, hwait.next hcomes hmove fun x hx => ?_, ⟨b', ys', rest', ?_⟩,
      ?_, ?_, fun _ => hprog⟩
    · rw [hpre, hcrc]
      rfl
    · by_cases hr : P.line.ready s.line () s.word s.ready = true
      · rw [if_pos hr] at hx
        cases hx
      · rw [if_neg hr] at hx
        exact P.txCdc.stable _ _ _ _ hx (by rw [hready]; simpa using hr)
    · rw [hline]
      exact hturn
    · intro _ hh
      show (if held.isSome then none else s.word) = s.word
      rw [hh]
      rfl
    · rw [heth]
      exact nofun

/-- Nothing comes of nothing. -/
theorem line_quiet (hwait : Waiting s held []) (h : Under s held q [] [] [] w) (hq : Rest q) (i : In e ntxslots τ) :
    s.errors i = [] ∧ s.returns i = none ∧ ∃ held' w', Waiting (s.next i) held' (s.enters i).toList ∧
      Under (s.next i) held' q [] [] [] w' := by
  obtain ⟨herrors, a, held', xs', p', w', hstep⟩ := line_next [0] hwait h hq trivial List.nil_prefix i
  obtain ⟨ha, rfl⟩ := List.append_eq_nil_iff.1 hstep.comes.symm
  have hunder := hstep.under
  rw [ha, List.append_nil, List.nil_append] at hunder
  obtain ⟨b, ys, rest, hturn⟩ := hunder
  obtain ⟨hreturns, rfl⟩ := List.append_eq_nil_iff.1 hturn.given.symm
  rw [hreturns] at hturn
  exact ⟨herrors, Option.toList_eq_nil_iff.1 hreturns, held', w', hstep.waiting, b, ys, rest, hturn⟩

/-! ## The reader and the writer in a step -/

/-- What software does in a step is fair to the reader. -/
def Fair (s : State P) (i : In e ntxslots τ) : Prop := ∀ a, i.sys = some a → Reader.Fair s.reader (s.readerIn a)

variable {i : In e ntxslots τ} {c : Reader.Issued (wishboneParams ntxslots e)} {unsent : List (PhyBeat 32)}

theorem reader_idle (h : Reader.Idle s.reader) (hi : Fair s i) (hissue : s.issues i = none) :
    Reader.Idle (s.next i).reader ∧ s.enters i = none := by
  have hsource : s.reader.source = none := Reader.source_none (by rw [h.fsm]; exact nofun)
  unfold State.enters ClockDomainCrossing.takes State.txSink State.next
  unfold State.issues at hissue
  cases hsys : i.sys with
  | none => exact ⟨h, ite_self _⟩
  | some a =>
    rw [hsys] at hissue
    refine ⟨h.next (hi a hsys) hissue, ?_⟩
    rw [hsource]
    exact ite_self _

/-- A command is issued. -/
theorem reader_issue (h : Reader.Idle s.reader) (hi : Fair s i) (hissue : s.issues i = some c) :
    Reader.Sending (s.next i).reader c c.packet ∧ s.enters i = none := by
  have hsource : s.reader.source = none := Reader.source_none (by rw [h.fsm]; exact nofun)
  unfold State.enters ClockDomainCrossing.takes State.txSink State.next
  unfold State.issues at hissue
  cases hsys : i.sys with
  | none =>
    rw [hsys] at hissue
    cases hissue
  | some a =>
    rw [hsys] at hissue
    refine ⟨h.issue (hi a hsys) hissue, ?_⟩
    rw [hsource]
    exact ite_self _

theorem reader_next (h : Reader.Sending s.reader c unsent) (hc : c.Long) (hi : Fair s i) (hissue : s.issues i = none) :
    ∃ unsent', unsent = (s.enters i).toList ++ unsent' ∧ Reader.Sending (s.next i).reader c unsent' ∧
      (i.sys ≠ none → unsent' ≠ [] → (s.next i).reader.source ≠ none) ∧
      (i.sys ≠ none → unsent = [] → Reader.Idle (s.next i).reader) ∧
      (i.sys = none → (s.next i).reader = s.reader) := by
  unfold State.enters ClockDomainCrossing.takes State.txSink State.next
  unfold State.issues at hissue
  cases hsys : i.sys with
  | none =>
    refine ⟨unsent, ?_, h, fun h => absurd rfl h, fun h => absurd rfl h, fun _ => rfl⟩
    rw [show (if P.txCdc.ready s.txCdc then ((none : Option (Access e ntxslots τ)).map fun _ => s.reader.source).join
      else none) = none from ite_self _]
    rfl
  | some a =>
    rw [hsys] at hissue
    obtain ⟨unsent', h1, h2, h3, h4⟩ := h.next hc (hi a hsys) hissue
    exact ⟨unsent', h1, h2, fun _ => h3, fun _ => h4, nofun⟩

/-- A word of a packet, and the place of the mark. -/
theorem carries_at {ds : List (BitVec 8)} {D more : List (PhyBeat 32)} {x : PhyBeat 32}
    (h : Carries e ds (D ++ x :: more)) : (more ≠ [] ∧ x.last = false ∧ x.lastBe = 0) ∨
      (more = [] ∧ ∃ n < 4, x.last = true ∧ x.lastBe = mark e n ∧ x.error &&& x.lastBe = 0 ∧
        ds.length = 4 * D.length + (n + 1)) := by
  induction D generalizing ds with
  | nil =>
    generalize hpacket : ([] : List (PhyBeat 32)) ++ x :: more = packet at h
    cases h with
    | last n hn w hl hbe herr =>
      obtain ⟨rfl, rfl⟩ := List.cons.inj hpacket
      refine .inr ⟨rfl, n, hn, hl, hbe, herr, ?_⟩
      rw [List.length_take, length_dataBytes, List.length_nil]
      omega
    | word w hl hbe h =>
      obtain ⟨rfl, rfl⟩ := List.cons.inj hpacket
      exact .inl ⟨List.ne_nil_of_length_pos (by have := h.length; omega), hl, hbe⟩
  | cons a D ih =>
    generalize hpacket : a :: D ++ x :: more = packet at h
    cases h with
    | last => exact absurd (List.cons.inj hpacket).2 (by simp)
    | word w hl hbe h =>
      obtain ⟨rfl, rfl⟩ := List.cons.inj hpacket
      refine (ih h).imp_right fun ⟨hmore, n, hn, hlast, hmark, herr, hlen⟩ => ⟨hmore, n, hn, hlast, hmark, herr, ?_⟩
      rw [List.length_append, length_dataBytes, hlen, List.length_cons]
      omega

/-- The register of the slot, and no error so far. -/
def AtSlot (s : State P) (n : ℕ) : Prop := s.writer.slot = n ∧ s.writer.errors = 0

theorem writer_gap {D : List (PhyBeat 32)} {n : ℕ} (h : Writer.Storing s.writer D) (hs : AtSlot s n)
    (hleaves : s.leaves i = none) : Writer.Storing (s.next i).writer D ∧ AtSlot (s.next i) n := by
  unfold AtSlot State.next
  unfold State.leaves ClockDomainCrossing.gives State.rxReady at hleaves
  cases hsys : i.sys with
  | none => exact ⟨h, hs⟩
  | some a =>
    rw [hsys] at hleaves
    obtain ⟨h1, h2, h3⟩ := h.gap (i := s.writerIn a) hleaves
    exact ⟨h1, h2.trans hs.1, h3.trans hs.2⟩

theorem sys_of_leaves {x : PhyBeat 32} (hleaves : s.leaves i = some x) :
    ∃ a, i.sys = some a ∧ (s.writerIn a).sink = some x := by
  unfold State.leaves ClockDomainCrossing.gives State.rxReady at hleaves
  cases hsys : i.sys with
  | none =>
    rw [hsys] at hleaves
    cases hleaves
  | some a =>
    rw [hsys] at hleaves
    exact ⟨a, rfl, hleaves⟩

/-- The writer in a step: it has stored `D` of a packet. -/
theorem writer_next {ds : List (BitVec 8)} {D more : List (PhyBeat 32)} {n : ℕ} (hn : 0 < nrxslots)
    (hds : Carries e ds (D ++ ((s.leaves i).toList ++ more))) (hlong : 5 ≤ ds.length) (hlen : ds.length ≤ 1528)
    (h : Writer.Storing s.writer D) (hs : AtSlot s n) : AtSlot (s.next i) n ∧
      ((s.leaves i ≠ none ∧ more = [] ∧ Writer.Stored (s.next i).writer ds) ∨
        ((s.leaves i ≠ none → more ≠ []) ∧ Writer.Storing (s.next i).writer (D ++ (s.leaves i).toList))) := by
  cases hleaves : s.leaves i with
  | none =>
    obtain ⟨h1, h2⟩ := writer_gap h hs hleaves
    refine ⟨h2, .inr ⟨fun hne => absurd rfl hne, ?_⟩⟩
    rw [Option.toList_none, List.append_nil]
    exact h1
  | some x =>
    rw [hleaves, Option.toList_some, List.singleton_append] at hds
    obtain ⟨a, hsys, hsink⟩ := sys_of_leaves hleaves
    have hwriter : (s.next i).writer = s.writer.next (s.writerIn a) := by
      unfold State.next
      rw [hsys]
      rfl
    have hwords := hds.length.2
    rw [List.length_append, List.length_cons] at hwords
    unfold AtSlot
    rw [hwriter, Option.toList_some]
    -- a word inside the frame is stored; the last one closes the slot
    rcases carries_at hds with ⟨hmore, hl, hbe⟩ | ⟨rfl, m, hm, hl, hbe, herr, hlength⟩
    · obtain ⟨h1, h2, h3⟩ := h.word hn (by omega) hsink hl hbe
      exact ⟨⟨h2.trans hs.1, h3.trans hs.2⟩, .inr ⟨fun _ => hmore, h1⟩⟩
    · have hD : D ≠ [] := List.ne_nil_of_length_pos (by omega)
      obtain ⟨h1, h2, h3⟩ := h.last hD (by omega) hsink hm hl hbe herr hds hlength
      exact ⟨⟨h2.trans hs.1, h3.trans hs.2⟩, .inl ⟨nofun, rfl, h1⟩⟩

/-! ## A packet and what is made of it -/

theorem length_bytes (hc : c.Proper) : c.bytes.length ≤ 1528 := by
  unfold Reader.Issued.bytes
  rw [length_slotData]
  exact hc.length_le

theorem packet_carries (hc : c.Proper) : Carries e c.bytes c.packet := c.carries hc.length_pos

theorem packet_makes (hc : c.Proper) : (sent e).Makes c.packet (frameBeats (withFcs c.bytes)) :=
  sent_makes (packet_carries hc) Reader.Issued.error_packet ((length_bytes hc).trans (by decide))

theorem made_append (q : (received e).State) (as bs : List (PhyBeat 32)) : made q as <+: made q (as ++ bs) :=
  ⟨_, (Transducer.outs_append _ _ _ _).symm⟩

/-- The padded packet is made. -/
theorem made_carries (hc : c.Proper) (hq : Rest q) :
    Rest ((received e).run q (frameBeats (withFcs c.bytes))) ∧ Carries e (Transmit.padded c.bytes) (made q c.packet) := by
  rw [made_eq, (packet_makes hc).outs]
  exact received_frame hq (by
    rw [length_padded]
    omega)

/-- The last word is not made before all words of the packet have come. -/
theorem all_arrived (hc : c.Proper) (hq : Rest q) (hpacket : c.packet = as ++ xs) (hmade : made q as = made q c.packet) :
    xs = [] := by
  cases xs with
  | nil => rfl
  | cons x xs =>
    have hmakes := (packet_makes hc).outs
    have herror := Reader.Issued.error_packet (q := c)
    have hcarries := packet_carries hc
    rw [hpacket] at hcarries herror hmakes hmade
    have hopen := sent_open hcarries herror ((length_bytes hc).trans (by decide))
    rw [Transducer.outs_append] at hmakes
    refine absurd ?_ (received_last hq (isFrame_frameBeats (withFcs_ne_nil c.bytes)) ?_ hmakes.symm fun hnil => hopen ?_)
    · rw [made_eq, made_eq, Transducer.outs_append, Transducer.outs_append] at hmade
      exact List.append_right_eq_self.1 hmade.symm
    · rw [length_frameBeats, length_withFcs]
      omega
    · rw [← hmakes, hnil, List.append_nil]

/-! ## One transmission -/

/-- Nothing is under way. The line may still show the last word of a packet as not taken. -/
structure Still (s : State P) (held : Option (PhyBeat 32)) (q : (received e).State) : Prop where
  reader : Reader.Idle s.reader
  waiting : Waiting s held []
  under : ∃ w, Under s held q [] [] [] w
  rest : Rest q
  returned : P.rxCdc.contents s.rxCdc = []

/-- The words of a packet, by the place where they are, and the words that are made of it. -/
@[ext] structure Places where
  unsent : List (PhyBeat 32)
  crossing : List (PhyBeat 32)
  arrived : List (PhyBeat 32)
  held : Option (PhyBeat 32)
  pending : List (PhyBeat 32)
  left : List (PhyBeat 32)
  returning : List (PhyBeat 32)
  stored : List (PhyBeat 32)

/-- The moves that are to come. -/
def Places.work (v : Places) : ℕ :=
  3 * v.unsent.length + 2 * v.crossing.length + v.held.toList.length + 2 * v.left.length + v.returning.length

/-- In a step a word may go on from each place to the next one. -/
structure Places.Step (v v' : Places) (enters comes loads returns leaves : Option (PhyBeat 32)) : Prop where
  unsent : v.unsent = enters.toList ++ v'.unsent
  crossing : v.crossing ++ enters.toList = comes.toList ++ v'.crossing
  arrived : v'.arrived = v.arrived ++ comes.toList
  held : v.held.toList ++ comes.toList = loads.toList ++ v'.held.toList
  pending : comes = none → returns = none → v'.pending = v.pending
  left : v.left = returns.toList ++ v'.left
  returning : v.returning ++ returns.toList = leaves.toList ++ v'.returning
  stored : v'.stored = v.stored ++ leaves.toList

theorem toList_inj {α : Type} {a b : Option α} (h : a.toList = b.toList) : a = b := by
  cases a <;> cases b <;> simp_all

/-- There are fewer moves to come, or nothing has moved. -/
theorem Places.Step.work {v v' : Places} {enters comes loads returns leaves : Option (PhyBeat 32)}
    (h : Places.Step v v' enters comes loads returns leaves) : v'.work < v.work ∨
      (v' = v ∧ enters = none ∧ comes = none ∧ loads = none ∧ returns = none ∧ leaves = none) := by
  by_cases hnone : enters = none ∧ comes = none ∧ loads = none ∧ returns = none ∧ leaves = none
  · obtain ⟨hunsent, hcrossing, harrived, hheld, hpending, hleft, hreturning, hstored⟩ := h
    refine .inr ⟨?_, hnone⟩
    obtain ⟨rfl, rfl, rfl, rfl, rfl⟩ := hnone
    simp only [Option.toList_none, List.append_nil, List.nil_append] at *
    exact Places.ext hunsent.symm hcrossing.symm harrived (toList_inj hheld.symm) (hpending trivial trivial) hleft.symm
      hreturning.symm hstored
  · have hunsent := congrArg List.length h.unsent
    have hcrossing := congrArg List.length h.crossing
    have hheld := congrArg List.length h.held
    have hleft := congrArg List.length h.left
    have hreturning := congrArg List.length h.returning
    simp only [List.length_append] at hunsent hcrossing hheld hleft hreturning
    have hmoves : 0 < enters.toList.length + comes.toList.length + loads.toList.length + returns.toList.length +
        leaves.toList.length := by
      by_contra hzero
      refine hnone ⟨?_, ?_, ?_, ?_, ?_⟩ <;> exact Option.toList_eq_nil_iff.1 (List.length_eq_zero_iff.1 (by omega))
    unfold Places.work
    exact .inl (by omega)

/-- The packet of the command `c` is under way. -/
structure Flying (s : State P) (c : Reader.Issued (wishboneParams ntxslots e)) (q : (received e).State) (v : Places)
    (w : ((sends P.converters P.txBuffer P.rxBuffer).andThen (receives P.converters P.crcFifo).sim).W) : Prop where
  reader : Reader.Sending s.reader c v.unsent
  waiting : Waiting s v.held v.crossing
  packet : c.packet = v.arrived ++ (v.crossing ++ v.unsent)
  under : Under s v.held q v.arrived (v.stored ++ v.returning) v.pending w
  rest : Rest q
  returning : P.rxCdc.contents s.rxCdc = v.returning
  whole : made q c.packet = v.stored ++ (v.returning ++ v.left)
  writer : Writer.Storing s.writer v.stored
  «open» : v.returning ++ v.left ≠ []

/-- Nothing moves in a step. -/
structure Stuck (s : State P) (i : In e ntxslots τ) (v : Places)
    (w w' : ((sends P.converters P.txBuffer P.rxBuffer).andThen (receives P.converters P.crcFifo).sim).W) : Prop where
  enters : s.enters i = none
  loads : s.loads i = none
  returns : s.returns i = none
  leaves : s.leaves i = none
  shown : i.eth = true → v.held = none → s.word = none
  keeps : i.eth = false → w' = w
  progress : i.eth = true → (v.held = none ∧ v.pending = [] ∧ w' ≤ w) ∨
    (P.line.source s.line () s.word ≠ none ∧ s.ready = false) ∨ w' < w
  reads : i.sys ≠ none → v.unsent ≠ [] → (s.next i).reader.source ≠ none
  waits : i.sys = none → (s.next i).reader = s.reader

/-- Nothing moves behind the reader. -/
theorem Still.moves (h : Still s held q) (i : In e ntxslots τ) : s.errors i = [] ∧ s.leaves i = none ∧
    P.rxCdc.contents (s.next i).rxCdc = [] ∧ ∃ held' w', Waiting (s.next i) held' (s.enters i).toList ∧
      Under (s.next i) held' q [] [] [] w' := by
  obtain ⟨w, hunder⟩ := h.under
  obtain ⟨herrors, hreturns, hline⟩ := line_quiet h.waiting hunder h.rest i
  have hmove := P.rxCdc.contents_next s.rxCdc (s.rxSink i) (State.rxReady i)
  unfold State.returns at hreturns
  rw [h.returned, hreturns] at hmove
  obtain ⟨hleaves, hcontents⟩ := List.append_eq_nil_iff.1 hmove.symm
  exact ⟨herrors, Option.toList_eq_nil_iff.1 hleaves, hcontents, hline⟩

/-- A step in which nothing is issued. -/
theorem Still.next (h : Still s held q) (hi : Fair s i) (hissue : s.issues i = none) :
    s.errors i = [] ∧ s.leaves i = none ∧ ∃ held', Still (s.next i) held' q := by
  obtain ⟨herrors, hleaves, hcontents, held', w', hwaiting, hunder⟩ := h.moves i
  obtain ⟨hidle, henters⟩ := reader_idle h.reader hi hissue
  rw [henters] at hwaiting
  exact ⟨herrors, hleaves, held', hidle, hwaiting, ⟨w', hunder⟩, h.rest, hcontents⟩

/-- A step in which a command is issued. -/
theorem Still.issue (h : Still s held q) (hw : Writer.Storing s.writer []) {n : ℕ} (hs : AtSlot s n) (hi : Fair s i)
    (hc : c.Proper) (hissue : s.issues i = some c) :
    s.errors i = [] ∧ AtSlot (s.next i) n ∧ ∃ v w, Flying (s.next i) c q v w := by
  obtain ⟨herrors, hleaves, hcontents, held', w', hwaiting, hunder⟩ := h.moves i
  obtain ⟨hsending, henters⟩ := reader_issue h.reader hi hissue
  rw [henters] at hwaiting
  obtain ⟨hwriter, hslot⟩ := writer_gap hw hs hleaves
  have hlen := (made_carries hc h.rest).2.length
  refine ⟨herrors, hslot, ⟨c.packet, [], [], held', [], made q c.packet, [], []⟩, w', hsending, hwaiting, rfl, hunder,
    h.rest, hcontents, rfl, hwriter, List.ne_nil_of_length_pos ?_⟩
  show 0 < (made q c.packet).length
  omega

variable {v : Places}

/-- When nothing is left to be given, nothing is left of the packet before the crossing from the line. -/
theorem Flying.all_given (h : Flying s c q v w) (hc : c.Proper) (hleft : v.left = []) : v.crossing = [] ∧ v.unsent = [] ∧
    Under s v.held ((received e).run q (frameBeats (withFcs c.bytes))) [] [] [] w := by
  obtain ⟨b, ys, rest, hturn⟩ := h.under
  have hgiven := hturn.given
  have hwhole := h.whole
  rw [hleft, List.append_nil] at hwhole
  obtain ⟨rest', hsplit⟩ := made_append q v.arrived (v.crossing ++ v.unsent)
  rw [← h.packet, hwhole, hgiven, List.append_assoc] at hsplit
  have hpending := (List.append_eq_nil_iff.1 (List.append_right_eq_self.1 hsplit)).1
  rw [hpending, List.append_nil] at hgiven
  have hall := all_arrived hc h.rest h.packet (hgiven.trans hwhole.symm)
  obtain ⟨hcrossing, hunsent⟩ := List.append_eq_nil_iff.1 hall
  have hmakes := packet_makes hc
  rw [h.packet, hall, List.append_nil] at hmakes
  rw [hpending] at hturn
  refine ⟨hcrossing, hunsent, _, _, _, hturn.again h.rest (isFrame_frameBeats (withFcs_ne_nil c.bytes)) ?_ hmakes⟩
  rw [length_frameBeats, length_withFcs]
  omega

/-- The step in which the writer takes the last word. -/
theorem Flying.last (h : Flying s c q v w) (hc : c.Proper) (hlong : c.Long) (hi : Fair s i) (hissue : s.issues i = none)
    (hleaves : s.leaves i ≠ none) (hleft : v.left = []) (hreturned : P.rxCdc.contents (s.next i).rxCdc = []) :
    ∃ held' q', Still (s.next i) held' q' := by
  obtain ⟨x, hx⟩ := Option.ne_none_iff_exists'.1 hleaves
  obtain ⟨a, hsys, -⟩ := sys_of_leaves hx
  obtain ⟨hcrossing, hunsent, hunder⟩ := h.all_given hc hleft
  have hwaiting := h.waiting
  rw [hcrossing] at hwaiting
  have hrest := (made_carries hc h.rest).1
  obtain ⟨-, -, held', w', hwaiting', hunder'⟩ := line_quiet hwaiting hunder hrest i
  obtain ⟨unsent', henters, -, -, hidle, -⟩ := reader_next h.reader hlong hi hissue
  rw [hunsent] at henters
  obtain ⟨henters, -⟩ := List.append_eq_nil_iff.1 henters.symm
  rw [henters] at hwaiting'
  exact ⟨held', _, hidle (by rw [hsys]; exact nofun) hunsent, hwaiting', ⟨w', hunder'⟩, hrest, hreturned⟩

/-- A step. -/
theorem Flying.next (h : Flying s c q v w) (hn : 0 < nrxslots) {n : ℕ} (hs : AtSlot s n) (hc : c.Proper) (hlong : c.Long)
    (hi : Fair s i) (hissue : s.issues i = none) : s.errors i = [] ∧ AtSlot (s.next i) n ∧
      ((Writer.Stored (s.next i).writer (Transmit.padded c.bytes) ∧ ∃ held' q', Still (s.next i) held' q') ∨
        ∃ v' w', Flying (s.next i) c q v' w' ∧ (v'.work < v.work ∨ v' = v ∧ Stuck s i v w w')) := by
  have hmakes := packet_makes hc
  rw [h.packet, ← List.append_assoc] at hmakes
  obtain ⟨hok, -⟩ := (Transducer.oks_append _ _ _ _).1 hmakes.ok
  have hbegin : (sent e).outs (sent e).init (v.arrived ++ v.crossing) <+: frameBeats (withFcs c.bytes) :=
    ⟨_, by rw [← Transducer.outs_append, hmakes.outs]⟩
  obtain ⟨unsent', hsend, hreader, hreads, -, hwaits⟩ := reader_next h.reader hlong hi hissue
  obtain ⟨herrors, a, held', xs', p', w', hline⟩ := line_next c.bytes h.waiting h.under h.rest hok hbegin i
  obtain ⟨b, ys, rest, hturn⟩ := hline.under
  have hmove : v.returning ++ (s.returns i).toList = (s.leaves i).toList ++ P.rxCdc.contents (s.next i).rxCdc := by
    rw [← h.returning]
    exact P.rxCdc.contents_next s.rxCdc (s.rxSink i) (State.rxReady i)
  have hpacket : c.packet = (v.arrived ++ a.toList) ++ ((xs' ++ (s.enters i).toList) ++ unsent') := by
    rw [h.packet, hline.comes, hsend]
    simp only [List.append_assoc]
  -- what is left to be given, now and then
  obtain ⟨left', hleft⟩ : ∃ left', v.left = (s.returns i).toList ++ (p' ++ left') := by
    obtain ⟨left', hwhole⟩ := made_append q (v.arrived ++ a.toList) ((xs' ++ (s.enters i).toList) ++ unsent')
    rw [← hpacket, h.whole, hturn.given, ← List.append_assoc, List.append_assoc, List.append_assoc] at hwhole
    exact ⟨left', (List.append_cancel_left hwhole).symm⟩
  have hwhole : made q c.packet = v.stored ++ ((s.leaves i).toList ++
      (P.rxCdc.contents (s.next i).rxCdc ++ (p' ++ left'))) := by
    rw [h.whole, hleft, ← List.append_assoc v.returning, hmove, List.append_assoc]
  have hcarries := (made_carries hc h.rest).2
  rw [hwhole] at hcarries
  have hlength := length_bytes hc
  obtain ⟨hslot, hwriter⟩ := writer_next hn hcarries (by rw [length_padded]; omega) (by rw [length_padded]; omega)
    h.writer hs
  refine ⟨herrors, hslot, hwriter.imp (fun ⟨hleaves, hmore, hstored⟩ => ⟨hstored, ?_⟩) fun ⟨hopen, hstoring⟩ => ?_⟩
  · obtain ⟨hreturned, hnone⟩ := List.append_eq_nil_iff.1 hmore
    obtain ⟨x, hx⟩ := Option.ne_none_iff_exists'.1 hleaves
    obtain ⟨xs, hxs⟩ := P.rxCdc.contents_of_gives hx
    rw [← h.returning, hxs, hreturned, hx] at hmove
    have hreturns := (List.append_eq_nil_iff.1 (List.cons.inj hmove).2).2
    rw [hreturns, hnone] at hleft
    exact h.last hc hlong hi hissue hleaves hleft hreturned
  · let v' : Places := ⟨unsent', xs' ++ (s.enters i).toList, v.arrived ++ a.toList, held', p', p' ++ left',
      P.rxCdc.contents (s.next i).rxCdc, v.stored ++ (s.leaves i).toList⟩
    have hgiven : v'.stored ++ v'.returning = v.stored ++ v.returning ++ (s.returns i).toList := by
      rw [List.append_assoc, List.append_assoc, hmove]
    have hflying : Flying (s.next i) c q v' w' := by
      refine ⟨hreader, hline.waiting, hpacket, ?_, h.rest, rfl, ?_, hstoring, ?_⟩
      · rw [hgiven]
        exact hline.under
      · rw [hwhole, List.append_assoc]
      · by_cases hleaves : s.leaves i = none
        · have hne := h.open
          rw [hleft, ← List.append_assoc, hmove, hleaves] at hne
          exact hne
        · exact hopen hleaves
    have hstep : Places.Step v v' (s.enters i) a (s.loads i) (s.returns i) (s.leaves i) := by
      refine ⟨hsend, ?_, rfl, hline.loads, fun ha hr => ?_, hleft, hmove, rfl⟩
      · rw [hline.comes, List.append_assoc]
      · obtain ⟨_, _, _, hbefore⟩ := h.under
        have hgiven := hturn.given
        rw [ha, hr, Option.toList_none, List.append_nil, List.append_nil, hbefore.given] at hgiven
        exact (List.append_cancel_left hgiven).symm
    refine ⟨v', w', hflying, hstep.work.imp_right fun ⟨heq, henters, ha, hloads, hreturns, hleaves⟩ => ⟨heq, henters,
      hloads, hreturns, hleaves, fun heth hheld => ?_, hline.keeps, fun heth => hline.progress heth ha hloads hreturns,
      fun hsys hne => hreads hsys ?_, hwaits⟩⟩
    · rw [← hline.shown heth hheld, ha]
    · rw [← heq] at hne
      exact hne

end LiteEth.Mac.Loopback
