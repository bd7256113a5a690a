/-
The transmit pipeline of `mac/core.py` for a core of 32 bits, behind its clock domain crossing, with the PHY looped back:
up to the sink of the CRC checker. A packet of words comes there as the frame of its bytes, padded and with its FCS.
-/
import LiteEth.Mac.LastBe
import LiteEth.Mac.Receive
import LiteEth.Mac.Transmit

namespace LiteEth.Mac.Line

open LiteEth.Rtl Converter

variable {e : Endianness} (C : Converters e) (txBuffer rxBuffer : Fifo (fun _ : Unit => True) (PhyBeat 8))

/-- `tx_pipeline` up to the PHY. -/
abbrev transmitter : Stage Unit (PhyBeat 32) (PhyBeat 8) :=
  ((((C.tx.andThen txLastBE).andThen (paddingInserter 8 60 txBuffer)).andThen (crc32Inserter 8)).andThen
    (preambleInserter 8)).andThen (gapInserter 8)

/-- The PHY is looped back, up to the buffer at the sink of the CRC checker. -/
abbrev looped : Stage Unit (PhyBeat 32) (PhyBeat 8) :=
  ((transmitter C txBuffer).andThen preambleChecker).andThen rxBuffer.stage

/-- What is made of the words on the way to the PHY. -/
abbrev transmitted (e : Endianness) : Transducer (PhyBeat 32) (PhyBeat 8) :=
  (((((split e).andThen TxLastBE.truncates).andThen (PaddingInserter.padded 8 60)).andThen CRCInserter.appended).andThen
    PreambleInserter.prepended).andThen (Fifo.same _)

/-- What comes to the CRC checker. -/
abbrev sent (e : Endianness) : Transducer (PhyBeat 32) (PhyBeat 8) :=
  ((transmitted e).andThen PreambleChecker.checked).andThen (Fifo.same _)

theorem paddingLimit_lt : PaddingInserter.paddingLimit 8 60 < 2 ^ 16 := by decide

theorem gap_pos : 0 < Gap.gap 8 := by decide

/-- The transmitter gives what follows of the packets. -/
def transmits : Stage.Sim (fun _ => True) (transmitter C txBuffer) (transmitted e) :=
  ((((C.splits.andThen (TxLastBE.follows _).sim).andThen (PaddingInserter.pads txBuffer paddingLimit_lt).sim).andThen
    (CRCInserter.appends _).sim).andThen (PreambleInserter.prepends _)).andThen (Gap.passes _ gap_pos).sim

/-- The loop makes that of its words. -/
def sends : Stage.Sim (fun _ => True) (looped C txBuffer rxBuffer) (sent e) :=
  ((transmits C txBuffer).andThen (PreambleChecker.checks _).sim).andThen rxBuffer.passes.sim

/-! ## The bytes of a packet -/

/-- A byte of a word, as it is sent. -/
theorem copied_byteOf {w : PhyBeat 32} (herr : w.error = 0) (l : ℕ) (last : Bool) : TxLastBE.copied (byteOf w l last) =
    ⟨w.data.extractLsb' (8 * l) 8, 0, 0, w.lastBe.extractLsb' l 1 == 1⟩ := by
  have hzero : w.error.extractLsb' l 1 = 0 := by
    rw [herr]
    exact BitVec.extractLsb'_zero
  unfold TxLastBE.copied byteOf
  rw [hzero]

theorem frameBeats_append (as : List (BitVec 8)) {ds : List (BitVec 8)} (h : ds ≠ []) :
    frameBeats (as ++ ds) = as.map (fun d => ⟨d, 0, 0, false⟩) ++ frameBeats ds := by
  unfold frameBeats
  rw [marked_append _ h, List.map_append, List.map_map]
  rfl

theorem frameBeats_singleton (d : BitVec 8) : frameBeats [d] = [⟨d, 0, 0, true⟩] := rfl

/-- The last word of a packet is sent up to its mark. -/
theorem truncated_last {n : ℕ} (hn : n < 4) {w : PhyBeat 32} (hbe : w.lastBe = mark e n) (herr : w.error = 0) :
    TxLastBE.Ended (bytesOf e w) ∧ TxLastBE.truncated (bytesOf e w) = frameBeats ((dataBytes e w.data).take (n + 1)) := by
  -- only the n-th byte of the word carries the mark
  have hmark : ∀ k < 4, ∀ l, (byteOf w (lane e k) l).lastBe = if n = k then 1 else 0 := fun k hk l => by
    show w.lastBe.extractLsb' _ 1 = _
    rw [hbe, extract_mark e hn hk]
  have hbegin : (bytesOf e w).take n = (List.range n).map fun k => byteOf w (lane e k) (w.last && k == 3) := by
    unfold bytesOf
    rw [← List.map_take, List.take_range, Nat.min_eq_left hn.le]
  -- so that the bytes before it do not end the packet
  have hopen : ¬ TxLastBE.Ended ((bytesOf e w).take n) := by
    rintro ⟨b, hb, h1⟩
    rw [hbegin] at hb
    obtain ⟨k, hk, rfl⟩ := List.mem_map.1 hb
    have hkn := List.mem_range.1 hk
    rw [hmark k (hkn.trans hn), if_neg (by omega)] at h1
    cases h1
  have hlast := hmark n hn (w.last && n == 3)
  rw [if_pos rfl] at hlast
  have hsplit := List.take_append_drop n (bytesOf e w)
  rw [bytesOf_drop w hn] at hsplit
  refine ⟨⟨_, hsplit ▸ List.mem_append_right _ List.mem_cons_self, hlast⟩, ?_⟩
  -- cut behind the mark, the word gives the bytes that it marks
  have hdata : (dataBytes e w.data).take (n + 1) =
      ((List.range n).map fun k => w.data.extractLsb' (8 * lane e k) 8) ++ [w.data.extractLsb' (8 * lane e n) 8] := by
    unfold dataBytes
    rw [← List.map_take, List.take_range, Nat.min_eq_left hn, List.range_succ, List.map_append, List.map_singleton]
  unfold TxLastBE.truncated
  rw [← hsplit, TxLastBE.upToLastBe_open hopen, TxLastBE.upToLastBe, if_pos hlast, hbegin, List.map_append,
    List.map_singleton, List.map_map, hdata, frameBeats_append _ (List.cons_ne_nil _ _), frameBeats_singleton,
    copied_byteOf herr, List.map_map]
  congr 1
  · refine List.map_congr_left fun k hk => ?_
    have hkn := List.mem_range.1 hk
    have hbit := hmark k (hkn.trans hn) (w.last && k == 3)
    rw [if_neg (by omega)] at hbit
    refine (copied_byteOf herr _ _).trans ?_
    rw [show w.lastBe.extractLsb' (lane e k) 1 = 0 from hbit]
    rfl
  · rw [show w.lastBe.extractLsb' (lane e n) 1 = 1 from hlast]
    rfl

/-- A word inside a packet is sent whole. -/
theorem truncated_word {w : PhyBeat 32} (hbe : w.lastBe = 0) (herr : w.error = 0) : ¬ TxLastBE.Ended (bytesOf e w) ∧
    (bytesOf e w).map TxLastBE.copied = (dataBytes e w.data).map fun d => ⟨d, 0, 0, false⟩ := by
  have hzero : ∀ l, w.lastBe.extractLsb' l 1 = 0 := fun l => by
    rw [hbe]
    exact BitVec.extractLsb'_zero
  constructor
  · rintro ⟨b, hb, h1⟩
    obtain ⟨k, -, rfl⟩ := List.mem_map.1 hb
    rw [show (byteOf w (lane e k) _).lastBe = 0 from hzero _] at h1
    cases h1
  · unfold bytesOf dataBytes
    rw [List.map_map, List.map_map]
    refine List.map_congr_left fun k _ => (copied_byteOf herr _ _).trans ?_
    rw [hzero]
    rfl

/-- The bytes of a word that is the last, or not. -/
theorem isFrame_bytesOf {w : PhyBeat 32} (hl : w.last = true) : IsFrame (·.last) (bytesOf e w) := by
  have hsplit : bytesOf e w = ((List.range 3).map fun k => byteOf w (lane e k) (w.last && k == 3)) ++
      [byteOf w (lane e 3) (w.last && 3 == 3)] := rfl
  rw [hsplit]
  refine .mk _ _ (fun b hb => ?_) ?_
  · obtain ⟨k, hk, rfl⟩ := List.mem_map.1 hb
    have hne : (k == 3) = false := beq_false_of_ne (List.mem_range.1 hk).ne
    show (w.last && k == 3) = false
    rw [hne, Bool.and_false]
  · show (w.last && 3 == 3) = true
    rw [hl]
    rfl

theorem last_bytesOf {w : PhyBeat 32} (hl : w.last = false) : ∀ b ∈ bytesOf e w, b.last = false := by
  intro b hb
  obtain ⟨k, -, rfl⟩ := List.mem_map.1 hb
  show (w.last && k == 3) = false
  rw [hl, Bool.false_and]

theorem isFrame_append {f m : List (PhyBeat 8)} (hf : IsFrame (·.last) f) (hm : ∀ b ∈ m, b.last = false) :
    IsFrame (·.last) (m ++ f) := by
  obtain ⟨n, l, hn, hl⟩ := hf
  rw [← List.append_assoc]
  exact .mk _ l (fun b hb => (List.mem_append.1 hb).elim (hm b) (hn b)) hl

/-- The words of a packet are sent as the frame of its bytes. -/
theorem truncated_split {ds : List (BitVec 8)} {ws : List (PhyBeat 32)} (h : Carries e ds ws)
    (herr : ∀ w ∈ ws, w.error = 0) : TxLastBE.Ended (ws.flatMap (bytesOf e)) ∧ IsFrame (·.last) (ws.flatMap (bytesOf e)) ∧
      TxLastBE.truncated (ws.flatMap (bytesOf e)) = frameBeats ds := by
  induction h with
  | last n hn w hl hbe _ =>
    obtain ⟨h1, h2⟩ := truncated_last hn hbe (herr w List.mem_cons_self)
    rw [List.flatMap_singleton]
    exact ⟨h1, isFrame_bytesOf hl, h2⟩
  | word w hl hbe h ih =>
    obtain ⟨⟨b, hb, hmark⟩, hframe, htrunc⟩ := ih fun x hx => herr x (List.mem_cons_of_mem w hx)
    obtain ⟨h1, h2⟩ := truncated_word (e := e) hbe (herr w List.mem_cons_self)
    rw [List.flatMap_cons]
    refine ⟨⟨b, List.mem_append_right _ hb, hmark⟩, isFrame_append hframe (last_bytesOf hl), ?_⟩
    unfold TxLastBE.truncated at htrunc ⊢
    rw [TxLastBE.upToLastBe_open h1, List.map_append, h2, htrunc,
      frameBeats_append _ (List.ne_nil_of_length_pos h.length.1)]

/-! ## The frame of a packet -/

theorem truncates_makes {f : List (PhyBeat 8)} (hf : IsFrame (·.last) f) :
    TxLastBE.truncates.Makes f (TxLastBE.truncated f) := by
  have hframes := frames_of_frames (fun b : PhyBeat 8 => b.last) (m := [])
    (fun g (hg : g ∈ [f]) => List.mem_singleton.1 hg ▸ hf) nofun
  rw [List.flatten_singleton, List.append_nil] at hframes
  obtain ⟨hrun, houts⟩ := TxLastBE.truncates_eq f
  rw [packets, hframes] at houts
  rw [hframes] at hrun
  refine ⟨TxLastBE.truncates_oks _ f, hrun, houts.trans ?_⟩
  rw [List.flatMap_append, List.flatMap_singleton, List.flatMap_singleton]
  exact List.append_nil _

/-- A transducer that makes a frame of plain beats of one makes that of its bytes. -/
theorem makes_frameBeats {T : Transducer (PhyBeat 8) (PhyBeat 8)} {ds ds' : List (BitVec 8)}
    (hok : T.Oks T.init (frameBeats ds)) (hplain : ∀ q a, PhyBeat.Plain a → ∀ b ∈ T.out q a, PhyBeat.Plain b)
    (h : IsFrame (·.last) (T.outs T.init (frameBeats ds)) ∧ T.run T.init (frameBeats ds) = T.init ∧
      (T.outs T.init (frameBeats ds)).map (·.data) = ds') : T.Makes (frameBeats ds) (frameBeats ds') := by
  obtain ⟨hframe, hrun, rfl⟩ := h
  exact ⟨hok, hrun, eq_frameBeats hframe (outs_forall T hplain (plain_frameBeats ds) _)⟩

theorem plain_fill (n : ℕ) : ∀ b ∈ PaddingInserter.fill 8 n, PhyBeat.Plain b := by
  induction n with
  | zero => exact nofun
  | succ n ih => exact List.forall_mem_cons.2 ⟨⟨rfl, rfl⟩, ih⟩

theorem padded_makes {ds : List (BitVec 8)} (h : ds ≠ []) (hlen : ds.length ≤ 2 ^ 16) :
    (PaddingInserter.padded 8 60).Makes (frameBeats ds) (frameBeats (Transmit.padded ds)) := by
  have hframe := isFrame_frameBeats h
  refine makes_frameBeats (PaddingInserter.oks_frame 60 hframe (by rwa [length_frameBeats])) (fun k b hb x hx => ?_) ?_
  · have hx' : x ∈ if b.last && decide (k < PaddingInserter.paddingLimit 8 60) then
        { b with last := false } :: PaddingInserter.fill 8 (PaddingInserter.paddingLimit 8 60 - k) else [b] := hx
    split_ifs at hx'
    · rcases List.mem_cons.1 hx' with rfl | hx'
      · exact hb
      · exact plain_fill _ x hx'
    · rwa [List.mem_singleton.1 hx']
  · have hpad := PaddingInserter.padded_frame 60 hframe
    rw [data_frameBeats, length_frameBeats] at hpad
    exact hpad

theorem appended_makes {ds : List (BitVec 8)} (h : ds ≠ []) :
    CRCInserter.appended.Makes (frameBeats ds) (frameBeats (ds ++ splitBytes (crc32 ds) 4)) := by
  refine makes_frameBeats (CRCInserter.appended.oks_of_forall (fun _ _ => trivial) _ _) (fun m b hb x hx => ?_) ?_
  · have hx' : x ∈ { b with last := false } :: if b.last then CRCInserter.tail (m ++ [b.data]) 4 else [] := hx
    rcases List.mem_cons.1 hx' with rfl | hx'
    · exact hb
    · split_ifs at hx'
      · simp only [CRCInserter.tail, List.mem_cons, List.not_mem_nil, or_false] at hx'
        rcases hx' with rfl | rfl | rfl | rfl <;> exact ⟨rfl, rfl⟩
      · cases hx'
  · have hcrc := CRCInserter.appended_frame (isFrame_frameBeats h)
    rw [data_frameBeats] at hcrc
    exact hcrc

theorem prepended_makes {ds : List (BitVec 8)} (h : ds ≠ []) : PreambleInserter.prepended.Makes (frameBeats ds)
    (frameBeats (PreambleInserter.preambleBytes ++ ds)) := by
  refine makes_frameBeats (PreambleInserter.prepended.oks_of_forall (fun _ _ => trivial) _ _) (fun q b hb x hx => ?_) ?_
  · have hx' : x ∈ if q then [b] else PreambleInserter.preambleBeats b ++ [b] := hx
    split_ifs at hx'
    · rwa [List.mem_singleton.1 hx']
    · rcases List.mem_append.1 hx' with hx' | hx'
      · obtain ⟨k, -, rfl⟩ := List.mem_map.1 hx'
        exact ⟨hb.1, rfl⟩
      · rwa [List.mem_singleton.1 hx']
  · have hpre := PreambleInserter.prepended_frame (isFrame_frameBeats h)
    rw [data_frameBeats] at hpre
    exact hpre

/-- The bytes of a frame behind the preamble. -/
def withFcs (ds : List (BitVec 8)) : List (BitVec 8) :=
  Transmit.padded ds ++ splitBytes (crc32 (Transmit.padded ds)) 4

theorem padded_ne_nil {ds : List (BitVec 8)} (h : ds ≠ []) : Transmit.padded ds ≠ [] :=
  List.append_ne_nil_of_left_ne_nil h _

/-- A packet of words comes to the CRC checker as one frame. -/
theorem sent_makes {ds : List (BitVec 8)} {ws : List (PhyBeat 32)} (h : Carries e ds ws) (herr : ∀ w ∈ ws, w.error = 0)
    (hlen : ds.length ≤ 2 ^ 16) : (sent e).Makes ws (frameBeats (withFcs ds)) := by
  have hds := List.ne_nil_of_length_pos h.length.1
  have hpad := padded_ne_nil hds
  have hfcs : withFcs ds ≠ [] := List.append_ne_nil_of_left_ne_nil hpad _
  obtain ⟨-, hframe, htrunc⟩ := truncated_split h herr
  have hbytes := (split_makes e ws).andThen (truncates_makes hframe)
  rw [htrunc] at hbytes
  exact (((((hbytes.andThen (padded_makes hds hlen)).andThen (appended_makes hpad)).andThen
    (prepended_makes hfcs)).andThen (Fifo.same_makes _)).andThen (PreambleChecker.checked_frame hfcs)).andThen
    (Fifo.same_makes _)

end LiteEth.Mac.Line
