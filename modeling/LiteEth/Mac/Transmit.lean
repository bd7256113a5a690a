/-
`mac/core.py`: the transmit pipeline of a core as wide as its PHY, eight bits. Each of its stages is a
simulation of what it does to the frames, so the pipeline is one of all of it: whatever the timing, a
frame leaves with its preamble, its padding and its FCS, and the next one only after the gap.
-/
import LiteEth.Mac.CrcInserter
import LiteEth.Mac.Gap
import LiteEth.Mac.Padding
import LiteEth.Mac.Preamble

namespace LiteEth.Mac.Transmit

open LiteEth.Rtl

variable {ε : Type} {H : ε → Prop} (cdc buffer : Fifo H (PhyBeat 8))

/-- `tx_pipeline` up to the gap inserter. -/
abbrev framing : Stage ε (PhyBeat 8) (PhyBeat 8) :=
  ((cdc.stage.andThen (paddingInserter 8 60 buffer)).andThen (crc32Inserter 8)).andThen (preambleInserter 8)

/-- `tx_pipeline`, from `core.sink` to the PHY. A cycle is one of the transmit clock; the clock domain crossing
takes and shows beats as the environment lets it. -/
abbrev txPipeline : Stage ε (PhyBeat 8) (PhyBeat 8) := (framing cdc buffer).andThen (gapInserter 8)

/-! ## The wire format -/

/-- A frame, padded to its minimal length. -/
def padded (bs : List (BitVec 8)) : List (BitVec 8) := bs ++ List.replicate (60 - bs.length) 0

/-- A frame on the wire: the preamble, the padded frame and its CRC-32, low byte first. -/
def wire (bs : List (BitVec 8)) : List (BitVec 8) :=
  PreambleInserter.preambleBytes ++ (padded bs ++ splitBytes (crc32 (padded bs)) 4)

/-- What is on the wire of a frame of which only the bytes `bs` have been presented. -/
def wireBegun (bs : List (BitVec 8)) : List (BitVec 8) := if bs = [] then [] else PreambleInserter.preambleBytes ++ bs

/-- What is to be on the wire for some frames and for the beats of the next one: the bytes, the last one of
each frame marked. -/
def onWire (fp : List (List (PhyBeat 8)) × List (PhyBeat 8)) : List (BitVec 8 × Bool) :=
  fp.1.flatMap (fun f => marked (wire (f.map (·.data)))) ++ (wireBegun (fp.2.map (·.data))).map (·, false)

/-- What the PHY sees of a beat. -/
def seen (b : PhyBeat 8) : BitVec 8 × Bool := (b.data, b.last)

/-! ## The pipeline -/

/-- What the pipeline does to the frames. -/
abbrev transmitted : Transducer (PhyBeat 8) (PhyBeat 8) :=
  ((((Fifo.same _).andThen (PaddingInserter.padded 8 60)).andThen CRCInserter.appended).andThen
    PreambleInserter.prepended).andThen (Fifo.same _)

/-- The pipeline does it. -/
def transmits : Stage.Sim H (txPipeline cdc buffer) transmitted :=
  (((cdc.passes.sim.andThen (PaddingInserter.pads buffer (by decide)).sim).andThen (CRCInserter.appends H).sim).andThen
    (PreambleInserter.prepends H)).andThen (Gap.passes H (by decide)).sim

/-- A frame through padding, CRC and preamble. -/
def framed (f : List (PhyBeat 8)) : List (PhyBeat 8) :=
  PreambleInserter.prepended.outs false (CRCInserter.appended.outs [] ((PaddingInserter.padded 8 60).outs 0 f))

theorem transmitted_outs (bs : List (PhyBeat 8)) : transmitted.outs transmitted.init bs = framed bs := by
  rw [Transducer.andThen_outs, Fifo.same_outs, Transducer.andThen_outs, Transducer.andThen_outs,
    Transducer.andThen_outs, Fifo.same_outs]
  rfl

theorem transmitted_oks (bs : List (PhyBeat 8)) (h : (PaddingInserter.padded 8 60).Oks 0 bs) :
    transmitted.Oks transmitted.init bs := by
  have happended := CRCInserter.appended.oks_of_forall fun _ _ => trivial
  have hprepended := PreambleInserter.prepended.oks_of_forall fun _ _ => trivial
  rw [Transducer.andThen_oks, Transducer.andThen_oks, Transducer.andThen_oks, Transducer.andThen_oks, Fifo.same_outs]
  exact ⟨⟨⟨⟨Fifo.same_oks _ _, h⟩, happended _ _⟩, hprepended _ _⟩, Fifo.same_oks _ _⟩

/-- A frame becomes one on the wire. -/
theorem framed_frame {f : List (PhyBeat 8)} (hf : IsFrame (·.last) f) :
    (framed f).map seen = marked (wire (f.map (·.data))) := by
  obtain ⟨h1, -, d1⟩ := PaddingInserter.padded_frame 60 hf
  obtain ⟨h2, -, d2⟩ := CRCInserter.appended_frame h1
  obtain ⟨h3, -, d3⟩ := PreambleInserter.prepended_frame h2
  have hlim : PaddingInserter.paddingLimit 8 60 + 1 = 60 := rfl
  have hpad : f.map (·.data) ++ List.replicate (60 - f.length) 0 = padded (f.map (·.data)) := by
    unfold padded
    rw [List.length_map]
  rw [hlim, hpad] at d1
  rw [d1] at d2
  rw [d2] at d3
  have h := h3.map_marked (·.data)
  rw [d3] at h
  exact h

/-- The frames that have been presented, on the wire. -/
theorem framed_frames {fs : List (List (PhyBeat 8))} {m : List (PhyBeat 8)} (hfs : ∀ f ∈ fs, IsFrame (·.last) f)
    (hm : ∀ b ∈ m, b.last = false) : (framed (fs.flatten ++ m)).map seen = onWire (fs, m) := by
  -- each stage ends a frame as it began it, so that frames are made one by one
  have h1 : ∀ f ∈ fs, (PaddingInserter.padded 8 60).run 0 f = 0 := fun f hf =>
    (PaddingInserter.padded_frame 60 (hfs f hf)).2.1
  have h2 : ∀ g ∈ fs.map ((PaddingInserter.padded 8 60).outs 0), CRCInserter.appended.run [] g = [] := by
    intro g hg
    obtain ⟨f, hf, rfl⟩ := List.mem_map.1 hg
    exact (CRCInserter.appended_frame (PaddingInserter.padded_frame 60 (hfs f hf)).1).2.1
  have h3 : ∀ g ∈ (fs.map ((PaddingInserter.padded 8 60).outs 0)).map (CRCInserter.appended.outs []),
      PreambleInserter.prepended.run false g = false := by
    intro g hg
    obtain ⟨g', hg', rfl⟩ := List.mem_map.1 hg
    obtain ⟨f, hf, rfl⟩ := List.mem_map.1 hg'
    exact (PreambleInserter.prepended_frame
      (CRCInserter.appended_frame (PaddingInserter.padded_frame 60 (hfs f hf)).1).1).2.1
  unfold framed onWire
  rw [Transducer.outs_flatten _ h1, (PaddingInserter.padded_open 60 hm 0).1, List.flatMap_def,
    Transducer.outs_flatten _ h2, (CRCInserter.appended_open hm []).1, List.flatMap_def,
    Transducer.outs_flatten _ h3, PreambleInserter.prepended_begun hm, List.map_append, List.map_flatMap]
  congr 1
  · rw [List.flatMap_map, List.flatMap_map]
    exact List.flatMap_congr fun f hf => framed_frame (hfs f hf)
  · have hseen : ∀ {l : List (PhyBeat 8)}, (∀ b ∈ l, b.last = false) → l.map seen = (l.map (·.data)).map (·, false) := by
      intro l hl
      rw [List.map_map]
      exact List.map_congr_left fun b hb => by unfold seen; rw [hl b hb]; rfl
    cases m with
    | nil => rfl
    | cons b m =>
      rw [List.head?_cons, Option.elim_some, List.map_append, hseen hm, hseen (PreambleInserter.preambleBeats_last b),
        PreambleInserter.preambleBeats_data, ← List.map_append]
      rfl

/-! ## The gap -/

section Gap

variable {cdc buffer}

theorem gap_next (s : (txPipeline cdc buffer).Run) (i : Stage.In ε (PhyBeat 8)) : ∃ b : Option (PhyBeat 8),
    (s.next i).state.2 = s.state.2.next b i.ready ∧ s.source i = s.state.2.source b := ⟨_, rfl, rfl⟩

variable (cdc buffer) in
/-- The state of the gap inserter in every run. -/
theorem gap_run (is : List (Stage.In ε (PhyBeat 8))) :
    ∃ w, Gap.Rel 8 ((txPipeline cdc buffer).machine.run is).state.2 w := by
  induction is using List.reverseRecOn with
  | nil => exact ⟨0, .copy 0⟩
  | append_singleton is i ih =>
    obtain ⟨w, h⟩ := ih
    obtain ⟨b, hnext, -⟩ := gap_next ((txPipeline cdc buffer).machine.run is) i
    obtain ⟨p', w', -, ⟨h', -⟩, -⟩ := (Gap.passes H (by decide : 0 < Gap.gap 8)).cycle (q := ()) ⟨h, rfl⟩ i.env b i.ready
      (Fifo.same_oks _ _)
    rw [Stage.run_concat, hnext]
    exact ⟨w', h'⟩

/-- During the gap nothing is valid. -/
theorem gap_silent (is : List (Stage.In ε (PhyBeat 8))) {w : ℕ}
    (h : Gap.Rel 8 ((txPipeline cdc buffer).machine.run is).state.2 w) (js : List (Stage.In ε (PhyBeat 8)))
    (hjs : js.length < w) (j : Stage.In ε (PhyBeat 8)) :
    ((txPipeline cdc buffer).machine.run (is ++ js)).source j = none := by
  suffices h : ∃ w', 0 < w' ∧ Gap.Rel 8 ((txPipeline cdc buffer).machine.run (is ++ js)).state.2 w' by
    obtain ⟨w', hw, h⟩ := h
    obtain ⟨b, -, hsrc⟩ := gap_next ((txPipeline cdc buffer).machine.run (is ++ js)) j
    rw [hsrc, h.source hw]
  suffices h : Gap.Rel 8 ((txPipeline cdc buffer).machine.run (is ++ js)).state.2 (w - js.length) from
    ⟨w - js.length, by omega, h⟩
  induction js using List.reverseRecOn with
  | nil =>
    rw [List.append_nil]
    exact h
  | append_singleton js i ih =>
    rw [List.length_append, List.length_singleton] at hjs ⊢
    obtain ⟨b, hnext, -⟩ := gap_next ((txPipeline cdc buffer).machine.run (is ++ js)) i
    rw [← List.append_assoc, Stage.run_concat, hnext, ← Nat.sub_sub]
    exact (ih (by omega)).next (by omega) b i.ready

end Gap

/-! ## What the PHY accepts -/

/-- The frames presented so far, and the beats of the next one. -/
def presented (is : List (Stage.In ε (PhyBeat 8))) : List (List (PhyBeat 8)) × List (PhyBeat 8) :=
  frames (·.last) ((txPipeline cdc buffer).arrivals is)

/-- The beats the PHY has accepted. -/
def accepted (is : List (Stage.In ε (PhyBeat 8))) : List (BitVec 8 × Bool) :=
  ((txPipeline cdc buffer).given is).map seen

/-- The frames presented in a run, on the wire. -/
structure WireFormat (is : List (Stage.In ε (PhyBeat 8))) : Prop where
  /-- What has been accepted is in order. -/
  in_order : accepted cdc buffer is <+: onWire (presented cdc buffer is)
  /-- All of it is accepted in the end. -/
  complete : ∀ es : ℕ → ε, (∀ k, H (es k)) → ∃ n,
    accepted cdc buffer (is ++ (List.range n).map fun k => Stage.Sim.settle (es k)) = onWire (presented cdc buffer is)
  /-- After a last beat nothing is valid for twelve cycles. -/
  gap : ∀ i b, ((txPipeline cdc buffer).machine.run is).gives i = some b → b.last = true → ∀ js, js.length < 12 →
    ∀ j, ((txPipeline cdc buffer).machine.run (is ++ i :: js)).source j = none

/-- In every run that presents frames of at most 65536 bytes, the PHY accepts them in the wire format. -/
theorem tx_wire_format (is : List (Stage.In ε (PhyBeat 8)))
    (hframes : ∀ f ∈ (presented cdc buffer is).1, f.length ≤ 65536)
    (hbegun : (presented cdc buffer is).2.length < 65536) : WireFormat cdc buffer is := by
  have hspec := frames_spec (fun b : PhyBeat 8 => b.last) ((txPipeline cdc buffer).arrivals is)
  have harr := frames_flatten (fun b : PhyBeat 8 => b.last) ((txPipeline cdc buffer).arrivals is)
  -- no frame is longer than the counter of the padding can count
  have hok : transmitted.Oks transmitted.init ((txPipeline cdc buffer).arrivals is) := by
    rw [← harr]
    exact transmitted_oks _ (Transducer.oks_flatten _
      (fun f hf => ⟨(PaddingInserter.padded_frame 60 (hspec.1 f hf)).2.1,
        PaddingInserter.oks_frame 60 (hspec.1 f hf) (hframes f hf)⟩)
      (PaddingInserter.oks_open 60 hspec.2 (by rw [Nat.zero_add]; exact hbegun.le)))
  have hwire : (transmitted.outs transmitted.init ((txPipeline cdc buffer).arrivals is)).map seen =
      onWire (presented cdc buffer is) := by
    have h := framed_frames hspec.1 hspec.2
    rw [harr] at h
    rw [transmitted_outs]
    exact h
  -- what is on the wire is what was made, less what is owed still
  obtain ⟨p, w, hrel, hp⟩ := (transmits cdc buffer).run is hok
  rw [hp, List.map_append] at hwire
  refine ⟨⟨p.map seen, hwire⟩, fun es hes => ?_, fun i b hgive hlast js hjs j => ?_⟩
  · obtain ⟨n, -, hlog⟩ := (transmits cdc buffer).drain es hes hrel
    refine ⟨n, ?_⟩
    unfold accepted Stage.given
    rw [Machine.log_append, List.map_append]
    exact (congrArg (fun l => _ ++ List.map seen l) hlog).trans hwire
  · -- behind a last beat the gap keeps the wire silent
    obtain ⟨w, hgap⟩ := gap_run cdc buffer is
    obtain ⟨c, hnext, hsrc⟩ := gap_next ((txPipeline cdc buffer).machine.run is) i
    unfold Stage.Run.gives at hgive
    split at hgive
    · rename_i hr
      rw [hsrc] at hgive
      have h := hgap.last (by decide) hgive hlast
      rw [← hr, ← hnext, ← Stage.run_concat] at h
      rw [List.append_cons]
      exact gap_silent _ h js hjs j
    · cases hgive

/-- A cycle in which a byte is offered. -/
def byteCycle (d : BitVec 8) (last : Bool) : Stage.In Unit (PhyBeat 8) := ⟨(), some ⟨d, 0, 0, last⟩, true⟩

/-- A frame of two bytes, through single registers. -/
theorem tx_wire_format_two_bytes :
    WireFormat (Fifo.pipeValid (fun _ : Unit => True) (PhyBeat 8)) (Fifo.pipeValid (fun _ : Unit => True) (PhyBeat 8))
      [byteCycle 1 false, byteCycle 2 true, byteCycle 2 true] :=
  tx_wire_format _ _ _ (by decide +kernel) (by decide +kernel)

end LiteEth.Mac.Transmit
