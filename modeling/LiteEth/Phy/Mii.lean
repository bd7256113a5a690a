/-
`phy/mii.py`: bytes on the four data lines of MII, and back. The receiver is one cycle behind its pads and sees the end of
a frame on the pads themselves: `rx_dv` is low in the cycle in which the last nibble goes to the converter, and in the one
after it the converter is reset.
-/
import LiteEth.Phy.Receive
import LiteEth.Rtl.StrideConverter

namespace LiteEth.Phy

open LiteEth.Rtl

/-- `LiteEthPHYMIITX`. -/
abbrev miiTX (S : StrideSplitter 4 2) : Transmitter 4 := strideTX rfl S

namespace MIIRX

variable (C : StrideConverter 4 2)

/-- The registers of `converter.reset` and `converter.sink`, and the converter. -/
structure State where
  reset : Bool
  valid : Bool
  data : BitVec 4
  converter : C.State

variable {C}

/-- `converter.sink`, with `last` from the pads. -/
def State.sink (s : State C) (x : Pads 4) : Option (BitVec 4 × Bool) := if s.valid then some (s.data, !x.en) else none

/-- One cycle: the pads go through registers, and the converter takes the nibble before them. -/
def State.next (s : State C) (x : Pads 4) (ready : Bool) : State C where
  reset := !x.en
  valid := true
  data := x.data
  converter := if s.reset then C.reset else C.step s.converter (s.sink x) ready

end MIIRX

/-- `LiteEthPHYMIIRX`. -/
abbrev miiRX (C : StrideConverter 4 2) : Receiver 4 where
  State := MIIRX.State C
  reset := ⟨false, false, 0, C.reset⟩
  source s _ := C.source s.converter
  next := MIIRX.State.next

namespace MIIRX

variable {C : StrideConverter 4 2}

/-! ## Nibbles -/

/-- Between frames: out of reset, or with the converter about to be reset. -/
inductive Rests (p : List (BitVec 8 × Bool)) (s : State C) : Prop
  | fresh (reset : s.reset = false) (valid : s.valid = false) (parts : C.parts s.converter = [])
    (source : C.source s.converter = none) (none_left : p = [])
  | after (reset : s.reset = true) (source : (C.source s.converter).toList = p)

/-- Within a frame: a nibble is in the registers, and those of its byte before it are in the converter. -/
structure Within (parts : List (BitVec 4)) (o : Option (BitVec 8 × Bool)) (d : BitVec 4) (s : State C) : Prop where
  reset : s.reset = false
  valid : s.valid = true
  data : s.data = d
  parts : C.parts s.converter = parts
  source : C.source s.converter = o

variable {s : State C} {p : List (BitVec 8 × Bool)}

theorem Rests.source (h : Rests p s) : (C.source s.converter).toList = p := by
  cases h with
  | fresh _ _ _ source none_left => rw [source, none_left]; rfl
  | after _ source => exact source

/-- What is left over is gone after a cycle. -/
theorem Rests.converter_next (h : Rests p s) (x : Pads 4) :
    C.parts (s.next x true).converter = [] ∧ C.source (s.next x true).converter = none := by
  cases h with
  | fresh reset valid parts source _ =>
    have hnext : (s.next x true).converter = C.step s.converter none true := by
      rw [State.next, State.sink, reset, valid]
      rfl
    obtain ⟨hparts, hsource⟩ := C.step_none s.converter true
    rw [hnext, hparts, hsource]
    exact ⟨parts, rfl⟩
  | after reset _ =>
    have hnext : (s.next x true).converter = C.reset := by rw [State.next, reset]; rfl
    rw [hnext]
    exact ⟨C.parts_reset, C.source_reset⟩

theorem Rests.next_idle (h : Rests p s) {x : Pads 4} (hx : x.en = false) : Rests [] (s.next x true) := by
  refine .after ?_ ?_
  · rw [State.next, hx]
    rfl
  · rw [(h.converter_next x).2]
    rfl

theorem Rests.next_nibble (h : Rests p s) (d : BitVec 4) : Within [] none d (s.next ⟨true, d⟩ true) :=
  ⟨rfl, rfl, rfl, (h.converter_next _).1, (h.converter_next _).2⟩

section Within

variable {o : Option (BitVec 8 × Bool)} {d e : BitVec 4}

/-- The next converter of a frame takes a nibble. -/
theorem Within.converter_next {parts : List (BitVec 4)} (h : Within parts o d s) (x : Pads 4) :
    (s.next x true).converter = C.step s.converter (some (d, !x.en)) true := by
  rw [State.next, State.sink, h.reset, h.valid, h.data]
  rfl

/-- The first nibble of a byte goes to the converter. -/
theorem Within.next_low (h : Within [] o d s) (e : BitVec 4) : Within [d] none e (s.next ⟨true, e⟩ true) := by
  obtain ⟨hparts, hsource⟩ := C.step_part s.converter d true (.inr rfl) (by rw [h.parts]; decide)
  have hnext := h.converter_next ⟨true, e⟩
  refine ⟨rfl, rfl, rfl, ?_, ?_⟩
  · rw [hnext]
    exact hparts.trans (by rw [h.parts]; rfl)
  · rw [hnext]
    exact hsource

/-- The second one completes it. -/
theorem Within.next_high (h : Within [d] o e s) (x : Pads 4) : C.parts (s.next x true).converter = [] ∧
    C.source (s.next x true).converter = some (pack 8 [d, e], !x.en) := by
  have hstep := C.step_word s.converter e (!x.en) true (.inr rfl) (by rw [h.parts]; rfl)
  rw [h.parts] at hstep
  rw [h.converter_next]
  exact hstep

/-- A nibble that is left at the end of a frame makes a byte of its own. -/
theorem Within.next_odd (h : Within [] o d s) {x : Pads 4} (hx : x.en = false) :
    ∃ word, Rests [(word, true)] (s.next x true) := by
  obtain ⟨-, word, hsource⟩ := C.step_last s.converter d true (.inr rfl)
  have hnext := h.converter_next x
  rw [hx] at hnext
  refine ⟨word, .after ?_ ?_⟩
  · rw [State.next, hx]
    rfl
  · rw [hnext]
    exact congrArg Option.toList hsource

end Within

/-! ## Bytes -/

theorem pack_nibbles (b : BitVec 8) : pack 8 [b.extractLsb' 0 4, b.extractLsb' 4 4] = b := pack_split 4 2 rfl b

/-- The pads of the nibbles of some bytes. -/
def line (bs : List (BitVec 8)) : List (Pads 4) := lines 4 2 bs

theorem line_cons (b : BitVec 8) (bs : List (BitVec 8)) :
    line (b :: bs) = ⟨true, b.extractLsb' 0 4⟩ :: ⟨true, b.extractLsb' 4 4⟩ :: line bs := rfl

/-- The rest of a frame after the first nibble of one of its bytes, up to the first idle cycle: of a whole number of bytes,
the last of which is still to be delivered, or of one nibble more, which makes a byte that ends the frame. -/
theorem Within.frame (bs : List (BitVec 8)) : ∀ (b : BitVec 8) {o : Option (BitVec 8 × Bool)} {s : State C} (y : Pads 4),
    Within [] o (b.extractLsb' 0 4) s → y.en = false →
    ((miiRX C).delivered s (⟨true, b.extractLsb' 4 4⟩ :: (line bs ++ [y])) = o.toList ++ (marked (b :: bs)).dropLast ∧
      Rests (marked (b :: bs)).getLast?.toList ((miiRX C).run s (⟨true, b.extractLsb' 4 4⟩ :: (line bs ++ [y])))) ∧
    ∀ d : BitVec 4, ∃ word,
      (miiRX C).delivered s (⟨true, b.extractLsb' 4 4⟩ :: (line bs ++ [⟨true, d⟩, y])) =
        o.toList ++ (b :: bs).map (·, false) ∧
      Rests [(word, true)] ((miiRX C).run s (⟨true, b.extractLsb' 4 4⟩ :: (line bs ++ [⟨true, d⟩, y]))) := by
  -- induction on the bytes, one nibble behind the line
  induction bs with
  | nil =>
    intro b o s y h hy
    -- the last byte: its high nibble closes it, or a nibble is left over
    have h₁ := h.next_low (b.extractLsb' 4 4)
    have hhigh := fun x => pack_nibbles b ▸ h₁.next_high x
    rw [Receiver.delivered_cons]
    refine ⟨⟨?_, .after ?_ ?_⟩, fun d => ?_⟩
    · show (C.source s.converter).toList ++ ((C.source (s.next _ true).converter).toList ++ []) = _
      rw [h.source, h₁.source]
      rfl
    · show (!y.en) = true
      rw [hy]
      rfl
    · show (C.source ((s.next _ true).next y true).converter).toList = _
      rw [(hhigh y).2, hy]
      rfl
    · have h₂ : Within [] (some (b, false)) d ((s.next ⟨true, b.extractLsb' 4 4⟩ true).next ⟨true, d⟩ true) :=
        ⟨rfl, rfl, rfl, (hhigh _).1, (hhigh _).2⟩
      obtain ⟨word, hrest⟩ := h₂.next_odd hy
      refine ⟨word, ?_, hrest⟩
      show (C.source s.converter).toList ++ ((C.source (s.next _ true).converter).toList ++
        ((C.source ((s.next _ true).next _ true).converter).toList ++ [])) = _
      rw [h.source, h₁.source, h₂.source]
      rfl
  | cons b' bs ih =>
    intro b o s y h hy
    have h₁ := h.next_low (b.extractLsb' 4 4)
    have hhigh := pack_nibbles b ▸ h₁.next_high ⟨true, b'.extractLsb' 0 4⟩
    have h₂ : Within [] (some (b, false)) (b'.extractLsb' 0 4)
        ((s.next ⟨true, b.extractLsb' 4 4⟩ true).next ⟨true, b'.extractLsb' 0 4⟩ true) :=
      ⟨rfl, rfl, rfl, hhigh.1, hhigh.2⟩
    obtain ⟨⟨hdel, hrest⟩, hodd⟩ := ih b' y h₂ hy
    have hsource : (C.source s.converter).toList = o.toList := by rw [h.source]
    have hmarked : marked (b :: b' :: bs) = (b, false) :: marked (b' :: bs) := marked_cons_cons b b' bs
    have hne : marked (b' :: bs) ≠ [] := (isFrame_marked (List.cons_ne_nil b' bs)).ne_nil
    refine ⟨⟨?_, ?_⟩, fun d => ?_⟩
    · rw [line_cons, List.cons_append, List.cons_append, Receiver.delivered_cons, Receiver.delivered_cons]
      refine congrArg₂ (· ++ ·) hsource ?_
      show (C.source (s.next _ true).converter).toList ++ _ = _
      rw [h₁.source, hmarked, List.dropLast_cons_of_ne_nil hne]
      exact hdel
    · rw [hmarked, List.getLast?_cons_of_ne_nil hne]
      exact hrest
    · obtain ⟨word, hdel', hrest'⟩ := hodd d
      refine ⟨word, ?_, hrest'⟩
      rw [line_cons, List.cons_append, List.cons_append, Receiver.delivered_cons, Receiver.delivered_cons]
      refine congrArg₂ (· ++ ·) hsource ?_
      show (C.source (s.next _ true).converter).toList ++ _ = _
      rw [h₁.source]
      exact hdel'

/-- A nibble begins a frame. -/
theorem Rests.begin (h : Rests p s) (d : BitVec 4) (xs : List (Pads 4)) :
    (miiRX C).delivered s (⟨true, d⟩ :: xs) = p ++ (miiRX C).delivered (s.next ⟨true, d⟩ true) xs :=
  congrArg (· ++ _) h.source

/-- While the line is idle, what is left is delivered. -/
theorem Rests.quiet {xs : List (Pads 4)} (h : Rests p s) (hxs : Idle xs) : ∃ p', (miiRX C).delivered s xs ++ p' = p ∧
    Rests p' ((miiRX C).run s xs) ∧ (1 ≤ xs.length → p' = []) := by
  induction xs generalizing s p with
  | nil => exact ⟨p, rfl, h, fun hl => absurd hl (by decide)⟩
  | cons x xs ih =>
    obtain ⟨p', hp', hs', -⟩ := ih (h.next_idle (hxs x List.mem_cons_self)) fun y hy => hxs y (List.mem_cons_of_mem x hy)
    obtain ⟨hnil, rfl⟩ := List.append_eq_nil_iff.1 hp'
    refine ⟨[], ?_, hs', fun _ => rfl⟩
    rw [Receiver.delivered_cons, List.append_nil]
    exact (congrArg₂ (· ++ ·) h.source hnil).trans (List.append_nil p)

/-- Some cycles of an idle line after the first one. -/
theorem Rests.quiet_after {xs : List (Pads 4)} {l : List (Pads 4)} {ds ps : List (BitVec 8 × Bool)}
    (hdel : (miiRX C).delivered s l = ds) (h : Rests ps ((miiRX C).run s l)) (hxs : Idle xs) :
    ∃ p', (miiRX C).delivered s (l ++ xs) ++ p' = ds ++ ps ∧ Rests p' ((miiRX C).run s (l ++ xs)) := by
  obtain ⟨p', hp', hs', -⟩ := h.quiet hxs
  refine ⟨p', ?_, ?_⟩
  · rw [Receiver.delivered_append, hdel, List.append_assoc, hp']
  · rwa [Receiver.run_append]

/-- A frame and the idle cycles after it. -/
theorem Rests.frame (h : Rests p s) {bs : List (BitVec 8)} {xs : List (Pads 4)} (hne : bs ≠ []) (hxs : Idle xs)
    (hlen : 1 ≤ xs.length) : ∃ p', (miiRX C).delivered s (lines 4 2 bs ++ xs) ++ p' = p ++ marked bs ∧
      Rests p' ((miiRX C).run s (lines 4 2 bs ++ xs)) := by
  obtain ⟨b, bs, rfl⟩ := List.exists_cons_of_ne_nil hne
  obtain ⟨y, ys, rfl⟩ := List.exists_cons_of_length_pos hlen
  obtain ⟨⟨hdel, hrest⟩, -⟩ := (h.next_nibble (b.extractLsb' 0 4)).frame bs b y (hxs y List.mem_cons_self)
  have hmarked : (marked (b :: bs)).dropLast ++ (marked (b :: bs)).getLast?.toList = marked (b :: bs) := by
    have hne' : marked (b :: bs) ≠ [] := (isFrame_marked hne).ne_nil
    rw [List.getLast?_eq_some_getLast hne']
    exact List.dropLast_append_getLast hne'
  have hline : lines 4 2 (b :: bs) ++ y :: ys =
      (⟨true, b.extractLsb' 0 4⟩ :: ⟨true, b.extractLsb' 4 4⟩ :: (line bs ++ [y])) ++ ys := by
    rw [show lines 4 2 (b :: bs) = ⟨true, b.extractLsb' 0 4⟩ :: ⟨true, b.extractLsb' 4 4⟩ :: line bs from rfl]
    simp
  have hdel' : (miiRX C).delivered s (⟨true, b.extractLsb' 0 4⟩ :: ⟨true, b.extractLsb' 4 4⟩ :: (line bs ++ [y])) =
      p ++ (marked (b :: bs)).dropLast := by
    rw [h.begin, hdel]
    rfl
  rw [hline, ← hmarked, ← List.append_assoc]
  exact Rests.quiet_after hdel' hrest fun x hx => hxs x (List.mem_cons_of_mem y hx)

/-- The frames on the line, one idle cycle or more apart. -/
def recovers (C : StrideConverter 4 2) : (miiRX C).Recovers (lines 4 2) (fun _ => True) 1 1 where
  Rests := Rests
  reset := .fresh rfl rfl C.parts_reset C.source_reset rfl
  quiet _ _ _ h hxs := h.quiet hxs
  frame _ _ _ _ h hne _ hxs hlen := h.frame hne hxs hlen

end MIIRX

/-- Over MII every frame arrives, byte for byte and with its end marked, from a transmitter whose bytes wait until they
are taken, if there is a cycle between two frames. -/
theorem mii_links (S : StrideSplitter 4 2) (C : StrideConverter 4 2) :
    Links (miiTX S) (miiRX C) (fun _ => True) 1 1 :=
  (MIIRX.recovers C).links (wires_parts 4 2) (strideTX_carries rfl) S.count_reset rfl

/-- Two frames, for which the line is idle for three cycles in between. -/
def twoFrames : List Traffic := [⟨[0x55, 0xd5, 0x2a], [0, 1, 0]⟩, ⟨[0x55, 0xd5], [0]⟩]

theorem mii_links_counting : ∃ n,
    ((miiTX (.counting 4 2)).after n (miiTX (.counting 4 2)).reset (offered [0] twoFrames [0, 0])).2 = [] ∧
      (miiRX (.packing 4 2)).delivered (miiRX (.packing 4 2)).reset
          ((miiTX (.counting 4 2)).line n (miiTX (.counting 4 2)).reset (offered [0] twoFrames [0, 0])) =
        twoFrames.flatMap fun t => marked t.bytes :=
  mii_links (.counting 4 2) (.packing 4 2) [0] [0, 0] twoFrames (by decide) (by decide)

namespace MIIRX

/-! ## Any burst of nibbles -/

/-- Some nibbles with `rx_dv` high, and the cycles after them. -/
structure Burst where
  bytes : List (BitVec 8)
  odd : Option (BitVec 4)
  idle : List (BitVec 4)
  nonempty : bytes ≠ [] ∨ odd ≠ none
  gap : idle ≠ []

/-- What a burst puts on the pads: its bytes as nibbles, the nibble that is left over, and the idle cycles. -/
def Burst.pads (u : Burst) : List (Pads 4) :=
  lines 4 2 u.bytes ++ u.odd.toList.map (⟨true, ·⟩) ++ u.idle.map (⟨false, ·⟩)

/-- The frame for a burst: its bytes, and another one if a nibble is left over. -/
def Burst.Gives (u : Burst) (f : List (BitVec 8 × Bool)) : Prop :=
  match u.odd with
  | none => f = marked u.bytes
  | some _ => ∃ word, f = marked (u.bytes ++ [word])

theorem idle_map (ds : List (BitVec 4)) : Idle (ds.map (Pads.mk false)) := by
  intro x hx
  obtain ⟨d, -, rfl⟩ := List.mem_map.1 hx
  rfl

variable {C : StrideConverter 4 2} {s : State C} {p : List (BitVec 8 × Bool)}

theorem Rests.burst (h : Rests p s) (u : Burst) : ∃ f p', u.Gives f ∧ (miiRX C).delivered s u.pads ++ p' = p ++ f ∧
    Rests p' ((miiRX C).run s u.pads) := by
  obtain ⟨bytes, odd, idle, nonempty, gap⟩ := u
  cases odd with
  | none =>
    obtain ⟨p', hp', hs'⟩ := h.frame (nonempty.resolve_right (not_not.2 rfl)) (idle_map idle)
      (by rw [List.length_map]; exact List.length_pos_of_ne_nil gap)
    refine ⟨_, p', rfl, ?_⟩
    rw [Burst.pads, Option.toList_none, List.map_nil, List.append_nil]
    exact ⟨hp', hs'⟩
  | some d =>
    obtain ⟨y, ys, rfl⟩ := List.exists_cons_of_ne_nil gap
    have hmarked : ∀ word : BitVec 8, marked (bytes ++ [word]) = bytes.map (·, false) ++ [(word, true)] :=
      marked_concat bytes
    -- with a byte before it or without one
    obtain ⟨word, hdel, hrest⟩ : ∃ word,
        (miiRX C).delivered s (lines 4 2 bytes ++ [⟨true, d⟩, ⟨false, y⟩]) = p ++ bytes.map (·, false) ∧
        Rests [(word, true)] ((miiRX C).run s (lines 4 2 bytes ++ [⟨true, d⟩, ⟨false, y⟩])) := by
      cases bytes with
      | nil =>
        obtain ⟨word, hrest⟩ := (h.next_nibble d).next_odd (x := ⟨false, y⟩) rfl
        refine ⟨word, ?_, hrest⟩
        show (miiRX C).delivered s (⟨true, d⟩ :: [⟨false, y⟩]) = p ++ []
        rw [h.begin]
        refine congrArg (p ++ ·) ?_
        show (C.source (s.next _ true).converter).toList ++ [] = []
        rw [(h.next_nibble d).source]
        rfl
      | cons b bs =>
        obtain ⟨word, hdel, hrest⟩ := ((h.next_nibble (b.extractLsb' 0 4)).frame bs b ⟨false, y⟩ rfl).2 d
        refine ⟨word, ?_, hrest⟩
        show (miiRX C).delivered s (⟨true, b.extractLsb' 0 4⟩ :: ⟨true, b.extractLsb' 4 4⟩ ::
          (line bs ++ [⟨true, d⟩, ⟨false, y⟩])) = _
        rw [h.begin, hdel]
        rfl
    obtain ⟨p', hp', hs'⟩ := Rests.quiet_after hdel hrest (idle_map ys)
    refine ⟨marked (bytes ++ [word]), p', ⟨word, rfl⟩, ?_⟩
    have hpads : Burst.pads ⟨bytes, some d, y :: ys, nonempty, gap⟩ =
        lines 4 2 bytes ++ [⟨true, d⟩, ⟨false, y⟩] ++ ys.map (Pads.mk false) := by
      simp [Burst.pads]
    rw [hpads, hmarked, ← List.append_assoc]
    exact ⟨hp', hs'⟩

/-- Whatever the lengths of the bursts on the pads, each of them is delivered as one frame, which begins with its bytes
and of which no more than one byte is not one of them. What was received before makes no difference to it, except that the
value of the byte for a nibble that is left over is open: the converter gives it with whatever its other nibble holds. -/
theorem miiRX_bursts (C : StrideConverter 4 2) (before : List (BitVec 4)) (us : List Burst) (d : BitVec 4) :
    ∃ fs, List.Forall₂ Burst.Gives us fs ∧
      (miiRX C).delivered (miiRX C).reset (before.map (⟨false, ·⟩) ++ us.flatMap Burst.pads ++ [⟨false, d⟩]) =
        fs.flatten := by
  obtain ⟨p, hp, hs, -⟩ := (recovers C).quiet [] _ _ (recovers C).reset (idle_map before)
  obtain ⟨hp0, rfl⟩ := List.append_eq_nil_iff.1 hp
  have hbursts : ∀ (us : List Burst) (p : List (BitVec 8 × Bool)) (s : State C), Rests p s → ∃ fs p',
      List.Forall₂ Burst.Gives us fs ∧ (miiRX C).delivered s (us.flatMap Burst.pads) ++ p' = p ++ fs.flatten ∧
        Rests p' ((miiRX C).run s (us.flatMap Burst.pads)) := by
    intro us
    -- each burst leaves the receiver at rest, with at most its own last beat in it
    induction us with
    | nil => exact fun p s h => ⟨[], p, .nil, by simp, h⟩
    | cons u us ih =>
      intro p s h
      obtain ⟨f, p', hf, hdel, hrest⟩ := h.burst u
      obtain ⟨fs, p'', hfs, hdel', hrest'⟩ := ih p' _ hrest
      refine ⟨f :: fs, p'', .cons hf hfs, ?_, ?_⟩
      · rw [List.flatMap_cons, Receiver.delivered_append, List.append_assoc, hdel', ← List.append_assoc, hdel,
          List.flatten_cons, List.append_assoc]
      · rwa [List.flatMap_cons, Receiver.run_append]
  obtain ⟨fs, p', hfs, hdel, hrest⟩ := hbursts us [] _ hs
  -- one idle cycle brings out what is left
  obtain ⟨p'', hp'', -, hnone⟩ := hrest.quiet (idle_map [d])
  rw [hnone le_rfl, List.append_nil, List.map_singleton] at hp''
  refine ⟨fs, hfs, ?_⟩
  rw [Receiver.delivered_append, Receiver.delivered_append, hp0, List.nil_append, Receiver.run_append, hp'']
  exact hdel

/-- A burst of whole bytes, and one of five nibbles. -/
def twoBursts : List Burst :=
  [⟨[0x55, 0xd5], none, [0], by decide, by decide⟩, ⟨[0x55, 0xd5], some 0xa, [3, 0], by decide, by decide⟩]

theorem miiRX_bursts_packing : ∃ fs, List.Forall₂ Burst.Gives twoBursts fs ∧
    (miiRX (.packing 4 2)).delivered (miiRX (.packing 4 2)).reset
      ([7].map (⟨false, ·⟩) ++ twoBursts.flatMap Burst.pads ++ [⟨false, 0⟩]) = fs.flatten :=
  miiRX_bursts (.packing 4 2) [7] twoBursts 0

end MIIRX

end LiteEth.Phy
