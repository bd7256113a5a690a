/-
RMII from one PHY to another: `LiteEthPHYRMIITX` sends each byte as four di-bits, and `LiteEthPHYRMIIRX` finds the first of
them by its not being zero.
-/
import LiteEth.Phy.Receive
import LiteEth.Phy.Rmii

namespace LiteEth.Phy

open LiteEth.Rtl

/-- `LiteEthPHYRMIITX`. -/
abbrev rmiiTX (S : StrideSplitter 2 4) : Transmitter 2 := strideTX rfl S

namespace RMIILink

/-- `crs_dv` of the receiver is `tx_en` of the transmitter. -/
def pads (x : Phy.Pads 2) : RMIIRX.Pads := ⟨x.en, x.data⟩

/-- `LiteEthPHYRMIIRX` on these pads. -/
abbrev receiver (C : StrideConverter 2 4) : Receiver 2 where
  State := RMIIRX.State C
  reset := (rmiiRX C).reset
  source s _ := C.source s.converter
  next s x r := s.next (pads x, r)

variable {C : StrideConverter 2 4}

theorem delivered_eq (xs : List (Phy.Pads 2)) : ∀ s : RMIIRX.State C,
    (receiver C).delivered s xs = RMIIRX.delivered s (RMIIRX.taking (xs.map pads)) ∧
      (receiver C).run s xs = (rmiiRX C).runFrom s (RMIIRX.taking (xs.map pads)) := by
  induction xs with
  | nil => exact fun _ => ⟨rfl, rfl⟩
  | cons x xs ih =>
    intro s
    obtain ⟨hdel, hrun⟩ := ih (s.next (pads x, true))
    exact ⟨congrArg (_ ++ ·) hdel, hrun⟩

/-- The first di-bit of a frame is not zero, as it is in a preamble. -/
def Starts (bs : List (BitVec 8)) : Prop := ∀ b ∈ bs.head?, b.extractLsb' 0 2 ≠ 0

instance (bs : List (BitVec 8)) : Decidable (Starts bs) :=
  decidable_of_iff (∀ b ∈ bs.head?, b.extractLsb' 0 2 ≠ 0) Iff.rfl

/-! ## The di-bits of bytes -/

theorem lines_cons (b : BitVec 8) (bs : List (BitVec 8)) : (lines 2 4 (b :: bs)).map pads =
    [⟨true, b.extractLsb' 0 2⟩, ⟨true, b.extractLsb' 2 2⟩, ⟨true, b.extractLsb' 4 2⟩, ⟨true, b.extractLsb' 6 2⟩] ++
      (lines 2 4 bs).map pads := rfl

theorem append_dibits (b : BitVec 8) :
    b.extractLsb' 6 2 ++ b.extractLsb' 4 2 ++ b.extractLsb' 2 2 ++ b.extractLsb' 0 2 = b := by
  rw [← RMIIRX.pack_dibits]
  exact pack_split 2 4 rfl b

theorem bytes_lines (bs : List (BitVec 8)) : RMIIRX.bytes (((lines 2 4 bs).map pads).map (·.rxData)) = bs := by
  induction bs with
  | nil => rfl
  | cons b bs ih =>
    rw [lines_cons]
    exact congrArg₂ List.cons (append_dibits b) ih

theorem length_lines (bs : List (BitVec 8)) : ((lines 2 4 bs).map pads).length = 4 * bs.length := by
  induction bs with
  | nil => rfl
  | cons b bs ih =>
    rw [lines_cons, List.length_append, ih, List.length_cons]
    simp only [List.length_cons, List.length_nil]
    omega

theorem crsDv_lines (bs : List (BitVec 8)) : ∀ x ∈ (lines 2 4 bs).map pads, x.crsDv = true := by
  rintro x hx
  obtain ⟨y, hy, rfl⟩ := List.mem_map.1 hx
  obtain ⟨b, -, hb⟩ := List.mem_flatMap.1 hy
  obtain ⟨d, -, rfl⟩ := List.mem_map.1 hb
  rfl

/-- The frame on the pads. -/
def frame (bs : List (BitVec 8)) (xs : List (Phy.Pads 2)) (hne : bs ≠ []) (hstarts : Starts bs) (hxs : Idle xs)
    (hlen : 4 ≤ xs.length) : RMIIRX.Frame where
  leading := 0
  bits := (lines 2 4 bs).map pads
  idle := xs.map pads
  words := ⟨bs.length, List.length_pos_of_ne_nil hne, length_lines bs⟩
  first := by
    obtain ⟨b, bs, rfl⟩ := List.exists_cons_of_ne_nil hne
    rw [lines_cons]
    rintro x hx
    cases hx
    exact ⟨rfl, hstarts b rfl⟩
  last x hx := crsDv_lines bs x (List.mem_of_getLast? hx)
  toggles := (List.pairwise_of_forall_mem_list fun x hx _ _ => .inl (crsDv_lines bs x hx)).isChain
  idle_length := by rwa [List.length_map]
  idle_low := by
    rintro x hx
    obtain ⟨y, hy, rfl⟩ := List.mem_map.1 hx
    exact hxs y hy

/-! ## Between frames -/

/-- Nothing is left between frames. -/
structure Rests (p : List (BitVec 8 × Bool)) (s : RMIIRX.State C) : Prop where
  idles : RMIIRX.Idles s
  none_left : p = []

variable {s : RMIIRX.State C} {p : List (BitVec 8 × Bool)}

theorem Rests.quiet (h : Rests p s) {xs : List (Phy.Pads 2)} (hxs : Idle xs) :
    ∃ p', (receiver C).delivered s xs ++ p' = p ∧ Rests p' ((receiver C).run s xs) ∧ (0 ≤ xs.length → p' = []) := by
  obtain ⟨hidles, rfl⟩ := h
  obtain ⟨hdel, hrun⟩ := delivered_eq xs s
  obtain ⟨hnone, hidles'⟩ := hidles.quiet (xs.map pads) fun x hx => by
    obtain ⟨y, hy, rfl⟩ := List.mem_map.1 hx
    show (!(y.en && y.data != 0)) = true
    rw [hxs y hy]
    rfl
  refine ⟨[], ?_, ⟨hrun ▸ hidles', rfl⟩, fun _ => rfl⟩
  rw [hdel, hnone, List.append_nil]

theorem Rests.frame (h : Rests p s) {bs : List (BitVec 8)} {xs : List (Phy.Pads 2)} (hne : bs ≠ []) (hstarts : Starts bs)
    (hxs : Idle xs) (hlen : 4 ≤ xs.length) : ∃ p', (receiver C).delivered s (lines 2 4 bs ++ xs) ++ p' = p ++ marked bs ∧
      Rests p' ((receiver C).run s (lines 2 4 bs ++ xs)) := by
  obtain ⟨hidles, rfl⟩ := h
  obtain ⟨hdel, hrun⟩ := delivered_eq (lines 2 4 bs ++ xs) s
  have hline : (lines 2 4 bs ++ xs).map pads = (RMIILink.frame bs xs hne hstarts hxs hlen).line := by
    rw [List.map_append]
    rfl
  obtain ⟨hframe, hidles'⟩ := hidles.line (RMIILink.frame bs xs hne hstarts hxs hlen)
  rw [hline] at hdel hrun
  refine ⟨[], ?_, ⟨hrun ▸ hidles', rfl⟩⟩
  rw [hdel, hframe, List.append_nil, List.nil_append]
  exact congrArg marked (bytes_lines bs)

/-- The frames on the line, four idle cycles or more apart. -/
def recovers (C : StrideConverter 2 4) : (receiver C).Recovers (lines 2 4) Starts 4 0 where
  Rests := Rests
  reset := ⟨RMIIRX.idles_reset, rfl⟩
  quiet _ _ _ h hxs := h.quiet hxs
  frame _ _ _ _ h hne hstarts hxs hlen := h.frame hne hstarts hxs hlen

/-- Over RMII every frame that begins with a preamble arrives, byte for byte and with its end marked, if there are four
cycles between two frames. -/
theorem rmii_links (S : StrideSplitter 2 4) (C : StrideConverter 2 4) :
    Links (rmiiTX S) (receiver C) Starts 4 0 :=
  (recovers C).links (wires_parts 2 4) (strideTX_carries rfl) S.count_reset rfl

/-- Two frames, the second one short. -/
def twoFrames : List Traffic := [⟨[0x55, 0xd5, 0x2a], [0, 0, 0, 0]⟩, ⟨[0x55], [0, 0, 0, 0, 0]⟩]

theorem rmii_links_counting : ∃ n,
    ((rmiiTX (.counting 2 4)).after n (rmiiTX (.counting 2 4)).reset (offered [] twoFrames [0])).2 = [] ∧
      (receiver (.packing 2 4)).delivered (receiver (.packing 2 4)).reset
          ((rmiiTX (.counting 2 4)).line n (rmiiTX (.counting 2 4)).reset (offered [] twoFrames [0])) =
        twoFrames.flatMap fun t => marked t.bytes :=
  rmii_links (.counting 2 4) (.packing 2 4) [] [0] twoFrames (by decide) (by decide)

end RMIILink

end LiteEth.Phy
