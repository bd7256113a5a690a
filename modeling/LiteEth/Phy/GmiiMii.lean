/-
`phy/gmii_mii.py`: GMII and MII on the same pads. The transmitter and the receiver of either are there all the time, with
registers at the pads; the mode chooses which of them the stream goes to. What a receiver has taken from the line while it
was not chosen is gone after two idle cycles.
-/
import LiteEth.Phy.Gmii
import LiteEth.Phy.Mii

namespace LiteEth.Phy

open LiteEth.Rtl

/-! ## Registers on the line -/

section Registered

variable {w : ℕ}

/-- A transmitter with a register at its pads. -/
abbrev Transmitter.registered (T : Transmitter w) : Transmitter w where
  State := T.State × Pads w
  reset := (T.reset, ⟨false, 0⟩)
  pads s := s.2
  ready s := T.ready s.1
  next s o := (T.next s.1 o, T.pads s.1)

/-- A receiver with one. -/
abbrev Receiver.registered (R : Receiver w) : Receiver w where
  State := Pads w × R.State
  reset := (⟨false, 0⟩, R.reset)
  source s _ := R.source s.2 s.1
  next s x r := (x, R.next s.2 s.1 r)

theorem Transmitter.registered_line (T : Transmitter w) (n : ℕ) : ∀ (t : T.State) (p : Pads w) (q : List Offer),
    T.registered.line (n + 1) (t, p) q = p :: T.line n t q ∧
      T.registered.after (n + 1) (t, p) q = (((T.after (n + 1) t q).1, T.pads (T.after n t q).1), (T.after (n + 1) t q).2) := by
  induction n with
  | zero => exact fun _ _ _ => ⟨rfl, rfl⟩
  | succ n ih =>
    intro t p q
    obtain ⟨hline, hafter⟩ := ih (T.next t (q.headD .none)) (T.pads t) (T.left t q)
    exact ⟨congrArg (p :: ·) hline, hafter⟩

theorem Receiver.registered_delivered (R : Receiver w) (xs : List (Pads w)) : ∀ (x y : Pads w) (r : R.State),
    R.registered.delivered (x, r) (xs ++ [y]) = R.delivered r (x :: xs) ∧
      R.registered.run (x, r) (xs ++ [y]) = (y, R.run r (x :: xs)) := by
  induction xs with
  | nil => exact fun _ _ _ => ⟨rfl, rfl⟩
  | cons x' xs ih =>
    intro x y r
    obtain ⟨hdel, hrun⟩ := ih x' y (R.next r x true)
    exact ⟨congrArg ((R.source r x).toList ++ ·) hdel, hrun⟩

end Registered

/-! ## The modes -/

/-- The mode that is detected: which transmitter and receiver are connected. -/
inductive Mode
  | gmii
  | mii
  deriving DecidableEq, Repr

/-- A nibble on the pads. -/
def widen (x : Pads 4) : Pads 8 := ⟨x.en, x.data.setWidth 8⟩

/-- The nibble of the pads. -/
def narrow (x : Pads 8) : Pads 4 := ⟨x.en, x.data.setWidth 4⟩

theorem narrow_widen (x : Pads 4) : narrow (widen x) = x := by
  obtain ⟨en, d⟩ := x
  exact congrArg (Pads.mk en) (BitVec.setWidth_setWidth_of_le d (by decide))

namespace GMIIMII

variable (S : StrideSplitter 4 2) (C : StrideConverter 4 2)

/-- The transmitters of both modes; the mode selects the one that has the sink and the pads. -/
structure TX where
  gmii : GMIITX.State
  mii : StrideTX.State S

/-- The receivers of both modes, which see the same pads; the mode selects the one that has the source. -/
structure RX where
  gmii : GMIIRX.State
  mii : MIIRX.State C

variable {S C}

/-- What the demultiplexer hands to a transmitter that is chosen or not. -/
def demux (chosen : Bool) (o : Offer) : Offer := if chosen then o else .none

variable (S) in
/-- The transmitters behind the demultiplexer. -/
abbrev transmitter (mode : Mode) : Transmitter 8 where
  State := TX S
  reset := ⟨gmiiTX.reset, (miiTX S).reset⟩
  pads s := match mode with
    | .gmii => s.gmii.pads
    | .mii => widen s.mii.pads
  ready s := match mode with
    | .gmii => gmiiTX.ready s.gmii
    | .mii => (miiTX S).ready s.mii
  next s o := ⟨gmiiTX.next s.gmii (demux (mode == .gmii) o), (miiTX S).next s.mii (demux (mode == .mii) o)⟩

variable (C) in
/-- The receivers in front of the multiplexer. -/
abbrev receiver (mode : Mode) : Receiver 8 where
  State := RX C
  reset := ⟨gmiiRX.reset, (miiRX C).reset⟩
  source s x := match mode with
    | .gmii => gmiiRX.source s.gmii x
    | .mii => (miiRX C).source s.mii (narrow x)
  next s x r := ⟨gmiiRX.next s.gmii x (mode == .gmii && r), (miiRX C).next s.mii (narrow x) (mode == .mii && r)⟩

end GMIIMII

/-- `LiteEthPHYGMIIMIITX`. -/
abbrev gmiimiiTX (S : StrideSplitter 4 2) (mode : Mode) : Transmitter 8 := (GMIIMII.transmitter S mode).registered

/-- `LiteEthPHYGMIIMIIRX`. -/
abbrev gmiimiiRX (C : StrideConverter 4 2) (mode : Mode) : Receiver 8 := (GMIIMII.receiver C mode).registered

namespace GMIIMII

variable {S : StrideSplitter 4 2} {C : StrideConverter 4 2}

/-! ## Transmitting -/

/-- Either transmitter can begin. -/
structure Ready (t : TX S) : Prop where
  gmii : t.gmii.ready = true
  mii : StrideTX.Aligned t.mii

/-- The pads for an offer. -/
def wire : Mode → Offer → List (Pads 8)
  | .gmii, o => whole o
  | .mii, o => (parts 4 2 o).map widen

/-- The pads for the bytes of a frame. -/
def wires : Mode → List (BitVec 8) → List (Pads 8)
  | .gmii, bs => wholes bs
  | .mii, bs => (lines 4 2 bs).map widen

theorem wires_wire : ∀ mode, Wires (wire mode) (wires mode)
  | .gmii => wires_whole
  | .mii => by
    constructor
    · intro bs
      rw [wires, ← (wires_parts 4 2).bytes bs, List.map_flatMap]
      rfl
    · exact fun d => ⟨_, rfl, rfl⟩

/-- In MII mode the stream is that of the MII transmitter. -/
theorem mii_after (n : ℕ) : ∀ (t : TX S) (q : List Offer), t.gmii.ready = true →
    ((transmitter S .mii).after n t q).1.gmii.ready = true ∧
      (((transmitter S .mii).after n t q).1.mii, ((transmitter S .mii).after n t q).2) = (miiTX S).after n t.mii q ∧
      (transmitter S .mii).sent n t q = ((miiTX S).sent n t.mii q).map widen := by
  induction n with
  | zero => exact fun _ _ h => ⟨h, rfl, rfl⟩
  | succ n ih =>
    intro t q _
    obtain ⟨h1, h2, h3⟩ := ih ((transmitter S .mii).next t (q.headD .none)) ((transmitter S .mii).left t q) rfl
    have hleft : (transmitter S .mii).left t q = (miiTX S).left t.mii q := by cases q <;> rfl
    rw [hleft] at h1 h2 h3
    refine ⟨?_, ?_, ?_⟩
    · rw [Transmitter.after_succ, hleft]
      exact h1
    · rw [Transmitter.after_succ, Transmitter.after_succ, hleft]
      exact h2
    · rw [Transmitter.sent_succ, Transmitter.sent_succ, List.map_cons, hleft]
      exact congrArg (_ :: ·) h3

theorem carries : ∀ mode, (transmitter S mode).Carries Ready (wire mode)
  | .gmii => by
    refine ⟨fun t o q h => ⟨(transmitter S .gmii).next t o, ⟨rfl, ?_⟩, ?_, rfl⟩⟩
    · show S.count (S.step _ false true) = 0
      rw [S.count_step _ _ _ (by rw [h.mii]; decide)]
      exact h.mii
    · show ((transmitter S .gmii).next t o, if o.valid && !t.gmii.ready then o :: q else q) = _
      rw [h.gmii, Bool.not_true, Bool.and_false]
      rfl
  | .mii => by
    refine ⟨fun t o q h => ?_⟩
    obtain ⟨m, hm, hafter, hsent⟩ := (strideTX_carries (S := S) rfl).carry t.mii o q h.mii
    obtain ⟨h1, h2, h3⟩ := mii_after (parts 4 2 o).length t (o :: q) h.gmii
    rw [hafter, Prod.mk.injEq] at h2
    rw [hsent] at h3
    rw [wire, List.length_map]
    exact ⟨_, ⟨h1, h2.1 ▸ hm⟩, Prod.ext rfl h2.2, h3⟩

/-! ## Receiving -/

theorem gmii_delivered (xs : List (Pads 8)) : ∀ r : RX C, (receiver C .gmii).delivered r xs = gmiiRX.delivered r.gmii xs ∧
    ((receiver C .gmii).run r xs).gmii = gmiiRX.run r.gmii xs := by
  induction xs with
  | nil => exact fun _ => ⟨rfl, rfl⟩
  | cons x xs ih =>
    intro r
    obtain ⟨hdel, hrun⟩ := ih ((receiver C .gmii).next r x true)
    exact ⟨congrArg (_ ++ ·) hdel, hrun⟩

theorem mii_delivered (xs : List (Pads 8)) : ∀ r : RX C,
    (receiver C .mii).delivered r xs = (miiRX C).delivered r.mii (xs.map narrow) ∧
      ((receiver C .mii).run r xs).mii = (miiRX C).run r.mii (xs.map narrow) := by
  induction xs with
  | nil => exact fun _ => ⟨rfl, rfl⟩
  | cons x xs ih =>
    intro r
    obtain ⟨hdel, hrun⟩ := ih ((receiver C .mii).next r x true)
    exact ⟨congrArg (_ ++ ·) hdel, hrun⟩

theorem idle_narrow {xs : List (Pads 8)} (h : Idle xs) : Idle (xs.map narrow) := by
  rintro x hx
  obtain ⟨y, hy, rfl⟩ := List.mem_map.1 hx
  exact h y hy

theorem map_narrow_widen (xs : List (Pads 4)) : (xs.map widen).map narrow = xs := by
  rw [List.map_map]
  exact (List.map_congr_left fun x _ => narrow_widen x).trans (List.map_id xs)

section Rests

variable {r : RX C} {p : List (BitVec 8 × Bool)} {bs : List (BitVec 8)} {xs : List (Pads 8)}

theorem gmii_quiet (h : GMIIRX.Rests p r.gmii) (hxs : Idle xs) : ∃ p', (receiver C .gmii).delivered r xs ++ p' = p ∧
    GMIIRX.Rests p' ((receiver C .gmii).run r xs).gmii ∧ (1 ≤ xs.length → p' = []) := by
  obtain ⟨p', hp', hs', hnone⟩ := h.quiet hxs
  obtain ⟨hdel, hrun⟩ := gmii_delivered xs r
  exact ⟨p', by rw [hdel, hp'], by rw [hrun]; exact hs', fun _ => hnone (Nat.zero_le _)⟩

theorem gmii_frame (h : GMIIRX.Rests p r.gmii) (hne : bs ≠ []) (hxs : Idle xs) (hlen : 1 ≤ xs.length) :
    ∃ p', (receiver C .gmii).delivered r (wires .gmii bs ++ xs) ++ p' = p ++ marked bs ∧
      GMIIRX.Rests p' ((receiver C .gmii).run r (wires .gmii bs ++ xs)).gmii := by
  obtain ⟨p', hp', hs'⟩ := h.frame hne hxs hlen
  obtain ⟨hdel, hrun⟩ := gmii_delivered (wholes bs ++ xs) r
  exact ⟨p', by rw [wires, hdel, hp'], by rw [wires, hrun]; exact hs'⟩

theorem mii_quiet (h : MIIRX.Rests p r.mii) (hxs : Idle xs) : ∃ p', (receiver C .mii).delivered r xs ++ p' = p ∧
    MIIRX.Rests p' ((receiver C .mii).run r xs).mii ∧ (1 ≤ xs.length → p' = []) := by
  obtain ⟨p', hp', hs', hnone⟩ := h.quiet (idle_narrow hxs)
  obtain ⟨hdel, hrun⟩ := mii_delivered xs r
  exact ⟨p', by rw [hdel, hp'], by rw [hrun]; exact hs', fun hl => hnone (by rwa [List.length_map])⟩

theorem mii_frame (h : MIIRX.Rests p r.mii) (hne : bs ≠ []) (hxs : Idle xs) (hlen : 1 ≤ xs.length) :
    ∃ p', (receiver C .mii).delivered r (wires .mii bs ++ xs) ++ p' = p ++ marked bs ∧
      MIIRX.Rests p' ((receiver C .mii).run r (wires .mii bs ++ xs)).mii := by
  obtain ⟨p', hp', hs'⟩ := h.frame hne (idle_narrow hxs) (by rwa [List.length_map])
  obtain ⟨hdel, hrun⟩ := mii_delivered ((lines 4 2 bs).map widen ++ xs) r
  rw [List.map_append, map_narrow_widen] at hdel hrun
  exact ⟨p', by rw [wires, hdel, hp'], by rw [wires, hrun]; exact hs'⟩

end Rests

/-- The receiver that is chosen is between frames. -/
def Rests : Mode → List (BitVec 8 × Bool) → RX C → Prop
  | .gmii, p, r => GMIIRX.Rests p r.gmii
  | .mii, p, r => MIIRX.Rests p r.mii

/-- The frames of the mode that is chosen. -/
def recovers (C : StrideConverter 4 2) : ∀ mode, (receiver C mode).Recovers (wires mode) (fun _ => True) 1 1
  | .gmii =>
    { Rests := Rests .gmii
      reset := ⟨rfl, rfl⟩
      quiet := fun _ _ _ h hxs => gmii_quiet h hxs
      frame := fun _ _ _ _ h hne _ hxs hlen => gmii_frame h hne hxs hlen }
  | .mii =>
    { Rests := Rests .mii
      reset := .fresh rfl rfl C.parts_reset C.source_reset rfl
      quiet := fun _ _ _ h hxs => mii_quiet h hxs
      frame := fun _ _ _ _ h hne _ hxs hlen => mii_frame h hne hxs hlen }

/-! ## Changes of the mode -/

/-- Neither receiver has anything left. -/
structure Clean (r : RX C) : Prop where
  gmii : GMIIRX.Rests [] r.gmii
  mii : MIIRX.Rests [] r.mii

theorem Clean.rests {r : RX C} (h : Clean r) : ∀ mode, (recovers C mode).Rests [] r
  | .gmii => h.gmii
  | .mii => h.mii

/-- Two idle cycles leave nothing in the receivers, whatever was there. -/
theorem clean_of_idle (mode : Mode) (r : RX C) (l xs : List (Pads 8)) (hxs : Idle xs) (hlen : 2 ≤ xs.length) :
    Clean ((receiver C mode).run r (l ++ xs)) := by
  obtain ⟨ys, x, y, rfl⟩ : ∃ ys x y, xs = ys ++ [x, y] := by
    rcases List.eq_nil_or_concat xs with rfl | ⟨xs, y, rfl⟩
    · cases hlen
    · rcases List.eq_nil_or_concat xs with rfl | ⟨ys, x, rfl⟩
      · simp at hlen
      · exact ⟨ys, x, y, by simp⟩
  have hx : x.en = false := hxs x (by simp)
  have hy : y.en = false := hxs y (by simp)
  rw [← List.append_assoc, Receiver.run_append]
  generalize (receiver C mode).run r (l ++ ys) = r'
  have hreset : ∀ (s : MIIRX.State C) (x : Pads 4) (b : Bool), x.en = false → (s.next x b).reset = true := by
    intro s x b hx
    show (!x.en) = true
    rw [hx]
    rfl
  refine ⟨⟨hy, rfl⟩, .after (hreset _ _ _ hy) ?_⟩
  have hconv : (((receiver C mode).next r' x true).mii.next (narrow y) (mode == .mii && true)).converter = C.reset := by
    rw [MIIRX.State.next, hreset _ _ _ hx]
    rfl
  show (C.source (((receiver C mode).next r' x true).mii.next (narrow y) (mode == .mii && true)).converter).toList = []
  rw [hconv, C.source_reset]
  rfl

/-- Frames in one mode, apart by a cycle or more, with five idle cycles before the mode may change. -/
structure Session where
  mode : Mode
  before : List (BitVec 8)
  frames : List Traffic
  after : List (BitVec 8)
  apart : ∀ t ∈ frames, t.bytes ≠ [] ∧ t.idle ≠ []
  settled : 5 ≤ after.length

/-- What a session offers, cycle by cycle. -/
def Session.offers (x : Session) : List Offer := offered x.before x.frames x.after

/-- The cycles of a session: two for each byte in MII mode, and one for each other offer. -/
def Session.cycles (x : Session) : ℕ := (x.offers.flatMap (wire x.mode)).length

/-- What becomes of some sessions, each of which has its cycles: the offers that are not taken, and what is delivered. -/
def outcomes : (TX S × Pads 8) → (Pads 8 × RX C) → List Session → List (List Offer × List (BitVec 8 × Bool))
  | _, _, [] => []
  | t, r, x :: xs =>
    (((gmiimiiTX S x.mode).after x.cycles t x.offers).2,
      (gmiimiiRX C x.mode).delivered r ((gmiimiiTX S x.mode).line x.cycles t x.offers)) ::
    outcomes ((gmiimiiTX S x.mode).after x.cycles t x.offers).1
      ((gmiimiiRX C x.mode).run r ((gmiimiiTX S x.mode).line x.cycles t x.offers)) xs

theorem demux_idle (chosen : Bool) (d : BitVec 8) : (demux chosen ⟨false, d⟩).valid = false := by
  cases chosen <;> rfl

/-- A cycle in which nothing is offered. -/
theorem after_idle (mode : Mode) {t : TX S} (h : Ready t) (d : BitVec 8) :
    Ready ((transmitter S mode).next t ⟨false, d⟩) ∧
      ∀ mode', ((transmitter S mode').pads ((transmitter S mode).next t ⟨false, d⟩)).en = false := by
  refine ⟨⟨rfl, ?_⟩, ?_⟩
  · show S.count (S.step _ (demux _ ⟨false, d⟩).valid true) = 0
    rw [demux_idle, S.count_step _ _ _ (by rw [h.mii]; decide)]
    exact h.mii
  · rintro (_ | _)
    · exact demux_idle _ d
    · exact demux_idle _ d

/-- The registers between sessions. -/
structure Between (t : TX S × Pads 8) (r : Pads 8 × RX C) : Prop where
  ready : Ready t.1
  inner : ∀ mode, ((transmitter S mode).pads t.1).en = false
  outer : t.2.en = false
  pads : r.1.en = false
  clean : Clean r.2

/-- The offers of a session, the last two of which are for the registers on the line. -/
theorem Session.offers_eq (x : Session) : ∃ after d₁ d₂, 3 ≤ after.length ∧
    x.offers = offered x.before x.frames after ++ [⟨false, d₁⟩, ⟨false, d₂⟩] ∧
    x.cycles = ((offered x.before x.frames after).flatMap (wire x.mode)).length + 1 + 1 := by
  obtain ⟨mode, before, frames, after, apart, settled⟩ := x
  obtain ⟨after, d₁, d₂, rfl⟩ : ∃ ds d₁ d₂, after = ds ++ [d₁, d₂] := by
    rcases List.eq_nil_or_concat after with rfl | ⟨after, d₂, rfl⟩
    · cases settled
    · rcases List.eq_nil_or_concat after with rfl | ⟨after, d₁, rfl⟩
      · simp at settled
      · exact ⟨after, d₁, d₂, by simp⟩
  have hoffers : offered before frames (after ++ [d₁, d₂]) =
      offered before frames after ++ [⟨false, d₁⟩, ⟨false, d₂⟩] := by simp [offered]
  refine ⟨after, d₁, d₂, ?_, hoffers, ?_⟩
  · rw [List.length_append, List.length_cons, List.length_singleton] at settled
    omega
  · obtain ⟨x₁, h₁, -⟩ := (wires_wire mode).idle d₁
    obtain ⟨x₂, h₂, -⟩ := (wires_wire mode).idle d₂
    show ((offered before frames (after ++ [d₁, d₂])).flatMap (wire mode)).length = _
    rw [hoffers, List.flatMap_append, List.flatMap_cons, List.flatMap_singleton, h₁, h₂, List.length_append]
    rfl

/-- A session is delivered. -/
theorem Between.session {t : TX S × Pads 8} {r : Pads 8 × RX C} (h : Between t r) (x : Session) :
    ∃ t', (gmiimiiTX S x.mode).after x.cycles t x.offers = (t', []) ∧
      (gmiimiiRX C x.mode).delivered r ((gmiimiiTX S x.mode).line x.cycles t x.offers) =
        x.frames.flatMap (fun u => marked u.bytes) ∧
      Between t' ((gmiimiiRX C x.mode).run r ((gmiimiiTX S x.mode).line x.cycles t x.offers)) := by
  obtain ⟨t, q⟩ := t
  obtain ⟨y, r⟩ := r
  have hline : Idle [y, q] := by
    rintro z hz
    rcases List.mem_pair.1 hz with rfl | rfl
    · exact h.pads
    · exact h.outer
  obtain ⟨p, hp, hr, -⟩ := (recovers C x.mode).quiet [] r _ (h.clean.rests x.mode) hline
  obtain ⟨hnone, rfl⟩ := List.append_eq_nil_iff.1 hp
  have hts : ∀ u ∈ x.frames, u.bytes ≠ [] ∧ True ∧ 1 ≤ u.idle.length := fun u hu =>
    ⟨(x.apart u hu).1, trivial, List.length_pos_of_ne_nil (x.apart u hu).2⟩
  obtain ⟨after, d₁, d₂, hsettled, hoffers, hcycles⟩ := x.offers_eq
  obtain ⟨t', ht', hen, hafter, hdel, l, xs, hlx, hxs, hlen, -⟩ := (recovers C x.mode).session (wires_wire x.mode)
    (carries x.mode) h.ready (h.inner x.mode) hr x.before hts (lt_of_lt_of_le (by decide) hsettled)
    [⟨false, d₁⟩, ⟨false, d₂⟩]
  rw [← hoffers] at hafter hdel hlx
  rw [hcycles]
  generalize ((offered x.before x.frames after).flatMap (wire x.mode)).length = n at hafter hdel hlx ⊢
  -- the line after `n` cycles, and after two more
  obtain ⟨hready, hidle⟩ := after_idle x.mode ht' d₁
  obtain ⟨hready', hidle'⟩ := after_idle x.mode hready d₂
  have hafter₁ : (transmitter S x.mode).after (n + 1) t x.offers =
      ((transmitter S x.mode).next t' ⟨false, d₁⟩, [⟨false, d₂⟩]) := by
    rw [Transmitter.after_add]
    exact congrArg (fun a : TX S × List Offer => (transmitter S x.mode).after 1 a.1 a.2) hafter
  have hafter₂ : (transmitter S x.mode).after (n + 1 + 1) t x.offers =
      ((transmitter S x.mode).next ((transmitter S x.mode).next t' ⟨false, d₁⟩) ⟨false, d₂⟩, []) := by
    rw [Transmitter.after_add, hafter₁]
    rfl
  obtain ⟨hreg, hregafter⟩ := (transmitter S x.mode).registered_line (n + 1) t q x.offers
  have hpads : (transmitter S x.mode).line (n + 1) t x.offers = (l ++ xs) ++ [(transmitter S x.mode).pads t'] := by
    rw [Transmitter.line_concat]
    exact congrArg₂ (· ++ [(transmitter S x.mode).pads ·]) hlx (congrArg Prod.fst hafter)
  rw [hpads, ← List.cons_append] at hreg
  obtain ⟨hdelivered, hrun⟩ := (receiver C x.mode).registered_delivered (q :: (l ++ xs)) y
    ((transmitter S x.mode).pads t') r
  refine ⟨_, hregafter.trans (by rw [hafter₂]), ?_, ?_⟩
  · rw [hreg, hdelivered, show y :: q :: (l ++ xs) = [y, q] ++ (l ++ xs) from rfl, Receiver.delivered_append, hnone, ← hlx]
    exact hdel
  · rw [hreg, hrun, hafter₁]
    refine ⟨hready', hidle', hidle x.mode, hen, ?_⟩
    rw [← List.cons_append, ← List.cons_append]
    exact clean_of_idle x.mode r (y :: q :: l) xs hxs (by omega)

theorem Between.outcomes (xs : List Session) : ∀ {t : TX S × Pads 8} {r : Pads 8 × RX C}, Between t r →
    outcomes t r xs = xs.map fun x => ([], x.frames.flatMap fun u => marked u.bytes) := by
  induction xs with
  | nil => exact fun _ => rfl
  | cons x xs ih =>
    intro t r h
    obtain ⟨t', htaken, hdel, hbetween⟩ := h.session x
    rw [GMIIMII.outcomes, htaken, hdel, ih hbetween, List.map_cons]

end GMIIMII

/-- From the transmitter's second cycle after reset on, frames arrive in either mode, byte for byte and with their ends
marked, if there is an idle cycle between two of them, and the mode may be changed any number of times, if the transmitter
is idle for five cycles before each change: in each session all offers are taken and its frames are delivered, and nothing
of what a transmitter or a receiver did while it was not chosen, or in another mode. -/
theorem gmiimii_links (S : StrideSplitter 4 2) (C : StrideConverter 4 2) (xs : List GMIIMII.Session) :
    GMIIMII.outcomes ((gmiimiiTX S .gmii).next (gmiimiiTX S .gmii).reset .none) (gmiimiiRX C .gmii).reset xs =
      xs.map fun x => ([], x.frames.flatMap fun u => marked u.bytes) := by
  refine GMIIMII.Between.outcomes xs ⟨⟨rfl, ?_⟩, ?_, rfl, rfl, ⟨⟨rfl, rfl⟩, ?_⟩⟩
  · show S.count (S.step S.reset false true) = 0
    rw [S.count_step _ _ _ (by rw [S.count_reset]; decide)]
    exact S.count_reset
  · rintro (_ | _) <;> rfl
  · exact .fresh rfl rfl C.parts_reset C.source_reset rfl

namespace GMIIMII

/-- Frames in GMII mode, and one in MII mode after them. -/
def gmiiSession : Session :=
  ⟨.gmii, [], [⟨[0x55, 0xd5], [0]⟩, ⟨[0x2a], [0xff, 0xff]⟩], [0, 0, 0, 0, 0], by decide, by decide⟩

/-- A frame in MII mode, between idle cycles with other data. -/
def miiSession : Session := ⟨.mii, [0xff], [⟨[0x55, 0xd5, 0x2a], [0]⟩], [0xff, 0, 0, 0, 0], by decide, by decide⟩

end GMIIMII

theorem gmiimii_links_both :
    GMIIMII.outcomes ((gmiimiiTX (.counting 4 2) .gmii).next (gmiimiiTX (.counting 4 2) .gmii).reset .none)
        (gmiimiiRX (.packing 4 2) .gmii).reset [GMIIMII.gmiiSession, GMIIMII.miiSession, GMIIMII.gmiiSession] =
      [([], marked [0x55, 0xd5] ++ marked [0x2a]), ([], marked [0x55, 0xd5, 0x2a]),
        ([], marked [0x55, 0xd5] ++ marked [0x2a])] :=
  gmiimii_links (.counting 4 2) (.packing 4 2) [GMIIMII.gmiiSession, GMIIMII.miiSession, GMIIMII.gmiiSession]

end LiteEth.Phy
