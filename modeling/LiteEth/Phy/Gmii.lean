/-
`phy/gmii.py`: a byte in each cycle. The transmitter's `sink.ready` is a register that is not set out of reset, while its
pads show what is at the sink whether it is taken or not: a byte that is there in the first cycle is sent twice.
-/
import LiteEth.Phy.Receive

namespace LiteEth.Phy

open LiteEth.Rtl

/-! ## The transmitter -/

/-- The registers of the pads and of `sink.ready`. -/
structure GMIITX.State where
  pads : Pads 8
  ready : Bool

/-- `LiteEthPHYGMIITX`. -/
abbrev gmiiTX : Transmitter 8 where
  State := GMIITX.State
  reset := ⟨⟨false, 0⟩, false⟩
  pads s := s.pads
  ready s := s.ready
  next _ o := ⟨⟨o.valid, o.data⟩, true⟩

/-- The pads for an offer. -/
def whole (o : Offer) : List (Pads 8) := [⟨o.valid, o.data⟩]

/-- The pads for the bytes of a frame. -/
def wholes (bs : List (BitVec 8)) : List (Pads 8) := bs.map (⟨true, ·⟩)

theorem wires_whole : Wires whole wholes where
  bytes bs := by
    rw [List.flatMap_map]
    exact List.map_eq_flatMap.symm
  idle d := ⟨_, rfl, rfl⟩

theorem gmiiTX_carries : gmiiTX.Carries (fun s => s.ready = true) whole := by
  refine ⟨fun s o q hs => ⟨gmiiTX.next s o, rfl, ?_, rfl⟩⟩
  show (gmiiTX.next s o, if o.valid && !s.ready then o :: q else q) = (gmiiTX.next s o, q)
  rw [hs, Bool.not_true, Bool.and_false]
  rfl

/-! ## The receiver -/

namespace GMIIRX

/-- The registers: `dv_d`, and the byte at the source with its `valid`. -/
structure State where
  dvD : Bool
  valid : Bool
  data : BitVec 8

end GMIIRX

/-- `LiteEthPHYGMIIRX`, whose source waits for nobody. -/
abbrev gmiiRX : Receiver 8 where
  State := GMIIRX.State
  reset := ⟨false, false, 0⟩
  source s x := if s.valid then some (s.data, !x.en && s.dvD) else none
  next _ x _ := ⟨x.en, x.en, x.data⟩

namespace GMIIRX

/-- Between frames. -/
structure Rests (p : List (BitVec 8 × Bool)) (s : State) : Prop where
  valid : s.valid = false
  none_left : p = []

variable {p : List (BitVec 8 × Bool)} {s : State}

theorem Rests.quiet {xs : List (Pads 8)} (h : Rests p s) (hxs : Idle xs) : ∃ p', gmiiRX.delivered s xs ++ p' = p ∧
    Rests p' (gmiiRX.run s xs) ∧ (0 ≤ xs.length → p' = []) := by
  obtain ⟨hvalid, rfl⟩ := h
  refine ⟨[], ?_, ?_, fun _ => rfl⟩
  · rw [List.append_nil]
    induction xs generalizing s with
    | nil => rfl
    | cons x xs ih =>
      have hx := hxs x List.mem_cons_self
      have hsource : gmiiRX.source s x = none := if_neg (by rw [hvalid]; decide)
      rw [Receiver.delivered_cons, ih (fun y hy => hxs y (List.mem_cons_of_mem x hy)) hx, hsource]
      rfl
  · induction xs generalizing s with
    | nil => exact ⟨hvalid, rfl⟩
    | cons x xs ih =>
      have hx := hxs x List.mem_cons_self
      exact ih (fun y hy => hxs y (List.mem_cons_of_mem x hy)) hx

/-- From a byte in the registers to the first idle cycle. -/
theorem frame (bs : List (BitVec 8)) : ∀ (b : BitVec 8) (y : Pads 8), y.en = false →
    gmiiRX.delivered ⟨true, true, b⟩ (wholes bs ++ [y]) = marked (b :: bs) ∧
      (gmiiRX.run ⟨true, true, b⟩ (wholes bs ++ [y])).valid = false := by
  induction bs with
  | nil =>
    intro b y hy
    refine ⟨?_, hy⟩
    show [(b, !y.en && true)] = _
    rw [hy]
    rfl
  | cons b' bs ih =>
    intro b y hy
    obtain ⟨hdel, hrun⟩ := ih b' y hy
    refine ⟨?_, hrun⟩
    rw [marked_cons_cons, ← hdel]
    rfl

theorem Rests.frame (h : Rests p s) {bs : List (BitVec 8)} {xs : List (Pads 8)} (hne : bs ≠ []) (hxs : Idle xs)
    (hlen : 1 ≤ xs.length) : ∃ p', gmiiRX.delivered s (wholes bs ++ xs) ++ p' = p ++ marked bs ∧
      Rests p' (gmiiRX.run s (wholes bs ++ xs)) := by
  obtain ⟨hvalid, rfl⟩ := h
  obtain ⟨b, bs, rfl⟩ := List.exists_cons_of_ne_nil hne
  obtain ⟨y, ys, rfl⟩ := List.exists_cons_of_length_pos hlen
  obtain ⟨hdel, hrun⟩ := GMIIRX.frame bs b y (hxs y List.mem_cons_self)
  have hrest : Rests [] (gmiiRX.run ⟨true, true, b⟩ (wholes bs ++ [y])) := ⟨hrun, rfl⟩
  have hys : Idle ys := fun x hx => hxs x (List.mem_cons_of_mem y hx)
  obtain ⟨p', hp', hs', -⟩ := hrest.quiet hys
  obtain ⟨hnone, rfl⟩ := List.append_eq_nil_iff.1 hp'
  have hline : wholes (b :: bs) ++ y :: ys = ⟨true, b⟩ :: ((wholes bs ++ [y]) ++ ys) := by simp [wholes]
  refine ⟨[], ?_, ?_⟩
  · rw [hline, Receiver.delivered_cons, Receiver.delivered_append]
    show (if s.valid then _ else none).toList ++ _ ++ [] = _
    rw [hdel, hnone, hvalid]
    simp
  · rw [hline, Receiver.run_cons, Receiver.run_append]
    exact hs'

/-- The receiver recovers the bytes of every line, one cycle after each of them, and rests after one idle cycle. -/
def recovers : gmiiRX.Recovers wholes (fun _ => True) 1 0 where
  Rests := Rests
  reset := ⟨rfl, rfl⟩
  quiet _ _ _ h hxs := h.quiet hxs
  frame _ _ _ _ h hne _ hxs hlen := h.frame hne hxs hlen

end GMIIRX

/-! ## The link -/

/-- The transmitter a cycle after reset. -/
def GMIITX.started : GMIITX.State := ⟨⟨false, 0⟩, true⟩

/-- What the transmitter makes of the first offer. -/
def early : List Offer → List Offer
  | [] => []
  | o :: q => if o.valid then o :: o :: q else o :: q

/-- Out of reset it is one that has started, with the byte of the first cycle offered twice. -/
theorem gmiiTX_early (n : ℕ) (q : List Offer) :
    gmiiTX.line (n + 1) gmiiTX.reset q = gmiiTX.line (n + 1) GMIITX.started (early q) ∧
      gmiiTX.after (n + 1) gmiiTX.reset q = gmiiTX.after (n + 1) GMIITX.started (early q) := by
  rcases q with _ | ⟨⟨v, d⟩, q⟩
  · exact ⟨rfl, rfl⟩
  · cases v <;> exact ⟨rfl, rfl⟩

/-- The frames, with the first byte of the first one twice. -/
def Traffic.doubled : List Traffic → List Traffic
  | [] => []
  | t :: ts => { t with bytes := t.bytes.head?.toList ++ t.bytes } :: ts

theorem early_offered (before after : List (BitVec 8)) (ts : List Traffic) (hts : ∀ t ∈ ts, t.bytes ≠ []) :
    early (offered before ts after) = offered before (if before = [] then Traffic.doubled ts else ts) after := by
  rcases before with _ | ⟨d, before⟩
  · rw [if_pos rfl]
    rcases ts with _ | ⟨⟨bytes, idle⟩, ts⟩
    · cases after <;> rfl
    · obtain ⟨b, bs, rfl⟩ : ∃ b bs, bytes = b :: bs := List.exists_cons_of_ne_nil (hts _ List.mem_cons_self)
      rfl
  · rw [if_neg (List.cons_ne_nil d before)]
    rfl

/-- Over GMII every frame arrives, byte for byte and with its end marked, if there is a cycle between two frames; only
the first byte of a frame that is there in the first cycle out of reset arrives twice. -/
theorem gmii_link (before after : List (BitVec 8)) (ts : List Traffic)
    (hts : ∀ t ∈ ts, t.bytes ≠ [] ∧ t.idle ≠ []) (hafter : after ≠ []) :
    ∃ n, (gmiiTX.after n gmiiTX.reset (offered before ts after)).2 = [] ∧
      gmiiRX.delivered gmiiRX.reset (gmiiTX.line n gmiiTX.reset (offered before ts after)) =
        (if before = [] then Traffic.doubled ts else ts).flatMap fun t => marked t.bytes := by
  have hts' : ∀ t ∈ if before = [] then Traffic.doubled ts else ts, t.bytes ≠ [] ∧ True ∧ 1 ≤ t.idle.length := by
    have hall : ∀ t ∈ ts, t.bytes ≠ [] ∧ True ∧ 1 ≤ t.idle.length := fun t ht =>
      ⟨(hts t ht).1, trivial, List.length_pos_of_ne_nil (hts t ht).2⟩
    split_ifs
    · rcases ts with _ | ⟨t, ts⟩
      · exact nofun
      · rintro u hu
        rcases List.mem_cons.1 hu with rfl | hu
        · obtain ⟨hne, -, hgap⟩ := hall t List.mem_cons_self
          exact ⟨List.append_ne_nil_of_right_ne_nil _ hne, trivial, hgap⟩
        · exact hall u (List.mem_cons_of_mem t hu)
    · exact hall
  obtain ⟨t', -, -, hrun, hdel, -⟩ := GMIIRX.recovers.session wires_whole gmiiTX_carries (t := GMIITX.started)
    (r := gmiiRX.reset) rfl rfl GMIIRX.recovers.reset before hts' (List.length_pos_of_ne_nil hafter) []
  rw [List.append_nil] at hrun hdel
  generalize ((offered before (if before = [] then Traffic.doubled ts else ts) after).flatMap whole).length = n at hrun hdel
  rw [← early_offered before after ts fun t ht => (hts t ht).1] at hrun hdel
  rcases n with _ | n
  · -- no cycle takes no offer
    have hnone : early (offered before ts after) = [] := congrArg Prod.snd hrun
    rw [early_offered before after ts fun t ht => (hts t ht).1, offered, List.append_eq_nil_iff, List.map_eq_nil_iff] at hnone
    exact absurd hnone.2 hafter
  · obtain ⟨hline, hsame⟩ := gmiiTX_early n (offered before ts after)
    exact ⟨n + 1, by rw [hsame, hrun], by rw [hline, hdel]⟩

theorem gmii_link_two : ∃ n, (gmiiTX.after n gmiiTX.reset (offered [] [⟨[0x55, 0xd5], [0]⟩, ⟨[1], [0]⟩] [0])).2 = [] ∧
    gmiiRX.delivered gmiiRX.reset (gmiiTX.line n gmiiTX.reset (offered [] [⟨[0x55, 0xd5], [0]⟩, ⟨[1], [0]⟩] [0])) =
      (if ([] : List (BitVec 8)) = [] then Traffic.doubled [⟨[0x55, 0xd5], [0]⟩, ⟨[1], [0]⟩]
        else [⟨[0x55, 0xd5], [0]⟩, ⟨[1], [0]⟩]).flatMap fun t => marked t.bytes :=
  gmii_link [] [0] [⟨[0x55, 0xd5], [0]⟩, ⟨[1], [0]⟩] (by decide) (by decide)

end LiteEth.Phy
