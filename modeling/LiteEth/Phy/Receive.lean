/-
The receivers of the PHYs and the line from a transmitter to one. A receiver has no way to make the line wait: its
consumer is always ready.
-/
import LiteEth.Phy.Transmit
import LiteEth.Rtl.Stream

namespace LiteEth.Phy

open LiteEth.Rtl

/-- A receiver: its registers, and what is at its source, with its mark, while some pads are there. -/
structure Receiver (w : ℕ) where
  State : Type
  reset : State
  source : State → Pads w → Option (BitVec 8 × Bool)
  /-- The registers after a clock edge, given the pads and `source.ready`. -/
  next : State → Pads w → Bool → State

namespace Receiver

variable {w : ℕ} (R : Receiver w)

/-- The registers after some cycles. -/
def run (s : R.State) (xs : List (Pads w)) : R.State := xs.foldl (fun s x => R.next s x true) s

/-- The bytes that are delivered, each with its mark. -/
def delivered : R.State → List (Pads w) → List (BitVec 8 × Bool)
  | _, [] => []
  | s, x :: xs => (R.source s x).toList ++ delivered (R.next s x true) xs

@[simp] theorem run_nil (s : R.State) : R.run s [] = s := rfl

@[simp] theorem run_cons (s : R.State) (x : Pads w) (xs : List (Pads w)) :
    R.run s (x :: xs) = R.run (R.next s x true) xs := rfl

@[simp] theorem delivered_nil (s : R.State) : R.delivered s [] = [] := rfl

@[simp] theorem delivered_cons (s : R.State) (x : Pads w) (xs : List (Pads w)) :
    R.delivered s (x :: xs) = (R.source s x).toList ++ R.delivered (R.next s x true) xs := rfl

theorem run_append (s : R.State) (xs ys : List (Pads w)) : R.run s (xs ++ ys) = R.run (R.run s xs) ys :=
  List.foldl_append

theorem delivered_append (xs ys : List (Pads w)) : ∀ s,
    R.delivered s (xs ++ ys) = R.delivered s xs ++ R.delivered (R.run s xs) ys := by
  induction xs with
  | nil => exact fun _ => rfl
  | cons x xs ih =>
    intro s
    rw [List.cons_append, delivered_cons, delivered_cons, ih, List.append_assoc]
    rfl

end Receiver

/-- The line is idle. -/
def Idle {w : ℕ} (xs : List (Pads w)) : Prop := ∀ x ∈ xs, x.en = false

/-- What a receiver makes of the frames on a line: registers of the kind `Rests p` are those between frames with the
beats `p` still to be delivered, and `lines bs` are the pads for the bytes of a frame. -/
structure Receiver.Recovers {w : ℕ} (R : Receiver w) (lines : List (BitVec 8) → List (Pads w))
    (good : List (BitVec 8) → Prop) (gap settle : ℕ) where
  Rests : List (BitVec 8 × Bool) → R.State → Prop
  reset : Rests [] R.reset
  quiet : ∀ p s xs, Rests p s → Idle xs → ∃ p', R.delivered s xs ++ p' = p ∧ Rests p' (R.run s xs) ∧
    (settle ≤ xs.length → p' = [])
  frame : ∀ p s bs xs, Rests p s → bs ≠ [] → good bs → Idle xs → gap ≤ xs.length →
    ∃ p', R.delivered s (lines bs ++ xs) ++ p' = p ++ marked bs ∧ Rests p' (R.run s (lines bs ++ xs))

/-! ## The line -/

/-- A frame for a transmitter, and the offers of nothing after it. -/
structure Traffic where
  bytes : List (BitVec 8)
  idle : List (BitVec 8)

/-- What is offered for a frame and the idle cycles after it. -/
def Traffic.offers (t : Traffic) : List Offer := t.bytes.map (⟨true, ·⟩) ++ t.idle.map (⟨false, ·⟩)

/-- What is offered to a transmitter: frames, and nothing before and after them. -/
def offered (before : List (BitVec 8)) (ts : List Traffic) (after : List (BitVec 8)) : List Offer :=
  before.map (⟨false, ·⟩) ++ ts.flatMap Traffic.offers ++ after.map (⟨false, ·⟩)

/-- A transmitter and a receiver carry all frames that are `good`, apart by `gap` cycles, with more than `settle` of them
after the last one. -/
def Links {w : ℕ} (T : Transmitter w) (R : Receiver w) (good : List (BitVec 8) → Prop) (gap settle : ℕ) : Prop :=
  ∀ (before after : List (BitVec 8)) (ts : List Traffic),
    (∀ t ∈ ts, t.bytes ≠ [] ∧ good t.bytes ∧ gap ≤ t.idle.length) → settle < after.length →
    ∃ n, (T.after n T.reset (offered before ts after)).2 = [] ∧
      R.delivered R.reset (T.line n T.reset (offered before ts after)) = ts.flatMap fun t => marked t.bytes

section Link

variable {w : ℕ} {T : Transmitter w} {R : Receiver w} {wire : Offer → List (Pads w)}
  {lines : List (BitVec 8) → List (Pads w)} {good : List (BitVec 8) → Prop} {gap settle : ℕ}

/-- The wire for the bytes of a frame and for offers of nothing. -/
structure Wires (wire : Offer → List (Pads w)) (lines : List (BitVec 8) → List (Pads w)) : Prop where
  bytes : ∀ bs : List (BitVec 8), (bs.map (⟨true, ·⟩)).flatMap wire = lines bs
  idle : ∀ d, ∃ x : Pads w, wire ⟨false, d⟩ = [x] ∧ x.en = false

theorem Wires.quiet (h : Wires wire lines) (ds : List (BitVec 8)) : Idle ((ds.map (⟨false, ·⟩)).flatMap wire) ∧
    ((ds.map (⟨false, ·⟩)).flatMap wire).length = ds.length := by
  induction ds with
  | nil => exact ⟨nofun, rfl⟩
  | cons d ds ih =>
    obtain ⟨x, hx, hen⟩ := h.idle d
    rw [List.map_cons, List.flatMap_cons, hx]
    refine ⟨fun y hy => ?_, by simp [ih.2]⟩
    rcases List.mem_cons.1 hy with rfl | hy
    · exact hen
    · exact ih.1 y hy

theorem Wires.frame (h : Wires wire lines) (t : Traffic) :
    t.offers.flatMap wire = lines t.bytes ++ (t.idle.map (⟨false, ·⟩)).flatMap wire := by
  rw [Traffic.offers, List.flatMap_append, h.bytes]

/-- The frames are delivered one after the other. -/
theorem Receiver.Recovers.traffic (V : R.Recovers lines good gap settle) (hw : Wires wire lines) (ts : List Traffic)
    (hts : ∀ t ∈ ts, t.bytes ≠ [] ∧ good t.bytes ∧ gap ≤ t.idle.length) : ∀ p s, V.Rests p s →
      ∃ p', R.delivered s ((ts.flatMap Traffic.offers).flatMap wire) ++ p' = p ++ ts.flatMap (fun t => marked t.bytes) ∧
        V.Rests p' (R.run s ((ts.flatMap Traffic.offers).flatMap wire)) := by
  induction ts with
  | nil => exact fun p s hs => ⟨p, by simp, hs⟩
  | cons t ts ih =>
    intro p s hs
    obtain ⟨hne, hgood, hgap⟩ := hts t List.mem_cons_self
    obtain ⟨hidle, hlen⟩ := hw.quiet t.idle
    obtain ⟨p', hp', hs'⟩ := V.frame p s t.bytes _ hs hne hgood hidle (by rwa [hlen])
    rw [List.flatMap_cons, List.flatMap_append, hw.frame]
    generalize lines t.bytes ++ (t.idle.map (Offer.mk false)).flatMap wire = l at hp' hs'
    obtain ⟨p'', hp'', hs''⟩ := ih (fun u hu => hts u (List.mem_cons_of_mem _ hu)) p' _ hs'
    rw [R.delivered_append, R.run_append]
    refine ⟨p'', ?_, hs''⟩
    rw [List.append_assoc, hp'', ← List.append_assoc, hp', List.flatMap_cons, List.append_assoc]

/-- What a receiver makes of frames for a transmitter, in the cycles in which these are taken: they are delivered, and the
line is idle in the end. Other offers may follow. -/
theorem Receiver.Recovers.session (V : R.Recovers lines good gap settle) (hw : Wires wire lines) {Q : T.State → Prop}
    (C : T.Carries Q wire) {t : T.State} {r : R.State} (ht : Q t) (hpads : (T.pads t).en = false) (hr : V.Rests [] r)
    (before : List (BitVec 8)) {after : List (BitVec 8)} {ts : List Traffic}
    (hts : ∀ t ∈ ts, t.bytes ≠ [] ∧ good t.bytes ∧ gap ≤ t.idle.length) (hafter : settle < after.length)
    (rest : List Offer) :
    let n := ((offered before ts after).flatMap wire).length
    ∃ t', Q t' ∧ (T.pads t').en = false ∧ T.after n t (offered before ts after ++ rest) = (t', rest) ∧
      R.delivered r (T.line n t (offered before ts after ++ rest)) = ts.flatMap (fun t => marked t.bytes) ∧
      ∃ l xs, T.line n t (offered before ts after ++ rest) = l ++ xs ∧ Idle xs ∧ xs.length + 1 = after.length ∧
        V.Rests [] (R.run r (l ++ xs)) := by
  obtain ⟨after, d, rfl⟩ : ∃ ds d, after = ds ++ [d] := by
    rcases List.eq_nil_or_concat after with rfl | ⟨ds, d, rfl⟩
    · cases hafter
    · exact ⟨ds, d, List.concat_eq_append⟩
  obtain ⟨t', ht', hrun, hsent⟩ := C.run (offered before ts (after ++ [d])) rest t ht
  obtain ⟨hbefore, -⟩ := hw.quiet before
  obtain ⟨hidle, hlen⟩ := hw.quiet after
  obtain ⟨x, hx, hen⟩ := hw.idle d
  have hfirst : Idle (T.pads t :: (before.map (Offer.mk false)).flatMap wire) := by
    rintro y hy
    rcases List.mem_cons.1 hy with rfl | hy
    · exact hpads
    · exact hbefore y hy
  obtain ⟨p, hp, hs, -⟩ := V.quiet [] r _ hr hfirst
  obtain ⟨hp0, rfl⟩ := List.append_eq_nil_iff.1 hp
  obtain ⟨p', hp', hs'⟩ := V.traffic hw ts hts [] _ hs
  obtain ⟨p'', hp'', hs'', hnone⟩ := V.quiet p' _ _ hs' hidle
  obtain rfl := hnone (by
    rw [hlen]
    simpa using Nat.lt_succ_iff.1 (by simpa using hafter))
  rw [List.append_nil] at hp''
  -- the pads in the cycles are those that were sent, but for the last ones
  have hwire : (offered before ts (after ++ [d])).flatMap wire = (before.map (Offer.mk false)).flatMap wire ++
      (ts.flatMap Traffic.offers).flatMap wire ++ (after.map (Offer.mk false)).flatMap wire ++ [x] := by
    simp [offered, hx]
  intro n
  have hn : n = ((offered before ts (after ++ [d])).flatMap wire).length := rfl
  rw [← hn] at hrun hsent
  have hboth := T.line_sent n t (offered before ts (after ++ [d]) ++ rest)
  rw [T.line_concat, hrun, hsent, hwire, ← List.cons_append, ← List.cons_append, ← List.cons_append] at hboth
  obtain ⟨hline, hlast⟩ := List.append_inj' hboth rfl
  obtain ⟨hlast, -⟩ := List.cons.inj hlast
  refine ⟨t', ht', by rw [hlast]; exact hen, hrun, ?_, _, _, hline, hidle, ?_, ?_⟩
  · rw [hline, R.delivered_append, R.delivered_append, hp0, List.nil_append, R.run_append, hp'']
    exact hp'
  · rw [hlen, List.length_append, List.length_singleton]
  · rw [R.run_append, R.run_append]
    exact hs''

/-- A transmitter and a receiver for the same wire are a link. -/
theorem Receiver.Recovers.links (V : R.Recovers lines good gap settle) (hw : Wires wire lines) {Q : T.State → Prop}
    (C : T.Carries Q wire) (hreset : Q T.reset) (hpads : (T.pads T.reset).en = false) : Links T R good gap settle := by
  intro before after ts hts hafter
  obtain ⟨t', -, -, hrun, hdel, -⟩ := V.session hw C hreset hpads V.reset before hts hafter []
  rw [List.append_nil] at hrun hdel
  exact ⟨_, by rw [hrun], hdel⟩

end Link

/-- The pads for the bytes of a frame, in parts. -/
def lines (w ratio : ℕ) (bs : List (BitVec 8)) : List (Pads w) := bs.flatMap fun b => (split w ratio b).map (⟨true, ·⟩)

theorem wires_parts (w ratio : ℕ) : Wires (parts w ratio) (lines w ratio) where
  bytes bs := by
    rw [List.flatMap_map]
    rfl
  idle d := ⟨_, rfl, rfl⟩

end LiteEth.Phy
