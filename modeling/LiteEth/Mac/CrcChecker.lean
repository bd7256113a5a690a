/-
`mac/crc.py`: the CRC checker. A FIFO delays the frame by the width of the CRC, so that its last
word leaves together with the end of the FCS. The handshake of the sink does not depend on the FSM:
in `RESET`, where the CRC and the FIFO are cleared, a beat is taken as in any other state, and lost.
-/
import LiteEth.Mac.Crc
import LiteEth.Mac.Sram
import LiteEth.Rtl.Stream

namespace LiteEth.Mac

open LiteEth.Rtl

namespace CRCChecker

/-- The states of the FSM. -/
inductive Fsm
  | reset
  | idle
  | copy
  deriving DecidableEq, Repr

/-- `ratio`, the words of the CRC. -/
def ratio (dw : ℕ) : ℕ := CRC32.width / dw

variable {dw : ℕ} (F : SyncFIFO (PhyBeat dw) (ratio dw + 1))

/-- The registers: the FSM, the CRC, and those of the FIFO of the check sequence. -/
structure State where
  fsm : Fsm
  crc : BitVec CRC32.width
  fifo : F.State

/-- The registers after reset. -/
def State.init : State F := { fsm := .reset, crc := CRC32.init, fifo := F.reset }

variable {F} (s : State F) (b : Option (PhyBeat dw)) (r : Bool)

/-- The FIFO holds as many beats as the check sequence has. -/
def State.fifoFull : Bool := F.level s.fifo == ratio dw

/-- A beat leaves the FIFO only as another one comes. -/
def State.sourceValid : Bool := b.isSome && s.fifoFull

/-- The beat at the source is taken. -/
def State.fifoOut : Bool := s.sourceValid b && r

/-- It is also `sink.ready`. -/
def State.fifoIn : Bool := b.isSome && (!s.fifoFull || s.fifoOut b r)

/-- `crc.error`. -/
def State.crcError (x : PhyBeat dw) : Bool := CRC32.error s.crc x.data

/-- The oldest beat of the FIFO, with the marks of the beat at the sink. -/
def State.source : Option (PhyBeat dw) :=
  if s.fifoFull then
    b.map fun x => { F.sourceData s.fifo with
      last := x.last, error := x.error ||| (BitVec.ofBool (s.crcError x)).setWidth (dw / 8) }
  else none

/-- The `error` output. -/
def State.error : Bool := b.any fun x => s.fifoFull && x.last && s.crcError x

/-- One cycle of the checker. -/
def State.next : State F where
  fsm := match s.fsm with
    | .reset => .idle
    | .idle => if s.fifoIn b r then .copy else .idle
    | .copy => if s.fifoIn b r && b.any (·.last) then .reset else .copy
  crc := CRC32.step s.crc
    { reset := s.fsm == .reset, ce := s.fsm != .reset && s.fifoIn b r, data := b.elim 0 (·.data) }
  fifo := if s.fsm = .reset then F.reset else F.step s.fifo (if s.fifoIn b r then b else none) (s.fifoOut b r)

end CRCChecker

/-- `LiteEthMACCRC32Checker`. -/
abbrev crc32Checker {ε : Type} {dw : ℕ} (F : SyncFIFO (PhyBeat dw) (CRCChecker.ratio dw + 1)) :
    Stage ε (PhyBeat dw) (PhyBeat dw) where
  State := CRCChecker.State F
  reset := CRCChecker.State.init F
  source s _ b := s.source b
  ready s _ b r := s.fifoIn b r
  step s _ b r := s.next b r

namespace CRCChecker

/-! ## What is delivered for a frame -/

/-- The bytes of some beats. -/
def bytes (f : List (PhyBeat 8)) : List (BitVec 8) := f.map (·.data)

/-- The beats of a frame before its FCS. -/
def body (f : List (PhyBeat 8)) : List (PhyBeat 8) := f.take (f.length - 4)

/-- The check sequence of a frame. -/
def fcs (f : List (PhyBeat 8)) : List (PhyBeat 8) := f.drop (f.length - 4)

/-- The FCS is the CRC-32 of the bytes before it. -/
def FcsRight (f : List (PhyBeat 8)) : Prop := bytes (fcs f) = splitBytes (crc32 (bytes (body f))) 4

instance (f : List (PhyBeat 8)) : Decidable (FcsRight f) := inferInstanceAs (Decidable (_ = _))

/-- The last beat of a frame with the right FCS has no error of its own. -/
def LastClean (f : List (PhyBeat 8)) : Prop := FcsRight f → ∀ b ∈ f.getLast?, b.error = 0

/-- A delivered byte, with the error flag if it is the last of its frame. -/
def seen (b : PhyBeat 8) : BitVec 8 × Option Bool := (b.data, if b.last then some (b.error != 0) else none)

/-- What is to be delivered for the first beats of a frame. -/
def partly (f : List (PhyBeat 8)) : List (BitVec 8 × Option Bool) := (bytes (body f)).map (·, none)

/-- What is to be delivered for a frame: its bytes without the FCS, the last of them with the verdict. -/
def wholly (f : List (PhyBeat 8)) : List (BitVec 8 × Option Bool) :=
  (bytes (body f)).dropLast.map (·, none) ++ (bytes (body f)).getLast?.toList.map (·, some !decide (FcsRight f))

/-- The running CRC is the residue iff the last four bytes are right. -/
theorem error_iff {f : List (PhyBeat 8)} (hf : 3 ≤ f.length) (b : PhyBeat 8) :
    CRC32.error (CRC32.after (bytes f)) b.data = false ↔ FcsRight (f ++ [b]) := by
  have hlen : (f.drop (f.length - 3)).length = 3 := by rw [List.length_drop]; omega
  obtain ⟨x, y, z, h3⟩ := List.length_eq_three.1 hlen
  have hsplit : f = f.take (f.length - 3) ++ [x, y, z] := by rw [← h3, List.take_append_drop]
  generalize f.take (f.length - 3) = m at hsplit
  subst hsplit
  unfold FcsRight body fcs bytes
  have hn : (m ++ [x, y, z] ++ [b]).length - 4 = m.length := by simp
  rw [hn]
  simp only [List.append_assoc, List.cons_append, List.nil_append, List.drop_left, List.take_left, List.map_append,
    List.map_cons, List.map_nil]
  exact CRC32.error_after_eq_false_iff _ _ _ _ _

/-! ## One cycle -/

variable {F : SyncFIFO (PhyBeat 8) (ratio 8 + 1)}

/-- The FIFO and the CRC after the beats `f` of a frame. -/
structure Fed (s : State F) (f : List (PhyBeat 8)) : Prop where
  fifo : F.contents s.fifo = f.drop (f.length - 4)
  crc : s.crc = CRC32.after (bytes f)

/-- The state between two beats, `f` those taken since the last `RESET`. -/
structure Inv (s : State F) (f : List (PhyBeat 8)) : Prop where
  copy : s.fsm = .copy ↔ f ≠ []
  fed : s.fsm ≠ .reset → Fed s f

theorem inv_init : Inv (State.init F) [] := by
  constructor
  · unfold State.init; simp
  · exact fun h => absurd rfl h

theorem Fed.fifoFull {s : State F} {f : List (PhyBeat 8)} (h : Fed s f) : s.fifoFull = true ↔ 4 ≤ f.length := by
  unfold State.fifoFull SyncFIFO.level
  rw [h.fifo, List.length_drop, beq_iff_eq]
  show _ = 4 ↔ _
  omega

/-- The oldest byte in the FIFO. -/
theorem Fed.head {s : State F} {f : List (PhyBeat 8)} (h : Fed s f) (hf : 4 ≤ f.length) :
    F.sourceData s.fifo = f[f.length - 4] := by
  apply F.sourceData_eq s.fifo _ (f.drop (f.length - 4 + 1))
  rw [h.fifo, List.drop_eq_getElem_cons (by omega)]

/-- A beat is taken unless the FIFO is full and the consumer is not ready. -/
theorem fifoIn_iff {s : State F} (b : PhyBeat 8) (r : Bool) :
    s.fifoIn (some b) r = (!s.fifoFull || r) := by
  unfold State.fifoIn State.fifoOut State.sourceValid
  cases s.fifoFull <;> simp

theorem fifoOut_eq {s : State F} (b : PhyBeat 8) (r : Bool) : s.fifoOut (some b) r = (s.fifoFull && r) := by
  unfold State.fifoOut State.sourceValid
  simp

/-- The FIFO and the CRC after one more beat. -/
theorem Fed.next {s : State F} {f : List (PhyBeat 8)} (h : Fed s f) (hs : s.fsm ≠ .reset) {b : PhyBeat 8} {r : Bool}
    (hin : s.fifoIn (some b) r = true) : Fed (s.next (some b) r) (f ++ [b]) := by
  -- the FIFO holds the last four beats, and the remainder is that of all of them
  have hfull := h.fifoFull
  rw [fifoIn_iff] at hin
  constructor
  · have hready : F.sinkReady s.fifo = true := by
      rw [F.sinkReady_iff, h.fifo, List.length_drop]
      show _ < 5
      -- with four beats inside the oldest leaves as the new one enters
      by_cases h4 : 4 ≤ f.length
      · omega
      · omega
    unfold State.next
    simp only [hs, if_false, F.contents_step, hready, if_true, fifoIn_iff, fifoOut_eq, hin, Option.toList_some]
    rw [h.fifo, List.length_append, List.length_singleton]
    by_cases h4 : 4 ≤ f.length
    · rw [hfull.2 h4] at hin ⊢
      simp only [Bool.not_true, Bool.false_or] at hin
      rw [hin, Bool.and_true, if_pos rfl, List.tail_drop, List.drop_append_of_le_length (by omega)]
      congr 2; omega
    · rw [(Bool.not_eq_true _).mp fun h => h4 (hfull.1 h), Bool.false_and, if_neg (by simp)]
      rw [show f.length - 4 = 0 by omega, show f.length + 1 - 4 = 0 by omega]; rfl
  · unfold State.next
    simp only [fifoIn_iff, hin, Bool.and_true]
    have hreset : (s.fsm == .reset) = false := by simpa using hs
    have hce : (s.fsm != .reset) = true := by simpa using hs
    rw [hreset, hce, h.crc]
    unfold bytes
    rw [List.map_append, List.map_singleton, CRC32.after_concat]; rfl

/-- A cycle in which no beat is taken. -/
theorem Inv.idle {s : State F} {f : List (PhyBeat 8)} (h : Inv s f) {b : Option (PhyBeat 8)} {r : Bool}
    (hin : s.fifoIn b r = false) : Inv (s.next b r) f ∧ (s.source b = none ∨ r = false) := by
  -- what does not enter lets nothing out either
  have hout : s.fifoOut b r = false := by
    cases b with
    | none => rfl
    | some b =>
      rw [fifoIn_iff] at hin
      rw [fifoOut_eq]
      cases hf : s.fifoFull <;> simp_all
  constructor
  · cases hs : s.fsm with
    | reset =>
      have hf : f = [] := by
        by_contra hf
        rw [h.copy.2 hf] at hs; cases hs
      subst hf
      constructor
      · unfold State.next; simp [hs]
      · intro _
        constructor
        · unfold State.next; simp [hs, F.contents_reset]
        · unfold State.next; simp only [hs]; rfl
    | idle | copy =>
      have hfed := h.fed (by simp [hs])
      constructor
      · rw [← h.copy]
        unfold State.next; simp [hs, hin]
      · intro _
        constructor
        · unfold State.next; simp [hs, hin, hout, hfed.fifo]
        · unfold State.next; simp only [hs, hin]; exact hfed.crc
  · cases b with
    | none =>
      left
      unfold State.source; simp
    | some b =>
      rw [fifoIn_iff] at hin
      rw [fifoOut_eq] at hout
      right
      cases r <;> simp_all

/-- The beats since the last `RESET` after one more: a beat with `last` leads there, unless it is the first. -/
def track (f : List (PhyBeat 8)) (b : PhyBeat 8) : List (PhyBeat 8) := if b.last ∧ f ≠ [] then [] else f ++ [b]

/-- A cycle in which a beat is taken, not in `RESET`. -/
theorem Inv.take {s : State F} {f : List (PhyBeat 8)} (h : Inv s f) {b : PhyBeat 8} {r : Bool}
    (hin : s.fifoIn (some b) r = true) (hs : s.fsm ≠ .reset) : Inv (s.next (some b) r) (track f b) := by
  have hfsm : (s.next (some b) r).fsm = if b.last ∧ f ≠ [] then .reset else .copy := by
    unfold State.next
    simp only [hin]
    cases hf : s.fsm with
    | reset => exact absurd hf hs
    | idle =>
      have hnil : ¬ (b.last = true ∧ f ≠ []) := fun hc => by
        rw [h.copy.2 hc.2] at hf; cases hf
      rw [if_neg hnil]; rfl
    | copy =>
      have hne := h.copy.1 hf
      cases hl : b.last <;> simp [hl, hne]
  unfold track
  by_cases hl : b.last = true ∧ f ≠ []
  · rw [if_pos hl] at hfsm ⊢
    constructor
    · rw [hfsm]; simp
    · exact fun hn => absurd hfsm hn
  · rw [if_neg hl] at hfsm ⊢
    constructor
    · rw [hfsm]; simp
    · exact fun _ => (h.fed hs).next hs hin

/-- What is at the source with a beat after the beats `f`. -/
def emit (f : List (PhyBeat 8)) (b : PhyBeat 8) : Option (PhyBeat 8) :=
  if h : 4 ≤ f.length then
    some { f[f.length - 4] with
      last := b.last, error := b.error ||| (BitVec.ofBool (CRC32.error (CRC32.after (bytes f)) b.data)).setWidth 1 }
  else none

theorem Fed.source {s : State F} {f : List (PhyBeat 8)} (h : Fed s f) (b : PhyBeat 8) :
    s.source (some b) = emit f b := by
  unfold State.source emit
  by_cases h4 : 4 ≤ f.length
  · rw [if_pos (h.fifoFull.2 h4), dif_pos h4, ← h.crc, ← h.head h4]; rfl
  · rw [if_neg (fun hc => h4 (h.fifoFull.1 hc)), dif_neg h4]

/-- In a cycle in which the beat is taken, it is given. -/
theorem Fed.gives {s : State F} {f : List (PhyBeat 8)} (h : Fed s f) {b : PhyBeat 8} {r : Bool}
    (hin : s.fifoIn (some b) r = true) : (if r then s.source (some b) else none) = emit f b := by
  rw [h.source]
  cases r with
  | true => rfl
  | false =>
    have hfull : s.fifoFull = false := by
      rw [fifoIn_iff] at hin
      simpa using hin
    unfold emit
    rw [dif_neg (fun h4 => by rw [h.fifoFull.2 h4] at hfull; cases hfull)]; rfl

theorem body_concat {f : List (PhyBeat 8)} (hf : 4 ≤ f.length) (b : PhyBeat 8) :
    body (f ++ [b]) = body f ++ [f[f.length - 4]] := by
  unfold body
  rw [List.length_append, List.length_singleton, List.take_append_of_le_length (by omega),
    show f.length + 1 - 4 = f.length - 4 + 1 by omega, List.take_succ_eq_append_getElem (by omega)]

theorem body_eq_nil {f : List (PhyBeat 8)} (hf : f.length ≤ 4) : body f = [] := by
  unfold body
  rw [show f.length - 4 = 0 by omega, List.take_zero]

/-- The error flag of a delivered beat. -/
theorem error_or (e : BitVec 1) (c : Bool) : ((e ||| (BitVec.ofBool c).setWidth 1) != 0) = ((e != 0) || c) := by
  revert e c
  decide

/-- What is emitted with a beat is what is to be delivered for it. -/
theorem emit_seen {f : List (PhyBeat 8)} {b : PhyBeat 8} (he : b.last = true → FcsRight (f ++ [b]) → b.error = 0)
    (hf : b.last = true → 4 ≤ f.length) :
    partly f ++ (emit f b).toList.map seen = if b.last then wholly (f ++ [b]) else partly (f ++ [b]) := by
  -- the beat that leaves is four before the one that enters
  by_cases h4 : 4 ≤ f.length
  · have hbody : bytes (body (f ++ [b])) = bytes (body f) ++ [f[f.length - 4].data] := by
      rw [body_concat h4]
      unfold bytes
      rw [List.map_append, List.map_singleton]
    unfold emit seen
    rw [dif_pos h4]
    simp only [Option.toList_some, List.map_cons, List.map_nil]
    cases hl : b.last with
    | false =>
      unfold partly
      rw [hbody, List.map_append]; rfl
    | true =>
      have hcrc := error_iff (f := f) (by omega) b
      have hverdict : ((b.error ||| (BitVec.ofBool (CRC32.error (CRC32.after (bytes f)) b.data)).setWidth 1) != 0) =
          !decide (FcsRight (f ++ [b])) := by
        rw [error_or]
        by_cases hright : FcsRight (f ++ [b])
        · rw [hcrc.2 hright, he hl hright]
          simp [hright]
        · have : CRC32.error (CRC32.after (bytes f)) b.data = true := by
            by_contra hc
            exact hright (hcrc.1 (by simpa using hc))
          simp [this, hright]
      unfold wholly partly
      rw [hbody, hverdict, List.dropLast_concat, List.getLast?_concat]; rfl
  · have hl : b.last = false := by
      by_contra hl
      exact h4 (hf (by simpa using hl))
    have hp : ∀ g : List (PhyBeat 8), g.length ≤ 4 → partly g = [] := fun g hg => by
      unfold partly
      rw [body_eq_nil hg]; rfl
    have hlen : (f ++ [b]).length ≤ 4 := by rw [List.length_append, List.length_singleton]; omega
    unfold emit
    rw [dif_neg h4, hl, if_neg (by simp), hp f (by omega), hp (f ++ [b]) hlen]
    rfl

/-- What is delivered for the beats `bs` after the beats `g`. -/
def emits : List (PhyBeat 8) → List (PhyBeat 8) → List (PhyBeat 8)
  | _, [] => []
  | g, b :: bs => (emit g b).toList ++ emits (g ++ [b]) bs

theorem emits_concat (bs : List (PhyBeat 8)) (b : PhyBeat 8) :
    ∀ g, emits g (bs ++ [b]) = emits g bs ++ (emit (g ++ bs) b).toList := by
  induction bs with
  | nil => intro g; simp [emits]
  | cons x bs ih => intro g; rw [List.cons_append, emits, emits, ih]; simp

theorem emit_length (g : List (PhyBeat 8)) (b : PhyBeat 8) :
    (emit g b).toList.length = if 4 ≤ g.length then 1 else 0 := by
  unfold emit
  split_ifs <;> rfl

theorem emits_length (bs : List (PhyBeat 8)) :
    ∀ g, (emits g bs).length = g.length + bs.length - 4 - (g.length - 4) := by
  induction bs with
  | nil => intro g; simp [emits]
  | cons b bs ih =>
    intro g
    rw [emits, List.length_append, emit_length, ih, List.length_append, List.length_singleton, List.length_cons]
    split_ifs <;> omega

theorem emits_append (bs cs : List (PhyBeat 8)) : ∀ g, emits g (bs ++ cs) = emits g bs ++ emits (g ++ bs) cs := by
  induction bs with
  | nil => intro g; rw [List.nil_append, List.append_nil]; rfl
  | cons b bs ih => intro g; rw [List.cons_append, emits, emits, ih, List.append_assoc, List.append_assoc]; rfl

/-- A beat is delivered with the one four beats after it, and with the verdict on the beats so far. -/
theorem emits_getElem? (f : List (PhyBeat 8)) {k : ℕ} (hk : k + 4 < f.length) : (emits [] f)[k]? =
    some { f[k] with last := f[k + 4].last, error := f[k + 4].error |||
      (BitVec.ofBool (CRC32.error (CRC32.after (bytes (f.take (k + 4)))) f[k + 4].data)).setWidth 1 } := by
  have hsplit : f = f.take (k + 4) ++ f[k + 4] :: f.drop (k + 5) := by
    rw [← List.drop_eq_getElem_cons, List.take_append_drop]
  have htake : (f.take (k + 4)).length = k + 4 := List.length_take_of_le hk.le
  have hlen : (emits [] (f.take (k + 4))).length = k := by
    rw [emits_length, htake, List.length_nil]
    omega
  have hemits : emits [] f = emits [] (f.take (k + 4)) ++
      ((emit (f.take (k + 4)) f[k + 4]).toList ++ emits (f.take (k + 4) ++ [f[k + 4]]) (f.drop (k + 5))) := by
    conv_lhs => rw [hsplit]
    exact emits_append _ _ _
  have hemit : emit (f.take (k + 4)) f[k + 4] = some { f[k] with
      last := f[k + 4].last, error := f[k + 4].error |||
        (BitVec.ofBool (CRC32.error (CRC32.after (bytes (f.take (k + 4)))) f[k + 4].data)).setWidth 1 } := by
    unfold emit
    rw [dif_pos (by omega)]
    simp [htake, List.getElem_take]
  rw [hemits, hemit, List.getElem?_append_right hlen.le, hlen, Nat.sub_self]
  rfl

/-- Without the FCS the bytes are delivered as they are. -/
theorem bytes_emits (f : List (PhyBeat 8)) : bytes (emits [] f) = bytes (body f) := by
  induction f using List.reverseRecOn with
  | nil => rfl
  | append_singleton f b ih =>
    have hemits : bytes (emits [] (f ++ [b])) = bytes (emits [] f) ++ (emit f b).toList.map (·.data) := by
      rw [emits_concat]
      exact List.map_append
    rw [hemits, ih]
    unfold emit
    by_cases h4 : 4 ≤ f.length
    · rw [dif_pos h4, body_concat h4]
      unfold bytes
      rw [List.map_append]
      rfl
    · rw [dif_neg h4, body_eq_nil (by omega), body_eq_nil (by rw [List.length_append, List.length_singleton]; omega)]
      rfl

/-- The marks are those of the beats. -/
theorem last_emits {bs : List (PhyBeat 8)} (hbs : ∀ b ∈ bs, b.last = false) : ∀ g, ∀ x ∈ emits g bs, x.last = false := by
  induction bs with
  | nil => exact fun _ => nofun
  | cons b bs ih =>
    intro g x hx
    rcases List.mem_append.1 hx with hx | hx
    · unfold emit at hx
      split_ifs at hx with h4
      · rw [List.mem_singleton.1 hx]
        exact hbs b List.mem_cons_self
      · cases hx
    · exact ih (fun y hy => hbs y (List.mem_cons_of_mem b hy)) _ x hx

theorem isFrame_emits {f : List (PhyBeat 8)} (hf : IsFrame (·.last) f) (hlen : 5 ≤ f.length) :
    IsFrame (·.last) (emits [] f) := by
  obtain ⟨m, l, hm, hl⟩ := hf
  rw [List.length_append, List.length_singleton] at hlen
  have hemits := emits_concat m l []
  rw [List.nil_append, emit, dif_pos (by omega)] at hemits
  rw [hemits]
  exact .mk _ _ (last_emits hm []) hl

/-- What is delivered for the beginning of a frame. -/
theorem emits_seen_begun {m : List (PhyBeat 8)} (hm : ∀ b ∈ m, b.last = false) : (emits [] m).map seen = partly m := by
  induction m using List.reverseRecOn with
  | nil => rfl
  | append_singleton m b ih =>
    have hb : b.last = false := hm b (by simp)
    have hseen := emit_seen (f := m) (b := b) (fun hl => by simp [hb] at hl) (fun hl => by simp [hb] at hl)
    rw [hb] at hseen
    rw [emits_concat, List.map_append, ih fun x hx => hm x (List.mem_append_left _ hx)]
    exact hseen

/-- What is delivered for a frame. -/
theorem emits_seen_frame {f : List (PhyBeat 8)} (hf : IsFrame (·.last) f) (hlen : 5 ≤ f.length) (hclean : LastClean f) :
    (emits [] f).map seen = wholly f := by
  obtain ⟨m, b, hm, hb⟩ := hf
  rw [List.length_append, List.length_singleton] at hlen
  have hseen := emit_seen (f := m) (b := b) (fun _ hright => hclean hright b (by simp)) (fun _ => by omega)
  rw [if_pos hb] at hseen
  rw [emits_concat, List.map_append, emits_seen_begun hm]
  exact hseen

/-- What is at the sink in `RESET` makes no difference to the registers. -/
theorem reset_forgets {s : State F} (hs : s.fsm = .reset) (b b' : Option (PhyBeat 8)) (r r' : Bool) :
    s.next b r = s.next b' r' := by
  unfold State.next CRC32.step
  simp [hs]

/-! ## Runs -/

/-- The checker alone, on a clock. -/
abbrev alone (F : SyncFIFO (PhyBeat 8) (ratio 8 + 1)) : Stage Unit (PhyBeat 8) (PhyBeat 8) := crc32Checker F

variable (F) in
/-- In this cycle no beat is taken in `RESET`. -/
def NotInReset (s : (alone F).Run) (i : Stage.In Unit (PhyBeat 8)) : Prop :=
  s.state.fsm = .reset → s.takes i = none

instance (s : (alone F).Run) (i : Stage.In Unit (PhyBeat 8)) : Decidable (NotInReset F s i) :=
  inferInstanceAs (Decidable (_ → _))

variable (F) in
/-- Of every frame taken, its bytes without the FCS are delivered, and of the one under way, those
that can be; and an offered beat is taken in any cycle in which the consumer is ready. -/
structure Delivers (is : List (Stage.In Unit (PhyBeat 8))) : Prop where
  given : ((alone F).given is).map seen =
    (frames (·.last) ((alone F).taken is)).1.flatMap wholly ++ partly (frames (·.last) ((alone F).taken is)).2
  takes : ∀ i : Stage.In Unit (PhyBeat 8), i.ready = true →
    ((alone F).machine.run is).takes i = ((alone F).machine.run is).offered i

theorem takes_of_ready (s : (alone F).Run) (i : Stage.In Unit (PhyBeat 8)) (hr : i.ready = true) :
    s.takes i = s.offered i := by
  unfold Stage.Run.takes
  cases hb : s.offered i with
  | none => exact ite_self _
  | some b =>
    have : (alone F).ready s.state i.env (some b) i.ready = true := by
      show s.state.fifoIn (some b) i.ready = true
      rw [fifoIn_iff, hr, Bool.or_true]
    rw [if_pos this]

/-- In every run in which no beat is taken in `RESET`, what is delivered of a frame does not depend on those before
it. -/
theorem checker_emits (is : List (Stage.In Unit (PhyBeat 8)))
    (hreset : (alone F).machine.Along (NotInReset F) (alone F).machine.reset is)
    (hlen : ∀ f ∈ (frames (·.last) ((alone F).taken is)).1, 2 ≤ f.length) :
    Inv ((alone F).machine.run is).state (frames (·.last) ((alone F).taken is)).2 ∧
      (alone F).given is = (frames (·.last) ((alone F).taken is)).1.flatMap (emits []) ++
        emits [] (frames (·.last) ((alone F).taken is)).2 := by
  -- induction on the run from its end, the invariant is about the frame that has begun
  induction is using List.reverseRecOn with
  | nil => exact ⟨inv_init, rfl⟩
  | append_singleton is i ih =>
    rw [Stage.taken_concat] at hlen ⊢
    have hpre := (frames_append (·.last) ((alone F).taken is) (((alone F).machine.run is).takes i).toList).subset
    rw [Machine.along_append] at hreset
    obtain ⟨hinv, hgiven⟩ := ih hreset.1 (fun f hf => hlen f (hpre hf))
    have hnr : ((alone F).machine.run is).state.fsm = .reset → ((alone F).machine.run is).takes i = none := hreset.2.1
    rw [Stage.run_concat, Stage.given_concat, hgiven]
    generalize (alone F).machine.run is = s at hinv hnr hlen ⊢
    generalize (alone F).taken is = l at hinv hlen ⊢
    have hnext : (s.next i).state = s.state.next (s.offered i) i.ready := rfl
    have hgives : s.gives i = if i.ready then s.state.source (s.offered i) else none := rfl
    have htakes : s.takes i = if s.state.fifoIn (s.offered i) i.ready then s.offered i else none := rfl
    rw [hnext, hgives, htakes]
    rw [htakes] at hlen hnr
    generalize s.offered i = b at hlen hnr ⊢
    by_cases hin : s.state.fifoIn b i.ready = true
    · cases b with
      | none => cases hin
      | some b =>
        rw [if_pos hin] at hlen hnr ⊢
        have hs : s.state.fsm ≠ .reset := fun hc => by cases hnr hc
        rw [Option.toList_some, frames_concat, frameStep] at hlen ⊢
        have hnext := hinv.take hin hs
        have hemits := emits_concat (frames (·.last) l).2 b []
        rw [List.nil_append] at hemits
        rw [(hinv.fed hs).gives hin, List.append_assoc, ← hemits]
        unfold track at hnext
        cases hl : b.last with
        | false =>
          rw [if_neg (by simp [hl])] at hnext
          exact ⟨hnext, rfl⟩
        | true =>
          have hne : (frames (·.last) l).2 ≠ [] := fun hn => by
            rw [hl, hn] at hlen
            have := hlen _ (List.mem_append_right _ (List.mem_singleton_self _))
            simp at this
          rw [if_pos ⟨hl, hne⟩] at hnext
          refine ⟨hnext, ?_⟩
          rw [if_pos rfl, List.flatMap_append, List.flatMap_singleton]
          exact (List.append_nil _).symm
    · rw [if_neg hin, Option.toList_none, List.append_nil]
      obtain ⟨h1, h2⟩ := hinv.idle (b := b) (r := i.ready) (by simpa using hin)
      have hnone : (if i.ready then s.state.source b else none) = none := by
        rcases h2 with h2 | h2 <;> simp [h2]
      rw [hnone]
      exact ⟨h1, List.append_nil _⟩

/-- In every run in which no beat is taken in `RESET`, frames of five bytes or more are delivered. -/
theorem checker_delivers (is : List (Stage.In Unit (PhyBeat 8)))
    (hreset : (alone F).machine.Along (NotInReset F) (alone F).machine.reset is)
    (hlen : ∀ f ∈ (frames (·.last) ((alone F).taken is)).1, 5 ≤ f.length)
    (hclean : ∀ f ∈ (frames (·.last) ((alone F).taken is)).1, LastClean f) : Delivers F is := by
  obtain ⟨-, hgiven⟩ := checker_emits is hreset fun f hf => le_trans (by decide) (hlen f hf)
  have hspec := frames_spec (·.last) ((alone F).taken is)
  refine ⟨?_, fun i hi => takes_of_ready _ i hi⟩
  rw [hgiven, List.map_append, List.map_flatMap, emits_seen_begun hspec.2]
  congr 1
  exact List.flatMap_congr fun f hf => emits_seen_frame (hspec.1 f hf) (hlen f hf) (hclean f hf)

/-- A cycle in which the byte `d` is offered to the checker, and its consumer is ready. -/
def byteCycle (d : BitVec 8) (last : Bool) : Stage.In Unit (PhyBeat 8) := ⟨(), some ⟨d, 0, 0, last⟩, true⟩

/-- A frame without a gap. -/
def frameCycles (ds : List (BitVec 8)) (d : BitVec 8) : List (Stage.In Unit (PhyBeat 8)) :=
  ds.map (byteCycle · false) ++ [byteCycle d true]

/-- A cycle in which nothing is offered. -/
def gapCycle : Stage.In Unit (PhyBeat 8) := ⟨(), none, true⟩

instance {dw : ℕ} : Inhabited (PhyBeat dw) := ⟨⟨0, 0, 0, false⟩⟩

/-- The cycles of one byte and its FCS, with a stall in the middle. -/
def oneByteFrame : List (Stage.In Unit (PhyBeat 8)) :=
  gapCycle :: byteCycle 1 false :: { gapCycle with ready := false } :: frameCycles [0x1B, 0xDF, 0x05] 0xA5

theorem checker_delivers_frame : Delivers (SyncFIFO.queue _ _) oneByteFrame := by
  have hclean : ∀ f ∈ (frames (·.last) ((alone (SyncFIFO.queue _ _)).taken oneByteFrame)).1,
      ∀ b ∈ f.getLast?, b.error = 0 := by decide
  exact checker_delivers _ (by decide) (by decide) fun f hf _ => hclean f hf

/-- The first byte of a frame that follows another without a gap is taken in `RESET`: a byte of the
FCS before it is delivered in its place. -/
theorem checker_loses_first_byte :
    ¬ Delivers (SyncFIFO.queue _ _) (gapCycle :: frameCycles [1, 2, 3, 4, 5] 6 ++ frameCycles [11, 12, 13, 14, 15] 16) := by
  rintro ⟨h, -⟩
  have := congrArg (List.map Prod.fst) h
  exact absurd this (by decide +kernel)

end CRCChecker

end LiteEth.Mac
