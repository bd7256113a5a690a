/-
Packets of whole words: what a header that is put in front of them and a converter to narrower words make of them.
-/
import LiteEth.Rtl.PacketSim

namespace LiteEth.Rtl

variable {dw : ℕ}

/-- A packet of words, the last one marked. -/
def wordPacket (ws : List (BitVec dw)) : List (Beat dw) :=
  (marked ws).map fun x => { Beat.ofWord x.1 with last := x.2 }

theorem length_wordPacket (ws : List (BitVec dw)) : (wordPacket ws).length = ws.length := by
  have h : (marked ws).length = ws.length := by
    rcases List.eq_nil_or_concat ws with rfl | ⟨vs, v, rfl⟩
    · rfl
    · rw [List.concat_eq_append, marked_concat]
      simp
  rw [wordPacket, List.length_map, h]

theorem isFrame_wordPacket {ws : List (BitVec dw)} (h : ws ≠ []) : IsFrame (·.last) (wordPacket ws) :=
  IsFrame.map (g := fun x : BitVec dw × Bool => { Beat.ofWord x.1 with last := x.2 }) (fun _ => rfl) (isFrame_marked h)

theorem wordPacket_append (vs : List (BitVec dw)) {ws : List (BitVec dw)} (h : ws ≠ []) :
    wordPacket (vs ++ ws) = vs.map .ofWord ++ wordPacket ws := by
  rw [wordPacket, marked_append vs h, List.map_append, List.map_map]
  rfl

/-! ## Headers -/

section Headers

variable {α β : Type} {header : α → List β} {beat : α → β} {mk : Beat dw → α} {mk' : Beat dw → β}

/-- A header of whole words before a packet of words; the words may be changed on their way. -/
theorem prepended_words (f : BitVec dw → BitVec dw) {hs ws : List (BitVec dw)} (hws : ws ≠ [])
    (hheader : ∀ b, header (mk b) = hs.map fun w => mk' (.ofWord w))
    (hbeat : ∀ w l, beat (mk { Beat.ofWord w with last := l }) = mk' { Beat.ofWord (f w) with last := l }) :
    Packetizer.prepended header beat ((wordPacket ws).map mk) = (wordPacket (hs ++ ws.map f)).map mk' := by
  have hmap : ((wordPacket ws).map mk).map beat = (wordPacket (ws.map f)).map mk' := by
    unfold wordPacket
    rw [marked_map, List.map_map, List.map_map, List.map_map, List.map_map]
    exact List.map_congr_left fun x _ => hbeat x.1 x.2
  have hhead : ((wordPacket ws).map mk).head?.toList.flatMap header = hs.map fun w => mk' (.ofWord w) := by
    obtain ⟨b, bs, hb⟩ := List.exists_cons_of_ne_nil (isFrame_wordPacket hws).ne_nil
    rw [hb, List.map_cons, List.head?_cons, Option.toList_some, List.flatMap_cons, List.flatMap_nil, List.append_nil,
      hheader]
  rw [Packetizer.prepended, hmap, hhead, wordPacket_append hs (by simpa using hws), List.map_append, List.map_map]
  rfl

/-- What a stage that sends such headers makes of a packet. -/
theorem prepend_makes {last : α → Bool} (mk : Beat dw → α) (mk' : Beat dw → β) (f : BitVec dw → BitVec dw)
    (hs : List (BitVec dw)) {ws : List (BitVec dw)} {cs : List β} (hws : ws ≠ []) (hlast : ∀ b, last (mk b) = b.last)
    (hheader : ∀ b, header (mk b) = hs.map fun w => mk' (.ofWord w))
    (hbeat : ∀ w l, beat (mk { Beat.ofWord w with last := l }) = mk' { Beat.ofWord (f w) with last := l })
    (hcs : (wordPacket (hs ++ ws.map f)).map mk' = cs) :
    (Packetizer.prepend header beat last).Makes ((wordPacket ws).map mk) cs := by
  obtain ⟨houts, hrun⟩ := Packetizer.prepend_frame header beat last (IsFrame.map hlast (isFrame_wordPacket hws))
  refine ⟨Packetizer.prepend_oks header beat last _ _, hrun, houts.trans (Eq.trans ?_ hcs)⟩
  exact prepended_words f hws hheader hbeat

end Headers

/-! ## Narrower words -/

/-- The `k`-th part of a word, the lowest first. -/
def part (dw : ℕ) {n : ℕ} (w : BitVec n) (k : ℕ) : BitVec dw := w.extractLsb' (k * dw) dw

/-- The parts of a word. -/
def parts (dw ratio : ℕ) {n : ℕ} (w : BitVec n) : List (BitVec dw) := (List.range ratio).map (part dw w)

/-- What a converter of beats to `ratio` narrower ones makes of its stream: the marks of bytes go with the bytes, and
the parameters with every part. -/
abbrev narrow (π : Type) (n dw ratio : ℕ) : Transducer (π × Beat n) (π × Beat dw) where
  State := Unit
  init := ()
  next _ _ := ()
  out _ a := (List.range ratio).map fun k => (a.1,
    { data := part dw a.2.data k, lastBe := part _ a.2.lastBe k, error := part _ a.2.error k
      last := a.2.last && k + 1 == ratio })
  ok _ _ := True

section Narrow

variable {π : Type} {n : ℕ} (ratio : ℕ)

theorem narrow_oks (as : List (π × Beat n)) : ∀ q, (narrow π n dw ratio).Oks q as := by
  induction as with
  | nil => exact fun _ => trivial
  | cons a as ih => exact fun _ => ⟨trivial, ih _⟩

theorem part_zero (k : ℕ) : part dw (0 : BitVec n) k = 0 := by
  unfold part
  simp

theorem marked_parts (w : BitVec n) (m : ℕ) :
    marked (parts dw (m + 1) w) = (List.range (m + 1)).map fun k => (part dw w k, k + 1 == m + 1) := by
  rw [parts, List.range_succ, List.map_append, List.map_singleton, marked_concat, List.map_append, List.map_map,
    List.map_singleton, beq_self_eq_true]
  congr 1
  refine List.map_congr_left fun k hk => ?_
  have hne : (k + 1 == m + 1) = false := by
    have := List.mem_range.1 hk
    exact beq_false_of_ne (by omega)
  rw [hne]
  rfl

/-- The parts of a word inside of a packet, and those of its last word. -/
theorem narrow_word (hr : 0 < ratio) (q : π) (w : BitVec n) :
    (narrow π n dw ratio).out () (q, .ofWord w) = (parts dw ratio w).map (q, .ofWord ·) ∧
      (narrow π n dw ratio).out () (q, { Beat.ofWord w with last := true }) =
        (wordPacket (parts dw ratio w)).map (q, ·) := by
  obtain ⟨m, rfl⟩ := Nat.exists_eq_succ_of_ne_zero hr.ne'
  constructor
  · rw [parts, List.map_map]
    refine List.map_congr_left fun k _ => ?_
    simp only [Beat.ofWord, part_zero, Bool.false_and]
    rfl
  · rw [wordPacket, marked_parts, List.map_map, List.map_map]
    refine List.map_congr_left fun k _ => ?_
    simp only [Beat.ofWord, part_zero, Bool.true_and]
    rfl

theorem narrow_outs (as : List (π × Beat n)) :
    (narrow π n dw ratio).outs () as = as.flatMap ((narrow π n dw ratio).out ()) := by
  induction as with
  | nil => rfl
  | cons a as ih =>
    rw [Transducer.outs_cons, List.flatMap_cons]
    exact congrArg (_ ++ ·) ih

/-- A packet of words becomes the packet of their parts. -/
theorem narrow_packet (hr : 0 < ratio) (q : π) {ws : List (BitVec n)} (hws : ws ≠ []) :
    (narrow π n dw ratio).outs () ((wordPacket ws).map (q, ·)) =
      (wordPacket (ws.flatMap (parts dw ratio))).map (q, ·) := by
  have hne : ∀ w : BitVec n, parts dw ratio w ≠ [] := fun w h => by
    have hlen := congrArg List.length h
    rw [parts, List.length_map, List.length_range, List.length_nil] at hlen
    omega
  rcases List.eq_nil_or_concat ws with rfl | ⟨vs, v, rfl⟩
  · exact absurd rfl hws
  · have hinner : (vs.map fun w => ((q, Beat.ofWord w) : π × Beat n)).flatMap ((narrow π n dw ratio).out ()) =
        (vs.flatMap (parts dw ratio)).map (q, .ofWord ·) := by
      rw [List.flatMap_map, List.map_flatMap]
      exact List.flatMap_congr fun w _ => (narrow_word ratio hr q w).1
    rw [List.concat_eq_append, wordPacket_append vs (List.cons_ne_nil v []), List.map_append, List.map_map, narrow_outs,
      List.flatMap_append, List.flatMap_append, List.flatMap_singleton, wordPacket_append _ (hne v), List.map_append,
      List.map_map]
    refine congrArg₂ (· ++ ·) hinner ?_
    show (narrow π n dw ratio).out () (q, { Beat.ofWord v with last := true }) ++ [] = _
    rw [List.append_nil, (narrow_word ratio hr q v).2]

end Narrow

end LiteEth.Rtl
