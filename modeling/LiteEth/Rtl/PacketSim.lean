/-
Packetizers and depacketizers in a stream: what the stages around them rely on when they speak of whole
packets. A depacketizer strips the header off each packet, whatever the timing, and shows it with every
beat of the rest; a packetizer sends the words of the header before the packet. Those for headers of a
whole number of words do.
-/
import LiteEth.Rtl.Packet
import LiteEth.Rtl.StreamSim

namespace LiteEth.Rtl

/-! ## Packets -/

section AsPacket

variable {dw : ℕ}

/-- A beat inside of a packet. -/
def Beat.inner (b : Beat dw) : Beat dw := { b with last := false }

/-- Beats as one packet: the last of them, and no other, is marked. -/
def asPacket (bs : List (Beat dw)) : List (Beat dw) := (marked bs).map fun x => { x.1 with last := x.2 }

theorem asPacket_concat (bs : List (Beat dw)) (b : Beat dw) :
    asPacket (bs ++ [b]) = bs.map Beat.inner ++ [{ b with last := true }] := by
  unfold asPacket
  rw [marked_concat, List.map_append, List.map_map]
  rfl

theorem asPacket_append (bs : List (Beat dw)) {cs : List (Beat dw)} (hcs : cs ≠ []) :
    asPacket (bs ++ cs) = bs.map Beat.inner ++ asPacket cs := by
  unfold asPacket
  rw [marked_append bs hcs, List.map_append, List.map_map]
  rfl

theorem isFrame_asPacket {bs : List (Beat dw)} (h : bs ≠ []) : IsFrame (·.last) (asPacket bs) :=
  IsFrame.map (g := fun x : Beat dw × Bool => { x.1 with last := x.2 }) (fun _ => rfl) (isFrame_marked h)

theorem asPacket_of_isFrame {f : List (Beat dw)} (h : IsFrame (·.last) f) : asPacket f = f := by
  obtain ⟨m, l, hm, hl⟩ := h
  have hinner : m.map Beat.inner = m := by
    conv_rhs => rw [← List.map_id m]
    refine List.map_congr_left fun b hb => ?_
    unfold Beat.inner
    rw [← hm b hb]
    rfl
  rw [asPacket_concat, hinner, ← hl]

theorem asPacket_inner (bs : List (Beat dw)) : (asPacket bs).map Beat.inner = bs.map Beat.inner := by
  rcases List.eq_nil_or_concat bs with rfl | ⟨cs, c, rfl⟩
  · rfl
  · rw [List.concat_eq_append, asPacket_concat, List.map_append, List.map_append, List.map_map]
    rfl

end AsPacket

namespace Depacketizer

variable {H : Type} {dw : ℕ}

/-- A depacketizer as a stage: with each beat it shows the decoded header. -/
abbrev stage {ε : Type} (D : Depacketizer H dw) : Stage ε (Beat dw) (H × Beat dw) where
  State := D.State
  reset := D.reset
  source s _ b := (D.source s b).map (D.header s, ·)
  ready s _ b r := D.sinkReady s b r
  step s _ b r := D.step s b r

/-- A depacketizer that strips the headers of packets: `header f` and `payload f` are those of the packet `f`,
or of its beats so far, and it is meant for packets that are `Long` enough to have a payload. -/
structure Strips {ε : Type} (C : ε → Prop) (D : Depacketizer H dw) where
  strip : Transducer (Beat dw) (H × Beat dw)
  sim : Stage.Sim C (D.stage (ε := ε)) strip
  Long : List (Beat dw) → Prop
  header : List (Beat dw) → H
  payload : List (Beat dw) → List (Beat dw)
  run_frame : ∀ f, IsFrame (·.last) f → Long f → strip.run strip.init f = strip.init
  oks_frame : ∀ f, IsFrame (·.last) f → Long f → strip.Oks strip.init f
  outs_frame : ∀ f, IsFrame (·.last) f → Long f → strip.outs strip.init f = (payload f).map (header f, ·)
  payload_frame : ∀ f, IsFrame (·.last) f → Long f → IsFrame (·.last) (payload f)
  oks_begun : ∀ m, (∀ b ∈ m, b.last = false) → strip.Oks strip.init m
  outs_begun : ∀ m, (∀ b ∈ m, b.last = false) → strip.outs strip.init m = (payload m).map (header m, ·)
  payload_begun : ∀ m, (∀ b ∈ m, b.last = false) → ∀ b ∈ payload m, b.last = false

namespace Strips

variable {ε : Type} {C : ε → Prop} {D : Depacketizer H dw} (S : D.Strips C) {bs : List (Beat dw)}
  (hlong : ∀ f ∈ (frames (·.last) bs).1, S.Long f)

include hlong

theorem oks_of_long : S.strip.Oks S.strip.init bs := by
  have hspec := frames_spec (fun b : Beat dw => b.last) bs
  rw [← frames_flatten (fun b : Beat dw => b.last) bs]
  exact Transducer.oks_flatten _ (fun f hf => ⟨S.run_frame f (hspec.1 f hf) (hlong f hf),
    S.oks_frame f (hspec.1 f hf) (hlong f hf)⟩) (S.oks_begun _ hspec.2)

/-- A beat of the rest is shown with the header of its packet. -/
theorem mem_outs {x : H × Beat dw} (hx : x ∈ S.strip.outs S.strip.init bs) :
    ∃ f ∈ packets (·.last) bs, S.payload f ≠ [] ∧ x.1 = S.header f := by
  have hspec := frames_spec (fun b : Beat dw => b.last) bs
  have hof : ∀ f, x ∈ (S.payload f).map (S.header f, ·) → S.payload f ≠ [] ∧ x.1 = S.header f := by
    intro f hf
    obtain ⟨b, hb, rfl⟩ := List.mem_map.1 hf
    exact ⟨List.ne_nil_of_mem hb, rfl⟩
  rw [← frames_flatten (fun b : Beat dw => b.last) bs,
    Transducer.outs_flatten _ fun f hf => S.run_frame f (hspec.1 f hf) (hlong f hf), List.mem_append] at hx
  rcases hx with hx | hx
  · obtain ⟨f, hf, hx⟩ := List.mem_flatMap.1 hx
    rw [S.outs_frame f (hspec.1 f hf) (hlong f hf)] at hx
    exact ⟨f, List.mem_append_left _ hf, hof f hx⟩
  · rw [S.outs_begun _ hspec.2] at hx
    exact ⟨_, List.mem_append_right _ (List.mem_singleton.2 rfl), hof _ hx⟩

end Strips

/-! ## Headers of a whole number of words -/

/-- A depacketizer of headers of `n` words: `Got s got` says which words of the header it has in state `s`. -/
structure StripsWords (D : Depacketizer H dw) (n : ℕ) (fields : List (BitVec dw) → H) where
  Got : D.State → List (BitVec dw) → Prop
  reset : Got D.reset []
  length_le : ∀ {s got}, Got s got → got.length ≤ n
  header_eq : ∀ {s got}, Got s got → got.length = n → D.header s = fields got
  source_eq : ∀ {s got}, Got s got → ∀ b, D.source s b = if got.length < n then none else b
  sinkReady_eq : ∀ {s got}, Got s got → ∀ b r, D.sinkReady s (some b) r = if got.length < n then true else r
  step : ∀ {s got}, Got s got → ∀ b r, Got (D.step s b r)
    (if got.length < n then got ++ (b.map (·.data)).toList else if isLast b && r then [] else got)

/-- The transducer of it, for beats that may carry more than `beat` shows of them: the state is the words of the
header so far. -/
abbrev stripWords {α : Type} (beat : α → Beat dw) (n : ℕ) (fields : List (BitVec dw) → H) :
    Transducer α (H × α) where
  State := List (BitVec dw)
  init := []
  next got b := if got.length < n then got ++ [(beat b).data] else if (beat b).last then [] else got
  out got b := if got.length < n then [] else [(fields got, b)]
  ok _ _ := True

section StripWords

variable {α : Type} (beat : α → Beat dw) (n : ℕ) (fields : List (BitVec dw) → H)

theorem stripWords_oks (bs : List α) : ∀ got, (stripWords beat n fields).Oks got bs := by
  induction bs with
  | nil => exact fun _ => trivial
  | cons b bs ih => exact fun _ => ⟨trivial, ih _⟩

/-- The header is taken in, and then the beats of the payload follow. -/
theorem stripWords_begun {m : List α} (hm : ∀ b ∈ m, (beat b).last = false) {got : List (BitVec dw)}
    (hgot : got.length ≤ n) :
    (stripWords beat n fields).outs got m =
        (m.drop (n - got.length)).map (fields (got ++ (m.take (n - got.length)).map fun b => (beat b).data), ·) ∧
      (stripWords beat n fields).run got m = got ++ (m.take (n - got.length)).map fun b => (beat b).data := by
  -- induction on the beats; a word of the header or a beat behind it
  induction m generalizing got with
  | nil => simp
  | cons b m ih =>
    have hb := hm b List.mem_cons_self
    have hm' := fun x hx => hm x (List.mem_cons_of_mem b hx)
    rw [Transducer.outs_cons, Transducer.run_cons]
    by_cases hlt : got.length < n
    · obtain ⟨k, hk⟩ : ∃ k, n - got.length = k + 1 := ⟨_, (Nat.succ_pred (by omega)).symm⟩
      have hlen : (got ++ [(beat b).data]).length = got.length + 1 := by
        rw [List.length_append, List.length_singleton]
      obtain ⟨h1, h2⟩ := ih hm' (show (got ++ [(beat b).data]).length ≤ n by omega)
      have hk' : n - (got ++ [(beat b).data]).length = k := by omega
      rw [hk'] at h1 h2
      simp only [hlt, if_true, hk, h1, h2, List.nil_append, List.drop_succ_cons, List.take_succ_cons, List.map_cons,
        List.append_assoc, List.singleton_append]
      exact ⟨trivial, trivial⟩
    · have hk : n - got.length = 0 := by omega
      obtain ⟨h1, h2⟩ := ih hm' hgot
      rw [hk] at h1 h2
      simp only [hlt, if_false, hb, Bool.false_eq_true, hk, h1, h2, List.drop_zero, List.take_zero, List.map_nil,
        List.append_nil, List.map_cons, List.singleton_append]
      exact ⟨trivial, trivial⟩

/-- The beginning of a packet. -/
theorem stripWords_fresh {m : List α} (hm : ∀ b ∈ m, (beat b).last = false) :
    (stripWords beat n fields).outs [] m = (m.drop n).map (fields ((m.take n).map fun b => (beat b).data), ·) ∧
      (stripWords beat n fields).run [] m = (m.take n).map fun b => (beat b).data :=
  stripWords_begun beat n fields hm (show ([] : List (BitVec dw)).length ≤ n from Nat.zero_le n)

/-- A packet longer than its header. -/
theorem stripWords_frame {f : List α} (hf : IsFrame (fun b => (beat b).last) f) (hlen : n < f.length) :
    (stripWords beat n fields).outs [] f = (f.drop n).map (fields ((f.take n).map fun b => (beat b).data), ·) ∧
      (stripWords beat n fields).run [] f = [] ∧ IsFrame (fun b => (beat b).last) (f.drop n) := by
  refine and_assoc.1 ⟨?_, hf.drop hlen⟩
  obtain ⟨m, l, hm, hl⟩ := hf
  rw [List.length_append, List.length_singleton] at hlen
  obtain ⟨h1, h2⟩ := stripWords_fresh beat n fields hm
  have hgot : ¬ ((m.take n).map fun b => (beat b).data).length < n := by
    rw [List.length_map, List.length_take]; omega
  rw [Transducer.outs_append, Transducer.run_append, h1, h2, List.drop_append_of_le_length (by omega),
    List.take_append_of_le_length (by omega), Transducer.outs_cons, Transducer.run_cons]
  simp only [hgot, if_false, hl, if_true, List.map_append, List.map_cons, List.map_nil, Transducer.outs_nil,
    Transducer.run_nil, List.append_nil]
  exact ⟨trivial, trivial⟩

end StripWords

variable {D : Depacketizer H dw} {n : ℕ} {fields : List (BitVec dw) → H}

/-- A stage whose registers are, seen through `f`, those of a depacketizer of whole words, and that shows each beat of a
payload with the header and with what the beat carries besides, follows the transducer. -/
def StripsWords.followsThrough {ε α : Type} (C : ε → Prop) (W : StripsWords D n fields) {A : Stage ε α (H × α)}
    (beat : α → Beat dw) (f : A.State → D.State) (hreset : f A.reset = D.reset)
    (hsource : ∀ {s got}, W.Got (f s) got → ∀ e a,
      A.source s e a = if got.length < n then none else a.map (D.header (f s), ·))
    (hready : ∀ s e a r, A.ready s e (some a) r = D.sinkReady (f s) (some (beat a)) r)
    (hstep : ∀ s e a r, f (A.step s e a r) = D.step (f s) (a.map beat) r) :
    Stage.Lazy C A (stripWords beat n fields) where
  W := ℕ
  linear := inferInstance
  wf := wellFoundedLT_nat
  Rel s got p w := W.Got (f s) got ∧ p = [] ∧ w = 0
  reset := ⟨0, by rw [hreset]; exact W.reset, rfl, rfl⟩
  cycle := by
    rintro s got p w ⟨hgot, rfl, rfl⟩ e a r -
    have hgot' := W.step hgot (a.map beat) r
    rw [← hstep s e] at hgot'
    cases a with
    | none =>
      refine ⟨[], 0, ?_, ⟨?_, rfl, rfl⟩, fun _ _ _ => .inl ⟨rfl, rfl, le_rfl⟩⟩
      · simp [hsource hgot]
      · simpa [isLast] using hgot'
    | some a =>
      by_cases hlt : got.length < n
      · -- a word of the header is taken
        have htaken : A.ready s e (some a) r = true := by rw [hready, W.sinkReady_eq hgot, if_pos hlt]
        refine ⟨[], 0, ?_, ⟨?_, rfl, rfl⟩, fun _ h _ => absurd (h htaken) nofun⟩
        · simp [htaken, hsource hgot, hlt]
        · simpa [htaken, hlt] using hgot'
      · -- a beat of the payload passes when the consumer takes it
        have htaken : A.ready s e (some a) r = r := by rw [hready, W.sinkReady_eq hgot, if_neg hlt]
        have hhead := W.header_eq hgot (le_antisymm (W.length_le hgot) (not_lt.1 hlt))
        refine ⟨[], 0, ?_, ⟨?_, rfl, rfl⟩, fun _ _ _ => .inr (.inl ?_)⟩
        · cases r <;> simp [htaken, hsource hgot, hlt, hhead]
        · cases r <;> simpa [htaken, hlt, isLast] using hgot'
        · simp [hsource hgot, hlt]
  stable := by
    rintro s got p w ⟨hgot, -, -⟩ e a - x hx e' a' ha
    have hlt : ¬ got.length < n := by
      intro hc
      simp [hsource hgot, hc] at hx
    cases a with
    | none => simp [hsource hgot, hlt] at hx
    | some a =>
      have hkept := ha (by rw [hready, W.sinkReady_eq hgot, if_neg hlt]) nofun
      have hgot' : W.Got (f (A.step s e (some a) false)) got := by
        rw [hstep]
        simpa [hlt] using W.step hgot (some (beat a)) false
      have hlen := le_antisymm (W.length_le hgot) (not_lt.1 hlt)
      have hhead : D.header (f (A.step s e (some a) false)) = D.header (f s) := by
        rw [W.header_eq hgot' hlen, W.header_eq hgot hlen]
      rw [hkept, hsource hgot', hhead, ← hx, hsource hgot]

/-- A depacketizer of whole words follows its transducer. -/
def StripsWords.follows {ε : Type} (C : ε → Prop) (W : StripsWords D n fields) :
    Stage.Lazy C D.stage (stripWords id n fields) :=
  W.followsThrough C id id rfl
    (fun {s _} hgot _ b => by
      show (D.source (id s) b).map (D.header s, ·) = _
      rw [W.source_eq hgot]
      split_ifs <;> rfl)
    (fun _ _ _ _ => rfl)
    (fun _ _ b _ => by
      rw [Option.map_id]
      rfl)

/-- It strips the first `n` words of a packet. -/
def StripsWords.strips {ε : Type} (C : ε → Prop) (W : StripsWords D n fields) : Strips C D where
  strip := stripWords id n fields
  sim := (W.follows C).sim
  Long f := n < f.length
  header f := fields ((f.take n).map (·.data))
  payload f := f.drop n
  run_frame _ hf hn := (stripWords_frame id n fields hf hn).2.1
  oks_frame f _ _ := stripWords_oks id n fields f []
  outs_frame _ hf hn := (stripWords_frame id n fields hf hn).1
  payload_frame _ hf hn := (stripWords_frame id n fields hf hn).2.2
  oks_begun m _ := stripWords_oks id n fields m []
  outs_begun _ hm := (stripWords_fresh id n fields hm).1
  payload_begun _ hm b hb := hm b (List.mem_of_mem_drop hb)

/-- The depacketizer `Depacketizer.words` is one. -/
def stripsWords_words (n : ℕ) (hn : 0 < n) (fields : List (BitVec dw) → H) :
    StripsWords (Depacketizer.words n hn fields) n fields where
  -- the register holds what was before and the words of this packet, of one length
  Got s got := s.2 = got.length ∧ ∃ old, s.1 = old ++ got ∧ old.length + got.length = n
  reset := ⟨rfl, List.replicate n 0, (List.append_nil _).symm, by simp⟩
  length_le := by
    rintro s got ⟨-, old, -, hlen⟩
    omega
  header_eq := by
    rintro s got ⟨-, old, hs, hlen⟩ hn
    have hold : old = [] := List.eq_nil_of_length_eq_zero (by omega)
    rw [hold, List.nil_append] at hs
    exact congrArg fields hs
  source_eq := by
    rintro s got ⟨hs, -⟩ b
    exact congrArg (fun k => if k < n then none else b) hs
  sinkReady_eq := by
    rintro s got ⟨hs, -⟩ b r
    exact congrArg (fun k => if k < n then true else r) hs
  step := by
    rintro s got ⟨hs, old, hold, hlen⟩ b r
    -- in the header a word is shifted in at one end, and one falls out at the other
    by_cases hlt : got.length < n
    · cases b with
      | none =>
        simp only [Depacketizer.words, hs, hlt, if_true, Option.map_none, Option.toList_none, List.append_nil]
        exact ⟨hs, old, hold, hlen⟩
      | some b =>
        obtain ⟨a, old, rfl⟩ : ∃ a l, old = a :: l := List.exists_cons_of_length_pos (by omega)
        rw [List.length_cons] at hlen
        simp only [Depacketizer.words, hs, hlt, if_true, Option.map_some, Option.toList_some, hold, List.cons_append,
          List.tail_cons, List.length_append, List.length_singleton, List.append_assoc]
        exact ⟨rfl, old, rfl, by omega⟩
    · -- behind the header the last beat starts the count again
      by_cases hl : isLast b && r
      · simp only [Depacketizer.words, hs, hlt, if_false, hl, if_true]
        exact ⟨rfl, s.1, (List.append_nil _).symm, by rw [hold, List.length_append, List.length_nil]; omega⟩
      · simp only [Depacketizer.words, hs, hlt, if_false, hl]
        exact ⟨hs, old, hold, hlen⟩

end Depacketizer

namespace Packetizer

variable {H : Type} {dw : ℕ}

/-- A packetizer that sends the words of the header before the packet. In state `s` it is between packets, for
`Left s none`, or the words `ws` of the header are still to be sent, for `Left s (some ws)`. -/
structure PrependsWords (P : Packetizer H dw) (words : H → List (BitVec dw)) where
  Left : P.State → Option (List (BitVec dw)) → Prop
  words_ne : ∀ h, words h ≠ []
  reset : Left P.reset none
  source_none : ∀ {s}, Left s none → ∀ h, P.source s h none = none
  source_head : ∀ {s l}, Left s l → ∀ h w ws, l.getD (words h) = w :: ws → ∀ x, P.source s h (some x) = some (.ofWord w)
  source_data : ∀ {s}, Left s (some []) → ∀ h b, P.source s h b = b
  ready_head : ∀ {s l}, Left s l → ∀ h, l.getD (words h) ≠ [] → ∀ x r, P.sinkReady s h (some x) r = false
  ready_data : ∀ {s}, Left s (some []) → ∀ h x r, P.sinkReady s h (some x) r = r
  step_none : ∀ {s}, Left s none → ∀ h r, Left (P.step s h none r) none
  step_head : ∀ {s l}, Left s l → ∀ h w ws, l.getD (words h) = w :: ws → ∀ x r,
    Left (P.step s h (some x) r) (if r then some ws else l)
  step_data : ∀ {s}, Left s (some []) → ∀ h b r, Left (P.step s h b r) (if isLast b && r then none else some [])

/-! ## Prepending -/

section Prepend

variable {α β : Type} (header : α → List β) (beat : α → β) (last : α → Bool)

/-- The transducer of a stage that sends a header before each packet: the state tells whether a packet has begun. -/
abbrev prepend : Transducer α β where
  State := Bool
  init := false
  next _ a := !last a
  out begun a := (if begun then [] else header a) ++ [beat a]
  ok _ _ := True

theorem prepend_oks (as : List α) : ∀ q, (prepend header beat last).Oks q as := by
  induction as with
  | nil => exact fun _ => trivial
  | cons a as ih => exact fun _ => ⟨trivial, ih _⟩

/-- A packet, or its beats so far, after its header. -/
def prepended (as : List α) : List β := as.head?.toList.flatMap header ++ as.map beat

section Marks

variable {header beat last} {last' : β → Bool} (hheader : ∀ a, ∀ b ∈ header a, last' b = false)
  (hbeat : ∀ a, last' (beat a) = last a)

include hheader hbeat

theorem last_prepended {m : List α} (hm : ∀ a ∈ m, last a = false) :
    ∀ b ∈ prepended header beat m, last' b = false := by
  intro b hb
  rcases List.mem_append.1 hb with hb | hb
  · obtain ⟨a, -, hb⟩ := List.mem_flatMap.1 hb
    exact hheader a b hb
  · obtain ⟨a, ha, rfl⟩ := List.mem_map.1 hb
    exact (hbeat a).trans (hm a ha)

/-- A packet with its header is a packet. -/
theorem isFrame_prepended {f : List α} (hf : IsFrame last f) : IsFrame last' (prepended header beat f) := by
  obtain ⟨m, l, hm, hl⟩ := hf
  unfold prepended
  rw [List.map_append, ← List.append_assoc]
  refine .mk _ (beat l) (fun b hb => ?_) ((hbeat l).trans hl)
  rcases List.mem_append.1 hb with hb | hb
  · obtain ⟨a, -, hb⟩ := List.mem_flatMap.1 hb
    exact hheader a b hb
  · obtain ⟨a, ha, rfl⟩ := List.mem_map.1 hb
    exact (hbeat a).trans (hm a ha)

end Marks

/-- The rest of a packet. -/
theorem prepend_rest {m : List α} (hm : ∀ a ∈ m, last a = false) :
    (prepend header beat last).outs true m = m.map beat ∧ (prepend header beat last).run true m = true := by
  induction m with
  | nil => exact ⟨rfl, rfl⟩
  | cons a m ih =>
    obtain ⟨h1, h2⟩ := ih fun b hb => hm b (List.mem_cons_of_mem a hb)
    rw [Transducer.outs_cons, Transducer.run_cons]
    simp only [hm a List.mem_cons_self, Bool.not_false, if_true, List.nil_append, h1, h2, List.map_cons,
      List.singleton_append]
    exact ⟨trivial, trivial⟩

/-- The beginning of a packet, after its header. -/
theorem prepend_begun {m : List α} (hm : ∀ a ∈ m, last a = false) : (prepend header beat last).outs false m =
    prepended header beat m ∧ (prepend header beat last).run false m = !m.isEmpty := by
  cases m with
  | nil => exact ⟨rfl, rfl⟩
  | cons a m =>
    obtain ⟨h1, h2⟩ := prepend_rest header beat last fun b hb => hm b (List.mem_cons_of_mem a hb)
    rw [Transducer.outs_cons, Transducer.run_cons]
    simp only [hm a List.mem_cons_self, Bool.not_false, h1, h2]
    simp [prepended]

/-- A packet, after its header. -/
theorem prepend_frame {f : List α} (hf : IsFrame last f) : (prepend header beat last).outs false f =
    prepended header beat f ∧ (prepend header beat last).run false f = false := by
  obtain ⟨m, l, hm, hl⟩ := hf
  obtain ⟨h1, h2⟩ := prepend_begun header beat last hm
  rw [Transducer.outs_append, Transducer.run_append, h1, h2, Transducer.outs_cons, Transducer.run_cons]
  simp only [hl, Bool.not_true, Transducer.outs_nil, Transducer.run_nil, List.append_nil, and_true]
  cases m with
  | nil => simp [prepended]
  | cons a m => simp [prepended]

/-- Packets, each after its header. -/
theorem prepend_packets {fs : List (List α)} {m : List α} (hfs : ∀ f ∈ fs, IsFrame last f)
    (hm : ∀ a ∈ m, last a = false) : (prepend header beat last).outs false (fs.flatten ++ m) =
      (fs.map (prepended header beat)).flatten ++ prepended header beat m := by
  have hrun : ∀ f ∈ fs, (prepend header beat last).run false f = false := fun f hf =>
    (prepend_frame header beat last (hfs f hf)).2
  rw [Transducer.outs_flatten _ hrun, (prepend_begun header beat last hm).1, ← List.flatMap_def]
  exact congrArg (· ++ _) (List.flatMap_congr fun f hf => (prepend_frame header beat last (hfs f hf)).1)

end Prepend

/-! ## A packetizer as a stage -/

section Stage

variable {ε α β : Type} (P : Packetizer H dw)

/-- What is sent of a stream of `α`: the header of a packet is that of its beats, and a beat is sent as `out` makes it of
the packetizer's, with what is offered. -/
structure Feed (H α β : Type) (dw : ℕ) where
  header : α → H
  beat : α → Beat dw
  out : α → Beat dw → β

variable (O : Feed H α β dw) (idle : ε → α)

/-- A packetizer as a stage; `idle` is what it sees while no beat is offered. -/
abbrev fed : Stage ε α β where
  State := P.State
  reset := P.reset
  source s e a := (P.source s (O.header (a.getD (idle e))) (a.map O.beat)).map (O.out (a.getD (idle e)))
  ready s e a r := P.sinkReady s (O.header (a.getD (idle e))) (a.map O.beat) r
  step s e a r := P.step s (O.header (a.getD (idle e))) (a.map O.beat) r

/-- The words of the header of a packet, as they are sent. -/
def Feed.head (O : Feed H α β dw) (words : H → List (BitVec dw)) (a : α) (l : Option (List (BitVec dw))) : List β :=
  (l.getD (words (O.header a))).map fun w => O.out a (.ofWord w)

/-- A beat, as it is sent. -/
def Feed.sent (O : Feed H α β dw) (a : α) : β := O.out a (O.beat a)

/-- Each packet, after the words of its header. -/
abbrev Feed.sends (O : Feed H α β dw) (words : H → List (BitVec dw)) : Transducer α β :=
  prepend (fun a => O.head words a none) O.sent fun a => (O.beat a).last

variable {P O idle} {words : H → List (BitVec dw)} (W : P.PrependsWords words)

variable (O idle) in
/-- Between packets; with a header, or its rest, to be sent before the beat that is held; in a packet. -/
inductive Rel : (P.fed O idle).Run → Bool → List β → ℕ → Prop
  | rest (t : P.State) (ht : W.Left t none) : Rel ⟨t, none⟩ false [] 0
  | head (t : P.State) (l : Option (List (BitVec dw))) (ht : W.Left t l) (a : α) (hl : l.getD (words (O.header a)) ≠ []) :
    Rel ⟨t, some a⟩ (!(O.beat a).last) (O.head words a l ++ [O.sent a]) 0
  | data (t : P.State) (ht : W.Left t (some [])) (b : Option α) :
    Rel ⟨t, b⟩ ((O.sends words).run true b.toList) (b.toList.map O.sent) 0

section Cycle

variable {s : (P.fed O idle).Run} {i : Stage.In ε α} {a : α}

/-- A word of the header is sent. -/
theorem cycle_head {l : Option (List (BitVec dw))} (ht : W.Left s.state l) (ha : s.offered i = some a)
    {w : BitVec dw} {ws : List (BitVec dw)} (hw : l.getD (words (O.header a)) = w :: ws) :
    s.source i = some (O.out a (.ofWord w)) ∧
      ∃ t', W.Left t' (if i.ready then some ws else l) ∧ s.next i = ⟨t', some a⟩ := by
  refine ⟨?_, P.step s.state (O.header a) (some (O.beat a)) i.ready, W.step_head ht _ w ws hw (O.beat a) i.ready, ?_⟩
  · unfold Stage.Run.source
    rw [ha]
    exact congrArg (Option.map _) (W.source_head ht _ w ws hw (O.beat a))
  · have hready : P.sinkReady s.state (O.header a) (some (O.beat a)) i.ready = false :=
      W.ready_head ht _ (by rw [hw]; exact List.cons_ne_nil _ _) (O.beat a) i.ready
    unfold Stage.Run.next
    simp only [ha, Option.getD_some, Option.map_some, hready, Bool.false_eq_true, if_false]

/-- A beat of the packet is passed on. -/
theorem cycle_data (ht : W.Left s.state (some [])) : s.source i = (s.offered i).map O.sent ∧
    ∃ t', W.Left t' (if isLast ((s.offered i).map O.beat) && i.ready then none else some []) ∧
      s.next i = ⟨t', if i.ready then none else s.offered i⟩ := by
  refine ⟨?_, _, W.step_data ht (O.header ((s.offered i).getD (idle i.env))) _ i.ready, ?_⟩
  · unfold Stage.Run.source
    simp only [W.source_data ht]
    cases s.offered i <;> rfl
  · unfold Stage.Run.next
    cases ha : s.offered i with
    | none => rw [ite_self, ite_self]
    | some a => simp only [Option.getD_some, Option.map_some, W.ready_data ht]

end Cycle

/-- The beat of the header or the packet, as it is given. -/
theorem gives_of_source {s : (P.fed O idle).Run} {i : Stage.In ε α} {x : Option β} (h : s.source i = x) :
    s.gives i = if i.ready then x else none := by
  rw [← h]
  rfl

/-- A cycle at the header of a packet. -/
theorem Rel.cycle_head {s : (P.fed O idle).Run} {i : Stage.In ε α} {a : α} {l : Option (List (BitVec dw))}
    (ht : W.Left s.state l) (ha : s.offered i = some a) (hl : l.getD (words (O.header a)) ≠ []) :
    ∃ p', O.head words a l ++ [O.sent a] = (s.gives i).toList ++ p' ∧
      Rel O idle W (s.next i) (!(O.beat a).last) p' 0 ∧ s.source i ≠ none := by
  obtain ⟨w, ws, hw⟩ := List.exists_cons_of_ne_nil hl
  obtain ⟨hsource, t', ht', hnext⟩ := Packetizer.cycle_head W ht ha hw
  rw [gives_of_source hsource, hnext, hsource]
  cases hr : i.ready with
  | false =>
    rw [hr] at ht'
    exact ⟨_, rfl, .head t' l ht' a hl, Option.some_ne_none _⟩
  | true =>
    rw [hr] at ht'
    refine ⟨O.head words a (some ws) ++ [O.sent a], by rw [Feed.head, hw]; rfl, ?_, Option.some_ne_none _⟩
    cases ws with
    | nil => exact .data t' ht' (some a)
    | cons w' ws => exact .head t' (some (w' :: ws)) ht' a (List.cons_ne_nil _ _)

/-- A beat of a packet has been sent. -/
theorem Rel.sent {t : P.State} {l : Bool} (ht : W.Left t (if l then none else some [])) :
    Rel O idle W ⟨t, none⟩ (!l) [] 0 := by
  cases l with
  | false => exact .data t ht none
  | true => exact .rest t ht

variable {W} in
/-- One cycle of a packetizer. -/
theorem Rel.cycle {s : (P.fed O idle).Run} {q : Bool} {p : List β} {w : ℕ} (h : Rel O idle W s q p w)
    (i : Stage.In ε α) : ∃ p',
      p ++ (O.sends words).outs q (s.arrives i).toList = (s.gives i).toList ++ p' ∧
        Rel O idle W (s.next i) ((O.sends words).run q (s.arrives i).toList) p' 0 ∧
        (s.arrives i = none → s.gives i = none → (s.held = none ∧ p = []) ∨ (s.source i ≠ none ∧ i.ready = false)) := by
  cases h with
  | rest t ht =>
    obtain ⟨e, offer, r⟩ := i
    cases offer with
    | none =>
      have hsource : Stage.Run.source (⟨t, none⟩ : (P.fed O idle).Run) ⟨e, none, r⟩ = none :=
        congrArg (Option.map _) (W.source_none ht _)
      refine ⟨[], by rw [gives_of_source hsource, ite_self]; rfl, ?_, fun _ _ => .inl ⟨rfl, rfl⟩⟩
      have hnext : Stage.Run.next (⟨t, none⟩ : (P.fed O idle).Run) ⟨e, none, r⟩ =
        ⟨P.step t (O.header (idle e)) none r, none⟩ := congrArg (Stage.Run.mk _) (ite_self _)
      rw [hnext]
      exact .rest _ (W.step_none ht (O.header (idle e)) r)
    | some a =>
      obtain ⟨p', hp, hrel, -⟩ := Rel.cycle_head (O := O) (s := ⟨t, none⟩) (i := ⟨e, some a, r⟩) W ht rfl
        (W.words_ne (O.header a))
      exact ⟨p', (List.append_nil _).trans hp, hrel, fun h => absurd h (Option.some_ne_none a)⟩
  | head t l ht a hl =>
    obtain ⟨p', hp, hrel, hsource⟩ := Rel.cycle_head (O := O) (s := ⟨t, some a⟩) (i := i) W ht rfl hl
    refine ⟨p', (List.append_nil _).trans hp, hrel, fun _ hg => .inr ⟨hsource, ?_⟩⟩
    by_contra hr
    rw [gives_of_source rfl, if_pos (by simpa using hr)] at hg
    exact hsource hg
  | data t ht b =>
    obtain ⟨hsource, t', ht', hnext⟩ := cycle_data (O := O) W (s := ⟨t, b⟩) (i := i) ht
    have hbeat : b.toList ++ (Stage.Run.arrives (⟨t, b⟩ : (P.fed O idle).Run) i).toList =
        (Stage.Run.offered (⟨t, b⟩ : (P.fed O idle).Run) i).toList :=
      Stage.Run.offered_toList (⟨t, b⟩ : (P.fed O idle).Run) i
    have howed : ∀ c : Option α, c.toList.map O.sent = (O.sends words).outs true c.toList := by
      rintro (_ | a) <;> rfl
    -- what is owed is what the beats not yet sent become
    rw [howed, ← Transducer.outs_append, ← Transducer.run_append, hbeat, ← howed, gives_of_source hsource, hnext]
    cases ha : Stage.Run.offered (⟨t, b⟩ : (P.fed O idle).Run) i with
    | none =>
      rw [ha] at ht'
      have hheld : b = none := (Option.or_eq_none_iff.1 ha).1
      rw [ite_self]
      refine ⟨[], by rw [Option.map_none, ite_self]; rfl, ?_, fun _ _ => .inl ⟨hheld, by rw [hheld]; rfl⟩⟩
      exact .data t' ht' none
    | some a =>
      rw [ha] at ht'
      cases hr : i.ready with
      | false =>
        rw [hr, Bool.and_false] at ht'
        refine ⟨[O.sent a], rfl, .data t' ht' (some a), fun _ _ => .inr ⟨?_, rfl⟩⟩
        rw [hsource, ha]
        exact Option.some_ne_none _
      | true =>
        rw [hr, Bool.and_true] at ht'
        exact ⟨[], rfl, Rel.sent W ht', fun _ h => absurd h (Option.some_ne_none _)⟩

variable {W} in
/-- The source keeps what it offers. -/
theorem Rel.stable {s : (P.fed O idle).Run} {q : Bool} {p : List β} {w : ℕ} (h : Rel O idle W s q p w)
    (i : Stage.In ε α) {x : β} (hx : s.source i = some x) (hr : i.ready = false)
    (j : Stage.In ε α) : (s.next i).source j = some x := by
  -- while header words are left the same word stays in front
  have hhead : ∀ (a : α) (l : Option (List (BitVec dw))), W.Left s.state l → s.offered i = some a →
      l.getD (words (O.header a)) ≠ [] → (s.next i).source j = some x := fun a l ht ha hl => by
    obtain ⟨w, ws, hw⟩ := List.exists_cons_of_ne_nil hl
    obtain ⟨hsource, t', ht', hnext⟩ := Packetizer.cycle_head W ht ha hw
    rw [hr] at ht'
    rw [hnext, (Packetizer.cycle_head W (s := ⟨t', some a⟩) (i := j) ht' rfl hw).1, ← hx]
    exact hsource.symm
  cases h with
  | rest t ht =>
    cases ha : Stage.Run.offered (⟨t, none⟩ : (P.fed O idle).Run) i with
    | none =>
      have hnone : Stage.Run.source (⟨t, none⟩ : (P.fed O idle).Run) i = none := by
        unfold Stage.Run.source
        rw [ha]
        exact congrArg (Option.map _) (W.source_none ht _)
      exact absurd (hnone.symm.trans hx) (Option.some_ne_none x).symm
    | some a => exact hhead a none ht ha (W.words_ne (O.header a))
  | head t l ht a hl => exact hhead a l ht rfl hl
  | data t ht b =>
    obtain ⟨hsource, t', ht', hnext⟩ := cycle_data (O := O) W (s := ⟨t, b⟩) (i := i) ht
    have hx' := hsource.symm.trans hx
    obtain ⟨a, ha, hax⟩ := Option.map_eq_some_iff.1 hx'
    rw [hr, Bool.and_false] at ht'
    rw [hnext, hr, (cycle_data W (s := ⟨t', _⟩) (i := j) ht').1, ← hax, ha]
    rfl

variable (O idle) in
/-- A packetizer sends each packet after the words of its header. -/
def prependsFed (C : ε → Prop) : Stage.Sim C (P.fed O idle) (O.sends words) where
  W := ℕ
  linear := inferInstance
  wf := wellFoundedLT_nat
  Rel := Rel O idle W
  reset := ⟨0, .rest _ W.reset⟩
  cycle h i _ := by
    obtain ⟨p', hp, hrel, hprog⟩ := h.cycle i
    refine ⟨p', 0, hp, hrel, fun _ hx _ hg => ?_⟩
    rcases hprog hx hg with h1 | h1
    · exact .inl ⟨h1.1, h1.2, Nat.zero_le _⟩
    · exact .inr (.inl h1)
  stable h i _ _ hx hr j := h.stable i hx hr j

/-! ### Headers that come with the beats -/

section Plain

variable (idle : ε → H) (P : Packetizer H dw)

/-- A packetizer as a stage: each beat comes with the header of its packet, and `idle` is what the header
is while no beat is offered. -/
abbrev stage : Stage ε (H × Beat dw) (Beat dw) where
  State := P.State
  reset := P.reset
  source s e a := P.source s (a.elim (idle e) (·.1)) (a.map (·.2))
  ready s e a r := P.sinkReady s (a.elim (idle e) (·.1)) (a.map (·.2)) r
  step s e a r := P.step s (a.elim (idle e) (·.1)) (a.map (·.2)) r

/-- The beats of it. -/
abbrev plain (H : Type) (dw : ℕ) : Feed H (H × Beat dw) (Beat dw) dw where
  header := Prod.fst
  beat := Prod.snd
  out _ b := b

/-- Each packet, after the words of its header. -/
abbrev sends (words : H → List (BitVec dw)) : Transducer (H × Beat dw) (Beat dw) :=
  prepend (fun a => (words a.1).map .ofWord) (·.2) (·.2.last)

variable {P} (W : P.PrependsWords words)

theorem plain_header (e : ε) (a : Option (H × Beat dw)) : (a.getD (idle e, Beat.ofWord 0)).1 = a.elim (idle e) (·.1) := by
  cases a <;> rfl

/-- A packetizer sends each packet after the words of its header. -/
def prepends (C : ε → Prop) : Stage.Sim C (P.stage idle) (sends words) :=
  (prependsFed (plain H dw) (fun e => (idle e, Beat.ofWord 0)) W C).comap (A := P.stage idle) id rfl
    (fun _ e a => by
      show _ = (P.source _ (a.getD (idle e, Beat.ofWord 0)).1 _).map (fun b => b)
      rw [plain_header, Option.map_id']
      rfl)
    (fun _ e a _ => by
      show _ = P.sinkReady _ (a.getD (idle e, Beat.ofWord 0)).1 _ _
      rw [plain_header]
      rfl)
    (fun _ e a _ => by
      show _ = P.step _ (a.getD (idle e, Beat.ofWord 0)).1 _ _
      rw [plain_header]
      rfl)

end Plain

end Stage

/-! ## Headers of a whole number of words -/

/-- The words from the `k`-th last on. -/
theorem drop_words (n : ℕ) (word : ℕ → BitVec dw) {k : ℕ} (hk : k < n) :
    ((List.range n).map word).drop (n - (k + 1)) =
      word (n - (k + 1)) :: ((List.range n).map word).drop (n - k) := by
  have hlen : n - (k + 1) < ((List.range n).map word).length := by
    rw [List.length_map, List.length_range]; omega
  rw [List.drop_eq_getElem_cons hlen, show n - (k + 1) + 1 = n - k by omega]
  simp

/-- The packetizer `Packetizer.words` is one. -/
def prependsWords_words (n : ℕ) (hn : 0 < n) (word : H → ℕ → BitVec dw) :
    PrependsWords (Packetizer.words n word) fun h => (List.range n).map (word h) where
  Left s l := (s = none ∧ l = none) ∨
    ∃ h k, k < n ∧ s = some (h, k) ∧ l = some (((List.range n).map (word h)).drop (n - k))
  words_ne h := by
    rw [ne_eq, List.map_eq_nil_iff, List.range_eq_nil]
    omega
  reset := .inl ⟨rfl, rfl⟩
  source_none := by
    rintro s (⟨rfl, -⟩ | ⟨h, k, -, -, hl⟩)
    · exact fun _ => rfl
    · cases hl
  source_head := by
    rintro s l (⟨rfl, rfl⟩ | ⟨h', k, hk, rfl, rfl⟩) h w ws hw x
    · -- the register is read from its top, word after word, hence the drop
      have h0 := drop_words n (word h) (show n - 1 < n by omega)
      rw [show n - (n - 1 + 1) = 0 by omega, List.drop_zero] at h0
      obtain ⟨rfl, -⟩ := List.cons.inj (h0.symm.trans hw)
      rfl
    · cases k with
      | zero =>
        rw [Option.getD_some, List.drop_of_length_le (by simp)] at hw
        cases hw
      | succ k =>
        rw [Option.getD_some, drop_words n _ (by omega)] at hw
        obtain ⟨rfl, -⟩ := List.cons.inj hw
        rfl
  source_data := by
    rintro s (⟨-, hl⟩ | ⟨h', k, hk, rfl, hl⟩) h b
    · cases hl
    · have hk0 : k = 0 := by
        have := congrArg List.length (Option.some.inj hl)
        simp at this
        omega
      subst hk0
      rfl
  ready_head := by
    rintro s l (⟨rfl, rfl⟩ | ⟨h', k, hk, rfl, rfl⟩) h hne x r
    · rfl
    · cases k with
      | zero =>
        rw [Option.getD_some, List.drop_of_length_le (by simp)] at hne
        exact absurd rfl hne
      | succ k => rfl
  ready_data := by
    rintro s (⟨-, hl⟩ | ⟨h', k, hk, rfl, hl⟩) h x r
    · cases hl
    · have hk0 : k = 0 := by
        have := congrArg List.length (Option.some.inj hl)
        simp at this
        omega
      subst hk0
      rfl
  step_none := by
    rintro s (⟨rfl, -⟩ | ⟨h', k, hk, rfl, hl⟩) h r
    · exact .inl ⟨rfl, rfl⟩
    · cases hl
  step_head := by
    rintro s l (⟨rfl, rfl⟩ | ⟨h', k, hk, rfl, rfl⟩) h w ws hw x r
    · have h0 := drop_words n (word h) (show n - 1 < n by omega)
      rw [show n - (n - 1 + 1) = 0 by omega, List.drop_zero] at h0
      obtain ⟨-, rfl⟩ := List.cons.inj (h0.symm.trans hw)
      cases r with
      | false => exact .inl ⟨rfl, rfl⟩
      | true => exact .inr ⟨h, n - 1, by omega, rfl, rfl⟩
    · cases k with
      | zero =>
        rw [Option.getD_some, List.drop_of_length_le (by simp)] at hw
        cases hw
      | succ k =>
        rw [Option.getD_some, drop_words n _ (by omega)] at hw
        obtain ⟨-, rfl⟩ := List.cons.inj hw
        cases r with
        | false => exact .inr ⟨h', k + 1, hk, rfl, rfl⟩
        | true => exact .inr ⟨h', k, by omega, rfl, rfl⟩
  step_data := by
    rintro s (⟨-, hl⟩ | ⟨h', k, hk, rfl, hl⟩) h b r
    · cases hl
    · have hk0 : k = 0 := by
        have := congrArg List.length (Option.some.inj hl)
        simp at this
        omega
      subst hk0
      by_cases hlast : (isLast b && r) = true
      · rw [if_pos hlast]
        exact .inl ⟨if_pos hlast, rfl⟩
      · rw [if_neg hlast]
        exact .inr ⟨h', 0, hk, if_neg hlast, hl⟩

end Packetizer

end LiteEth.Rtl
