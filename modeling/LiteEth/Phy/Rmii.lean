/-
`phy/rmii.py`: the RMII receiver. The di-bits of a frame go through a delay of two cycles to a converter that packs four
of them to a byte. The end of a frame is seen two cycles after its last di-bit, which is when that comes out of the
delay: there the converter is told that it is the last one. What follows it in the delay is no part of the frame, and
meets a converter that is held in reset.
-/
import LiteEth.Rtl.Machine
import LiteEth.Rtl.Stream
import LiteEth.Rtl.StrideConverter

namespace LiteEth.Phy

open LiteEth.Rtl

/-! ## The receiver -/

namespace RMIIRX

/-- The states of the receiver. -/
inductive Fsm
  | idle
  | receive
  deriving DecidableEq, Repr

/-- The pads in a cycle. -/
structure Pads where
  crsDv : Bool
  rxData : BitVec 2
  deriving DecidableEq

/-- The registers in front of the converter: the pads, `crs_dv_d`, the FSM, and the two stages of each `MultiReg`. -/
structure Front where
  fsm : Fsm
  pads : Pads
  crsDvD : Bool
  valid₁ : Bool
  data₁ : BitVec 2
  valid₂ : Bool
  data₂ : BitVec 2

/-- The registers after reset. -/
def Front.init : Front := ⟨.idle, ⟨false, 0⟩, false, false, 0, false, 0⟩

namespace Front

variable (s : Front)

/-- A frame begins. -/
def begins : Bool := s.pads.crsDv && s.pads.rxData != 0

/-- A frame ends: two consecutive zeros on `crs_dv`. -/
def ends : Bool := !(s.pads.crsDv || s.crsDvD)

/-- `converter_sink_valid`. -/
def sinkValid : Bool :=
  match s.fsm with
  | .idle => s.begins
  | .receive => true

/-- `converter_sink_data`. -/
def sinkData : BitVec 2 :=
  match s.fsm with
  | .idle => if s.begins then s.pads.rxData else 0
  | .receive => s.pads.rxData

/-- `converter.reset`. -/
def reset : Bool :=
  match s.fsm with
  | .idle => !s.begins
  | .receive => false

/-- `converter.sink.last`. -/
def last : Bool :=
  match s.fsm with
  | .idle => false
  | .receive => s.ends

/-- `converter.sink`. -/
def sink : Option (BitVec 2 × Bool) := if s.valid₂ then some (s.data₂, s.last) else none

/-- One cycle: the pads are sampled, and the di-bits go through two registers. -/
def next (x : Pads) : Front where
  fsm := match s.fsm with
    | .idle => if s.begins then .receive else .idle
    | .receive => if s.ends then .idle else .receive
  pads := x
  crsDvD := s.pads.crsDv
  valid₁ := s.sinkValid
  data₁ := s.sinkData
  valid₂ := s.valid₁
  data₂ := s.data₁

end Front

variable (C : StrideConverter 2 4)

/-- The registers: those before the converter, and its own. -/
structure State where
  front : Front
  converter : C.State

variable {C}

/-- The converter under its `ResetInserter`. -/
def convert (c : C.State) (reset : Bool) (sink : Option (BitVec 2 × Bool)) (ready : Bool) : C.State :=
  if reset then C.reset else C.step c sink ready

/-- The registers after a clock edge, given the pads and `source.ready`. -/
def State.next (s : State C) (i : Pads × Bool) : State C where
  front := s.front.next i.1
  converter := convert s.converter s.front.reset s.front.sink i.2

end RMIIRX

/-- `LiteEthPHYRMIIRX`. -/
def rmiiRX (C : StrideConverter 2 4) : Machine (RMIIRX.Pads × Bool) (RMIIRX.State C) where
  reset := { front := .init, converter := C.reset }
  step := RMIIRX.State.next

namespace RMIIRX

variable {C : StrideConverter 2 4}

/-- The bytes that are delivered, each with its mark. -/
def delivered (s : State C) (is : List (Pads × Bool)) : List (BitVec 8 × Bool) :=
  (rmiiRX C).log (fun s i => if i.2 then (C.source s.converter).toList else []) s is

/-! ## Frames on the pads -/

/-- A cycle between frames: `crs_dv` is low, or the di-bit is zero. -/
def Pads.quiet (x : Pads) : Bool := !(x.crsDv && x.rxData != 0)

/-- A frame on the pads. -/
structure Frame where
  /-- Zero di-bits with `crs_dv` high before the frame. -/
  leading : ℕ
  bits : List Pads
  /-- The cycles after the frame. -/
  idle : List Pads
  words : ∃ n, 1 ≤ n ∧ bits.length = 4 * n
  first : ∀ x ∈ bits.head?, x.crsDv = true ∧ x.rxData ≠ 0
  last : ∀ x ∈ bits.getLast?, x.crsDv = true
  /-- `crs_dv` is never low for two consecutive cycles. -/
  toggles : bits.IsChain fun x y => x.crsDv = true ∨ y.crsDv = true
  idle_length : 4 ≤ idle.length
  idle_low : ∀ x ∈ idle, x.crsDv = false

/-- The bytes of di-bits, the least significant one first. -/
def bytes : List (BitVec 2) → List (BitVec 8)
  | d₀ :: d₁ :: d₂ :: d₃ :: ds => (d₃ ++ d₂ ++ d₁ ++ d₀) :: bytes ds
  | _ => []

namespace Frame

variable (f : Frame)

/-- The di-bits of a frame on the wire. -/
def dibits : List (BitVec 2) := f.bits.map (·.rxData)

/-- The cycles of a frame. -/
def line : List Pads := List.replicate f.leading ⟨true, 0⟩ ++ f.bits ++ f.idle

end Frame

/-- The cycles with a consumer that is always ready. -/
def taking (xs : List Pads) : List (Pads × Bool) := xs.map (·, true)

/-! ## What the converter is told -/

/-- What the registers in front of it tell the converter. -/
inductive Told
  | reset
  | nothing
  | part (d : BitVec 2) (l : Bool)

/-- What the converter is told in a cycle. -/
def Front.told (s : Front) : Told := if s.reset then .reset else s.sink.elim .nothing fun x => .part x.1 x.2

/-- What the converter is told in some cycles. -/
def tells : Front → List Pads → List Told
  | _, [] => []
  | s, x :: xs => s.told :: tells (s.next x) xs

/-- The registers after some cycles. -/
def Front.run (s : Front) (xs : List Pads) : Front := xs.foldl Front.next s

@[simp] theorem tells_nil (s : Front) : tells s [] = [] := rfl

@[simp] theorem tells_cons (s : Front) (x : Pads) (xs : List Pads) :
    tells s (x :: xs) = s.told :: tells (s.next x) xs := rfl

@[simp] theorem Front.run_nil (s : Front) : s.run [] = s := rfl

@[simp] theorem Front.run_cons (s : Front) (x : Pads) (xs : List Pads) : s.run (x :: xs) = (s.next x).run xs := rfl

/-- Between frames, with the pads quiet and nothing of a frame in the delay. -/
structure Rests (s : Front) : Prop where
  fsm : s.fsm = .idle
  pads : s.pads.quiet = true
  valid : s.valid₁ = false

theorem Rests.begins {s : Front} (h : Rests s) : s.begins = false := by
  have hq := h.pads
  rw [Pads.quiet, Bool.not_eq_true'] at hq
  exact hq

theorem Rests.told {s : Front} (h : Rests s) : s.told = .reset := by
  unfold Front.told Front.reset
  rw [h.fsm, h.begins]
  rfl

theorem Rests.next {s : Front} (h : Rests s) (x : Pads) : s.next x = ⟨.idle, x, s.pads.crsDv, false, 0, false, s.data₁⟩ := by
  unfold Front.next Front.sinkValid Front.sinkData
  rw [h.fsm, h.begins, h.valid]
  rfl

/-- While the pads are quiet the converter is held in reset. -/
theorem Rests.quiet {s : Front} (h : Rests s) {xs : List Pads} (hxs : ∀ x ∈ xs, x.quiet = true) :
    tells s xs = List.replicate xs.length .reset ∧ Rests (s.run xs) := by
  induction xs generalizing s with
  | nil => exact ⟨rfl, h⟩
  | cons x xs ih =>
    have hnext : Rests (s.next x) := by
      rw [h.next]
      exact ⟨rfl, hxs x List.mem_cons_self, rfl⟩
    obtain ⟨h1, h2⟩ := ih hnext fun y hy => hxs y (List.mem_cons_of_mem x hy)
    exact ⟨by rw [tells_cons, h.told, h1]; rfl, h2⟩

/-- Within a frame: the last three di-bits are in the delay and in the registers. -/
def within (a b c : BitVec 2) (crs crsD : Bool) : Front := ⟨.receive, ⟨crs, c⟩, crsD, true, b, true, a⟩

theorem within_next (a b c : BitVec 2) {crs crsD : Bool} (h : crs = true ∨ crsD = true) (x : Pads) :
    (within a b c crs crsD).told = .part a false ∧ (within a b c crs crsD).next x = within b c x.rxData x.crsDv crs := by
  have hends : (within a b c crs crsD).ends = false := by
    unfold Front.ends within
    rcases h with rfl | rfl <;> simp
  constructor
  · unfold Front.told Front.reset Front.sink Front.last
    rw [hends]
    rfl
  · unfold Front.next
    rw [hends]
    rfl

/-- The end of a frame is seen when its last di-bit comes out of the delay. -/
theorem within_end (a b c : BitVec 2) (crsD : Bool) {y₀ y₁ y₂ y₃ : Pads} (h₀ : y₀.crsDv = false) (h₁ : y₁.crsDv = false)
    (h₂ : y₂.crsDv = false) (h₃ : y₃.crsDv = false) :
    tells (within a b c true crsD) [y₀, y₁, y₂, y₃] = [.part a false, .part b false, .part c true, .reset] ∧
      Rests ((within a b c true crsD).run [y₀, y₁, y₂, y₃]) := by
  obtain ⟨_, d₀⟩ := y₀
  obtain ⟨_, d₁⟩ := y₁
  obtain ⟨_, d₂⟩ := y₂
  obtain ⟨_, d₃⟩ := y₃
  obtain ⟨rfl, rfl, rfl, rfl⟩ := And.intro h₀ (And.intro h₁ (And.intro h₂ h₃))
  exact ⟨rfl, rfl, rfl, rfl⟩

/-- The converter gets a part. -/
def part (x : BitVec 2 × Bool) : Told := .part x.1 x.2

theorem marked_cons (d e : BitVec 2) (ds : List (BitVec 2)) : marked (d :: e :: ds) = (d, false) :: marked (e :: ds) :=
  marked_append [d] (List.cons_ne_nil e ds)

/-- The rest of a frame, as long as `crs_dv` is not low for two cycles. -/
theorem within_frame {y₀ y₁ y₂ y₃ : Pads} (h₀ : y₀.crsDv = false) (h₁ : y₁.crsDv = false) (h₂ : y₂.crsDv = false)
    (h₃ : y₃.crsDv = false) : ∀ (xs : List Pads) (a b c : BitVec 2) (crs crsD : Bool),
    (⟨crsD, b⟩ :: ⟨crs, c⟩ :: xs : List Pads).IsChain (fun x y => x.crsDv = true ∨ y.crsDv = true) →
    (∀ x ∈ (⟨crs, c⟩ :: xs : List Pads).getLast?, x.crsDv = true) →
    tells (within a b c crs crsD) (xs ++ [y₀, y₁, y₂, y₃]) =
        (marked (a :: b :: c :: xs.map (·.rxData))).map part ++ [.reset] ∧
      Rests ((within a b c crs crsD).run (xs ++ [y₀, y₁, y₂, y₃]))
  | [], a, b, c, crs, crsD, _, hlast => by
    obtain rfl : crs = true := hlast _ rfl
    rw [List.map_nil, marked_cons, marked_cons]
    exact within_end a b c crsD h₀ h₁ h₂ h₃
  | x :: xs, a, b, c, crs, crsD, hchain, hlast => by
    rw [List.isChain_cons_cons] at hchain
    obtain ⟨htold, hnext⟩ := within_next a b c hchain.1.symm x
    obtain ⟨h1, h2⟩ := within_frame h₀ h₁ h₂ h₃ xs b c x.rxData x.crsDv crs hchain.2 hlast
    rw [List.cons_append, tells_cons, Front.run_cons, htold, hnext, h1, List.map_cons, marked_cons]
    exact ⟨rfl, h2⟩

/-- A frame, from rest, with the four cycles after it. -/
theorem Rests.frame {s : Front} (h : Rests s) (f : Frame) {y₀ y₁ y₂ y₃ : Pads} (h₀ : y₀.crsDv = false)
    (h₁ : y₁.crsDv = false) (h₂ : y₂.crsDv = false) (h₃ : y₃.crsDv = false) :
    tells s (f.bits ++ [y₀, y₁, y₂, y₃]) = [.reset, .nothing, .nothing] ++ (marked f.dibits).map part ++ [.reset] ∧
      Rests (s.run (f.bits ++ [y₀, y₁, y₂, y₃])) := by
  obtain ⟨n, hn, hlen⟩ := f.words
  have hfirst := f.first
  have hlast := f.last
  have htoggles := f.toggles
  unfold Frame.dibits
  match hbits : f.bits, hlen with
  | x₀ :: x₁ :: x₂ :: xs, _ =>
    rw [hbits] at hfirst hlast htoggles
    obtain ⟨crs₀, d₀⟩ := x₀
    obtain ⟨hcrs, hd⟩ := hfirst _ rfl
    obtain rfl : crs₀ = true := hcrs
    have hbegins : Front.begins ⟨.idle, ⟨true, d₀⟩, s.pads.crsDv, false, 0, false, s.data₁⟩ = true := by
      simpa [Front.begins] using hd
    have htold : Front.told ⟨.idle, ⟨true, d₀⟩, s.pads.crsDv, false, 0, false, s.data₁⟩ = .nothing := by
      unfold Front.told Front.reset
      rw [hbegins]
      rfl
    -- the first word opens the frame, with its own di-bit still to be told
    have hnext : Front.next ⟨.idle, ⟨true, d₀⟩, s.pads.crsDv, false, 0, false, s.data₁⟩ x₁ =
        ⟨.receive, x₁, true, true, d₀, false, 0⟩ := by
      unfold Front.next Front.sinkValid Front.sinkData
      rw [hbegins]
      rfl
    have hends : Front.ends ⟨.receive, x₁, true, true, d₀, false, 0⟩ = false := by
      unfold Front.ends
      simp
    have hnext' : Front.next ⟨.receive, x₁, true, true, d₀, false, 0⟩ x₂ =
        within d₀ x₁.rxData x₂.rxData x₂.crsDv x₁.crsDv := by
      unfold Front.next
      rw [hends]
      rfl
    rw [List.isChain_cons_cons] at htoggles
    obtain ⟨ht, hr⟩ := within_frame h₀ h₁ h₂ h₃ xs d₀ x₁.rxData x₂.rxData x₂.crsDv x₁.crsDv htoggles.2 hlast
    simp only [List.cons_append, tells_cons, Front.run_cons, h.told, h.next, htold, hnext, hnext', List.map_cons]
    rw [ht]
    exact ⟨rfl, hr⟩
  | [], hl => simp at hl; omega
  | [_], hl => simp at hl; omega
  | [_, _], hl => simp at hl; omega

/-! ## What the converter makes of it -/

variable (C) in
/-- The converter after it is told, with a consumer that is ready. -/
def heed (c : C.State) : Told → C.State
  | .reset => C.reset
  | .nothing => C.step c none true
  | .part d l => C.step c (some (d, l)) true

variable (C) in
/-- The words it shows to a consumer that is ready. -/
def shows : C.State → List Told → List (BitVec 8 × Bool)
  | _, [] => []
  | c, o :: os => (C.source c).toList ++ shows (heed C c o) os

variable (C) in
/-- The converter after what it has been told. -/
def heeds (c : C.State) (os : List Told) : C.State := os.foldl (heed C) c

theorem shows_append (os ps : List Told) : ∀ c, shows C c (os ++ ps) = shows C c os ++ shows C (heeds C c os) ps := by
  induction os with
  | nil => exact fun _ => rfl
  | cons o os ih =>
    intro c
    rw [List.cons_append, shows, shows, ih, List.append_assoc]
    rfl

/-- The receiver delivers what the converter makes of what it is told. -/
theorem delivered_eq (xs : List Pads) : ∀ (s : Front) (c : C.State),
    delivered ⟨s, c⟩ (taking xs) = shows C c (tells s xs) ∧
      (rmiiRX C).runFrom ⟨s, c⟩ (taking xs) = ⟨s.run xs, heeds C c (tells s xs)⟩ := by
  induction xs with
  | nil => exact fun _ _ => ⟨rfl, rfl⟩
  | cons x xs ih =>
    intro s c
    have hstep : (rmiiRX C).step ⟨s, c⟩ (x, true) = ⟨s.next x, heed C c s.told⟩ := by
      show (⟨s.next x, convert c s.reset s.sink true⟩ : State C) = _
      congr 1
      unfold convert Front.told
      cases s.reset with
      | true => rfl
      | false => cases s.sink <;> rfl
    obtain ⟨h1, h2⟩ := ih (s.next x) (heed C c s.told)
    constructor
    · show _ ++ (rmiiRX C).log _ ((rmiiRX C).step ⟨s, c⟩ (x, true)) (taking xs) = _
      rw [hstep]
      exact congrArg (_ ++ ·) h1
    · show (rmiiRX C).runFrom ((rmiiRX C).step ⟨s, c⟩ (x, true)) (taking xs) = _
      rw [hstep]
      exact h2

theorem pack_dibits (d₀ d₁ d₂ d₃ : BitVec 2) : pack 8 [d₀, d₁, d₂, d₃] = d₃ ++ d₂ ++ d₁ ++ d₀ := by
  revert d₀ d₁ d₂ d₃
  decide

/-- Four parts are a byte. -/
theorem heeds_byte {c : C.State} (hc : C.parts c = []) (d₀ d₁ d₂ d₃ : BitVec 2) (l : Bool) :
    shows C c [.part d₀ false, .part d₁ false, .part d₂ false, .part d₃ l] = (C.source c).toList ∧
      C.parts (heeds C c [.part d₀ false, .part d₁ false, .part d₂ false, .part d₃ l]) = [] ∧
      C.source (heeds C c [.part d₀ false, .part d₁ false, .part d₂ false, .part d₃ l]) =
        some (d₃ ++ d₂ ++ d₁ ++ d₀, l) := by
  obtain ⟨p₀, s₀⟩ := C.step_part c d₀ true (.inr rfl) (by rw [hc]; decide)
  rw [hc, List.nil_append] at p₀
  obtain ⟨p₁, s₁⟩ := C.step_part _ d₁ true (.inr rfl) (by rw [p₀]; simp)
  rw [p₀] at p₁
  obtain ⟨p₂, s₂⟩ := C.step_part _ d₂ true (.inr rfl) (by rw [p₁]; simp)
  rw [p₁] at p₂
  obtain ⟨p₃, s₃⟩ := C.step_word _ d₃ l true (.inr rfl) (by rw [p₂]; rfl)
  rw [p₂] at s₃
  refine ⟨?_, p₃, s₃.trans ?_⟩
  · simp only [shows, heed, s₀, s₁, s₂, Option.toList_none, List.append_nil]
  · exact congrArg (fun b => some (b, l)) (pack_dibits d₀ d₁ d₂ d₃)

/-- The parts of a frame are its bytes, of which the last one is shown while the converter is reset. -/
theorem shows_frame : ∀ (n : ℕ) (ds : List (BitVec 2)) (c : C.State), ds.length = 4 * (n + 1) → C.parts c = [] →
    shows C c ((marked ds).map part ++ [.reset]) = (C.source c).toList ++ marked (bytes ds) ∧
      heeds C c ((marked ds).map part ++ [.reset]) = C.reset
  -- four di-bits make a byte, and the last of them closes the word
  | 0, [d₀, d₁, d₂, d₃], c, _, hc => by
    obtain ⟨hshows, -, hsource⟩ := heeds_byte hc d₀ d₁ d₂ d₃ true
    refine ⟨?_, rfl⟩
    show shows C c ([.part d₀ false, .part d₁ false, .part d₂ false, .part d₃ true] ++ [.reset]) = _
    rw [shows_append, hshows, shows, hsource]
    rfl
  | n + 1, d₀ :: d₁ :: d₂ :: d₃ :: e :: ds, c, hlen, hc => by
    obtain ⟨hshows, hparts, hsource⟩ := heeds_byte hc d₀ d₁ d₂ d₃ false
    have hlen' : (e :: ds).length = 4 * (n + 1) := by
      simp only [List.length_cons] at hlen ⊢
      omega
    obtain ⟨h1, h2⟩ := shows_frame n (e :: ds) _ hlen' hparts
    have hmarked : (marked (d₀ :: d₁ :: d₂ :: d₃ :: e :: ds)).map part ++ [.reset] =
        [.part d₀ false, .part d₁ false, .part d₂ false, .part d₃ false] ++ ((marked (e :: ds)).map part ++ [.reset]) := by
      rw [marked_cons, marked_cons, marked_cons, marked_cons]
      rfl
    have hbytes : marked (bytes (d₀ :: d₁ :: d₂ :: d₃ :: e :: ds)) =
        (d₃ ++ d₂ ++ d₁ ++ d₀, false) :: marked (bytes (e :: ds)) := by
      match e :: ds, hlen' with
      | e₀ :: e₁ :: e₂ :: e₃ :: es, _ => exact marked_append [d₃ ++ d₂ ++ d₁ ++ d₀] (List.cons_ne_nil _ _)
      | [], h => simp at h
      | [_], h => simp at h; omega
      | [_, _], h => simp at h; omega
      | [_, _, _], h => simp at h; omega
    rw [hmarked, hbytes, shows_append, hshows, h1, hsource]
    refine ⟨rfl, ?_⟩
    rw [heeds, List.foldl_append]
    exact h2
  | _, [], _, h, _ => by simp at h
  | _, [_], _, h, _ => by simp at h; omega
  | _, [_, _], _, h, _ => by simp at h; omega
  | _, [_, _, _], _, h, _ => by simp at h; omega
  | n + 1, [_, _, _, _], _, h, _ => by simp at h
  | 0, _ :: _ :: _ :: _ :: _ :: _, _, h, _ => by simp at h

/-! ## Sessions -/

/-- Between frames, with nothing in the converter. -/
structure Idles (s : State C) : Prop where
  front : Rests s.front
  parts : C.parts s.converter = []
  source : C.source s.converter = none

/-- Nothing is delivered while the pads are quiet. -/
theorem Idles.quiet {s : State C} (h : Idles s) (xs : List Pads) (hxs : ∀ x ∈ xs, x.quiet = true) :
    delivered s (taking xs) = [] ∧ Idles ((rmiiRX C).runFrom s (taking xs)) := by
  obtain ⟨s, c⟩ := s
  obtain ⟨htells, hrests⟩ := h.front.quiet hxs
  obtain ⟨hdelivered, hrun⟩ := delivered_eq xs s c
  have hresets : ∀ (n : ℕ) (c : C.State), C.parts c = [] → C.source c = none →
      shows C c (List.replicate n .reset) = [] ∧ C.parts (heeds C c (List.replicate n .reset)) = [] ∧
        C.source (heeds C c (List.replicate n .reset)) = none := by
    intro n
    induction n with
    | zero => exact fun c hp hs => ⟨rfl, hp, hs⟩
    | succ n ih =>
      intro c _ hs
      obtain ⟨h1, h2⟩ := ih C.reset C.parts_reset C.source_reset
      rw [List.replicate_succ, shows, hs]
      exact ⟨h1, h2⟩
  obtain ⟨h1, h2, h3⟩ := hresets xs.length c h.parts h.source
  rw [hdelivered, hrun, htells]
  exact ⟨h1, hrests, h2, h3⟩

theorem delivered_append (s : State C) (xs ys : List Pads) : delivered s (taking (xs ++ ys)) =
    delivered s (taking xs) ++ delivered ((rmiiRX C).runFrom s (taking xs)) (taking ys) := by
  unfold delivered taking
  rw [List.map_append, Machine.log_append]

theorem runFrom_append (s : State C) (xs ys : List Pads) : (rmiiRX C).runFrom s (taking (xs ++ ys)) =
    (rmiiRX C).runFrom ((rmiiRX C).runFrom s (taking xs)) (taking ys) := by
  unfold taking
  rw [List.map_append, Machine.runFrom_append]

/-- The bytes of a frame are delivered, the last one marked, by the fourth cycle after it. -/
theorem Idles.frame {s : State C} (h : Idles s) (f : Frame) {y₀ y₁ y₂ y₃ : Pads} (h₀ : y₀.crsDv = false)
    (h₁ : y₁.crsDv = false) (h₂ : y₂.crsDv = false) (h₃ : y₃.crsDv = false) :
    delivered s (taking (f.bits ++ [y₀, y₁, y₂, y₃])) = marked (bytes f.dibits) ∧
      Idles ((rmiiRX C).runFrom s (taking (f.bits ++ [y₀, y₁, y₂, y₃]))) := by
  obtain ⟨s, c⟩ := s
  obtain ⟨htells, hrests⟩ := h.front.frame f h₀ h₁ h₂ h₃
  obtain ⟨hdelivered, hrun⟩ := delivered_eq (f.bits ++ [y₀, y₁, y₂, y₃]) s c
  obtain ⟨n, hn, hlen⟩ := f.words
  -- the converter has been reset when the frame begins
  obtain ⟨p₁, s₁⟩ := C.step_none C.reset true
  obtain ⟨p₂, s₂⟩ := C.step_none (C.step C.reset none true) true
  have hdibits : f.dibits.length = 4 * (n - 1 + 1) := by
    unfold Frame.dibits
    rw [List.length_map, hlen]
    omega
  obtain ⟨hshows, hheeds⟩ := shows_frame (n - 1) f.dibits _ hdibits ((p₂.trans p₁).trans C.parts_reset)
  have hnone : C.source c = none := h.source
  have hstart : shows C c [.reset, .nothing, .nothing] = [] := by
    simp only [shows, heed, hnone, C.source_reset, s₁, if_true, Option.toList_none, List.append_nil]
  rw [hdelivered, hrun, htells, List.append_assoc, shows_append, hstart, List.nil_append]
  refine ⟨?_, hrests, ?_, ?_⟩
  · refine hshows.trans ?_
    rw [s₂]
    rfl
  · show C.parts (heeds C _ _) = []
    rw [heeds, List.foldl_append]
    exact (congrArg C.parts hheeds).trans C.parts_reset
  · show C.source (heeds C _ _) = none
    rw [heeds, List.foldl_append]
    exact (congrArg C.source hheeds).trans C.source_reset

theorem Idles.line {s : State C} (h : Idles s) (f : Frame) : delivered s (taking f.line) = marked (bytes f.dibits) ∧
    Idles ((rmiiRX C).runFrom s (taking f.line)) := by
  have hlow := f.idle_low
  have hlen := f.idle_length
  unfold Frame.line
  match hidle : f.idle, hlen with
  | y₀ :: y₁ :: y₂ :: y₃ :: ys, _ =>
    rw [hidle] at hlow
    -- carrier without data before the frame changes nothing
    obtain ⟨h1, h2⟩ := h.quiet (List.replicate f.leading ⟨true, 0⟩) fun x hx => by
      rw [List.eq_of_mem_replicate hx]
      rfl
    obtain ⟨h3, h4⟩ := h2.frame f (hlow y₀ (by simp)) (hlow y₁ (by simp)) (hlow y₂ (by simp)) (hlow y₃ (by simp))
    obtain ⟨h5, h6⟩ := h4.quiet ys fun x hx => by
      have hx' := hlow x (by simp [hx])
      unfold Pads.quiet
      rw [hx']
      rfl
    have hsplit : List.replicate f.leading ⟨true, 0⟩ ++ f.bits ++ y₀ :: y₁ :: y₂ :: y₃ :: ys =
        List.replicate f.leading ⟨true, 0⟩ ++ ((f.bits ++ [y₀, y₁, y₂, y₃]) ++ ys) := by simp
    rw [hsplit]
    constructor
    · rw [delivered_append, h1, List.nil_append, delivered_append, h3, h5, List.append_nil]
    · rw [runFrom_append s, runFrom_append _ (f.bits ++ _)]
      exact h6
  | [], hl => simp at hl
  | [_], hl => simp at hl
  | [_, _], hl => simp at hl
  | [_, _, _], hl => simp at hl

theorem idles_reset : Idles (rmiiRX C).reset := ⟨⟨rfl, rfl, rfl⟩, C.parts_reset, C.source_reset⟩

/-- Whatever `crs_dv` does within the frames and the gaps between them, the receiver delivers the bytes of each frame,
the last one marked, and nothing else. -/
theorem rmiiRX_recovers (C : StrideConverter 2 4) (before : List Pads) (hbefore : ∀ x ∈ before, x.crsDv = false)
    (fs : List Frame) : delivered (rmiiRX C).reset (taking (before ++ fs.flatMap Frame.line)) =
      fs.flatMap fun f => marked (bytes f.dibits) := by
  obtain ⟨h1, h2⟩ := (idles_reset (C := C)).quiet before fun x hx => by
    unfold Pads.quiet
    rw [hbefore x hx]
    rfl
  have hframes : ∀ (fs : List Frame) (s : State C), Idles s →
      delivered s (taking (fs.flatMap Frame.line)) = fs.flatMap fun f => marked (bytes f.dibits) := by
    intro fs
    induction fs with
    | nil => exact fun _ _ => rfl
    | cons f fs ih =>
      intro s hs
      obtain ⟨h3, h4⟩ := hs.line f
      rw [List.flatMap_cons, List.flatMap_cons, delivered_append, h3, ih _ h4]
  rw [delivered_append, h1, List.nil_append, hframes fs _ h2]

/-- A frame of one byte, after two zero di-bits; `crs_dv` is low once within it. -/
def oneByte : Frame where
  leading := 2
  bits := [⟨true, 1⟩, ⟨false, 1⟩, ⟨true, 1⟩, ⟨true, 3⟩]
  idle := List.replicate 4 ⟨false, 0⟩
  words := ⟨1, by decide, rfl⟩
  first := by decide
  last := by decide
  toggles := by decide
  idle_length := by decide
  idle_low := by decide

example : bytes oneByte.dibits = [0xd5] := by decide

theorem rmiiRX_recovers_oneByte : delivered (rmiiRX (.packing 2 4)).reset
    (taking ([⟨false, 2⟩] ++ [oneByte, oneByte].flatMap Frame.line)) =
      [oneByte, oneByte].flatMap fun f => marked (bytes f.dibits) :=
  rmiiRX_recovers (.packing 2 4) [⟨false, 2⟩] (by decide) [oneByte, oneByte]

end RMIIRX

end LiteEth.Phy
