/-
The source of the PCS: `valid` is the sample of the receive path, one cycle later, and `last` the end of its burst.
The two meet only if the burst ends with a sample.
-/
import LiteEth.Phy.Pcs

namespace LiteEth.Phy.Pcs.Framing

open LiteEth.Rtl

/-! ## The source -/

/-- `ReceivePath` and the registers behind it. -/
structure State where
  rx : Rx.State
  rxEnD : Bool
  valid : Bool
  data : BitVec 8

/-- What is at `PCS.source` in a cycle. -/
structure Source where
  valid : Bool
  data : BitVec 8
  last : Bool
  deriving DecidableEq

variable (speed : BitVec 2) (s : State) (y : Symbol)

/-- The byte at the source; it is the last one once the next code is no data. -/
def State.source : Source := { valid := s.valid, data := s.data, last := !s.rx.rxEn y && s.rxEnD }

/-- One cycle: the receiver goes on, and what it has sampled goes to the source. -/
def State.next : State where
  rx := s.rx.next speed y
  rxEnD := s.rx.rxEn y
  valid := s.rx.sampleEn y
  data := s.rx.rxData y

/-- The receive side of `PCS`, on symbols. -/
def pcs : Machine Symbol State where
  reset := { rx := .init, rxEnD := false, valid := false, data := 0 }
  step := State.next speed

/-! ## Bursts -/

/-- `rx_en` after some cycles, with the symbol `y`. -/
def rxEnAfter (is : List Symbol) (y : Symbol) : Bool := ((pcs speed).run is).rx.rxEn y

/-- After the cycles `is` the symbols `ys`, and no more, make a burst of `rx_en`; `y` is the one after it. -/
structure IsBurst (is ys : List Symbol) (y : Symbol) : Prop where
  ne_nil : ys ≠ []
  before : ∀ js x, is = js ++ [x] → rxEnAfter speed js x = false
  high : (pcs speed).Along (fun s y => s.rx.rxEn y = true) ((pcs speed).run is) ys
  after : rxEnAfter speed (is ++ ys) y = false

/-- What is at the source for a burst: its samples are there one cycle later. -/
def beats (is ys : List Symbol) (y : Symbol) : List Source :=
  (pcs speed).log (fun s y => [s.source y]) ((pcs speed).run (is ++ ys.take 1)) (ys.drop 1 ++ [y])

/-- If there is a valid beat, exactly one valid beat is marked as the last, and it is the final one. -/
def Framed (bs : List Source) : Prop :=
  (∃ b ∈ bs, b.valid = true) → ∃ m l, bs = m ++ [l] ∧ l.valid = true ∧ l.last = true ∧
    ∀ b ∈ m, ¬ (b.valid = true ∧ b.last = true)

/-- The cycles the timer has counted by the end of a burst. In the first cycle after reset it has ended already. -/
def counted (is ys : List Symbol) : ℕ := ys.length + if is = [] then period speed - 1 else 0

/-- The burst ends with a byte, or before the first one. -/
def WholeBytes (is ys : List Symbol) : Prop := period speed ∣ counted speed is ys ∨ counted speed is ys < period speed

/-! ## A burst -/

/-- The timer after `c` cycles of a burst. -/
def Counts (s : State) (c : ℕ) : Prop := s.rx.timer.toNat + 1 + c % period speed = period speed

theorem counts_zero_iff {s : State} {c : ℕ} (h : Counts speed s c) :
    s.rx.timer = 0 ↔ c % period speed + 1 = period speed := by
  have htimer : s.rx.timer = 0 ↔ s.rx.timer.toNat = 0 := by rw [← BitVec.toNat_inj]; rfl
  unfold Counts at h
  rw [htimer]
  omega

/-- The count modulo the length of a byte. -/
theorem succ_mod_period (c : ℕ) :
    (c + 1) % period speed = if c % period speed + 1 = period speed then 0 else c % period speed + 1 := by
  have hlt := Nat.mod_lt c (period_pos speed)
  rw [← Nat.mod_add_mod]
  split_ifs with h
  · rw [h, Nat.mod_self]
  · exact Nat.mod_eq_of_lt (by omega)

/-- A cycle of a burst. -/
theorem Counts.next {s : State} {c : ℕ} (h : Counts speed s c) {y : Symbol} (hy : s.rx.rxEn y = true) :
    Counts speed (s.next speed y) (c + 1) ∧ (s.next speed y).rxEnD = true ∧
      ((s.next speed y).valid = true ↔ period speed ∣ c + 1) := by
  have hzero := counts_zero_iff speed h
  have hmod := succ_mod_period speed c
  have htimer : (s.next speed y).rx.timer = timerNext speed true s.rx.timer := by
    show timerNext speed (s.rx.rxEn y) s.rx.timer = _
    rw [hy]
  refine ⟨?_, hy, ?_⟩
  · unfold Counts at h ⊢
    rw [htimer]
    by_cases hz : s.rx.timer = 0
    · rw [if_pos (hzero.1 hz)] at hmod
      have hstart := timerNext_start speed (by omega) (show true = false ∨ _ from .inr hz)
      omega
    · rw [if_neg fun hc => hz (hzero.2 hc)] at hmod
      have hcount := timerNext_count speed hz
      omega
  · have hdvd : period speed ∣ c + 1 ↔ c % period speed + 1 = period speed := by
      rw [Nat.dvd_iff_mod_eq_zero, hmod]
      split_ifs with hc <;> simp [hc]
    rw [hdvd, ← hzero]
    show (s.rx.rxEn y && s.rx.timer == 0) = true ↔ _
    rw [hy, Bool.true_and, beq_iff_eq]

/-- What is at the source for the rest of a burst. -/
theorem source_burst {s : State} {c : ℕ} (h : Counts speed s c) (hen : s.rxEnD = true)
    (hv : s.valid = true ↔ period speed ∣ c) {ys : List Symbol} {y : Symbol}
    (hys : (pcs speed).Along (fun s y => s.rx.rxEn y = true) s ys)
    (hy : ((pcs speed).runFrom s ys).rx.rxEn y = false) :
    ∃ m l, (pcs speed).log (fun s y => [s.source y]) s (ys ++ [y]) = m ++ [l] ∧ l.last = true ∧
      (l.valid = true ↔ period speed ∣ c + ys.length) ∧ (∀ b ∈ m, b.last = false) ∧
      ((∃ b ∈ m ++ [l], b.valid = true) ↔ ∃ j ≤ ys.length, period speed ∣ c + j) := by
  -- induction on the symbols of the burst, the last beat is the one with the falling edge
  induction ys generalizing s c with
  | nil =>
    have hlow : s.rx.rxEn y = false := hy
    refine ⟨[], s.source y, rfl, ?_, hv, nofun, ?_⟩
    · unfold State.source
      rw [hlow, hen]
      rfl
    · have hvalid : (s.source y).valid = s.valid := rfl
      simpa [hvalid] using hv
  | cons x ys ih =>
    obtain ⟨hc, hen', hv'⟩ := h.next speed hys.1
    obtain ⟨m, l, hlog, hlast, hvalid, hm, hany⟩ := ih hc hen' hv' hys.2 hy
    have hsum : c + 1 + ys.length = c + (x :: ys).length := by rw [List.length_cons]; omega
    refine ⟨s.source x :: m, l, ?_, hlast, hsum ▸ hvalid, ?_, ?_⟩
    · rw [List.cons_append, Machine.log_cons, List.cons_append]
      exact congrArg _ hlog
    · intro b hb
      rcases List.mem_cons.1 hb with rfl | hb
      · unfold State.source
        rw [hys.1]
        rfl
      · exact hm b hb
    · rw [List.cons_append, List.exists_mem_cons_iff, hany]
      have hfirst : (s.source x).valid = s.valid := rfl
      rw [hfirst, hv]
      constructor
      · rintro (h0 | ⟨j, hj, hdvd⟩)
        · exact ⟨0, Nat.zero_le _, h0⟩
        · exact ⟨j + 1, by rw [List.length_cons]; omega, by rwa [Nat.add_comm j, ← Nat.add_assoc]⟩
      · rintro ⟨j, hj, hdvd⟩
        cases j with
        | zero => exact .inl hdvd
        | succ j =>
          rw [List.length_cons] at hj
          exact .inr ⟨j, by omega, by rwa [Nat.add_assoc, Nat.add_comm 1]⟩

/-! ## Bursts of a run -/

/-- Before a burst the timer is at its start, but for the first cycle after reset. -/
theorem counts_before {is ys : List Symbol} {y : Symbol} (h : IsBurst speed is ys y) :
    Counts speed ((pcs speed).run is) (if is = [] then period speed - 1 else 0) := by
  have hpos := period_pos speed
  have hlt : ∀ js : List Symbol, ((pcs speed).run js).rx.timer.toNat < period speed := fun js =>
    (pcs speed).runFrom_inv (P := fun s => s.rx.timer.toNat < period speed) (C := fun _ _ => True)
      (fun s y hs _ => timerNext_lt speed (s.rx.rxEn y) hs) js _ hpos ((pcs speed).along_trivial js _)
  unfold Counts
  split_ifs with hnil
  · subst hnil
    rw [Nat.mod_eq_of_lt (by omega)]
    show 0 + 1 + _ = _
    omega
  · obtain ⟨js, x, rfl⟩ := List.eq_nil_or_concat is |>.resolve_left hnil
    rw [List.concat_eq_append] at h ⊢
    have hlow := h.before js x rfl
    have hrun : ((pcs speed).run (js ++ [x])).rx.timer = timerNext speed (((pcs speed).run js).rx.rxEn x)
        ((pcs speed).run js).rx.timer := by
      rw [Machine.run, Machine.runFrom_concat]
      rfl
    have hstart := timerNext_start speed (hlt js) (.inl hlow)
    rw [hrun, Nat.zero_mod]
    exact hstart

/-- Beats of which only the final one is marked. -/
theorem framed_concat {m : List Source} {l : Source} (hm : ∀ b ∈ m, b.last = false) (hl : l.last = true) :
    Framed (m ++ [l]) ↔ ((∃ b ∈ m ++ [l], b.valid = true) → l.valid = true) := by
  refine forall_congr' fun _ => ⟨?_, fun hv => ⟨m, l, rfl, hv, hl, fun b hb hc => ?_⟩⟩
  · rintro ⟨m', l', heq, hv, -, -⟩
    obtain ⟨-, hl'⟩ := List.append_inj' heq rfl
    rw [List.singleton_inj.1 hl']
    exact hv
  · rw [hm b hb] at hc
    cases hc.2

/-- From one of the two offsets on, a multiple is met unless the count ends before it. -/
theorem not_exists_dvd_iff {p o : ℕ} (hp : 0 < p) (ho : o = p - 1 ∨ o = 0) (n : ℕ) :
    (¬ ∃ j ≤ n, p ∣ o + 1 + j) ↔ o + 1 + n < p := by
  constructor
  · intro hno
    by_contra hge
    rcases ho with rfl | rfl
    · exact hno ⟨0, Nat.zero_le _, by rw [Nat.add_zero, Nat.sub_add_cancel hp]⟩
    · exact hno ⟨p - 1, by omega, by rw [Nat.zero_add, Nat.add_sub_cancel' hp]⟩
  · rintro hlt ⟨j, hj, hdvd⟩
    have := Nat.le_of_dvd (by omega) hdvd
    omega

/-- In every run, for every burst of `rx_en`: its beats are framed iff it ends with a byte, or before the first one. -/
theorem framed_iff {is ys : List Symbol} {y : Symbol} (h : IsBurst speed is ys y) :
    Framed (beats speed is ys y) ↔ WholeBytes speed is ys := by
  have hpos := period_pos speed
  have hcount := counts_before speed h
  -- the first symbol opens the burst and brings no beat of it
  obtain ⟨x, ys, rfl⟩ := List.exists_cons_of_ne_nil h.ne_nil
  obtain ⟨hc, hen, hv⟩ := hcount.next speed h.high.1
  have hafter : ((pcs speed).runFrom (((pcs speed).run is).next speed x) ys).rx.rxEn y = false := by
    have := h.after
    unfold rxEnAfter Machine.run at this
    rwa [Machine.runFrom_append] at this
  have hbeats : beats speed is (x :: ys) y =
      (pcs speed).log (fun s y => [s.source y]) (((pcs speed).run is).next speed x) (ys ++ [y]) := by
    unfold beats
    rw [List.take_one, List.head?_cons, Option.toList_some, Machine.run, Machine.runFrom_concat]
    rfl
  obtain ⟨m, l, hlog, hlast, hvalid, hm, hany⟩ := source_burst speed hc hen hv h.high.2 hafter
  have hcounted : counted speed is (x :: ys) = (if is = [] then period speed - 1 else 0) + 1 + ys.length := by
    unfold counted
    rw [List.length_cons]
    omega
  -- only the first burst after reset starts in the middle of a period
  have hoffset : (if is = [] then period speed - 1 else 0) = period speed - 1 ∨
      (if is = [] then period speed - 1 else 0) = 0 := by
    split_ifs <;> simp
  rw [hbeats, hlog, framed_concat hm hlast, hany, hvalid, WholeBytes, hcounted]
  rw [← not_exists_dvd_iff hpos hoffset ys.length]
  exact imp_iff_or_not

/-- A start code, some bytes and a code that ends them, after an idle code. -/
def startCode : Symbol := ⟨true, K 27 7⟩

/-- The code after the last byte. -/
def endCode : Symbol := ⟨true, K 29 7⟩

/-- A byte of data. -/
def byteCode : Symbol := ⟨false, 0x55⟩

theorem isBurst_eleven : IsBurst 0b01 [endCode] (startCode :: List.replicate 10 byteCode) endCode where
  ne_nil := nofun
  before js x h := by
    have happend : [] ++ [endCode] = js ++ [x] := h
    obtain ⟨rfl, hx⟩ := List.append_inj' happend rfl
    rw [← List.singleton_inj.1 hx]
    decide
  high := by decide
  after := by decide

theorem framed_iff_eleven : Framed (beats 0b01 [endCode] (startCode :: List.replicate 10 byteCode) endCode) ↔
    WholeBytes 0b01 [endCode] (startCode :: List.replicate 10 byteCode) :=
  framed_iff 0b01 isBurst_eleven

/-- A burst of eleven cycles at the rate of ten cycles a byte has a valid beat, and none that ends it. -/
theorem eleven_not_framed : IsBurst 0b01 [endCode] (startCode :: List.replicate 10 byteCode) endCode ∧
    ¬ Framed (beats 0b01 [endCode] (startCode :: List.replicate 10 byteCode) endCode) := by
  refine ⟨isBurst_eleven, fun h => ?_⟩
  obtain ⟨m, l, heq, hvalid, -, -⟩ := h (by decide)
  have hlast : (beats 0b01 [endCode] (startCode :: List.replicate 10 byteCode) endCode).getLast?.map (·.valid) =
      some false := by decide
  rw [heq, List.getLast?_concat, Option.map_some, hvalid] at hlast
  cases hlast

end LiteEth.Phy.Pcs.Framing
