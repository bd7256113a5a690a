/-
The receive path, fed with the symbols of the transmit path. The two run in lock-step: for each state of the
transmitter there is one of the receiver, and their timers are the same. So the receiver samples a byte in the cycle
in which the transmitter acknowledges it.
-/
import LiteEth.Phy.Pcs

namespace LiteEth.Phy.Pcs.Link

open LiteEth.Rtl

/-! ## The producer -/

/-- What the user of a link does in a cycle: unless a frame is being sent, perhaps a frame is to be. Its bytes are
offered from this cycle on. -/
structure In where
  configStb : Bool
  configReg : BitVec 16
  disparity : Bool
  frame : List (BitVec 8)

/-- Both paths, the bytes of the frame that have not been acknowledged, and the cycles without an offer since the last
one. -/
structure State where
  tx : Tx.State
  rx : Rx.State
  pending : List (BitVec 8)
  gap : ℕ

variable (speed : BitVec 2) (s : State) (i : In)

/-- The bytes offered. -/
def State.offered : List (BitVec 8) := if s.pending = [] then i.frame else s.pending

/-- What the transmitter sees in a cycle: the bytes of the frame that are still to be sent. -/
def State.input : Tx.In where
  configStb := i.configStb
  configReg := i.configReg
  txStb := s.offered i ≠ []
  txData := (s.offered i).headD 0
  disparity := i.disparity

/-- The symbol on the line. -/
def State.symbol : Symbol := s.tx.symbol (s.input i)

/-- The bytes left after a cycle. -/
def State.left : List (BitVec 8) := if s.tx.txAck (s.input i) then (s.offered i).tail else s.offered i

/-- One cycle of both ends. -/
def State.next : State where
  tx := s.tx.next speed (s.input i)
  rx := s.rx.next speed (s.symbol i)
  pending := s.left i
  gap := if s.offered i = [] then s.gap + 1 else 0

/-- A transmitter and a receiver at the same speed. -/
def link : Machine In State where
  reset := { tx := .init, rx := .init, pending := [], gap := 4 }
  step := State.next speed

/-! ## What is sent and received -/

/-- The bytes that are offered for the first time. -/
def State.begun : List (BitVec 8) := if s.pending = [] then i.frame else []

/-- The byte sampled in a cycle. -/
def State.sampled : List (BitVec 8) := if s.rx.sampleEn (s.symbol i) then [s.rx.rxData (s.symbol i)] else []

/-- The config word taken by the transmitter. -/
def State.sent : List (BitVec 16) := if s.tx.loadConfigRegBuffer (s.input i) then [i.configReg] else []

/-- The config word loaded by the receiver. -/
def State.loaded : List (BitVec 16) :=
  if s.rx.loadConfigRegMsb (s.symbol i) then [s.rx.configWord (s.symbol i)] else []

/-- The rules for the user: frames start with `0x55`, a frame comes after at least four cycles without an offer, and no
config word is sent instead of it. -/
structure Fair : Prop where
  preamble : s.pending = [] → ∀ b ∈ i.frame.head?, b = 0x55
  gap : s.pending = [] → i.frame ≠ [] → 4 ≤ s.gap
  config : s.offered i ≠ [] → s.tx.fsm = .start → i.configStb = false

instance : Decidable (Fair s i) :=
  decidable_of_iff (_ ∧ _ ∧ _) ⟨fun h => ⟨h.1, h.2.1, h.2.2⟩, fun h => ⟨h.preamble, h.gap, h.config⟩⟩

/-! ## Lock-step -/

/-- The state of the receiver for each of the transmitter. -/
def follows : Tx.Fsm → Rx.Fsm
  | .configD | .idle => .k28_5
  | .configRegLsb => .configRegLsb
  | .configRegMsb => .configRegMsb
  | .data => .data
  | .start | .carrierExtend1 | .carrierExtend2 => .start

/-- The config word on its way. -/
def State.inFlight : List (BitVec 16) :=
  match s.tx.fsm with
  | .configD | .configRegLsb | .configRegMsb => [s.tx.configRegBuffer]
  | _ => []

/-- The receiver follows the transmitter: the states, the timers and the first byte of a word are the same. -/
structure Inv (s : State) : Prop where
  fsm : s.rx.fsm = follows s.tx.fsm
  timer : s.rx.timer = s.tx.timer
  lsb : s.tx.fsm = .configRegMsb → s.rx.configRegLsb = s.tx.configRegBuffer.extractLsb' 0 8
  /-- Outside `DATA` no byte of the frame has been acknowledged. -/
  fresh : s.tx.fsm ≠ .data → ∀ b ∈ s.pending.head?, b = 0x55
  /-- In `DATA` the frame has been offered without a gap. -/
  ongoing : s.tx.fsm = .data → s.pending = [] → s.gap = 0

theorem inv_reset : Inv (link speed).reset :=
  ⟨rfl, rfl, nofun, fun _ => nofun, nofun⟩

section Cycle

variable {s i}

theorem txStb_iff : (s.input i).txStb = true ↔ s.offered i ≠ [] := decide_eq_true_iff

/-- The timer runs in the cycles of `DATA` and in the one before it, while a byte is offered. -/
theorem timerEn_iff : s.tx.timerEn (s.input i) = true ↔ (s.next speed i).tx.fsm = .data := by
  have htx : (s.next speed i).tx.fsm = (s.tx.next speed (s.input i)).fsm := rfl
  rw [htx]
  unfold Tx.State.timerEn Tx.State.next
  cases hs : s.tx.fsm with
  | start => cases hc : (s.input i).configStb <;> cases ht : (s.input i).txStb <;> simp
  | data => cases ht : (s.input i).txStb <;> simp
  | carrierExtend1 => cases hp : s.tx.parity <;> simp
  | _ => simp

theorem offered_of_timerEn (he : s.tx.timerEn (s.input i) = true) : s.offered i ≠ [] := by
  rw [← txStb_iff]
  by_contra ht
  rw [Bool.not_eq_true] at ht
  unfold Tx.State.timerEn at he
  rw [ht] at he
  cases hs : s.tx.fsm <;> simp [hs] at he

/-- A byte is acknowledged only while the timer runs. -/
theorem timerEn_of_txAck (hf : Fair s i) (hack : s.tx.txAck (s.input i) = true) (ho : s.offered i ≠ []) :
    s.tx.timerEn (s.input i) = true := by
  have ht := txStb_iff.2 ho
  unfold Tx.State.txAck at hack
  unfold Tx.State.timerEn
  cases hs : s.tx.fsm with
  | start =>
    have hc : (s.input i).configStb = false := hf.config ho hs
    simp [ht, hc]
  | data => simp [ht]
  | _ => simp [hs] at hack

variable (h : Inv s) (hf : Fair s i)

include h hf

/-- Outside `DATA` the byte offered is `0x55`. -/
theorem Inv.head_offered (hs : s.tx.fsm ≠ .data) : ∀ b ∈ (s.offered i).head?, b = 0x55 := by
  unfold State.offered
  split_ifs with hp
  · exact hf.preamble hp
  · exact h.fresh hs

/-- The receiver is enabled when the timer of the transmitter is. -/
theorem Inv.rxEn : s.rx.rxEn (s.symbol i) = s.tx.timerEn (s.input i) := by
  have hconfig := hf.config
  unfold Rx.State.rxEn Rx.State.firstPreambleByte Tx.State.timerEn State.symbol Tx.State.symbol
  rw [h.fsm]
  cases hs : s.tx.fsm with
  | start =>
    cases hc : (s.input i).configStb <;> cases ht : (s.input i).txStb <;> simp [follows, K]
  | data => cases ht : (s.input i).txStb <;> simp [follows]
  | configD => simp [follows]
  | configRegLsb => simp [follows]
  | configRegMsb => simp [follows]
  | idle => simp [follows]
  | carrierExtend1 => simp [follows, K]
  | carrierExtend2 => simp [follows, K]

/-- While the receiver is enabled, the byte it shows is the one offered. -/
theorem Inv.rxData (he : s.tx.timerEn (s.input i) = true) :
    s.offered i = s.rx.rxData (s.symbol i) :: (s.offered i).tail := by
  obtain ⟨b, bs, ho⟩ := List.exists_cons_of_ne_nil (offered_of_timerEn he)
  have ht : (s.input i).txStb = true := txStb_iff.2 (offered_of_timerEn he)
  have hd : (s.input i).txData = b := by
    unfold State.input
    simp [ho]
  have hrx := h.fsm
  rw [ho, List.tail_cons, List.cons.injEq, and_iff_left rfl]
  unfold Tx.State.timerEn at he
  unfold Rx.State.rxData Rx.State.firstPreambleByte State.symbol Tx.State.symbol
  cases hs : s.tx.fsm with
  | start =>
    have hb : b = 0x55 := h.head_offered hf (by rw [hs]; nofun) b (by rw [ho]; rfl)
    rw [hs] at he hrx
    simp only [ht, Bool.and_true, Bool.not_eq_true'] at he
    rw [hrx]
    simp [follows, he, ht, hb]
  | data =>
    rw [hs] at hrx
    rw [hrx]
    simp [follows, ht, hd]
  | _ => simp [hs] at he

/-- The bytes of a frame are sampled as they are acknowledged. -/
theorem Inv.bytes : s.sampled i ++ s.left i = s.offered i := by
  have hen := h.rxEn hf
  unfold State.sampled State.left Rx.State.sampleEn
  rw [hen, h.timer]
  by_cases he : s.tx.timerEn (s.input i) = true
  · have hack : s.tx.txAck (s.input i) = (s.tx.timer == 0) := by
      unfold Tx.State.timerEn at he
      unfold Tx.State.txAck
      cases hs : s.tx.fsm <;> simp_all
    rw [he, hack, Bool.true_and]
    cases hz : s.tx.timer == 0 with
    | true => simpa using (h.rxData hf he).symm
    | false => simp
  · have hack : s.offered i ≠ [] → s.tx.txAck (s.input i) = false := fun ho =>
      (Bool.not_eq_true _).mp fun hack => he (timerEn_of_txAck hf hack ho)
    rw [Bool.not_eq_true] at he
    rw [he, Bool.false_and]
    rcases eq_or_ne (s.offered i) [] with ho | ho
    · simp [ho]
    · simp [hack ho]

omit hf in
/-- A config word that is sent is on its way, until it is loaded. -/
theorem Inv.words : s.loaded i ++ (s.next speed i).inFlight = s.inFlight ++ s.sent i := by
  have hrx := h.fsm
  have htx : (s.next speed i).tx = s.tx.next speed (s.input i) := rfl
  -- what enters the link in this cycle leaves it at once or is in flight after it
  have hstb : (s.input i).configStb = i.configStb := rfl
  have hreg : (s.input i).configReg = i.configReg := rfl
  unfold State.loaded State.inFlight State.sent Rx.State.loadConfigRegMsb Tx.State.loadConfigRegBuffer
  rw [htx, hrx]
  -- by the state of the transmitter, the receiver is one symbol behind
  cases hs : s.tx.fsm with
  | start =>
    cases hc : i.configStb with
    | true => simp [follows, Tx.State.next, Tx.State.loadConfigRegBuffer, hs, hstb, hreg, hc]
    | false =>
      cases ht : (s.input i).txStb <;>
        simp [follows, Tx.State.next, hs, hstb, hc, ht]
  | configRegMsb =>
    -- both bytes together are the word that was loaded
    have hword : s.rx.configWord (s.symbol i) = s.tx.configRegBuffer := by
      unfold Rx.State.configWord State.symbol Tx.State.symbol
      rw [h.lsb hs]
      simp only [hs]
      exact BitVec.extractLsb'_append_extractLsb'
    have hk : (s.symbol i).k = false := by
      unfold State.symbol Tx.State.symbol
      simp only [hs]
    simp [follows, Tx.State.next, hs, hword, hk]
  | configD => simp [follows, Tx.State.next, Tx.State.loadConfigRegBuffer, hs]
  | configRegLsb => simp [follows, Tx.State.next, Tx.State.loadConfigRegBuffer, hs]
  | idle => simp [follows, Tx.State.next, hs]
  | data => cases ht : (s.input i).txStb <;> simp [follows, Tx.State.next, hs, ht]
  | carrierExtend1 => cases hp : s.tx.parity <;> simp [follows, Tx.State.next, hs, hp]
  | carrierExtend2 => simp [follows, Tx.State.next, hs]

omit hf in
/-- The states of the two after a cycle. -/
theorem Inv.fsm_next : (s.next speed i).rx.fsm = follows (s.next speed i).tx.fsm := by
  have hrx := h.fsm
  have htx : (s.next speed i).tx.fsm = (s.tx.next speed (s.input i)).fsm := rfl
  have hrx' : (s.next speed i).rx.fsm = (s.rx.next speed (s.symbol i)).fsm := rfl
  rw [htx, hrx']
  unfold Rx.State.next State.symbol Tx.State.symbol Tx.State.next
  rw [hrx]
  cases hs : s.tx.fsm with
  | start =>
    cases hc : (s.input i).configStb <;> cases ht : (s.input i).txStb <;> simp [follows, K]
  | configD => cases hc : s.tx.cType <;> simp [follows]
  | idle => cases hd : (s.input i).disparity <;> simp [follows, D]
  | data => cases ht : (s.input i).txStb <;> simp [follows]
  | carrierExtend1 => cases hp : s.tx.parity <;> simp [follows, K]
  | configRegLsb => simp [follows]
  | configRegMsb => simp [follows]
  | carrierExtend2 => simp [follows, K]

/-- One cycle. -/
theorem Inv.next : Inv (s.next speed i) := by
  have hdata := timerEn_iff (s := s) (i := i) speed
  refine ⟨h.fsm_next speed, ?_, fun hs => ?_, fun hs b hb => ?_, fun hs _ => ?_⟩
  · have hrx : (s.next speed i).rx.timer = timerNext speed (s.rx.rxEn (s.symbol i)) s.rx.timer := rfl
    rw [hrx, h.rxEn hf, h.timer]
    rfl
  · have htx : (s.tx.next speed (s.input i)).fsm = .configRegMsb := hs
    -- the lower byte was sent in the cycle before, from the same register
    have hlsb : s.tx.fsm = .configRegLsb := by
      unfold Tx.State.next at htx
      cases hfsm : s.tx.fsm with
      | configRegLsb => rfl
      | start | data | carrierExtend1 =>
        simp only [hfsm] at htx
        split_ifs at htx
      | _ => simp [hfsm] at htx
    have hbuffer : (s.next speed i).tx.configRegBuffer = s.tx.configRegBuffer := by
      show (s.tx.next speed (s.input i)).configRegBuffer = _
      simp [Tx.State.next, Tx.State.loadConfigRegBuffer, hlsb]
    have hrx : (s.next speed i).rx.configRegLsb = s.tx.configRegBuffer.extractLsb' 0 8 := by
      show (s.rx.next speed (s.symbol i)).configRegLsb = _
      simp [Rx.State.next, Rx.State.loadConfigRegLsb, h.fsm, hlsb, follows, State.symbol, Tx.State.symbol]
    rw [hbuffer, hrx]
  · have hleft : b ∈ (s.left i).head? := hb
    have he : ¬ s.tx.timerEn (s.input i) = true := fun he => hs (hdata.1 he)
    unfold State.left at hleft
    split_ifs at hleft with hack
    · have hnil : s.offered i = [] := by
        by_contra ho
        exact he (timerEn_of_txAck hf hack ho)
      rw [hnil] at hleft
      cases hleft
    · refine h.head_offered hf (fun hd => ?_) b hleft
      unfold Tx.State.txAck at hack
      unfold Tx.State.timerEn at he
      simp [hd] at hack he
      simp [he] at hack
  · have ho := offered_of_timerEn (hdata.2 hs)
    exact if_neg ho

end Cycle

/-! ## Runs -/

/-- The cycles until `START`, while the transmitter is not in `DATA`. -/
def cyclesToStart : Tx.Fsm → ℕ
  | .start | .data => 0
  | .configD => 3
  | .configRegLsb => 2
  | .configRegMsb | .idle | .carrierExtend2 => 1
  | .carrierExtend1 => 2

/-- A bound for the cycles until the bytes `bs` are acknowledged. -/
def State.wait (bs : List (BitVec 8)) : ℕ :=
  if s.tx.fsm = .data then s.tx.timer.toNat + 1 + period speed * (bs.length - 1)
  else cyclesToStart s.tx.fsm + period speed * bs.length

/-- The wait for a frame gets shorter with each cycle. -/
theorem wait_next {s : State} {i : In} (hf : Fair s i) (ht : s.tx.timer.toNat < period speed) (hp : s.pending ≠ []) :
    (s.next speed i).pending = [] ∨
      (s.next speed i).wait speed (s.next speed i).pending < s.wait speed s.pending := by
  have ho : s.offered i = s.pending := if_neg hp
  have hstb : (s.input i).txStb = true := txStb_iff.2 (ho ▸ hp)
  have hpending : (s.next speed i).pending = if s.tx.txAck (s.input i) then s.pending.tail else s.pending := by
    show s.left i = _
    unfold State.left
    rw [ho]
  have hlen := period_mul speed (List.length_pos_of_ne_nil hp)
  have htimer : (s.next speed i).tx.timer = timerNext speed (s.tx.timerEn (s.input i)) s.tx.timer := rfl
  have hle := timerNext_lt speed (s.tx.timerEn (s.input i)) ht
  rw [← htimer] at hle
  -- in the data phase the timer runs, before it the states count
  by_cases he : s.tx.timerEn (s.input i) = true
  · have hdata := (timerEn_iff (s := s) (i := i) speed).1 he
    have hack : s.tx.txAck (s.input i) = (s.tx.timer == 0) := by
      unfold Tx.State.timerEn at he
      unfold Tx.State.txAck
      cases hs : s.tx.fsm <;> simp_all
    have hwait : (s.next speed i).wait speed (s.next speed i).pending =
        (s.next speed i).tx.timer.toNat + 1 + period speed * ((s.next speed i).pending.length - 1) := if_pos hdata
    have hbefore : period speed * (s.pending.length - 1) + min (s.tx.timer.toNat + 1) (period speed) ≤ s.wait speed s.pending := by
      unfold State.wait
      split_ifs <;> omega
    rw [hwait, hpending, hack]
    by_cases hz : s.tx.timer = 0
    · rw [hz, beq_self_eq_true, if_pos rfl]
      rcases eq_or_ne s.pending.tail [] with htail | htail
      · exact .inl htail
      · have := List.length_pos_of_ne_nil htail
        rw [List.length_tail] at this ⊢
        have := period_mul speed this
        rw [hz] at hbefore
        simp at hbefore
        right; omega
    · have hcount := timerNext_count speed hz
      rw [← he, ← htimer] at hcount
      rw [beq_false_of_ne hz, if_neg Bool.false_ne_true]
      right
      unfold State.wait
      split_ifs <;> omega
  · have hack : s.tx.txAck (s.input i) = false :=
      (Bool.not_eq_true _).mp fun hack => he (timerEn_of_txAck hf hack (ho ▸ hp))
    have hndata : (s.next speed i).tx.fsm ≠ .data := fun hd => he ((timerEn_iff speed).2 hd)
    have hbefore : s.wait speed s.pending = cyclesToStart s.tx.fsm + period speed * s.pending.length := by
      refine if_neg fun hd => he ?_
      unfold Tx.State.timerEn
      simp [hd, hstb]
    have hlt : cyclesToStart (s.next speed i).tx.fsm < cyclesToStart s.tx.fsm := by
      show cyclesToStart (s.tx.next speed (s.input i)).fsm < _
      unfold Tx.State.next
      cases hs : s.tx.fsm with
      | start =>
        have hc : (s.input i).configStb = false := hf.config (ho ▸ hp) hs
        unfold Tx.State.timerEn at he
        simp [hs, hc, hstb] at he
      | data =>
        unfold Tx.State.timerEn at he
        simp [hs, hstb] at he
      | carrierExtend1 => cases hp : s.tx.parity <;> simp [cyclesToStart]
      | _ => simp [cyclesToStart]
    have hwait : (s.next speed i).wait speed (s.next speed i).pending =
        cyclesToStart (s.next speed i).tx.fsm + period speed * (s.next speed i).pending.length := if_neg hndata
    right
    rw [hwait, hbefore, hpending, hack, if_neg Bool.false_ne_true]
    omega

/-- What is received in a run. -/
structure Received (is : List In) : Prop where
  /-- The bytes of the frames are sampled once, in order, and nothing else is. -/
  bytes : (link speed).log State.sampled (link speed).reset is ++ ((link speed).run is).pending =
    (link speed).log State.begun (link speed).reset is
  /-- The config words are loaded once, in order, and nothing else is. -/
  words : (link speed).log State.loaded (link speed).reset is ++ ((link speed).run is).inFlight =
    (link speed).log State.sent (link speed).reset is
  /-- Each frame comes to its end, and so does each config word. -/
  frame_ends : ∀ js, (link speed).Along Fair ((link speed).run is) js →
    period speed * ((link speed).run is).pending.length + 3 ≤ js.length →
      ∃ k ≤ js.length, ((link speed).run (is ++ js.take k)).pending = []
  word_ends : ∀ js, (link speed).Along Fair ((link speed).run is) js → 3 ≤ js.length →
    (link speed).log State.sent (link speed).reset is <+:
      (link speed).log State.loaded (link speed).reset (is ++ js)

/-- The invariant of a run. -/
theorem run_inv (is : List In) (h : (link speed).Along Fair (link speed).reset is) :
    Inv ((link speed).run is) ∧ ((link speed).run is).tx.timer.toNat < period speed :=
  (link speed).runFrom_inv (P := fun s => Inv s ∧ s.tx.timer.toNat < period speed)
    (fun s i hs hf => ⟨hs.1.next speed hf, timerNext_lt speed (s.tx.timerEn (s.input i)) hs.2⟩) is _
    ⟨inv_reset speed, period_pos speed⟩ h

/-- The bytes and the words received in some cycles. -/
theorem received_from {s : State} (hs : Inv s) (is : List In) (h : (link speed).Along Fair s is) :
    (link speed).log State.sampled s is ++ ((link speed).runFrom s is).pending =
        s.pending ++ (link speed).log State.begun s is ∧
      (link speed).log State.loaded s is ++ ((link speed).runFrom s is).inFlight =
        s.inFlight ++ (link speed).log State.sent s is := by
  induction is generalizing s with
  | nil => simp
  | cons i is ih =>
    obtain ⟨h1, h2⟩ := ih (hs.next speed h.1) h.2
    have hbytes := hs.bytes h.1
    have hwords := hs.words speed (i := i)
    have hoffered : s.offered i = s.pending ++ s.begun i := by
      unfold State.offered State.begun
      split_ifs with hp
      · rw [hp, List.nil_append]
      · rw [List.append_nil]
    have hpending : (s.next speed i).pending = s.left i := rfl
    have hstep : (link speed).step s i = s.next speed i := rfl
    rw [Machine.log_cons, Machine.log_cons, Machine.log_cons, Machine.log_cons, Machine.runFrom_cons, hstep]
    constructor
    · rw [List.append_assoc, h1, hpending, ← List.append_assoc, hbytes, hoffered, List.append_assoc]
    · rw [List.append_assoc, h2, ← List.append_assoc, hwords, List.append_assoc]

/-- A frame comes to its end. -/
theorem frame_ends {s : State} (hs : Inv s) (ht : s.tx.timer.toNat < period speed) (js : List In)
    (h : (link speed).Along Fair s js) (hlen : s.pending = [] ∨ s.wait speed s.pending ≤ js.length) :
    ∃ k ≤ js.length, ((link speed).runFrom s (js.take k)).pending = [] := by
  induction js generalizing s with
  | nil =>
    refine ⟨0, le_rfl, ?_⟩
    rcases hlen with hp | hwait
    · exact hp
    · show s.pending = []
      by_contra hp
      have hmul := period_mul speed (List.length_pos_of_ne_nil hp)
      unfold State.wait at hwait
      rw [List.length_nil] at hwait
      split_ifs at hwait <;> omega
  | cons j js ih =>
    rcases eq_or_ne s.pending [] with hp | hp
    · exact ⟨0, Nat.zero_le _, hp⟩
    · have hwait := hlen.resolve_left hp
      have hnext := wait_next speed h.1 ht hp
      have hlen' : (s.next speed j).pending = [] ∨ (s.next speed j).wait speed (s.next speed j).pending ≤ js.length := by
        rw [List.length_cons] at hwait
        exact hnext.imp_right fun hlt => by omega
      obtain ⟨k, hk, hend⟩ := ih (hs.next speed h.1) (timerNext_lt speed _ ht) h.2 hlen'
      exact ⟨k + 1, Nat.succ_le_succ hk, hend⟩

/-- The cycles until a config word is loaded. -/
def flight : Tx.Fsm → ℕ
  | .configD => 3
  | .configRegLsb => 2
  | .configRegMsb => 1
  | _ => 0

/-- A config word comes to its end. -/
theorem word_ends {s : State} (hs : Inv s) (js : List In) (h : (link speed).Along Fair s js)
    (hlen : flight s.tx.fsm ≤ js.length) : s.inFlight <+: (link speed).log State.loaded s js := by
  -- induction on the cycles, each of them one nearer to the end of the word
  induction js generalizing s with
  | nil =>
    have hnil : s.inFlight = [] := by
      unfold State.inFlight
      cases hf : s.tx.fsm <;> simp [hf, flight] at hlen ⊢
    rw [hnil]
    exact List.nil_prefix
  | cons j js ih =>
    have hwords := hs.words speed (i := j)
    by_cases hz : flight s.tx.fsm = 0
    · have hnil : s.inFlight = [] := by
        unfold State.inFlight
        cases hf : s.tx.fsm <;> simp [hf, flight] at hz ⊢
      rw [hnil]
      exact List.nil_prefix
    · have hsent : s.sent j = [] := by
        unfold State.sent Tx.State.loadConfigRegBuffer
        cases hf : s.tx.fsm <;> simp [hf, flight] at hz ⊢
      have hflight : flight (s.next speed j).tx.fsm + 1 = flight s.tx.fsm := by
        show flight (s.tx.next speed (s.input j)).fsm + 1 = _
        unfold Tx.State.next
        cases hf : s.tx.fsm <;> simp [hf, flight] at hz ⊢
      have hrest := ih (hs.next speed h.1) h.2 (by rw [List.length_cons] at hlen; omega)
      rw [hsent, List.append_nil] at hwords
      rw [Machine.log_cons, ← hwords]
      exact (List.prefix_append_right_inj _).2 hrest

/-- At each speed, in every run: the receiver samples the bytes of the frames and loads the config words, each once and
in order, and nothing else. -/
theorem frames_received (is : List In) (h : (link speed).Along Fair (link speed).reset is) : Received speed is := by
  obtain ⟨hinv, htimer⟩ := run_inv speed is h
  obtain ⟨hbytes, hwords⟩ := received_from speed (inv_reset speed) is h
  refine ⟨hbytes, hwords, fun js hjs hlen => ?_, fun js hjs hlen => ?_⟩
  · -- every byte waits at most one period of the speed
    have hwait : ((link speed).run is).wait speed ((link speed).run is).pending ≤ js.length ∨
        ((link speed).run is).pending = [] := by
      rcases eq_or_ne ((link speed).run is).pending [] with hp | hp
      · exact .inr hp
      · have hmul := period_mul speed (List.length_pos_of_ne_nil hp)
        left
        unfold State.wait
        split_ifs with hd
        · omega
        · have : cyclesToStart ((link speed).run is).tx.fsm ≤ 3 := by
            cases ((link speed).run is).tx.fsm <;> simp [cyclesToStart]
          omega
    obtain ⟨k, hk, hend⟩ := frame_ends speed hinv htimer js hjs hwait.symm
    refine ⟨k, hk, ?_⟩
    unfold Machine.run
    rw [Machine.runFrom_append]
    exact hend
  · -- a word needs three cycles more
    have hflight : flight ((link speed).run is).tx.fsm ≤ js.length := by
      have : flight ((link speed).run is).tx.fsm ≤ 3 := by
        cases ((link speed).run is).tx.fsm <;> simp [flight]
      omega
    have hends := word_ends speed hinv js hjs hflight
    rw [Machine.log_append]
    have hsent : (link speed).log State.sent (link speed).reset is =
        (link speed).log State.loaded (link speed).reset is ++ ((link speed).run is).inFlight := hwords.symm
    rw [hsent]
    exact (List.prefix_append_right_inj _).2 hends

/-- A config word, and a frame of three bytes after it. -/
def shortRun : List In :=
  let quiet : In := ⟨false, 0, false, []⟩
  { quiet with configStb := true, configReg := 0x4001 } :: List.replicate 3 quiet ++
    [{ quiet with frame := [0x55, 0xd5, 0x2a] }] ++ List.replicate 9 quiet

theorem frames_received_short : Received 0b10 shortRun := frames_received 0b10 shortRun (by decide)

end LiteEth.Phy.Pcs.Link
