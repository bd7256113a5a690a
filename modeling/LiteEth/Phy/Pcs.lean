/-
`phy/pcs_1000basex.py`: the transmit and the receive path of the PCS, between bytes and the symbols of the 8b/10b
code. At the lower rates of SGMII a byte is sent 100 or 10 times; a timer on each side tells when it is done.
-/
import LiteEth.Rtl.Machine
import Mathlib.Tactic

namespace LiteEth.Phy.Pcs

open LiteEth.Rtl

/-! ## Symbols and rates -/

/-- A symbol: a byte, and whether it is a control code. -/
structure Symbol where
  k : Bool
  d : BitVec 8
  deriving DecidableEq, Repr

/-- The codes `K(x, y)` and `D(x, y)`. -/
def K (x y : ℕ) : BitVec 8 := BitVec.ofNat 8 (y <<< 5 ||| x)

/-- A data code by its two parts. -/
def D (x y : ℕ) : BitVec 8 := BitVec.ofNat 8 (y <<< 5 ||| x)

/-- The timer of a path at its `sgmii_speed`. -/
def timerNext (speed : BitVec 2) (en : Bool) (timer : BitVec 10) : BitVec 10 :=
  if !en || timer == 0 then
    if speed = 0b00 then 99 else if speed = 0b01 then 9 else if speed = 0b10 then 0 else timer
  else timer - 1

/-- The cycles of a byte. -/
def period (speed : BitVec 2) : ℕ := if speed = 0b00 then 100 else if speed = 0b01 then 10 else 1

section Timer

variable (speed : BitVec 2) {timer : BitVec 10}

theorem period_pos : 0 < period speed := by
  revert speed
  decide

theorem period_mul {n : ℕ} (hn : 0 < n) : period speed * n = period speed * (n - 1) + period speed := by
  obtain ⟨m, rfl⟩ := Nat.exists_eq_succ_of_ne_zero hn.ne'
  rfl

/-- The timer starts again after the last cycle of a byte, and while it does not run. -/
theorem timerNext_start {en : Bool} (h : timer.toNat < period speed) (hz : en = false ∨ timer = 0) :
    (timerNext speed en timer).toNat + 1 = period speed := by
  have hload : (!en || timer == 0) = true := by
    rw [Bool.or_eq_true, beq_iff_eq, Bool.not_eq_true']
    exact hz
  unfold timerNext
  rw [if_pos hload]
  unfold period at h ⊢
  split_ifs at h ⊢ with h0 h1 h2 <;> first | rfl | omega

/-- Otherwise it counts down. -/
theorem timerNext_count (hz : timer ≠ 0) : (timerNext speed true timer).toNat + 1 = timer.toNat := by
  unfold timerNext
  simp only [Bool.not_true, Bool.false_or, beq_iff_eq, hz, if_false]
  bv_omega

theorem timerNext_lt (en : Bool) (h : timer.toNat < period speed) :
    (timerNext speed en timer).toNat < period speed := by
  by_cases hz : en = false ∨ timer = 0
  · have := timerNext_start speed h hz
    omega
  · rw [not_or, Bool.not_eq_false] at hz
    have := timerNext_count speed hz.2
    rw [hz.1]
    omega

end Timer

/-! ## `TransmitPath` -/

namespace Tx

/-- The states of the transmitter. -/
inductive Fsm
  | start
  | configD
  | configRegLsb
  | configRegMsb
  | idle
  | data
  | carrierExtend1
  | carrierExtend2
  deriving DecidableEq, Repr

/-- The inputs of a cycle, `disparity` from the encoder. -/
structure In where
  configStb : Bool
  configReg : BitVec 16
  txStb : Bool
  txData : BitVec 8
  disparity : Bool

/-- The registers of the transmitter. -/
structure State where
  fsm : Fsm
  parity : Bool
  cType : Bool
  configRegBuffer : BitVec 16
  timer : BitVec 10

/-- The registers after reset. -/
def State.init : State := { fsm := .start, parity := false, cType := false, configRegBuffer := 0, timer := 0 }

variable (speed : BitVec 2) (s : State) (i : In)

/-- `tx_ack`: a byte that is sent is taken as the timer runs out. -/
def State.txAck : Bool :=
  match s.fsm with
  | .start => if i.configStb then true else if i.txStb then s.timer == 0 else true
  | .data => if i.txStb then s.timer == 0 else true
  | _ => false

/-- The timer runs while a frame is sent. -/
def State.timerEn : Bool :=
  match s.fsm with
  | .start => !i.configStb && i.txStb
  | .data => i.txStb
  | _ => false

/-- The configuration word is sampled as it begins to be sent. -/
def State.loadConfigRegBuffer : Bool := s.fsm == .start && i.configStb

/-- `encoder.k[0]` and `encoder.d[0]`. -/
def State.symbol : Symbol :=
  match s.fsm with
  | .start => if i.configStb then ⟨true, K 28 5⟩ else if i.txStb then ⟨true, K 27 7⟩ else ⟨true, K 28 5⟩
  | .configD => ⟨false, if s.cType then D 2 2 else D 21 5⟩
  | .configRegLsb => ⟨false, s.configRegBuffer.extractLsb' 0 8⟩
  | .configRegMsb => ⟨false, s.configRegBuffer.extractLsb' 8 8⟩
  | .idle => ⟨false, if i.disparity then D 5 6 else D 16 2⟩
  | .data => if i.txStb then ⟨false, i.txData⟩ else ⟨true, K 29 7⟩
  | .carrierExtend1 | .carrierExtend2 => ⟨true, K 23 7⟩

/-- One cycle of the transmitter. -/
def State.next : State where
  fsm := match s.fsm with
    | .start => if i.configStb then .configD else if i.txStb then .data else .idle
    | .configD => .configRegLsb
    | .configRegLsb => .configRegMsb
    | .configRegMsb => .start
    | .idle => .start
    | .data => if i.txStb then .data else .carrierExtend1
    | .carrierExtend1 => if s.parity then .start else .carrierExtend2
    | .carrierExtend2 => .start
  parity := !s.parity
  cType := if s.fsm = .configD then !s.cType else s.cType
  configRegBuffer := if s.loadConfigRegBuffer i then i.configReg else s.configRegBuffer
  timer := timerNext speed (s.timerEn i) s.timer

end Tx

/-! ## `ReceivePath` -/

namespace Rx

/-- The states of the receiver. -/
inductive Fsm
  | start
  | k28_5
  | configRegLsb
  | configRegMsb
  | data
  deriving DecidableEq, Repr

/-- The registers of the receiver. -/
structure State where
  fsm : Fsm
  seenConfigReg : Bool
  configReg : BitVec 16
  configRegLsb : BitVec 8
  timer : BitVec 10

/-- The registers after reset. -/
def State.init : State :=
  { fsm := .start, seenConfigReg := false, configReg := 0, configRegLsb := 0, timer := 0 }

variable (speed : BitVec 2) (s : State) (y : Symbol)

/-- The symbol starts a frame. -/
def State.firstPreambleByte : Bool :=
  match s.fsm with
  | .start | .configRegLsb => y.k && y.d == K 27 7
  | _ => false

/-- It is also `timer_en`. -/
def State.rxEn : Bool :=
  match s.fsm with
  | .data => !y.k
  | _ => s.firstPreambleByte y

/-- The byte received: the start code stands for a byte of the preamble. -/
def State.rxData : BitVec 8 := if s.firstPreambleByte y then 0x55 else y.d

/-- The byte is one to be given: one in `timer` of them. -/
def State.sampleEn : Bool := s.rxEn y && s.timer == 0

/-- A comma is followed by a code of configuration or idle. -/
def State.seenValidCi : Bool :=
  s.fsm == .k28_5 && !y.k && (y.d == D 21 5 || y.d == D 2 2 || y.d == D 5 6 || y.d == D 16 2)

/-- The first byte of a configuration word. -/
def State.loadConfigRegLsb : Bool := s.fsm == .configRegLsb && !y.k

/-- The second byte of a configuration word. -/
def State.loadConfigRegMsb : Bool := s.fsm == .configRegMsb && !y.k

/-- `Cat(config_reg_lsb, decoder.d)`. -/
def State.configWord : BitVec 16 := y.d ++ s.configRegLsb

/-- One cycle of the receiver. -/
def State.next : State where
  fsm := match s.fsm with
    | .start => if y.k && y.d == K 27 7 then .data else if y.k && y.d == K 28 5 then .k28_5 else .start
    | .k28_5 => if !y.k && (y.d == D 21 5 || y.d == D 2 2) then .configRegLsb else .start
    | .configRegLsb => if y.k then (if y.d == K 27 7 then .data else .start) else .configRegMsb
    | .configRegMsb => .start
    | .data => if y.k then .start else .data
  seenConfigReg := s.loadConfigRegMsb y
  configReg := if s.loadConfigRegMsb y then s.configWord y else s.configReg
  configRegLsb := if s.loadConfigRegLsb y then y.d else s.configRegLsb
  timer := timerNext speed (s.rxEn y) s.timer

end Rx

end LiteEth.Phy.Pcs
