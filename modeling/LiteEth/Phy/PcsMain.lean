/-
A whole PCS (`phy/pcs_1000basex.py`), in its two clock domains: the transmit path and the negotiation in `eth_tx`, the
receive path and its config words in `eth_rx`, and the pulse synchronizers between them. The edges of the two clocks come
in any order. A link that comes up costs an ability match and an acknowledgement match of its own.
-/
import LiteEth.Phy.PcsAutoneg
import LiteEth.Phy.PcsConfig
import LiteEth.Rtl.PulseSynchronizer

namespace LiteEth.Phy.Pcs.Main

open LiteEth.Rtl

/-- What the user and the encoder show in a cycle of `eth_tx`. -/
structure User where
  txStb : Bool
  txData : BitVec 8
  disparity : Bool

/-- The clocks that have an edge: `eth_rx` with the symbol received, `eth_tx` with its inputs. -/
structure In where
  rx : Option Symbol
  tx : Option User

variable {moreAck : ℕ} (P : PulseSynchronizer) (T : WaitTimer moreAck)

/-- The parts of the core with their registers, and the three synchronizers between its clocks. -/
structure State where
  tx : Tx.State
  autoneg : Autoneg.State T
  cfg : Config.State
  seenValidCi : P.State
  rxConfigRegAbi : P.State
  rxConfigRegAck : P.State

namespace State

variable {P T}
variable (s : State P T)

/-- `tx.config_reg`. The complement has the width of the register, not that of `is_sgmii`. -/
def configReg : BitVec 16 :=
  let isSgmii : BitVec 16 := BitVec.setWidth 16 (BitVec.ofBool s.cfg.isSgmii)
  isSgmii ||| (~~~isSgmii <<< 5) ||| (BitVec.setWidth 16 (BitVec.ofBool s.autoneg.autonegAck) <<< 14)

/-- What the transmitter sees: the configuration word while the negotiation sends it, and the user's bytes. -/
def txIn (u : User) : Tx.In where
  configStb := s.autoneg.configStb
  configReg := s.configReg
  txStb := u.txStb
  txData := u.txData
  disparity := u.disparity

/-- What the negotiation sees: pulses from the receiver's clock, and the partner's abilities. -/
def autonegIn : Autoneg.In where
  abi := P.o s.rxConfigRegAbi
  ack := P.o s.rxConfigRegAck
  ci := P.o s.seenValidCi
  configRegEmpty := s.cfg.configRegEmpty

/-- The symbol sent in a cycle of `eth_tx`. -/
def symbol (u : User) : Symbol := s.tx.symbol (s.txIn u)

/-- A step with an edge of either clock or of both. -/
def next (checkerMax : ℕ) (i : In) : State P T where
  tx := match i.tx with
    | some u => s.tx.next s.cfg.sgmiiSpeed (s.txIn u)
    | none => s.tx
  autoneg := if i.tx.isSome then s.autoneg.next s.autonegIn checkerMax else s.autoneg
  cfg := match i.rx with
    | some y => s.cfg.next y
    | none => s.cfg
  seenValidCi := P.step s.seenValidCi (i.rx.map s.cfg.rx.seenValidCi) i.tx.isSome
  rxConfigRegAbi := P.step s.rxConfigRegAbi (i.rx.map fun _ => s.cfg.rxConfigRegAbi) i.tx.isSome
  rxConfigRegAck := P.step s.rxConfigRegAck (i.rx.map fun _ => s.cfg.rxConfigRegAck) i.tx.isSome

theorem next_rxConfigRegAbi (checkerMax : ℕ) (i : In) :
    (s.next checkerMax i).rxConfigRegAbi =
      P.step s.rxConfigRegAbi (i.rx.map fun _ => s.cfg.rxConfigRegAbi) i.tx.isSome := rfl

theorem next_rxConfigRegAck (checkerMax : ℕ) (i : In) :
    (s.next checkerMax i).rxConfigRegAck =
      P.step s.rxConfigRegAck (i.rx.map fun _ => s.cfg.rxConfigRegAck) i.tx.isSome := rfl

end State

/-- The core as a machine, from reset. -/
def pcs (checkerMax : ℕ) : Machine In (State P T) where
  reset :=
    { tx := .init, autoneg := (Autoneg.autoneg T checkerMax).reset, cfg := Config.receiver.reset,
      seenValidCi := P.reset, rxConfigRegAbi := P.reset, rxConfigRegAck := P.reset }
  step s i := s.next checkerMax i

/-! ## What a link costs -/

section Credit

variable {P T} {checkerMax : ℕ}

/-- The link comes up. -/
def comesUp (checkerMax : ℕ) (s : State P T) (i : In) : List Unit :=
  if !s.autoneg.linkUp && (s.next checkerMax i).autoneg.linkUp then [()] else []

/-- The symbols received. -/
def symbols (is : List In) : List Symbol := is.filterMap In.rx

/-- Negotiations that have had their ability match. -/
def matched (s : Autoneg.State T) : ℕ := if s.fsm = .autonegWaitAck ∨ s.fsm = .autonegSendMoreAck then 1 else 0

/-- Those that have had their acknowledgement match as well. -/
def acknowledged (s : Autoneg.State T) : ℕ := if s.fsm = .autonegSendMoreAck then 1 else 0

/-- A negotiation is paid for by a pulse, and a link by a negotiation. -/
theorem credit_next (s : Autoneg.State T) (i : Autoneg.In) :
    (!s.linkUp && (s.next i checkerMax).linkUp).toNat + matched (s.next i checkerMax) ≤ matched s + i.abi.toNat ∧
      (!s.linkUp && (s.next i checkerMax).linkUp).toNat + acknowledged (s.next i checkerMax) ≤
        acknowledged s + i.ack.toNat := by
  have fsm : (s.next i checkerMax).fsm = if s.restart i then .autonegWaitAbi else s.advance i := rfl
  unfold matched acknowledged Autoneg.State.linkUp
  rw [fsm]
  cases restart : s.restart i with
  | true => simp [beq_eq_decide]
  | false =>
    unfold Autoneg.State.advance
    cases hs : s.fsm with
    | autonegWaitAbi => cases i.abi <;> simp [beq_eq_decide]
    | autonegWaitAck => cases i.ack <;> simp [beq_eq_decide]
    | autonegSendMoreAck => cases T.done s.moreAckTimer <;> simp [beq_eq_decide]
    | running => simp

variable (P T checkerMax) in
/-- The links so far. -/
def links (is : List In) : List Unit := (pcs P T checkerMax).log (comesUp checkerMax) (pcs P T checkerMax).reset is

variable (P T checkerMax) in
theorem run_concat (is : List In) (i : In) :
    (pcs P T checkerMax).run (is ++ [i]) = ((pcs P T checkerMax).run is).next checkerMax i :=
  (pcs P T checkerMax).runFrom_concat _ is i

theorem symbols_concat (is : List In) (i : In) : symbols (is ++ [i]) = symbols is ++ i.rx.toList := by
  cases i with
  | mk rx tx => cases rx <;> simp [symbols]

variable (P T checkerMax) in
/-- The receive path sees the symbols, whatever the other clock does. -/
theorem cfg_run (is : List In) : ((pcs P T checkerMax).run is).cfg = Config.receiver.run (symbols is) := by
  induction is using List.reverseRecOn with
  | nil => rfl
  | append_singleton is i ih =>
    rw [run_concat, symbols_concat]
    obtain ⟨rx, tx⟩ := i
    cases rx with
    | none => simpa [State.next] using ih
    | some y =>
      rw [Option.toList_some, Config.run_concat]
      exact congrArg (Config.State.next · y) ih

/-- What a synchronizer holds and gives in a step, with the register at its input. -/
theorem pulses_next (p : P.State) (reg found : Bool) (i : In) (used m m' : ℕ)
    (hused : used + m' ≤ m + (i.tx.isSome && P.o p).toNat) :
    used + m' + P.pending (P.step p (i.rx.map fun _ => reg) i.tx.isSome) +
        (if i.rx.isSome then found else reg).toNat ≤
      m + P.pending p + reg.toNat + (i.rx.isSome && found).toNat := by
  have step := P.pending_step p (i.rx.map fun _ => reg) i.tx.isSome
  cases hrx : i.rx with
  | none =>
    rw [hrx] at step
    simp only [Option.map_none, Option.getD_none, Bool.toNat_false, Option.isSome_none, Bool.false_and,
      Bool.false_eq_true, if_false] at step ⊢
    omega
  | some y =>
    rw [hrx] at step
    simp only [Option.map_some, Option.getD_some, Option.isSome_some, Bool.true_and, if_true] at step ⊢
    omega

variable (checkerMax) in
theorem credit_step (s : State P T) (i : In) :
    (comesUp checkerMax s i).length + matched (s.next checkerMax i).autoneg ≤
        matched s.autoneg + (i.tx.isSome && P.o s.rxConfigRegAbi).toNat ∧
      (comesUp checkerMax s i).length + acknowledged (s.next checkerMax i).autoneg ≤
        acknowledged s.autoneg + (i.tx.isSome && P.o s.rxConfigRegAck).toNat := by
  have length : (comesUp checkerMax s i).length =
      (!s.autoneg.linkUp && (s.next checkerMax i).autoneg.linkUp).toNat := by
    unfold comesUp
    cases (!s.autoneg.linkUp && (s.next checkerMax i).autoneg.linkUp) <;> rfl
  rw [length]
  obtain ⟨rx, tx⟩ := i
  cases tx with
  | none => simp [State.next]
  | some u => exact credit_next s.autoneg s.autonegIn

theorem length_abilities (ys : List Symbol) (y : Option Symbol) :
    (Config.abilities (ys ++ y.toList)).length =
      (Config.abilities ys).length + (y.isSome && (Config.receiver.run ys).abilityMatch).toNat := by
  cases y with
  | none => simp
  | some y =>
    rw [Option.toList_some, Config.abilities_concat, List.length_append]
    cases (Config.receiver.run ys).abilityMatch <;> rfl

theorem length_acknowledgements (ys : List Symbol) (y : Option Symbol) :
    (Config.acknowledgements (ys ++ y.toList)).length =
      (Config.acknowledgements ys).length + (y.isSome && (Config.receiver.run ys).acknowledgeMatch).toNat := by
  cases y with
  | none => simp
  | some y =>
    rw [Option.toList_some, Config.acknowledgements_concat, List.length_append]
    cases (Config.receiver.run ys).acknowledgeMatch <;> rfl

variable (P T checkerMax) in
/-- Each link so far has had its own matches; those of the negotiation that goes on and those on their way are not spent
yet. -/
theorem credit_run (is : List In) :
    (links P T checkerMax is).length + matched ((pcs P T checkerMax).run is).autoneg +
        P.pending ((pcs P T checkerMax).run is).rxConfigRegAbi +
        ((pcs P T checkerMax).run is).cfg.rxConfigRegAbi.toNat ≤ (Config.abilities (symbols is)).length ∧
      (links P T checkerMax is).length + acknowledged ((pcs P T checkerMax).run is).autoneg +
        P.pending ((pcs P T checkerMax).run is).rxConfigRegAck +
        ((pcs P T checkerMax).run is).cfg.rxConfigRegAck.toNat ≤ (Config.acknowledgements (symbols is)).length := by
  -- induction on the edges: a pulse that arrives is one that was sent
  induction is using List.reverseRecOn with
  | nil =>
    have reset := P.pending_reset
    constructor <;> simp [links, pcs, Machine.run, reset, matched, acknowledged, Autoneg.autoneg, Config.receiver]
  | append_singleton is i ih =>
    obtain ⟨ihAbi, ihAck⟩ := ih
    have cfg := cfg_run P T checkerMax is
    have log : links P T checkerMax (is ++ [i]) =
        links P T checkerMax is ++ comesUp checkerMax ((pcs P T checkerMax).run is) i := Machine.log_concat _ _ _ is i
    -- the balance of one step, for each of the two pulses
    rw [run_concat, symbols_concat, log, List.length_append, length_abilities, length_acknowledgements, ← cfg]
    set s := (pcs P T checkerMax).run is
    obtain ⟨usedAbi, usedAck⟩ := credit_step checkerMax s i
    have abi := pulses_next s.rxConfigRegAbi s.cfg.rxConfigRegAbi s.cfg.abilityMatch i _ _ _ usedAbi
    have ack := pulses_next s.rxConfigRegAck s.cfg.rxConfigRegAck s.cfg.acknowledgeMatch i _ _ _ usedAck
    have regAbi : (s.next checkerMax i).cfg.rxConfigRegAbi =
        if i.rx.isSome then s.cfg.abilityMatch else s.cfg.rxConfigRegAbi := by
      cases hrx : i.rx <;> simp [State.next, hrx, Config.State.next]
    have regAck : (s.next checkerMax i).cfg.rxConfigRegAck =
        if i.rx.isSome then s.cfg.acknowledgeMatch else s.cfg.rxConfigRegAck := by
      cases hrx : i.rx <;> simp [State.next, hrx, Config.State.next]
    rw [regAbi, regAck, State.next_rxConfigRegAbi, State.next_rxConfigRegAck]
    constructor <;> omega

/-- Whatever the order of the edges and the symbols received, there have been at least as many ability matches and as many
acknowledgement matches as links. -/
theorem links_le (is : List In) :
    (links P T checkerMax is).length ≤ (Config.abilities (symbols is)).length ∧
      (links P T checkerMax is).length ≤ (Config.acknowledgements (symbols is)).length := by
  obtain ⟨abi, ack⟩ := credit_run P T checkerMax is
  constructor <;> omega

/-- Six config words of one ability with the acknowledge bit, while both clocks have an edge in each step. -/
def negotiation : List In :=
  (List.replicate 6 [⟨true, K 28 5⟩, ⟨false, D 21 5⟩, ⟨false, 0x20⟩, ⟨false, 0x40⟩]).flatten.map fun y =>
    ⟨some y, some ⟨false, 0, false⟩⟩

theorem links_le_toggle : (links .toggle (.down 3) 40 negotiation).length = 1 ∧
    (links .toggle (.down 3) 40 negotiation).length ≤ (Config.abilities (symbols negotiation)).length ∧
      (links .toggle (.down 3) 40 negotiation).length ≤ (Config.acknowledgements (symbols negotiation)).length :=
  ⟨by decide +kernel, links_le negotiation⟩

end Credit

end LiteEth.Phy.Pcs.Main
