/-
Two PCS on one link. Neither sends a config word before it has matched one of the other, so the link between them never
comes up, whatever the order of the edges of their four clocks and whatever their users send.
-/
import LiteEth.Phy.PcsLink
import LiteEth.Phy.PcsMain

namespace LiteEth.Phy.Pcs.Pair

open LiteEth.Rtl

/-! ## The lines -/

/-- The state of a receive path after a symbol depends on no other register. -/
def fsmNext (f : Rx.Fsm) (y : Symbol) : Rx.Fsm :=
  match f with
  | .start => if y.k && y.d == K 27 7 then .data else if y.k && y.d == K 28 5 then .k28_5 else .start
  | .k28_5 => if !y.k && (y.d == D 21 5 || y.d == D 2 2) then .configRegLsb else .start
  | .configRegLsb => if y.k then (if y.d == K 27 7 then .data else .start) else .configRegMsb
  | .configRegMsb => .start
  | .data => if y.k then .start else .data

/-- No config word is being received. -/
def Calm (f : Rx.Fsm) : Prop := f ≠ .configRegLsb ∧ f ≠ .configRegMsb

instance (f : Rx.Fsm) : Decidable (Calm f) := inferInstanceAs (Decidable (_ ∧ _))

/-- Nor will one be, from the symbols on the line and a transmitter in the state `t`. -/
def Quiet (t : Tx.Fsm) : Rx.Fsm → List Symbol → Prop
  | f, [] => Calm f ∧ f = Link.follows t ∧ t ≠ .configD
  | f, y :: line => Calm f ∧ Quiet t (fsmNext f y) line

theorem Quiet.calm {t : Tx.Fsm} {f : Rx.Fsm} {line : List Symbol} (h : Quiet t f line) : Calm f := by
  cases line with
  | nil => exact h.1
  | cons y line => exact h.1

/-- A transmitter that is not told to sends no config word. -/
theorem Quiet.send {t : Tx.State} {i : Tx.In} (hi : i.configStb = false) (speed : BitVec 2) {f : Rx.Fsm}
    {line : List Symbol} (h : Quiet t.fsm f line) : Quiet (t.next speed i).fsm f (line ++ [t.symbol i]) := by
  induction line generalizing f with
  | nil =>
    obtain ⟨calm, rfl, silent⟩ := h
    refine ⟨calm, ?_⟩
    unfold Tx.State.next Tx.State.symbol
    cases ht : t.fsm with
    | start => cases hs : i.txStb <;> simp [hi, Link.follows, fsmNext, Quiet, Calm, K]
    | data => cases hs : i.txStb <;> simp [Link.follows, fsmNext, Quiet, Calm]
    | idle => cases hd : i.disparity <;> simp [Link.follows, fsmNext, Quiet, Calm, D]
    | carrierExtend1 => cases hp : t.parity <;> simp [Link.follows, fsmNext, Quiet, Calm, K]
    | carrierExtend2 => simp [Link.follows, fsmNext, Quiet, Calm, K]
    | configD => exact absurd ht silent
    | configRegLsb => simp [ht, Link.follows, Calm] at calm
    | configRegMsb => simp [ht, Link.follows, Calm] at calm
  | cons y line ih => exact ⟨h.1, ih h.2⟩

/-! ## The pair -/

variable {moreAck : ℕ} (P : PulseSynchronizer) (T : WaitTimer moreAck)

/-- The clocks that have an edge, of one PCS and of the other. -/
structure In where
  tx : Option Main.User
  rx : Bool
  tx' : Option Main.User
  rx' : Bool

/-- Two PCS, and the symbols on their way to each of them. -/
structure State where
  pcs : Main.State P T
  pcs' : Main.State P T
  line : List Symbol
  line' : List Symbol

namespace State

variable {P T}
variable (s : State P T)

/-- The symbols left on a line, and those sent. -/
def lineNext (sender : Main.State P T) (line : List Symbol) (rx : Bool) (tx : Option Main.User) : List Symbol :=
  (if rx then line.tail else line) ++ (tx.map sender.symbol).toList

/-- A step of both ends, each with the symbols of the other that are on the line. -/
def next (checkerMax : ℕ) (i : In) : State P T where
  pcs := s.pcs.next checkerMax ⟨if i.rx then s.line.head? else none, i.tx⟩
  pcs' := s.pcs'.next checkerMax ⟨if i.rx' then s.line'.head? else none, i.tx'⟩
  line := lineNext s.pcs' s.line i.rx i.tx'
  line' := lineNext s.pcs s.line' i.rx' i.tx

end State

/-- Two ends after reset with nothing on the line between them. -/
def pair (checkerMax : ℕ) : Machine In (State P T) where
  reset := ⟨(Main.pcs P T checkerMax).reset, (Main.pcs P T checkerMax).reset, [], []⟩
  step s i := s.next checkerMax i

section Inv

variable {P T} {checkerMax : ℕ}

/-- A PCS that waits for an ability match, with what is on the line to it from a transmitter in the state `t`. -/
structure Waiting (t : Tx.Fsm) (s : Main.State P T) (line : List Symbol) : Prop where
  fsm : s.autoneg.fsm = .autonegWaitAbi
  inited : s.autoneg.fsmInited = false
  quiet : Quiet t s.cfg.rx.fsm line
  unseen : s.cfg.rx.seenConfigReg = false
  unmatched : s.cfg.rxConfigRegAbi = false
  pending : P.pending s.rxConfigRegAbi = 0

theorem Waiting.configStb {t : Tx.Fsm} {s : Main.State P T} {line : List Symbol} (h : Waiting t s line) (u : Main.User) :
    (s.txIn u).configStb = false := by
  simp [Main.State.txIn, Autoneg.State.configStb, h.fsm, h.inited]

theorem Waiting.abi {t : Tx.Fsm} {s : Main.State P T} {line : List Symbol} (h : Waiting t s line) :
    P.o s.rxConfigRegAbi = false := by
  by_contra pulse
  have := P.pending_pos (by simpa using pulse)
  rw [h.pending] at this
  exact absurd this (lt_irrefl 0)

/-- No symbol of a quiet line makes a word. -/
theorem Waiting.cfg_next {t : Tx.Fsm} {s : Main.State P T} {y : Symbol} {line : List Symbol}
    (h : Waiting t s (y :: line)) : Quiet t (s.cfg.next y).rx.fsm line ∧ (s.cfg.next y).rx.seenConfigReg = false ∧
      (s.cfg.next y).rxConfigRegAbi = false := by
  refine ⟨h.quiet.2, ?_, ?_⟩
  · have calm := h.quiet.calm.2
    simp [Config.State.next, Rx.State.next, Rx.State.loadConfigRegMsb, calm]
  · simp [Config.State.next, Config.State.abilityMatch, h.unseen]

variable (checkerMax) in
/-- It goes on waiting, after the edges of its clocks. -/
theorem Waiting.next {t : Tx.Fsm} {s : Main.State P T} {line : List Symbol} (h : Waiting t s line) (rx : Bool)
    (tx : Option Main.User) :
    Waiting t (s.next checkerMax ⟨if rx then line.head? else none, tx⟩) (if rx then line.tail else line) := by
  have abi := h.abi
  -- no match, hence no pulse can enter the synchronizer
  have pending : ∀ y : Option Symbol,
      P.pending (P.step s.rxConfigRegAbi (y.map fun _ => s.cfg.rxConfigRegAbi) tx.isSome) = 0 := by
    intro y
    have step := P.pending_step s.rxConfigRegAbi (y.map fun _ => s.cfg.rxConfigRegAbi) tx.isSome
    have none_in : (y.map fun _ => s.cfg.rxConfigRegAbi).getD false = false := by
      cases y <;> simp [h.unmatched]
    rw [h.pending, none_in] at step
    simp at step
    omega
  -- without a pulse the autonegotiation waits on
  have auto : (if tx.isSome then s.autoneg.next s.autonegIn checkerMax else s.autoneg).fsm = .autonegWaitAbi ∧
      (if tx.isSome then s.autoneg.next s.autonegIn checkerMax else s.autoneg).fsmInited = false := by
    cases tx with
    | none => exact ⟨h.fsm, h.inited⟩
    | some u =>
      simp [Autoneg.State.next, Autoneg.State.advance, Main.State.autonegIn, h.fsm, h.inited, abi]
  by_cases taken : ∃ y line', rx = true ∧ line = y :: line'
  · obtain ⟨y, line', rfl, rfl⟩ := taken
    obtain ⟨quiet, unseen, unmatched⟩ := h.cfg_next
    exact ⟨auto.1, auto.2, quiet, unseen, unmatched, pending (some y)⟩
  · have none : (if rx then line.head? else none) = none ∧ (if rx then line.tail else line) = line := by
      cases rx with
      | false => exact ⟨rfl, rfl⟩
      | true =>
        cases line with
        | nil => exact ⟨rfl, rfl⟩
        | cons y line' => exact absurd ⟨y, line', rfl, rfl⟩ taken
    rw [none.1, none.2]
    exact ⟨auto.1, auto.2, h.quiet, h.unseen, h.unmatched, pending Option.none⟩

/-- What the other PCS sends in the meantime keeps the line quiet. -/
theorem Waiting.send {s s' : Main.State P T} {line : List Symbol} (h : Waiting s'.tx.fsm s line)
    (hs' : ∀ u, (s'.txIn u).configStb = false) (i : Main.In) :
    Waiting (s'.next checkerMax i).tx.fsm s (line ++ (i.tx.map s'.symbol).toList) := by
  obtain ⟨rx, tx⟩ := i
  cases tx with
  | none => simpa [Main.State.next] using h
  | some u => exact { h with quiet := h.quiet.send (hs' u) s'.cfg.sgmiiSpeed }

/-- Both ends wait for the abilities of the other one. -/
structure Inv (s : State P T) : Prop where
  waiting : Waiting s.pcs'.tx.fsm s.pcs s.line
  waiting' : Waiting s.pcs.tx.fsm s.pcs' s.line'

theorem Inv.next {s : State P T} (h : Inv s) (i : In) : Inv (s.next checkerMax i) := by
  constructor
  · exact (h.waiting.next checkerMax i.rx i.tx).send (fun u => h.waiting'.configStb u) ⟨_, i.tx'⟩
  · exact (h.waiting'.next checkerMax i.rx' i.tx').send (fun u => h.waiting.configStb u) ⟨_, i.tx⟩

/-- Between two PCS no link comes up: neither ever sends a config word, for each waits for one of the other. -/
theorem no_link (is : List In) :
    ((pair P T checkerMax).run is).pcs.autoneg.linkUp = false ∧ ((pair P T checkerMax).run is).pcs'.autoneg.linkUp = false ∧
      ((pair P T checkerMax).run is).pcs.autoneg.configStb = false ∧
      ((pair P T checkerMax).run is).pcs'.autoneg.configStb = false := by
  have quiet : Quiet Tx.State.init.fsm Config.receiver.reset.rx.fsm [] := ⟨by decide, rfl, by decide⟩
  have waiting : Waiting Tx.State.init.fsm (Main.pcs P T checkerMax).reset [] :=
    ⟨rfl, rfl, quiet, rfl, rfl, P.pending_reset⟩
  have reset : Inv (pair P T checkerMax).reset := ⟨waiting, waiting⟩
  have inv := (pair P T checkerMax).runFrom_inv (C := fun _ _ => True) (fun _ i h _ => h.next i) is _ reset
    ((pair P T checkerMax).along_trivial is _)
  obtain ⟨⟨fsm, inited, -⟩, ⟨fsm', inited', -⟩⟩ := inv
  rw [Machine.run]
  simp [Autoneg.State.linkUp, Autoneg.State.configStb, fsm, inited, fsm', inited', beq_eq_decide]

/-- All four clocks have an edge in each step, and no frame is offered. -/
theorem no_link_toggle :
    let s := (pair .toggle (.down 3) 10).run (List.replicate 60 ⟨some ⟨false, 0, false⟩, true, some ⟨false, 0, false⟩, true⟩)
    s.line.length = 1 ∧ s.pcs.autoneg.linkUp = false ∧ s.pcs'.autoneg.linkUp = false ∧
      s.pcs.autoneg.configStb = false ∧ s.pcs'.autoneg.configStb = false :=
  ⟨by decide +kernel, @no_link 3 .toggle (.down 3) 10 _⟩

end Inv

end LiteEth.Phy.Pcs.Pair
