/-
The auto-negotiation of a PCS (`phy/pcs_1000basex.py`, the `eth_tx` part of `PCS`): the FSM that brings the link up, and
the checker that takes it down when the partner falls silent. Its inputs are the pulses that come over from `eth_rx`.
-/
import LiteEth.Rtl.Machine
import LiteEth.Rtl.WaitTimer
import Mathlib.Tactic

namespace LiteEth.Phy.Pcs.Autoneg

open LiteEth.Rtl

/-- The states of the negotiation. -/
inductive Fsm
  | autonegWaitAbi
  | autonegWaitAck
  | autonegSendMoreAck
  | running
  deriving DecidableEq, Repr

/-- The inputs of a cycle: the outputs of the three pulse synchronizers, and `config_reg_empty`. -/
structure In where
  abi : Bool
  ack : Bool
  ci : Bool
  configRegEmpty : Bool

variable {moreAck : ℕ} (T : WaitTimer moreAck)

/-- The registers: the FSM, the checker of the link partner, and the timer of the last acknowledgments. -/
structure State where
  fsm : Fsm
  fsmInited : Bool
  checkerCounter : ℕ
  checkerTick : Bool
  checkerOk : Bool
  moreAckTimer : T.State

namespace State

variable {T}
variable (s : State T) (i : In)

/-- `link_up`: the negotiation is over. -/
def linkUp : Bool := s.fsm == .running

/-- `tx.config_stb`. -/
def configStb : Bool :=
  match s.fsm with
  | .autonegWaitAbi => s.fsmInited
  | .autonegWaitAck | .autonegSendMoreAck => true
  | .running => false

/-- The configuration word that is sent acknowledges the partner's. -/
def autonegAck : Bool := s.fsm == .autonegWaitAck || s.fsm == .autonegSendMoreAck

/-- `checker_tick & ~checker_ok`. -/
def silent : Bool := s.checkerTick && !s.checkerOk

/-- The partner is silent, or has left a link that is up. -/
def restart : Bool := s.silent || (s.linkUp && i.configRegEmpty)

/-- The state that is entered unless there is a restart. -/
def advance : Fsm :=
  match s.fsm with
  | .autonegWaitAbi => if i.abi then .autonegWaitAck else .autonegWaitAbi
  | .autonegWaitAck => if i.ack then .autonegSendMoreAck else .autonegWaitAck
  | .autonegSendMoreAck => if T.done s.moreAckTimer then .running else .autonegSendMoreAck
  | .running => .running

/-- A cycle of `eth_tx`. -/
def next (checkerMax : ℕ) : State T where
  fsm := if s.restart i then .autonegWaitAbi else s.advance i
  fsmInited := s.fsmInited || (s.fsm == .autonegWaitAbi && i.abi)
  checkerCounter := if s.checkerCounter = 0 then checkerMax else s.checkerCounter - 1
  checkerTick := s.checkerCounter == 0
  checkerOk := if s.checkerTick then false else if i.ci then true else s.checkerOk
  moreAckTimer := T.step s.moreAckTimer (s.fsm == .autonegSendMoreAck)

end State

/-- `checker_max_val` and the period of the timer in cycles. -/
def autoneg (checkerMax : ℕ) : Machine In (State T) where
  reset :=
    { fsm := .autonegWaitAbi, fsmInited := false, checkerCounter := 0, checkerTick := false, checkerOk := false,
      moreAckTimer := T.reset }
  step s i := s.next i checkerMax

/-! ## The way to a link -/

section Run

variable {T} (checkerMax : ℕ)

/-- The state `f` is kept over the cycles `is`, and none of them restarts. -/
def Stays (f : Fsm) (s : State T) (is : List In) : Prop :=
  (autoneg T checkerMax).Along (fun s i => s.fsm = f ∧ s.restart i = false) s is

/-- From an ability match in `a` to an acknowledgement match in `k`: config words are sent with the acknowledge bit all
the time. -/
structure Acknowledged (T : WaitTimer moreAck) (pre : List In) (a : In) (waiting : List In) (k : In) (more : List In) :
    Prop where
  waitAbi : Stays checkerMax .autonegWaitAbi ((autoneg T checkerMax).run pre) [a]
  abi : a.abi = true
  waitAck : Stays checkerMax .autonegWaitAck ((autoneg T checkerMax).run (pre ++ [a])) (waiting ++ [k])
  ack : k.ack = true
  sendMoreAck : Stays checkerMax .autonegSendMoreAck ((autoneg T checkerMax).run (pre ++ (a :: waiting) ++ [k])) more

variable {checkerMax}

theorem stays_nil (f : Fsm) (s : State T) : Stays checkerMax f s [] := trivial

theorem stays_concat {f : Fsm} {s : State T} {is : List In} {i : In} :
    Stays checkerMax f s (is ++ [i]) ↔ Stays checkerMax f s is ∧ ((autoneg T checkerMax).runFrom s is).fsm = f ∧
      ((autoneg T checkerMax).runFrom s is).restart i = false := by
  unfold Stays
  rw [Machine.along_append, Machine.along_cons]
  simp

/-- What a cycle does that does not restart. -/
theorem fsm_next {s : State T} {i : In} {f : Fsm} (hf : f ≠ .autonegWaitAbi) (h : (s.next i checkerMax).fsm = f) :
    s.restart i = false ∧ s.advance i = f := by
  have fsm : (s.next i checkerMax).fsm = if s.restart i then .autonegWaitAbi else s.advance i := rfl
  rw [fsm] at h
  split_ifs at h with restart
  · exact absurd h.symm hf
  · exact ⟨by simpa using restart, h⟩

variable (checkerMax) in
theorem count_next (s : State T) (i : In) :
    T.count (s.next i checkerMax).moreAckTimer =
      if s.fsm = .autonegSendMoreAck then T.count s.moreAckTimer - 1 else moreAck := by
  show T.count (T.step s.moreAckTimer (s.fsm == .autonegSendMoreAck)) = _
  rw [T.count_step]
  simp

variable (checkerMax) in
theorem run_append (is js : List In) :
    (autoneg T checkerMax).run (is ++ js) = (autoneg T checkerMax).runFrom ((autoneg T checkerMax).run is) js :=
  (autoneg T checkerMax).runFrom_append _ is js

variable (checkerMax) in
theorem run_concat (is : List In) (i : In) :
    (autoneg T checkerMax).run (is ++ [i]) = ((autoneg T checkerMax).run is).next i checkerMax :=
  (autoneg T checkerMax).runFrom_concat _ is i

theorem history_waitAck {is : List In} (h : ((autoneg T checkerMax).run is).fsm = .autonegWaitAck) :
    T.count ((autoneg T checkerMax).run is).moreAckTimer = moreAck ∧
      ∃ pre a waiting, is = pre ++ (a :: waiting) ∧
        Stays checkerMax .autonegWaitAbi ((autoneg T checkerMax).run pre) [a] ∧ a.abi = true ∧
        Stays checkerMax .autonegWaitAck ((autoneg T checkerMax).run (pre ++ [a])) waiting := by
  -- induction on the run from its end: the state is entered in this cycle or was there before
  induction is using List.reverseRecOn with
  | nil => cases h
  | append_singleton is i ih =>
    rw [run_concat] at h ⊢
    obtain ⟨stays, advance⟩ := fsm_next (by decide) h
    rw [count_next]
    unfold State.advance at advance
    cases hs : ((autoneg T checkerMax).run is).fsm with
    | autonegWaitAbi =>
      rw [hs] at advance
      dsimp only at advance
      split_ifs at advance with abi
      exact ⟨rfl, is, i, [], rfl, ⟨⟨hs, stays⟩, trivial⟩, abi, stays_nil _ _⟩
    | autonegWaitAck =>
      obtain ⟨-, pre, a, waiting, his, waitAbi, abi, waitAck⟩ := ih hs
      refine ⟨rfl, pre, a, waiting ++ [i], by simp [his], waitAbi, abi, ?_⟩
      have run : (autoneg T checkerMax).runFrom ((autoneg T checkerMax).run (pre ++ [a])) waiting =
          (autoneg T checkerMax).run is := by
        rw [← run_append, his]
        simp
      rw [stays_concat, run]
      exact ⟨waitAck, hs, stays⟩
    | autonegSendMoreAck =>
      rw [hs] at advance
      dsimp only at advance
      split_ifs at advance
    | running =>
      rw [hs] at advance
      cases advance

theorem history_sendMoreAck {is : List In} (h : ((autoneg T checkerMax).run is).fsm = .autonegSendMoreAck) :
    ∃ pre a waiting k more, is = pre ++ (a :: waiting) ++ (k :: more) ∧
      Acknowledged checkerMax T pre a waiting k more ∧
      T.count ((autoneg T checkerMax).run is).moreAckTimer + more.length = moreAck := by
  -- the states before it give the pieces of the history
  induction is using List.reverseRecOn with
  | nil => cases h
  | append_singleton is i ih =>
    rw [run_concat] at h ⊢
    obtain ⟨stays, advance⟩ := fsm_next (by decide) h
    rw [count_next]
    unfold State.advance at advance
    cases hs : ((autoneg T checkerMax).run is).fsm with
    | autonegWaitAbi =>
      rw [hs] at advance
      dsimp only at advance
      split_ifs at advance
    | autonegWaitAck =>
      rw [hs] at advance
      dsimp only at advance
      split_ifs at advance with ack
      obtain ⟨-, pre, a, waiting, his, waitAbi, abi, waitAck⟩ := history_waitAck hs
      have run : (autoneg T checkerMax).runFrom ((autoneg T checkerMax).run (pre ++ [a])) waiting =
          (autoneg T checkerMax).run is := by
        rw [← run_append, his]
        simp
      refine ⟨pre, a, waiting, i, [], by rw [his], ⟨waitAbi, abi, ?_, ack, stays_nil _ _⟩, by simp⟩
      rw [stays_concat, run]
      exact ⟨waitAck, hs, stays⟩
    | autonegSendMoreAck =>
      rw [hs] at advance
      dsimp only at advance
      split_ifs at advance with done
      obtain ⟨pre, a, waiting, k, more, his, acknowledged, count⟩ := ih hs
      have left : T.count ((autoneg T checkerMax).run is).moreAckTimer ≠ 0 := by
        rwa [Ne, ← T.done_iff]
      have run : (autoneg T checkerMax).runFrom ((autoneg T checkerMax).run (pre ++ (a :: waiting) ++ [k])) more =
          (autoneg T checkerMax).run is := by
        rw [← run_append, his]
        simp
      refine ⟨pre, a, waiting, k, more ++ [i], by rw [his]; simp, { acknowledged with sendMoreAck := ?_ }, ?_⟩
      · rw [stays_concat, run]
        exact ⟨acknowledged.sendMoreAck, hs, stays⟩
      · rw [if_pos rfl, List.length_append, List.length_singleton]
        omega
    | running =>
      rw [hs] at advance
      cases advance

theorem history_running {is : List In} (h : ((autoneg T checkerMax).run is).fsm = .running) :
    ∃ pre a waiting k more up, is = pre ++ (a :: waiting) ++ (k :: more) ++ up ∧
      Acknowledged checkerMax T pre a waiting k more ∧ more.length = moreAck + 1 ∧
      Stays checkerMax .running ((autoneg T checkerMax).run (pre ++ (a :: waiting) ++ (k :: more))) up := by
  induction is using List.reverseRecOn with
  | nil => cases h
  | append_singleton is i ih =>
    rw [run_concat] at h
    obtain ⟨stays, advance⟩ := fsm_next (by decide) h
    unfold State.advance at advance
    cases hs : ((autoneg T checkerMax).run is).fsm with
    | autonegWaitAbi =>
      rw [hs] at advance
      dsimp only at advance
      split_ifs at advance
    | autonegWaitAck =>
      rw [hs] at advance
      dsimp only at advance
      split_ifs at advance
    -- the timer is done, the link comes up
    | autonegSendMoreAck =>
      rw [hs] at advance
      dsimp only at advance
      split_ifs at advance with done
      obtain ⟨pre, a, waiting, k, more, his, acknowledged, count⟩ := history_sendMoreAck hs
      rw [T.done_iff] at done
      have run : (autoneg T checkerMax).runFrom ((autoneg T checkerMax).run (pre ++ (a :: waiting) ++ [k])) more =
          (autoneg T checkerMax).run is := by
        rw [← run_append, his]
        simp
      refine ⟨pre, a, waiting, k, more ++ [i], [], by rw [his]; simp, { acknowledged with sendMoreAck := ?_ }, ?_,
        stays_nil _ _⟩
      · rw [stays_concat, run]
        exact ⟨acknowledged.sendMoreAck, hs, stays⟩
      · rw [List.length_append, List.length_singleton]
        omega
    | running =>
      obtain ⟨pre, a, waiting, k, more, up, his, acknowledged, length, running⟩ := ih hs
      have run : (autoneg T checkerMax).runFrom
          ((autoneg T checkerMax).run (pre ++ (a :: waiting) ++ (k :: more))) up = (autoneg T checkerMax).run is := by
        rw [← run_append, his]
      refine ⟨pre, a, waiting, k, more, up ++ [i], by rw [his]; simp, acknowledged, length, ?_⟩
      rw [stays_concat, run]
      exact ⟨running, hs, stays⟩

/-- A link that is up has been negotiated: since the last restart there was an ability match, then an acknowledgement
match with the acknowledgement sent in between, and it was sent for the time of the timer after it. -/
theorem link_negotiated {is : List In} (h : ((autoneg T checkerMax).run is).linkUp = true) :
    ∃ pre a waiting k more up, is = pre ++ (a :: waiting) ++ (k :: more) ++ up ∧
      Acknowledged checkerMax T pre a waiting k more ∧ more.length = moreAck + 1 ∧
      Stays checkerMax .running ((autoneg T checkerMax).run (pre ++ (a :: waiting) ++ (k :: more))) up :=
  history_running (by simpa [State.linkUp] using h)

/-- An ability match, an acknowledgement match and the time of a timer of two cycles. -/
def brief : List In :=
  [⟨true, false, true, false⟩, ⟨false, true, true, false⟩, ⟨false, false, true, false⟩, ⟨false, false, true, false⟩,
    ⟨false, false, true, false⟩]

theorem link_negotiated_brief :
    ∃ pre a waiting k more up, brief = pre ++ (a :: waiting) ++ (k :: more) ++ up ∧
      Acknowledged 2 (WaitTimer.down 2) pre a waiting k more ∧ more.length = 3 := by
  have up : ((autoneg (WaitTimer.down 2) 2).run brief).linkUp = true := rfl
  obtain ⟨pre, a, waiting, k, more, up, his, acknowledged, length, -⟩ := link_negotiated up
  exact ⟨pre, a, waiting, k, more, up, his, acknowledged, length⟩

/-! ## A partner that falls silent -/

/-- The checker ticks in every `checkerMax + 1` cycles. -/
structure Paced (checkerMax : ℕ) (s : State T) : Prop where
  tick : s.checkerTick = true → s.checkerCounter = checkerMax
  count : s.checkerTick = false → s.checkerCounter < checkerMax

/-- The cycles until the next tick. -/
def State.due (s : State T) : ℕ := if s.checkerTick then 0 else s.checkerCounter + 1

theorem Paced.due_le {s : State T} (h : Paced checkerMax s) : s.due ≤ checkerMax := by
  unfold State.due
  split_ifs with tick
  · exact Nat.zero_le _
  · exact h.count (by simpa using tick)

theorem Paced.next {s : State T} (h : Paced checkerMax s) (i : In) : Paced checkerMax (s.next i checkerMax) := by
  constructor
  · intro tick
    have zero : s.checkerCounter = 0 := by simpa [State.next] using tick
    simp [State.next, zero]
  · intro tick
    have zero : s.checkerCounter ≠ 0 := by simpa [State.next] using tick
    have le : s.checkerCounter ≤ checkerMax := by
      cases ticks : s.checkerTick with
      | true => exact (h.tick ticks).le
      | false => exact (h.count ticks).le
    simp only [State.next, if_neg zero]
    omega

theorem paced_run (pos : 0 < checkerMax) (is : List In) : Paced checkerMax ((autoneg T checkerMax).run is) :=
  (autoneg T checkerMax).runFrom_inv (C := fun _ _ => True) (fun _ i h _ => h.next i) is _
    ⟨nofun, fun _ => pos⟩ ((autoneg T checkerMax).along_trivial is _)

theorem Paced.due_next {s : State T} (h : Paced checkerMax s) (pos : 0 < checkerMax) (i : In) :
    (s.next i checkerMax).due = if s.checkerTick then checkerMax else s.due - 1 := by
  unfold State.due
  have counter : (s.next i checkerMax).checkerCounter = if s.checkerCounter = 0 then checkerMax else s.checkerCounter - 1 :=
    rfl
  have tick : (s.next i checkerMax).checkerTick = (s.checkerCounter == 0) := rfl
  rw [counter, tick]
  cases ticks : s.checkerTick with
  | true =>
    have full := h.tick ticks
    have nonzero : s.checkerCounter ≠ 0 := by omega
    simp [nonzero]
    omega
  | false =>
    by_cases zero : s.checkerCounter = 0
    · simp [zero]
    · simp [zero]
      omega

/-- A link that is down and stays so while no code is seen: the checker takes it down before the timer is done. -/
structure Down (s : State T) : Prop where
  deaf : s.checkerOk = false
  down : s.fsm ≠ .running
  waitAck : s.fsm = .autonegWaitAck → T.count s.moreAckTimer = moreAck
  sendMoreAck : s.fsm = .autonegSendMoreAck → s.due ≤ T.count s.moreAckTimer

theorem Down.next {s : State T} (h : Down s) (paced : Paced checkerMax s) (pos : 0 < checkerMax)
    (slow : checkerMax ≤ moreAck) {i : In} (quiet : i.ci = false) : Down (s.next i checkerMax) := by
  have deaf : (s.next i checkerMax).checkerOk = false := by simp [State.next, quiet, h.deaf]
  have fsm : (s.next i checkerMax).fsm = if s.restart i then .autonegWaitAbi else s.advance i := rfl
  have count := count_next checkerMax s i
  have due := paced.due_next pos i
  -- a restart leads to the first state, from where nothing leads up in time
  by_cases restart : s.restart i = true
  · rw [if_pos restart] at fsm
    exact ⟨deaf, by rw [fsm]; decide, by rw [fsm]; nofun, by rw [fsm]; nofun⟩
  · -- no restart, hence the checker's next tick is still to come
    have no_tick : s.checkerTick = false := by
      rw [Bool.not_eq_true] at restart
      simpa [State.restart, State.silent, h.deaf] using (Bool.or_eq_false_iff.1 restart).1
    rw [if_neg restart] at fsm
    rw [no_tick, if_neg Bool.false_ne_true] at due
    have due_pos : 0 < s.due := by simp [State.due, no_tick]
    unfold State.advance at fsm
    cases hs : s.fsm with
    -- in each state the timer stays ahead of the checker's tick
    | autonegWaitAbi =>
      rw [hs] at fsm count
      dsimp only at fsm
      refine ⟨deaf, ?_, fun _ => count, ?_⟩
      · rw [fsm]
        split_ifs <;> decide
      · intro more
        rw [fsm] at more
        split_ifs at more
    | autonegWaitAck =>
      rw [hs] at fsm count
      dsimp only at fsm
      refine ⟨deaf, ?_, fun _ => count, ?_⟩
      · rw [fsm]
        split_ifs <;> decide
      · intro _
        rw [count, if_neg (by decide)]
        exact (paced.next i).due_le.trans slow
    | autonegSendMoreAck =>
      have ahead := h.sendMoreAck hs
      have undone : ¬ T.done s.moreAckTimer = true := by
        rw [T.done_iff]
        omega
      rw [hs] at fsm count
      dsimp only at fsm
      rw [if_neg undone] at fsm
      rw [if_pos rfl] at count
      refine ⟨deaf, by rw [fsm]; decide, by rw [fsm]; nofun, fun _ => ?_⟩
      omega
    | running => exact absurd hs h.down

/-- The cycles that the checker takes to notice. -/
def State.patience (checkerMax : ℕ) (s : State T) : ℕ := (if s.checkerOk then checkerMax + 1 else 0) + s.due + 1

/-- Without a code the checker comes nearer to taking the link down. -/
theorem patience_next {s : State T} (paced : Paced checkerMax s) (pos : 0 < checkerMax) {i : In}
    (quiet : i.ci = false) :
    Down (s.next i checkerMax) ∨ (s.next i checkerMax).patience checkerMax + 1 ≤ s.patience checkerMax := by
  have due := paced.due_next pos i
  have ok : (s.next i checkerMax).checkerOk = if s.checkerTick then false else s.checkerOk := by
    simp [State.next, quiet]
  unfold State.patience
  rw [due, ok]
  cases tick : s.checkerTick with
  | true =>
    cases deaf : s.checkerOk with
    | true =>
      right
      simp
    | false =>
      left
      have restart : s.restart i = true := by simp [State.restart, State.silent, tick, deaf]
      have fsm : (s.next i checkerMax).fsm = .autonegWaitAbi := by simp [State.next, restart]
      exact ⟨by rw [ok, tick]; rfl, by rw [fsm]; decide, by rw [fsm]; nofun, by rw [fsm]; nofun⟩
  | false =>
    right
    have due_pos : 0 < s.due := by simp [State.due, tick]
    simp only [if_neg Bool.false_ne_true]
    omega

theorem down_of_quiet (pos : 0 < checkerMax) (slow : checkerMax ≤ moreAck) {quiet : List In}
    (hquiet : ∀ i ∈ quiet, i.ci = false) {s : State T} (paced : Paced checkerMax s)
    (h : Down s ∨ s.patience checkerMax ≤ quiet.length) : Down ((autoneg T checkerMax).runFrom s quiet) := by
  induction quiet generalizing s with
  | nil =>
    rcases h with h | h
    · exact h
    · exact absurd h (by simp [State.patience])
  | cons i quiet ih =>
    obtain ⟨hi, hquiet⟩ := List.forall_mem_cons.1 hquiet
    refine ih hquiet (paced.next i) ?_
    rcases h with h | h
    · exact .inl (h.next paced pos slow hi)
    · rcases patience_next paced pos hi with down | nearer
      · exact .inl down
      · rw [List.length_cons] at h
        exact .inr (show (s.next i checkerMax).patience checkerMax ≤ _ by omega)

/-- A link goes down after two rounds of the checker without a code from the partner, and it does not come up again as
long as there is none, whatever matches are still reported. -/
theorem silence (pos : 0 < checkerMax) (slow : checkerMax ≤ moreAck) (before quiet : List In)
    (hquiet : ∀ i ∈ quiet, i.ci = false) (long : 2 * (checkerMax + 1) ≤ quiet.length) :
    ((autoneg T checkerMax).run (before ++ quiet)).linkUp = false := by
  have paced := paced_run (T := T) pos before
  have patience : ((autoneg T checkerMax).run before).patience checkerMax ≤ quiet.length := by
    have := paced.due_le
    unfold State.patience
    split_ifs <;> omega
  have down := (down_of_quiet pos slow hquiet paced (.inr patience)).down
  rw [run_append]
  simpa [State.linkUp] using down

theorem silence_brief :
    ((autoneg (WaitTimer.down 2) 2).run (brief ++ List.replicate 6 ⟨false, false, false, false⟩)).linkUp = false :=
  silence (by decide) le_rfl brief _ (fun _ hi => by rw [List.eq_of_mem_replicate hi]) (by decide)

/-! ## A partner that is heard -/

/-- A code has been seen in the last `checkerMax` cycles. -/
def Heard (checkerMax : ℕ) (is : List In) : Prop := ∀ w, w <:+ is → w.length = checkerMax → ∃ i ∈ w, i.ci = true

/-- The cycles since the last tick, and whether a code was seen in them. -/
structure SinceTick (checkerMax : ℕ) (s : State T) (w : List In) : Prop where
  pace : w.length ≤ checkerMax
  tick : s.checkerTick = true → w.length = checkerMax
  count : s.checkerTick = false → s.checkerCounter + w.length + 1 = checkerMax
  ok : s.checkerOk = w.any In.ci

theorem sinceTick_of_tick {s : State T} (paced : Paced checkerMax s) (pos : 0 < checkerMax)
    (tick : s.checkerTick = true) (i : In) : SinceTick checkerMax (s.next i checkerMax) [] := by
  have nonzero : s.checkerCounter ≠ 0 := by
    have := paced.tick tick
    omega
  constructor
  · exact Nat.zero_le _
  · intro again
    simp [State.next, nonzero] at again
  · intro _
    have := paced.tick tick
    simp [State.next, nonzero]
    omega
  · simp [State.next, tick]

theorem SinceTick.next {s : State T} {w : List In} (h : SinceTick checkerMax s w) (tick : s.checkerTick = false)
    (i : In) : SinceTick checkerMax (s.next i checkerMax) (w ++ [i]) := by
  have count := h.count tick
  constructor
  · rw [List.length_append, List.length_singleton]
    omega
  · intro now
    have zero : s.checkerCounter = 0 := by simpa [State.next] using now
    rw [List.length_append, List.length_singleton]
    omega
  · intro later
    have nonzero : s.checkerCounter ≠ 0 := by simpa [State.next] using later
    simp [State.next, nonzero]
    omega
  · rw [List.any_append, ← h.ok]
    cases hi : i.ci <;> simp [State.next, tick, hi]

/-- From the second cycle on there has been a tick. -/
theorem sinceTick_run (pos : 0 < checkerMax) {is : List In} (long : 2 ≤ is.length) :
    ∃ pre w, is = pre ++ w ∧ SinceTick checkerMax ((autoneg T checkerMax).run is) w := by
  induction is using List.reverseRecOn with
  | nil => exact absurd long (by decide)
  | append_singleton is i ih =>
    rw [run_concat]
    cases tick : ((autoneg T checkerMax).run is).checkerTick with
    | true => exact ⟨is ++ [i], [], by simp, sinceTick_of_tick (paced_run pos is) pos tick i⟩
    | false =>
      -- the first cycle is followed by a tick
      have two : 2 ≤ is.length := by
        rw [List.length_append, List.length_singleton] at long
        by_contra few
        obtain ⟨a, rfl⟩ := List.length_eq_one_iff.1 (show is.length = 1 by omega)
        cases tick
      obtain ⟨pre, w, rfl, since⟩ := ih two
      exact ⟨pre, w ++ [i], by simp, since.next tick i⟩

theorem silent_of_heard (pos : 0 < checkerMax) {is : List In} (long : 2 ≤ is.length) (heard : Heard checkerMax is) :
    ((autoneg T checkerMax).run is).silent = false := by
  obtain ⟨pre, w, rfl, since⟩ := sinceTick_run (T := T) pos long
  rw [State.silent, Bool.and_eq_false_iff, Bool.not_eq_false']
  by_cases tick : ((autoneg T checkerMax).run (pre ++ w)).checkerTick = true
  · right
    obtain ⟨i, hi, ci⟩ := heard w (List.suffix_append _ _) (since.tick tick)
    rw [since.ok]
    exact List.any_eq_true.2 ⟨i, hi, ci⟩
  · left
    simpa using tick

/-- A link is not taken down as long as codes are seen often enough and the config word is not empty. -/
theorem link_kept (pos : 0 < checkerMax) (before after : List In)
    (heard : ∀ l, l <+: after → Heard checkerMax (before ++ l)) (ability : ∀ i ∈ after, i.configRegEmpty = false)
    (up : ((autoneg T checkerMax).run before).linkUp = true) :
    ((autoneg T checkerMax).run (before ++ after)).linkUp = true := by
  induction after using List.reverseRecOn with
  | nil => rwa [List.append_nil]
  | append_singleton after i ih =>
    have up' := ih (fun l hl => heard l (hl.trans (List.prefix_append _ _))) fun j hj =>
      ability j (List.mem_append_left _ hj)
    have running : ((autoneg T checkerMax).run (before ++ after)).fsm = .running := by simpa [State.linkUp] using up'
    have long : 2 ≤ (before ++ after).length := by
      obtain ⟨pre, a, waiting, k, more, up, his, -, length, -⟩ := history_running running
      rw [his]
      simp
      omega
    have silent := silent_of_heard (T := T) pos long (heard after (List.prefix_append _ _))
    have empty : i.configRegEmpty = false := ability i (by simp)
    rw [← List.append_assoc, run_concat]
    simp [State.linkUp, State.next, State.restart, State.advance, running, silent, empty]

theorem link_kept_brief :
    ((autoneg (WaitTimer.down 2) 2).run (brief ++ [⟨false, false, true, false⟩])).linkUp = true := by
  refine link_kept (by decide) brief _ ?_ (by decide) rfl
  rintro l hl w hw hlen
  have all : ∀ i ∈ brief ++ [⟨false, false, true, false⟩], i.ci = true := by decide
  obtain ⟨i, w, rfl⟩ := List.exists_cons_of_length_eq_add_one hlen
  have mem : i ∈ brief ++ l := hw.subset List.mem_cons_self
  refine ⟨i, List.mem_cons_self, all i ?_⟩
  rcases List.mem_append.1 mem with h | h
  · exact List.mem_append_left _ h
  · exact List.mem_append_right _ (hl.subset h)

end Run

end LiteEth.Phy.Pcs.Autoneg
