/-
`phy/a7_gtp.py`: `GTPRxInit`, which clears a bit of a transceiver register while the receiver is reset and then writes
back what was there. The register is behind a port that takes one access at a time and answers it after any delay.
-/
import LiteEth.Rtl.Machine
import Mathlib.Tactic

namespace LiteEth.Phy.GTPRxInit

open LiteEth.Rtl

/-- The states of the FSM. -/
inductive Fsm
  | waitEnable
  | gtRxReset
  | drpReadIssue
  | drpReadWait
  | drpModIssue
  | drpModWait
  | waitPmarstFall
  | drpRestoreIssue
  | drpRestoreWait
  | done
  deriving DecidableEq, Repr

/-- The registers. -/
structure Init where
  fsm : Fsm
  drpvalue : BitVec 16
  rxPmaResetDoneR : Bool
  rxReset : Bool

/-- The registers after reset: nothing has been read. -/
def Init.reset : Init := { fsm := .waitEnable, drpvalue := 0, rxPmaResetDoneR := false, rxReset := false }

/-- An access of the port. -/
inductive Access
  | read (addr : BitVec 9)
  | write (addr : BitVec 9) (value : BitVec 16)
  deriving DecidableEq, Repr

namespace Init

variable (s : Init)

/-- `drpaddr`. -/
def drpaddr : BitVec 9 := 0x011

/-- `drpmask`: bit 11 of what is written is cleared. -/
def drpmask : Bool := s.fsm == .drpModIssue

/-- What is written to the register: the value that was read, in `DRP_MOD_ISSUE` with bit 11 cleared. -/
def drpdi : BitVec 16 := if s.drpmask then s.drpvalue &&& 0xf7ff else s.drpvalue

/-- An access is issued in the three `ISSUE` states. -/
def drpen : Bool :=
  match s.fsm with
  | .drpReadIssue | .drpModIssue | .drpRestoreIssue => true
  | _ => false

/-- Two of the accesses write. -/
def drpwe : Bool :=
  match s.fsm with
  | .drpModIssue | .drpRestoreIssue => true
  | _ => false

/-- `self.done` of the last state. -/
def done : Bool := s.fsm == .done

/-- The access that is issued. -/
def issues : Option Access :=
  if s.drpen then some (if s.drpwe then .write drpaddr s.drpdi else .read drpaddr) else none

/-- The combinational `rx_reset`. -/
def resets : Bool :=
  match s.fsm with
  | .gtRxReset | .drpReadIssue | .drpReadWait | .drpModIssue | .drpModWait => true
  | _ => false

/-- The registers after a clock edge; `rxPmaResetDone` is behind its synchronizer. -/
def next (enable restart rxPmaResetDone drprdy : Bool) (drpdo : BitVec 16) : Init where
  fsm := match s.fsm with
    | .waitEnable => if enable then .gtRxReset else .waitEnable
    | .gtRxReset => .drpReadIssue
    | .drpReadIssue => .drpReadWait
    | .drpReadWait => if drprdy then .drpModIssue else .drpReadWait
    | .drpModIssue => .drpModWait
    | .drpModWait => if drprdy then .waitPmarstFall else .drpModWait
    | .waitPmarstFall => if s.rxPmaResetDoneR && !rxPmaResetDone then .drpRestoreIssue else .waitPmarstFall
    | .drpRestoreIssue => .drpRestoreWait
    | .drpRestoreWait => if drprdy then .done else .drpRestoreWait
    | .done => if restart then .waitEnable else .done
  drpvalue := if s.fsm = .drpReadWait ∧ drprdy then drpdo else s.drpvalue
  rxPmaResetDoneR := rxPmaResetDone
  rxReset := s.resets

end Init

/-! ## The port -/

/-- The inputs of a cycle; `answer` says whether the port answers the access that is outstanding, and `undriven` is what
it shows otherwise. -/
structure In where
  enable : Bool
  restart : Bool
  rxPmaResetDone : Bool
  answer : Bool
  undriven : BitVec 16

/-- The sequencer, the registers behind the port, and the access that has not been answered. -/
structure System where
  init : Init
  regs : BitVec 9 → BitVec 16
  outstanding : Option Access

namespace System

variable (s : System) (i : In)

/-- The transceiver answers the outstanding access. -/
def drprdy : Bool := s.outstanding.isSome && i.answer

/-- The answer to a read is the register; at any other time the word on the bus is not driven. -/
def drpdo : BitVec 16 :=
  match s.outstanding, i.answer with
  | some (.read addr), true => s.regs addr
  | _, _ => i.undriven

/-- An access leaves the registers, or writes one of them. -/
def store (regs : BitVec 9 → BitVec 16) : Option Access → BitVec 9 → BitVec 16
  | some (.write addr value) => Function.update regs addr value
  | _ => regs

/-- One cycle of the module and the registers of the transceiver: what is issued is done, and awaits an answer. -/
def next : System where
  init := s.init.next i.enable i.restart i.rxPmaResetDone (s.drprdy i) (s.drpdo i)
  regs := store s.regs s.init.issues
  outstanding := if s.drprdy i then s.init.issues else s.init.issues.or s.outstanding

/-- A pass ends. -/
def restarts : Bool := s.init.done && i.restart

end System

variable (regs : BitVec 9 → BitVec 16)

/-- The module with a transceiver that starts with the registers `regs`. -/
def system : Machine In System where
  reset := { init := .reset, regs := regs, outstanding := none }
  step := System.next

/-- The accesses of a run. -/
def accesses (is : List In) : List Access := (system regs).log (fun s _ => s.init.issues.toList) (system regs).reset is

/-- The passes that have ended. -/
def passes (is : List In) : List Unit :=
  (system regs).log (fun s i => if s.restarts i then [()] else []) (system regs).reset is

/-- The accesses of a pass that finds `v`: bit 11 is cleared, and `v` written back. -/
def pass (v : BitVec 16) : List Access :=
  [.read Init.drpaddr, .write Init.drpaddr (v &&& 0xf7ff), .write Init.drpaddr v]

/-! ## The state of a pass -/

namespace Fsm

/-- The accesses that have been issued. -/
def issued : Fsm → ℕ
  | .waitEnable | .gtRxReset | .drpReadIssue => 0
  | .drpReadWait | .drpModIssue => 1
  | .drpModWait | .waitPmarstFall | .drpRestoreIssue => 2
  | .drpRestoreWait | .done => 3

/-- The bit is cleared. -/
def modified : Fsm → Bool
  | .drpModWait | .waitPmarstFall | .drpRestoreIssue => true
  | _ => false

/-- `drpvalue` is what was read. -/
def hasRead : Fsm → Bool
  | .drpModIssue | .drpModWait | .waitPmarstFall | .drpRestoreIssue | .drpRestoreWait => true
  | _ => false

/-- The access that is issued, in a pass that finds `v`. -/
def issue (v : BitVec 16) : Fsm → Option Access
  | .drpReadIssue => some (.read Init.drpaddr)
  | .drpModIssue => some (.write Init.drpaddr (v &&& 0xf7ff))
  | .drpRestoreIssue => some (.write Init.drpaddr v)
  | _ => none

/-- The access that is waited for, in a pass that finds `v`. -/
def awaited (v : BitVec 16) : Fsm → Option Access
  | .drpReadWait => some (.read Init.drpaddr)
  | .drpModWait => some (.write Init.drpaddr (v &&& 0xf7ff))
  | .drpRestoreWait => some (.write Init.drpaddr v)
  | _ => none

end Fsm

/-- The registers are those from before, but for the bit, and the access outstanding is the one that is waited for. -/
structure Inv (s : System) : Prop where
  value : s.init.fsm.hasRead = true → s.init.drpvalue = regs Init.drpaddr
  stored : s.regs = if s.init.fsm.modified then
    Function.update regs Init.drpaddr (regs Init.drpaddr &&& 0xf7ff) else regs
  outstanding : s.outstanding = s.init.fsm.awaited (regs Init.drpaddr)

variable {regs}

theorem inv_reset : Inv regs (system regs).reset := by
  constructor
  · rintro ⟨⟩
  · rfl
  · rfl

theorem Inv.issues_eq {s : System} (h : Inv regs s) : s.init.issues = s.init.fsm.issue (regs Init.drpaddr) := by
  have hvalue := h.value
  unfold Init.issues Init.drpen Init.drpwe Init.drpdi Init.drpmask
  cases hf : s.init.fsm with
  | drpModIssue | drpRestoreIssue =>
    rw [hf] at hvalue
    rw [hvalue rfl]
    rfl
  | _ => rfl

/-- The registers behind the port, and the access outstanding, after a cycle. -/
theorem Inv.port_next {s : System} (h : Inv regs s) (i : In) :
    (s.next i).regs = (if (s.next i).init.fsm.modified then
      Function.update regs Init.drpaddr (regs Init.drpaddr &&& 0xf7ff) else regs) ∧
    (s.next i).outstanding = (s.next i).init.fsm.awaited (regs Init.drpaddr) := by
  have hissues := h.issues_eq
  obtain ⟨-, hstored, houtstanding⟩ := h
  have hregs : (s.next i).regs = System.store s.regs s.init.issues := rfl
  have hnext : (s.next i).outstanding =
    if s.outstanding.isSome && i.answer then s.init.issues else s.init.issues.or s.outstanding := rfl
  have hfsm : (s.next i).init.fsm = (s.init.next i.enable i.restart i.rxPmaResetDone (s.outstanding.isSome && i.answer)
    (s.drpdo i)).fsm := rfl
  rw [hregs, hnext, hfsm, hissues, hstored, houtstanding]
  unfold Init.next
  cases hf : s.init.fsm with
  | waitEnable => cases i.enable <;> exact ⟨rfl, rfl⟩
  | gtRxReset | drpReadIssue | drpModIssue => exact ⟨rfl, rfl⟩
  | drpReadWait | drpModWait | drpRestoreWait => cases i.answer <;> exact ⟨rfl, rfl⟩
  | waitPmarstFall => cases s.init.rxPmaResetDoneR <;> cases i.rxPmaResetDone <;> exact ⟨rfl, rfl⟩
  | drpRestoreIssue =>
    -- the write of what was read undoes the other one
    refine ⟨?_, rfl⟩
    show Function.update (Function.update regs _ _) Init.drpaddr (regs Init.drpaddr) = regs
    rw [Function.update_idem, Function.update_eq_self]
  | done => cases i.restart <;> exact ⟨rfl, rfl⟩

/-- What was read is kept until the next pass. -/
theorem Inv.value_next {s : System} (h : Inv regs s) (i : In) (hread : (s.next i).init.fsm.hasRead = true) :
    (s.next i).init.drpvalue = regs Init.drpaddr := by
  obtain ⟨hvalue, hstored, houtstanding⟩ := h
  have hfsm : (s.next i).init.fsm = (s.init.next i.enable i.restart i.rxPmaResetDone (s.outstanding.isSome && i.answer)
    (s.drpdo i)).fsm := rfl
  have hnext : (s.next i).init.drpvalue =
    if s.init.fsm = .drpReadWait ∧ (s.outstanding.isSome && i.answer) = true then s.drpdo i else s.init.drpvalue := rfl
  have hdrpdo : s.drpdo i = match s.outstanding, i.answer with
    | some (.read addr), true => s.regs addr
    | _, _ => i.undriven := rfl
  rw [hfsm] at hread
  rw [hnext, hdrpdo, houtstanding, hstored]
  rw [houtstanding] at hread
  unfold Init.next at hread
  -- the value is loaded with the answer, and by nothing else until the pass ends
  cases hf : s.init.fsm with
  | waitEnable =>
    rw [hf] at hread
    revert hread
    cases i.enable <;> exact nofun
  | gtRxReset | drpReadIssue =>
    rw [hf] at hread
    cases hread
  | drpReadWait =>
    rw [hf] at hread
    cases ha : i.answer with
    | true => rfl
    | false =>
      rw [ha] at hread
      cases hread
  | drpModIssue | drpModWait | waitPmarstFall | drpRestoreIssue | drpRestoreWait =>
    rw [hf] at hvalue
    rw [if_neg (by rintro ⟨⟨⟩, -⟩)]
    exact hvalue rfl
  | done =>
    rw [hf] at hread
    revert hread
    cases i.restart <;> exact nofun

theorem Inv.next {s : System} (h : Inv regs s) (i : In) : Inv regs (s.next i) where
  value := h.value_next i
  stored := (h.port_next i).1
  outstanding := (h.port_next i).2

variable (regs) in
theorem inv (is : List In) : Inv regs ((system regs).run is) :=
  (system regs).runFrom_inv (C := fun _ _ => True) (fun _ i h _ => h.next i) is _ inv_reset
    ((system regs).along_trivial is _)

/-! ## Runs -/

/-- The accesses so far: those of the passes that have ended, and those of the one under way. -/
theorem accesses_eq (is : List In) : accesses regs is =
    (passes regs is).flatMap (fun _ => pass (regs Init.drpaddr)) ++
      (pass (regs Init.drpaddr)).take ((system regs).run is).init.fsm.issued := by
  induction is using List.reverseRecOn with
  | nil => rfl
  | append_singleton is i ih =>
    have hissues := (inv regs is).issues_eq
    unfold accesses passes at ih ⊢
    have hrun : (system regs).run (is ++ [i]) = ((system regs).run is).next i := (system regs).runFrom_concat _ is i
    rw [Machine.log_concat, Machine.log_concat, ih, hrun, List.flatMap_append, List.append_assoc, List.append_assoc]
    congr 1
    show _ ++ ((system regs).run is).init.issues.toList = (if ((system regs).run is).restarts i then [()] else []).flatMap _ ++ _
    rw [hissues]
    unfold System.restarts Init.done
    have hfsm : (((system regs).run is).next i).init.fsm = (((system regs).run is).init.next i.enable i.restart
      i.rxPmaResetDone (((system regs).run is).drprdy i) (((system regs).run is).drpdo i)).fsm := rfl
    rw [hfsm]
    unfold Init.next
    cases hf : ((system regs).run is).init.fsm with
    | waitEnable => cases i.enable <;> rfl
    | gtRxReset | drpReadIssue | drpModIssue | drpRestoreIssue => rfl
    | drpReadWait | drpModWait | drpRestoreWait => cases ((system regs).run is).drprdy i <;> rfl
    | waitPmarstFall => cases ((system regs).run is).init.rxPmaResetDoneR <;> cases i.rxPmaResetDone <;> rfl
    | done => cases i.restart <;> rfl

/-- In every run each pass reads the register once, writes it with bit 11 cleared once, and writes it back once; no access
is issued while another one is outstanding; and while `done` is one, all registers are as they were. -/
theorem register_restored (regs : BitVec 9 → BitVec 16) (is : List In) :
    accesses regs is = (passes regs is).flatMap (fun _ => pass (regs Init.drpaddr)) ++
        (pass (regs Init.drpaddr)).take ((system regs).run is).init.fsm.issued ∧
      (((system regs).run is).init.drpen = true → ((system regs).run is).outstanding = none) ∧
      (((system regs).run is).init.done = true → ((system regs).run is).init.fsm.issued = 3 ∧
        ((system regs).run is).outstanding = none ∧ ((system regs).run is).regs = regs) := by
  obtain ⟨-, hstored, houtstanding⟩ := inv regs is
  refine ⟨accesses_eq is, fun hen => ?_, fun hdone => ?_⟩
  · rw [houtstanding]
    unfold Init.drpen at hen
    cases hf : ((system regs).run is).init.fsm <;> rw [hf] at hen <;> first | rfl | cases hen
  · have hf : ((system regs).run is).init.fsm = .done := beq_iff_eq.1 hdone
    rw [hstored, houtstanding, hf]
    exact ⟨rfl, rfl, rfl⟩

/-- A pass over a register with bit 11 set, which `restart` ends: `RXPMARESETDONE` falls after six cycles. -/
def onePass : List In := List.replicate 6 ⟨true, false, true, true, 0⟩ ++ List.replicate 4 ⟨true, true, false, true, 0⟩

example : accesses (fun _ => 0x0c24) onePass = [.read 0x011, .write 0x011 0x0424, .write 0x011 0x0c24] ∧
    passes (fun _ => 0x0c24) onePass = [()] ∧ ((system fun _ => 0x0c24).run (onePass.take 9)).init.done = true := by
  decide +kernel

end LiteEth.Phy.GTPRxInit
