/-
Synchronous FIFOs, by what their users rely on: the writable entry is accepted iff fewer than
`depth` entries are stored, an entry is readable iff one is stored, the oldest one is shown, and
a stored entry leaves in the cycle it is both shown and taken. `SyncFIFO.queue` is the FIFO whose
registers are the list of the stored entries.
-/
import Mathlib.Data.List.Basic

namespace LiteEth.Rtl

/-- A synchronous FIFO of capacity `depth`: its registers, its handshake outputs, and what a clock
edge does to the stored entries (oldest first). -/
structure SyncFIFO (α : Type) (depth : Nat) where
  State : Type
  reset : State
  sinkReady : State → Bool
  sourceValid : State → Bool
  sourceData : State → α
  /-- The registers after a clock edge, given the entry at the sink (if valid) and `source.ready`. -/
  step : State → Option α → Bool → State
  contents : State → List α
  contents_reset : contents reset = []
  sinkReady_iff : ∀ s, sinkReady s = true ↔ (contents s).length < depth
  sourceValid_iff : ∀ s, sourceValid s = true ↔ contents s ≠ []
  sourceData_eq : ∀ s x xs, contents s = x :: xs → sourceData s = x
  contents_step : ∀ s push pop, contents (step s push pop) =
    (if pop then (contents s).tail else contents s) ++ (if sinkReady s then push.toList else [])

namespace SyncFIFO

variable {α : Type} {depth : Nat} (F : SyncFIFO α depth)

/-- The number of stored entries. -/
def level (s : F.State) : ℕ := (F.contents s).length

@[simp] theorem contents_step_none (s : F.State) (pop : Bool) :
    F.contents (F.step s none pop) = if pop then (F.contents s).tail else F.contents s := by
  rw [F.contents_step]; simp

theorem not_sinkReady_iff (s : F.State) : F.sinkReady s = false ↔ depth ≤ (F.contents s).length := by
  rw [← Bool.not_eq_true, F.sinkReady_iff, Nat.not_lt]

/-- Without a push, an accepting FIFO still accepts afterwards. -/
theorem sinkReady_step_none {s : F.State} (h : F.sinkReady s = true) (pop : Bool) :
    F.sinkReady (F.step s none pop) = true := by
  rw [F.sinkReady_iff] at *
  rw [contents_step_none]
  split
  · rw [List.length_tail]; omega
  · exact h

/-- The FIFO kept as the list of its entries. -/
def queue (α : Type) [Inhabited α] (depth : Nat) : SyncFIFO α depth where
  State := List α
  reset := []
  sinkReady s := decide (s.length < depth)
  sourceValid s := !s.isEmpty
  sourceData s := s.headD default
  step s push pop :=
    (if pop then s.tail else s) ++ (if decide (s.length < depth) then push.toList else [])
  contents s := s
  contents_reset := List.tail_nil
  sinkReady_iff s := decide_eq_true_iff
  sourceValid_iff s := by rw [Bool.not_eq_true', List.isEmpty_eq_false_iff]
  sourceData_eq s x xs h := by rw [h]; rfl
  contents_step s push pop := rfl

end SyncFIFO

end LiteEth.Rtl
