/-
Store-and-forward packet FIFOs, by what their users rely on: words come out in the order in which
they went in, a word only once the last word of a packet is stored. `PacketFIFO.queue` is the FIFO
whose registers are the list of the stored words.
-/
import Mathlib.Tactic

namespace LiteEth.Rtl

/-- A packet FIFO of words `α`, each with the parameters of its packet. -/
structure PacketFIFO (α : Type) (last : α → Bool) where
  State : Type
  reset : State
  sinkReady : State → Bool
  /-- The word at the source, if valid. -/
  source : State → Option α
  /-- The registers after a clock edge, given the word at the sink (if valid) and `source.ready`. -/
  step : State → Option α → Bool → State
  contents : State → List α
  contents_reset : contents reset = []
  source_eq : ∀ s x, source s = some x → ∃ xs, contents s = x :: xs
  source_whole : ∀ s, source s ≠ none → ∃ y ∈ contents s, last y = true
  contents_step : ∀ s push pop, contents (step s push pop) =
    (if (source s).isSome && pop then (contents s).tail else contents s) ++
      (if sinkReady s then push.toList else [])

namespace PacketFIFO

variable {α : Type} {last : α → Bool} (F : PacketFIFO α last)

/-- The word that leaves in this cycle. -/
def popped (s : F.State) (pop : Bool) : Option α := if pop then F.source s else none

/-- The word that is stored in this cycle. -/
def pushed (s : F.State) (push : Option α) : Option α := if F.sinkReady s then push else none

/-- What is stored, after what left and before what comes. -/
theorem popped_append_contents (s : F.State) (push : Option α) (pop : Bool) :
    (F.popped s pop).toList ++ F.contents (F.step s push pop) = F.contents s ++ (F.pushed s push).toList := by
  rw [F.contents_step, popped, pushed]
  cases hx : F.source s with
  | none => cases pop <;> cases F.sinkReady s <;> simp
  | some x =>
    obtain ⟨xs, hxs⟩ := F.source_eq s x hx
    cases pop <;> cases F.sinkReady s <;> simp [hxs]

/-- The FIFO kept as the list of its words, for `payloadDepth` words and `paramDepth` packets and
one more of each in its output registers. -/
def queue (last : α → Bool) (payloadDepth paramDepth : ℕ) : PacketFIFO α last where
  State := List α
  reset := []
  sinkReady s := decide (s.length < payloadDepth + 1) && decide (s.countP last < paramDepth + 1)
  source s := if s.any last then s.head? else none
  step s push pop :=
    (if (if s.any last then s.head? else none).isSome && pop then s.tail else s) ++
      (if decide (s.length < payloadDepth + 1) && decide (s.countP last < paramDepth + 1) then push.toList else [])
  contents s := s
  contents_reset := rfl
  source_eq s x h := by
    split_ifs at h
    exact ⟨s.tail, (List.cons_head?_tail h).symm⟩
  source_whole s h := by
    split_ifs at h with ha
    · exact List.any_eq_true.1 ha
    · exact absurd rfl h
  contents_step s push pop := rfl

end PacketFIFO

end LiteEth.Rtl
