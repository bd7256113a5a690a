/-
The receivers that store each packet before they look at it: `LiteEthICMPEcho` and `LiteEthEtherboneRecordReceiver`.
Neither checks the length of a packet, and one that is larger than the buffer wedges it.
-/
import LiteEth.Core.Icmp
import LiteEth.Frontend.EtherboneStream

namespace LiteEth

open Rtl LiteEth.Core Frontend.Etherbone

variable {ε : Type}

/-! ## The buffers -/

/-- The buffer of the echo leaves with `source.ready`. -/
def Core.Icmp.echoBuffered {dw : ℕ} (F : PacketFIFO (Icmp.UserParams × Beat dw) Icmp.UserParams.last) :
    (Icmp.icmpecho (ε := ε) F).Buffered F where
  fifo s := s
  pop _ _ r := r
  fifo_reset := rfl
  ready_eq _ _ _ _ := rfl
  fifo_step _ _ _ _ := rfl
  rank _ := 0
  rank_step _ _ _ _ := .inl rfl

namespace Frontend.Etherbone.Receiver

variable {τ : Type} (F : PacketFIFO (Word τ) Word.last)

variable {F} in
/-- The return base address stays in the FIFO while it is read. -/
theorem ready_or (s : State F) (a : Option (Word τ)) (h : F.source s.fifo ≠ none) : s.ctrl.ready true = true ∨
    (if (s.next ⟨a, true⟩).ctrl.fsm = .receiveBaseRetAddr then 1 else 0) <
      if s.ctrl.fsm = .receiveBaseRetAddr then 1 else 0 := by
  obtain ⟨⟨fsm, base, count⟩, fifo⟩ := s
  obtain ⟨w, hw⟩ := Option.ne_none_iff_exists'.1 h
  have hw' : F.source fifo = some w := hw
  cases fsm with
  | receiveBaseRetAddr =>
    right
    simp [State.next, hw', Ctrl.next]
  | _ => exact .inl rfl

theorem fifo_ready (t : τ) (s : State F) (e : ε) (a : Option (Word τ)) (r : Bool) :
    (recordReceiver F t).ready s e a r = F.sinkReady s.fifo := rfl

/-- The buffer of the receiver leaves as its FSM takes the words. -/
def recordBuffered (t : τ) : (recordReceiver (ε := ε) F t).Buffered F where
  fifo s := s.fifo
  pop s _ r := s.ctrl.ready r
  fifo_reset := rfl
  ready_eq := fifo_ready F t
  fifo_step _ _ _ _ := rfl
  rank s := if s.ctrl.fsm = .receiveBaseRetAddr then 1 else 0
  rank_step s _ a h := ready_or s a h

end Frontend.Etherbone.Receiver

/-! ## Packets that are too large -/

section Wedging

variable {α β : Type} {A : Stage Unit α β} {last : α → Bool} {F : PacketFIFO α last} (B : A.Buffered F)

/-- No run that receives the beginning of `bs` gets the FIFO wedged. -/
def NeverWedged (bs : List α) : Prop :=
  ∀ is, A.arrivals is <+: bs → A.machine.Along (fun s i => ¬ B.Wedged s i) A.machine.reset is

/-- A FIFO that gets wedged stays so. -/
def StaysWedged : Prop := ∀ s i, B.Wedged s i → ∀ js, A.machine.Along (fun s i => B.Wedged s i) (s.next i) js

end Wedging

/-- The buffers are never wedged by the packets they receive, whatever the timing on both sides, if and only if each of
these has at most as many beats as the FIFO holds; one that is wedged stays so. -/
theorem neverWedged_iff {dw : ℕ} {F : PacketFIFO (Icmp.UserParams × Beat dw) Icmp.UserParams.last}
    (hF : F.Sized (Icmp.payloadDepth dw + 1) (1 + 1)) {τ : Type} (t : τ) {bufferDepth : ℕ}
    {G : PacketFIFO (Word τ) Word.last} (hG : G.Sized (bufferDepth + 1) (1 + 1)) :
    (StaysWedged (Icmp.echoBuffered F) ∧ ∀ bs, NeverWedged (Icmp.echoBuffered F) bs ↔
      ∀ f ∈ packets Icmp.UserParams.last bs, f.length ≤ Icmp.payloadDepth dw + 1) ∧
    (StaysWedged (Receiver.recordBuffered G t) ∧ ∀ bs, NeverWedged (Receiver.recordBuffered G t) bs ↔
      ∀ f ∈ packets Word.last bs, f.length ≤ bufferDepth + 1) :=
  ⟨⟨fun _ _ h => Stage.Buffered.Wedged.forever hF h, fun bs =>
      Stage.Buffered.never_wedged_iff hF (Icmp.echoBuffered F) (Nat.succ_pos 1) () bs⟩,
    fun _ _ h => Stage.Buffered.Wedged.forever hG h, fun bs =>
      Stage.Buffered.never_wedged_iff hG (Receiver.recordBuffered G t) (Nat.succ_pos 1) () bs⟩

/-- The words of a record with `n` writes. -/
def record (n : ℕ) : List (Word Unit) :=
  (List.range (n + 1)).map fun k =>
    { wcount := BitVec.ofNat 8 n, rcount := 0, byteEnable := 0xf, data := ⟨BitVec.ofNat 32 k, ()⟩, last := k == n }

/-- The FIFO of a receiver with `buffer_depth = 4`. -/
abbrev fifo4 : PacketFIFO (Word Unit) Word.last := .queue Word.last 4 1

theorem neverWedged_four : NeverWedged (Receiver.recordBuffered fifo4 ()) (record 4) :=
  ((neverWedged_iff (PacketFIFO.queue_sized Icmp.UserParams.last (Icmp.payloadDepth 8) 1) ()
    (PacketFIFO.queue_sized Word.last 4 1)).2.2 (record 4)).2 (by decide)

/-- With `buffer_depth = 4`, a record of five writes wedges the receiver. -/
theorem wedged_by_five : ¬ NeverWedged (Receiver.recordBuffered fifo4 ()) (record 5) := by
  intro h
  have hrun := h ((record 5).map fun w => ⟨(), some w, true⟩) (by decide)
  revert hrun
  unfold Stage.Buffered.Wedged
  decide

end LiteEth
