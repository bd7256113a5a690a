/-
`frontend/etherbone.py`: `LiteEthEtherbone` around its record module. The packets that are received are dispatched by their
probe flag: a probe is answered by `LiteEthEtherboneProbe`, and any other packet is for the record module. The answers and the
packets of the record module share the transmitter of packets. Whatever the timing on all sides, the record module is given
exactly the packets that are no probes, and each answer goes as a whole to the host that has sent the probe.
-/
import LiteEth.Frontend.EtherbonePacketRx
import LiteEth.Rtl.Arbiter
import LiteEth.Rtl.DispatchStage

namespace LiteEth.Frontend.Etherbone

open LiteEth.Rtl LiteEth.Core

/-- A beat of `eth_etherbone_packet_user_description(32)`. -/
abbrev PacketBeat : Type := PacketUserParams × Beat 32

/-! ## The probe -/

namespace Probe

/-- The states of the probe. -/
inductive Fsm
  | idle
  | probeResponse
  deriving DecidableEq, Repr

/-- A beat of the answer: `pf` and `pr` are driven, and the rest is connected. -/
def response (a : PacketBeat) : PacketBeat := ({ a.1 with pf := false, pr := true }, a.2)

/-- `LiteEthEtherboneProbe`. -/
abbrev probe : Stage Unit PacketBeat PacketBeat where
  State := Fsm
  reset := .idle
  source s _ b := if s = .probeResponse then b.map response else none
  ready s _ _ r := s == .probeResponse && r
  step s _ b r := match s with
    | .idle => if b.isSome then .probeResponse else .idle
    | .probeResponse => if b.any (·.2.last) && r then .idle else .probeResponse

/-- The slaves of the dispatcher: the probe is the first and the record module the second. -/
def slave (a : PacketBeat) : ℕ := if a.1.pf then 0 else 1

/-- The beat for a slave. -/
def beatFor (j : ℕ) (b : Option (ℕ × PacketBeat)) : Option PacketBeat := b.bind fun x => if x.1 = j then some x.2 else none

/-- The probe behind the dispatcher: the beats for the record module pass by. -/
abbrev branch : Stage Unit (ℕ × PacketBeat) (ℕ × PacketBeat) where
  State := Fsm
  reset := .idle
  source s e b := ((probe.source s e (beatFor 0 b)).map (0, ·)).or (b.filter (·.1 != 0))
  ready s e b r := if b.any (·.1 == 0) then probe.ready s e (beatFor 0 b) r else r
  step s e b r := probe.step s e (beatFor 0 b) r

/-- The beats at the ends of the branches. -/
def answered (x : ℕ × PacketBeat) : ℕ × PacketBeat := if x.1 = 0 then (0, response x.2) else x

theorem branch_record {x : ℕ × PacketBeat} (hx : x.1 ≠ 0) (s : Fsm) (e : Unit) (r : Bool) :
    branch.source s e (some x) = some x ∧ branch.ready s e (some x) r = r ∧ branch.step s e (some x) r = s := by
  have hnone : beatFor 0 (some x) = none := if_neg hx
  have hne : (x.1 != 0) = true := bne_iff_ne.2 hx
  refine ⟨?_, ?_, ?_⟩
  · show ((probe.source s e (beatFor 0 (some x))).map (0, ·)).or ((some x).filter (·.1 != 0)) = _
    rw [hnone, Option.filter_some, if_pos hne]
    cases s <;> rfl
  · show (if (some x).any (·.1 == 0) then _ else r) = r
    rw [Option.any_some, beq_false_of_ne hx]
    exact if_neg Bool.false_ne_true
  · show probe.step s e (beatFor 0 (some x)) r = s
    rw [hnone]
    cases s <;> rfl

/-- The probe answers beat for beat, once it has seen that there is a packet. -/
def branches (H : Unit → Prop) : Stage.Lazy H branch (Transducer.beatwise answered fun _ => True) where
  W := ℕ
  linear := inferInstance
  wf := wellFoundedLT_nat
  Rel s _ p w := p = [] ∧ w = if s = .idle then 1 else 0
  reset := ⟨1, rfl, rfl⟩
  cycle := by
    rintro s q p w ⟨rfl, rfl⟩ e b r -
    rcases b with _ | ⟨j, a⟩
    · have hstep : branch.step s e none r = s := by cases s <;> rfl
      refine ⟨[], _, ?_, ⟨rfl, rfl⟩, fun _ _ _ => .inl ⟨rfl, rfl, by rw [hstep]⟩⟩
      rw [ite_self]
      cases s <;> cases r <;> rfl
    · by_cases hj : j = 0
      · subst hj
        cases s with
        | idle =>
          -- the packet is seen, and stays where it is
          refine ⟨[], 0, ?_, ⟨rfl, rfl⟩, fun _ _ _ => .inr (.inr Nat.one_pos)⟩
          cases r <;> rfl
        | probeResponse =>
          refine ⟨[], _, ?_, ⟨rfl, rfl⟩, fun _ _ _ => .inr (.inl (Option.some_ne_none _))⟩
          cases r <;> rfl
      · obtain ⟨hsource, hready, hstep⟩ := branch_record (x := (j, a)) hj s e r
        have hpass : answered (j, a) = (j, a) := if_neg hj
        rw [hsource, hready, hstep]
        refine ⟨[], _, ?_, ⟨rfl, rfl⟩, fun _ _ _ => .inr (.inl (Option.some_ne_none _))⟩
        cases r with
        | false => rfl
        | true => exact congrArg (fun x => [x]) hpass
  stable := by
    rintro s q p w - e b - x hx e' b' hb
    rcases b with _ | ⟨j, a⟩
    · cases s <;> cases hx
    · by_cases hj : j = 0
      · subst hj
        cases s with
        | idle => cases hx
        | probeResponse =>
          have hstep : branch.step .probeResponse e (some (0, a)) false = .probeResponse := by
            show (if a.2.last && false then Fsm.idle else .probeResponse) = _
            rw [Bool.and_false]
            rfl
          rw [hstep, hb rfl (Option.some_ne_none _)]
          exact hx
      · obtain ⟨hsource, hready, hstep⟩ := branch_record (x := (j, a)) hj s e false
        obtain ⟨hsource', -, -⟩ := branch_record (x := (j, a)) hj s e' false
        rw [hstep, hb hready (Option.some_ne_none _), hsource']
        exact hsource.symm.trans hx

end Probe

end LiteEth.Frontend.Etherbone
