/-
Packets that are let through or dropped by their first beat: an FSM that looks at the beat it is shown,
and then passes all of the packet on, or takes all of it. The depacketizer in front of such an FSM shows each
beat with its header, and with what came with it.
-/
import LiteEth.Rtl.PacketSim

namespace LiteEth.Rtl

variable {ε γ : Type}

/-! ## The FSM -/

namespace Gate

/-- The states of a receiver that accepts or drops packets. -/
inductive Fsm
  | idle
  | receive
  | drop
  deriving DecidableEq, Repr

/-- The FSM as a stage: `accept` decides on the beat that is shown in `IDLE`. -/
abbrev stage (ε : Type) (accept last : γ → Bool) : Stage ε γ γ where
  State := Fsm
  reset := .idle
  source s _ b := if s = .receive then b else none
  ready s _ _ r := match s with
    | .idle => false
    | .receive => r
    | .drop => true
  step s _ b r := match s with
    | .idle => b.elim .idle fun x => if accept x then .receive else .drop
    | .receive => if b.any last && r then .idle else .receive
    | .drop => if b.any last then .idle else .drop

/-- A packet passes if its first beat is accepted; the state is the verdict on the packet that has begun. -/
abbrev gated (accept last : γ → Bool) : Transducer γ γ where
  State := Option Bool
  init := none
  next v x := if last x then none else some (v.getD (accept x))
  out v x := if v.getD (accept x) then [x] else []
  ok _ _ := True

variable {accept last : γ → Bool}

/-- The beat at the source. -/
theorem source_eq (s : (stage ε accept last).Run) (i : Stage.In ε γ) :
    s.source i = if s.state = .receive then s.offered i else none := rfl

theorem gated_oks (xs : List γ) : ∀ v, (gated accept last).Oks v xs := by
  induction xs with
  | nil => exact fun _ => trivial
  | cons x xs ih => exact fun _ => ⟨trivial, ih _⟩

variable (accept) in
/-- The rest of a packet. -/
theorem gated_rest {m : List γ} (hm : ∀ x ∈ m, last x = false) (v : Bool) :
    (gated accept last).outs (some v) m = (if v then m else []) ∧ (gated accept last).run (some v) m = some v := by
  induction m with
  | nil => exact ⟨(ite_self _).symm, rfl⟩
  | cons x m ih =>
    obtain ⟨h1, h2⟩ := ih fun y hy => hm y (List.mem_cons_of_mem x hy)
    rw [Transducer.outs_cons, Transducer.run_cons]
    simp only [hm x List.mem_cons_self, Option.getD_some, Bool.false_eq_true, if_false, h1, h2, and_true]
    cases v <;> rfl

variable (accept) in
/-- The beginning of a packet passes, or none of it. -/
theorem gated_begun {m : List γ} (hm : ∀ x ∈ m, last x = false) : (gated accept last).outs none m =
    (if m.head?.any accept then m else []) ∧ (gated accept last).run none m = m.head?.map accept := by
  cases m with
  | nil => exact ⟨(ite_self _).symm, rfl⟩
  | cons x m =>
    obtain ⟨h1, h2⟩ := gated_rest accept (fun y hy => hm y (List.mem_cons_of_mem x hy)) (accept x)
    rw [Transducer.outs_cons, Transducer.run_cons]
    simp only [hm x List.mem_cons_self, Option.getD_none, Bool.false_eq_true, if_false, h1, h2, List.head?_cons,
      Option.any_some, Option.map_some, and_true]
    by_cases h : accept x = true <;> simp [h]

variable (accept) in
/-- A packet passes as a whole, or none of it. -/
theorem gated_frame {f : List γ} (hf : IsFrame last f) : (gated accept last).outs none f =
    (if f.head?.any accept then f else []) ∧ (gated accept last).run none f = none := by
  obtain ⟨m, l, hm, hl⟩ := hf
  obtain ⟨h1, h2⟩ := gated_begun accept hm
  rw [Transducer.outs_append, Transducer.run_append, h1, h2, Transducer.outs_cons, Transducer.run_cons]
  simp only [hl, if_true, Transducer.outs_nil, Transducer.run_nil, List.append_nil, and_true]
  cases m with
  | nil => rfl
  | cons x m => cases h : accept x <;> simp [h]

/-- What the FSM knows of the packet it is shown. -/
structure Knows (s : (stage ε accept last).Run) (v : Option Bool) (w : ℕ) : Prop where
  idle : s.state = .idle → v = none ∧ w = 1
  opened : s.state ≠ .idle → w = 0
  receive : s.state = .receive → ∀ i x, s.offered i = some x → v.getD (accept x) = true
  drop : s.state = .drop → ∀ i x, s.offered i = some x → v.getD (accept x) = false

section Cycle

variable {s : (stage ε accept last).Run} {v : Option Bool} {w : ℕ} (h : Knows s v w) (i : Stage.In ε γ)

include h

/-- No beat is shown. -/
theorem Knows.rest (hx : s.offered i = none) : Knows (s.next i) v w := by
  obtain ⟨hheld, -⟩ := Option.or_eq_none_iff.1 hx
  have hnext : s.next i = s := by
    obtain ⟨state, held⟩ := s
    subst hheld
    unfold Stage.Run.next
    rw [hx, ite_self]
    cases state <;> rfl
  rw [hnext]
  exact h

/-- The packet is opened. -/
theorem Knows.open {x : γ} (hx : s.offered i = some x) (hs : s.state = .idle) :
    s.takes i = none ∧ s.gives i = none ∧ Knows (s.next i) v 0 := by
  obtain ⟨state, held⟩ := s
  subst hs
  obtain ⟨rfl, -⟩ := h.idle rfl
  have hnext : Stage.Run.next (⟨.idle, held⟩ : (stage ε accept last).Run) i =
      ⟨if accept x then .receive else .drop, some x⟩ := by
    unfold Stage.Run.next
    rw [hx]
    rfl
  refine ⟨rfl, ite_self _, ?_⟩
  rw [hnext]
  cases ha : accept x with
  | true =>
    refine ⟨fun hc => (Fsm.noConfusion hc : _), fun _ => rfl, fun _ j y hy => ?_, fun hc => (Fsm.noConfusion hc : _)⟩
    cases hy
    exact ha
  | false =>
    refine ⟨fun hc => (Fsm.noConfusion hc : _), fun _ => rfl, fun hc => (Fsm.noConfusion hc : _), fun _ j y hy => ?_⟩
    cases hy
    exact ha

/-- A beat waits for the consumer. -/
theorem Knows.hold {x : γ} (hx : s.offered i = some x) (hs : s.state = .receive) (hr : i.ready = false) :
    s.takes i = none ∧ s.next i = ⟨.receive, some x⟩ ∧ Knows (s.next i) v w := by
  have hnext : s.next i = ⟨.receive, some x⟩ := by
    unfold Stage.Run.next
    rw [hx, hs, hr]
    exact congrArg₂ Stage.Run.mk (if_neg (by rw [Bool.and_false]; exact Bool.false_ne_true)) rfl
  refine ⟨?_, hnext, ?_⟩
  · unfold Stage.Run.takes
    rw [hs, hr]
    rfl
  · rw [hnext]
    refine ⟨fun hc => (Fsm.noConfusion hc : _), fun _ => h.opened (by rw [hs]; exact Fsm.noConfusion), fun _ j y hy => ?_,
      fun hc => (Fsm.noConfusion hc : _)⟩
    cases hy
    exact h.receive hs i x hx

/-- A beat passes, or is dropped. -/
theorem Knows.take {x : γ} (hx : s.offered i = some x) (hs : s.state = .receive ∧ i.ready = true ∨ s.state = .drop) :
    s.takes i = some x ∧ (s.gives i).toList = (gated accept last).out v x ∧
      ∃ w', Knows (s.next i) ((gated accept last).next v x) w' := by
  -- the state says what was decided at the first beat
  have hverdict : v.getD (accept x) = decide (s.state = .receive) := by
    rcases hs with ⟨hs, -⟩ | hs
    · rw [h.receive hs i x hx, hs]
      rfl
    · rw [h.drop hs i x hx, hs]
      rfl
  have hnext : s.next i = ⟨if last x then .idle else s.state, none⟩ := by
    unfold Stage.Run.next
    rw [hx]
    rcases hs with ⟨hs, hr⟩ | hs
    · rw [hs, hr]
      cases hl : last x <;> simp [hl]
    · rw [hs]
      cases hl : last x <;> simp [hl]
  refine ⟨?_, ?_, ?_⟩
  · unfold Stage.Run.takes
    rw [hx]
    rcases hs with ⟨hs, hr⟩ | hs
    · rw [hs, hr]
      rfl
    · rw [hs]
      rfl
  · show (if i.ready then s.source i else none).toList = if v.getD (accept x) then [x] else []
    rw [hverdict, source_eq, hx]
    rcases hs with ⟨hs, hr⟩ | hs
    · rw [hs, hr]
      rfl
    · rw [hs]
      cases i.ready <;> rfl
  · show ∃ w', Knows (s.next i) (if last x then none else some (v.getD (accept x))) w'
    rw [hnext, hverdict]
    cases hl : last x with
    | true => exact ⟨1, fun _ => ⟨rfl, rfl⟩, fun hc => absurd rfl hc, fun hc => (Fsm.noConfusion hc : _),
        fun hc => (Fsm.noConfusion hc : _)⟩
    | false =>
      refine ⟨0, fun hc => ?_, fun _ => rfl, fun hc j y hy => ?_, fun hc j y hy => ?_⟩
      · rcases hs with ⟨hs, -⟩ | hs
        · exact absurd (hs.symm.trans hc) Fsm.noConfusion
        · exact absurd (hs.symm.trans hc) Fsm.noConfusion
      · exact decide_eq_true hc
      · refine decide_eq_false fun hc' => ?_
        exact absurd (hc'.symm.trans hc) Fsm.noConfusion

end Cycle

/-- The FSM lets through the packets that it accepts. -/
def gates (H : ε → Prop) (accept last : γ → Bool) : Stage.Taking H (stage ε accept last) (gated accept last) where
  W := ℕ
  linear := inferInstance
  wf := wellFoundedLT_nat
  Rel s v p w := Knows s v w ∧ p = []
  reset := ⟨1, ⟨fun _ => ⟨rfl, rfl⟩, fun hc => absurd rfl hc, fun hc => (Fsm.noConfusion hc : _),
    fun hc => (Fsm.noConfusion hc : _)⟩, rfl⟩
  cycle := by
    rintro s v p w ⟨h, rfl⟩ i -
    cases hx : s.offered i with
    | none =>
      have htakes : s.takes i = none := by
        unfold Stage.Run.takes
        rw [hx, ite_self]
      have hgives : s.gives i = none := by
        unfold Stage.Run.gives
        rw [source_eq, hx, ite_self, ite_self]
      rw [htakes, hgives]
      exact ⟨[], w, rfl, ⟨h.rest i hx, rfl⟩, fun _ _ _ _ => .inl ⟨(Option.or_eq_none_iff.1 hx).1, rfl, le_rfl⟩⟩
    | some x =>
      -- idle takes a cycle to decide; the decision then holds to the last beat
      cases hs : s.state with
      | idle =>
        obtain ⟨htakes, hgives, hk⟩ := h.open i hx hs
        obtain ⟨-, rfl⟩ := h.idle hs
        rw [htakes, hgives]
        exact ⟨[], 0, rfl, ⟨hk, rfl⟩, fun _ _ _ _ => .inr (.inr Nat.one_pos)⟩
      | receive =>
        cases hr : i.ready with
        | false =>
          obtain ⟨htakes, -, hk⟩ := h.hold i hx hs hr
          have hgives : s.gives i = none := if_neg (ne_true_of_eq_false hr)
          rw [htakes, hgives]
          refine ⟨[], w, rfl, ⟨hk, rfl⟩, fun _ _ _ _ => .inr (.inl ⟨?_, rfl⟩)⟩
          rw [source_eq, hs, hx]
          exact Option.some_ne_none x
        | true =>
          obtain ⟨htakes, hgives, w', hk⟩ := h.take i hx (.inl ⟨hs, hr⟩)
          rw [htakes, hgives, Option.toList_some, Transducer.outs_cons, Transducer.run_cons, Transducer.outs_nil,
            Transducer.run_nil, List.append_nil]
          exact ⟨[], w', (List.append_nil _).symm, ⟨hk, rfl⟩, fun _ _ hc => absurd hc (Option.some_ne_none x)⟩
      | drop =>
        obtain ⟨htakes, hgives, w', hk⟩ := h.take i hx (.inr hs)
        rw [htakes, hgives, Option.toList_some, Transducer.outs_cons, Transducer.run_cons, Transducer.outs_nil,
          Transducer.run_nil, List.append_nil]
        exact ⟨[], w', (List.append_nil _).symm, ⟨hk, rfl⟩, fun _ _ hc => absurd hc (Option.some_ne_none x)⟩
  stable := by
    rintro s v p w ⟨h, rfl⟩ i - x hx hr j
    rw [source_eq] at hx
    split_ifs at hx with hs
    obtain ⟨-, hnext, -⟩ := h.hold i hx hs hr
    rw [hnext]
    rfl

end Gate

/-! ## A packetizer that starts once it is seen to have a packet -/

namespace Packetizer

/-- The states of a transmitter. -/
inductive Fsm
  | idle
  | send
  deriving DecidableEq, Repr

/-- The registers of a packetizer and of the FSM behind it. -/
structure Transmitter {H : Type} {dw : ℕ} (P : Packetizer H dw) where
  fsm : Fsm
  packetizer : P.State

section Transmitter

variable {α β H : Type} {dw : ℕ} (P : Packetizer H dw) (O : Feed H α β dw) (last : β → Bool) (idle : ε → α)

/-- The FSM waits in `IDLE` until the packetizer has a word, and passes its packet on in `SEND`. -/
abbrev transmitter : Stage ε α β where
  State := P.Transmitter
  reset := ⟨.idle, P.reset⟩
  source s e a := match s.fsm with
    | .idle => none
    | .send => (P.fed O idle).source s.packetizer e a
  ready s e a r := (P.fed O idle).ready s.packetizer e a (s.fsm == .send && r)
  step s e a r :=
    { fsm := match s.fsm with
        | .idle => if ((P.fed O idle).source s.packetizer e a).isSome then .send else .idle
        | .send => if ((P.fed O idle).source s.packetizer e a).any last && r then .idle else .send
      packetizer := (P.fed O idle).step s.packetizer e a (s.fsm == .send && r) }

/-- The FSM, as one that accepts every packet. -/
def Fsm.gate : Fsm → Gate.Fsm
  | .idle => .idle
  | .send => .receive

/-- The registers, as those of the packetizer and of the FSM. -/
def Transmitter.parts {P : Packetizer H dw} (s : P.Transmitter) : P.State × Gate.Fsm := (s.packetizer, s.fsm.gate)

/-- The packetizer, and then the FSM. -/
abbrev gatedStage : Stage ε α β := (P.fed O idle).andThen (Gate.stage ε (fun _ => true) last)

theorem parts_source (s : P.Transmitter) (e : ε) (a : Option α) :
    (P.transmitter O last idle).source s e a = (P.gatedStage O last idle).source s.parts e a := by
  obtain ⟨fsm, t⟩ := s
  cases fsm <;> rfl

theorem parts_ready (s : P.Transmitter) (e : ε) (a : Option α) (r : Bool) :
    (P.transmitter O last idle).ready s e a r = (P.gatedStage O last idle).ready s.parts e a r := by
  obtain ⟨fsm, t⟩ := s
  cases fsm <;> rfl

theorem parts_step (s : P.Transmitter) (e : ε) (a : Option α) (r : Bool) :
    ((P.transmitter O last idle).step s e a r).parts = (P.gatedStage O last idle).step s.parts e a r := by
  obtain ⟨fsm, t⟩ := s
  refine Prod.ext ?_ ?_
  · cases fsm <;> rfl
  · show Fsm.gate (match fsm with
      | .idle => if ((P.fed O idle).source t e a).isSome then .send else .idle
      | .send => if ((P.fed O idle).source t e a).any last && r then .idle else .send) =
      (Gate.stage ε (fun _ => true) last).step fsm.gate e ((P.fed O idle).source t e a) r
    generalize (P.fed O idle).source t e a = x
    cases fsm with
    | idle => cases x <;> rfl
    | send =>
      simp only [Fsm.gate]
      split_ifs <;> rfl

/-- What an FSM that accepts every packet makes of some beats. -/
theorem gated_all (xs : List β) : ∀ v : Option Bool, v ≠ some false →
    (Gate.gated (fun _ => true) last).outs v xs = xs ∧ (Gate.gated (fun _ => true) last).run v xs ≠ some false := by
  induction xs with
  | nil => exact fun v hv => ⟨rfl, hv⟩
  | cons x xs ih =>
    intro v hv
    have hpass : v.getD true = true := by
      cases v with
      | none => rfl
      | some b =>
        cases b with
        | false => exact absurd rfl hv
        | true => rfl
    obtain ⟨h1, h2⟩ := ih (if last x then none else some (v.getD true)) (by rw [hpass]; split_ifs <;> simp)
    rw [Transducer.outs_cons, Transducer.run_cons]
    refine ⟨?_, h2⟩
    show (if v.getD true then [x] else []) ++ _ = x :: xs
    rw [hpass]
    exact congrArg (x :: ·) h1

variable {P} {words : H → List (BitVec dw)}

/-- The transmitter sends each packet after the words of its header. -/
def transmits (W : P.PrependsWords words) (C : ε → Prop) : Stage.Sim C (P.transmitter O last idle) (O.sends words) :=
  (((prependsFed O idle W C).andThen (Gate.gates C (fun _ => true) last).sim).comap Transmitter.parts rfl
    (parts_source P O last idle) (parts_ready P O last idle) (parts_step P O last idle)).becomes (O.sends words)
    Prod.fst (fun q => q.2 ≠ some false) nofun rfl fun q a hq _ => by
      obtain ⟨h1, h2⟩ := gated_all last ((O.sends words).out q.1 a) q.2 hq
      exact ⟨⟨trivial, Gate.gated_oks _ _⟩, h1, rfl, h2⟩

end Transmitter

end Packetizer

/-! ## A depacketizer that shows what comes with its beats -/

namespace Depacketizer

variable {H π : Type} {dw : ℕ}

/-- A depacketizer as a stage: each beat is shown with its header and with what comes with the beat at the sink; `idle`
is that while no beat is offered. -/
abbrev along (D : Depacketizer H dw) (idle : ε → π) : Stage ε (π × Beat dw) (H × π × Beat dw) where
  State := D.State
  reset := D.reset
  source s e a := (D.source s (a.map (·.2))).map (D.header s, a.elim (idle e) (·.1), ·)
  ready s _ a r := D.sinkReady s (a.map (·.2)) r
  step s _ a r := D.step s (a.map (·.2)) r

variable {D : Depacketizer H dw} {n : ℕ} {fields : List (BitVec dw) → H}

/-- A depacketizer of whole words follows its transducer. -/
def StripsWords.followsAlong (C : ε → Prop) (W : StripsWords D n fields) (idle : ε → π) :
    Stage.Lazy C (D.along idle) (stripWords (fun a : π × Beat dw => a.2) n fields) :=
  W.followsThrough C (A := D.along idle) (fun a => a.2) id rfl
    (fun {s _} hgot e a => by
      show (D.source (id s) (a.map (·.2))).map (D.header s, a.elim (idle e) (·.1), ·) = _
      rw [W.source_eq hgot]
      split_ifs
      · rfl
      · cases a <;> rfl)
    (fun _ _ _ _ => rfl) (fun _ _ _ _ => rfl)

end Depacketizer

end LiteEth.Rtl
