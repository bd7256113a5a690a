/-
A stream that goes to two branches at once. A beat leaves the trunk when the branches it is due to are
ready, all in the same cycle; the right branch is passed over by some of the beats. What the branches
give follows from what is offered to the trunk, whatever the stalls of either; and all of it is given
once both consumers are ready.
-/
import LiteEth.Rtl.StreamSim

namespace LiteEth.Rtl

/-- A trunk with two branches. `skips` tells, of the registers of the trunk, that the right branch is
passed over by the beat that is shown. -/
structure Fork (α β γ : Type) where
  trunk : Stage Unit α γ
  left : Stage Unit γ β
  right : Stage Unit γ β
  leftReady : left.State → Bool → Bool
  rightReady : right.State → Bool → Bool
  skips : trunk.State → Bool

namespace Fork

variable {α β γ : Type}

/-- The inputs of one cycle: the beat the producer offers unless it still holds one, and `ready` of the
consumers. -/
structure In (α : Type) where
  offer : Option α
  leftReady : Bool
  rightReady : Bool

variable (F : Fork α β γ)

/-- The registers, with the beat that has been offered to the trunk and not taken. -/
structure Run where
  trunk : F.trunk.Run
  left : F.left.State
  right : F.right.State

variable {F}

namespace Run

variable (s : F.Run) (i : In α)

/-- `ready` at the end of the trunk. -/
def ready : Bool :=
  F.leftReady s.left i.leftReady && (F.rightReady s.right i.rightReady || F.skips s.trunk.state)

/-- What the trunk sees of a cycle. -/
def trunkIn : Stage.In Unit α := { env := (), offer := i.offer, ready := s.ready i }

/-- The beat at the left branch. -/
def toLeft : Option γ := if s.ready i then s.trunk.source (s.trunkIn i) else none

/-- The beat at the right branch. -/
def toRight : Option γ := if s.ready i && !F.skips s.trunk.state then s.trunk.source (s.trunkIn i) else none

/-- The beats the consumers take. -/
def leftGives : Option β := if i.leftReady then F.left.source s.left () (s.toLeft i) else none

/-- The beat that is taken at the right. -/
def rightGives : Option β := if i.rightReady then F.right.source s.right () (s.toRight i) else none

/-- The beat that is offered for the first time. -/
def arrives : Option α := s.trunk.arrives (s.trunkIn i)

/-- One cycle of the trunk and both branches. -/
def next : F.Run where
  trunk := s.trunk.next (s.trunkIn i)
  left := F.left.step s.left () (s.toLeft i) i.leftReady
  right := F.right.step s.right () (s.toRight i) i.rightReady

end Run

section Logs

variable (F)

/-- The fork, fed by a producer that keeps its offers. -/
def machine : Machine (In α) F.Run where
  reset := { trunk := ⟨F.trunk.reset, none⟩, left := F.left.reset, right := F.right.reset }
  step := Run.next

variable (is : List (In α))

/-- The beats offered, passed to the branches, and given. -/
def arrivals : List α := F.machine.log (fun s i => (s.arrives i).toList) F.machine.reset is

/-- The beats that have gone into the branches. -/
def passed : List γ := F.machine.log (fun s i => (s.toLeft i).toList) F.machine.reset is

/-- The beats given at the left. -/
def leftGiven : List β := F.machine.log (fun s i => (s.leftGives i).toList) F.machine.reset is

/-- The beats given at the right. -/
def rightGiven : List β := F.machine.log (fun s i => (s.rightGives i).toList) F.machine.reset is

end Logs

/-! ## Simulations -/

/-- The trunk and the branches simulate their transducers, a branch is ready whatever is offered to it, and
it is if it owes nothing; `skip` tells of a beat whether it passes the right branch over. -/
structure Sims (F : Fork α β γ) (T : Transducer α γ) (skip : γ → Bool) (L R : Transducer γ β) where
  trunk : Stage.Sim (fun _ => True) F.trunk T
  left : Stage.Sim (fun _ => True) F.left L
  right : Stage.Sim (fun _ => True) F.right R
  trunk_oks : ∀ q as, T.Oks q as
  left_oks : ∀ q as, L.Oks q as
  right_oks : ∀ q as, R.Oks q as
  skips_eq : ∀ s e a x, F.trunk.source s e a = some x → F.skips s = skip x
  left_ready : ∀ s e a r, F.left.ready s e a r = F.leftReady s r
  right_ready : ∀ s e a r, F.right.ready s e a r = F.rightReady s r
  left_idle : ∀ {s q w}, left.Rel ⟨s, none⟩ q [] w → F.leftReady s true = true
  right_idle : ∀ {s q w}, right.Rel ⟨s, none⟩ q [] w → F.rightReady s true = true

section Simulation

variable {T : Transducer α γ} {skip : γ → Bool} {L R : Transducer γ β}

/-- The states of the transducers, what is owed, and the bounds. -/
structure Owed (S : Sims F T skip L R) where
  qT : T.State
  qL : L.State
  qR : R.State
  pT : List γ
  pL : List β
  pR : List β
  wT : S.trunk.W
  wL : S.left.W
  wR : S.right.W

/-- Each part simulates its transducer. -/
structure Holds (S : Sims F T skip L R) (s : F.Run) (o : Owed S) : Prop where
  trunk : S.trunk.Rel s.trunk o.qT o.pT o.wT
  left : S.left.Rel ⟨s.left, none⟩ o.qL o.pL o.wL
  right : S.right.Rel ⟨s.right, none⟩ o.qR o.pR o.wR

variable {S : Sims F T skip L R} {s : F.Run} {o : Owed S} (i : In α)

/-- The right branch is offered what does not pass it over. -/
theorem toRight_eq (S : Sims F T skip L R) (s : F.Run) (i : In α) :
    s.toRight i = (s.toLeft i).filter fun x => !skip x := by
  unfold Run.toRight Run.toLeft
  cases hx : s.trunk.source (s.trunkIn i) with
  | none => rw [ite_self, ite_self]; rfl
  | some x =>
    rw [S.skips_eq _ _ _ x hx]
    cases s.ready i <;> cases hs : skip x <;> simp [Option.filter, hs]

/-- A branch takes what it is offered, and gives what follows. -/
theorem branch_cycle {B : Stage Unit γ β} {U : Transducer γ β} (R : Stage.Sim (fun _ => True) B U)
    (hok : ∀ q as, U.Oks q as) {s : B.State} {q : U.State} {p : List β} {w : R.W} (h : R.Rel ⟨s, none⟩ q p w)
    {x : Option γ} {r : Bool} (hx : x ≠ none → B.ready s () x r = true) : ∃ p' w',
      p ++ U.outs q x.toList = (if r then B.source s () x else none).toList ++ p' ∧
        R.Rel ⟨B.step s () x r, none⟩ (U.run q x.toList) p' w' ∧
        (r = true → x = none → B.source s () none = none → (p = [] ∧ w' ≤ w) ∨ w' < w) := by
  obtain ⟨p', w', hp, hrel, hprog⟩ := R.cycle h { env := (), offer := x, ready := r } (hok _ _)
  have hnext : Stage.Run.next (⟨s, none⟩ : B.Run) { env := (), offer := x, ready := r } = ⟨B.step s () x r, none⟩ := by
    unfold Stage.Run.next Stage.Run.offered
    rw [Option.none_or]
    cases x with
    | none => rw [ite_self]
    | some x => rw [if_pos (hx (Option.some_ne_none x))]
  rw [hnext] at hrel
  refine ⟨p', w', hp, hrel, ?_⟩
  rintro rfl rfl hsource
  have htakes : Stage.Run.takes (⟨s, none⟩ : B.Run) { env := (), offer := none, ready := true } = none := ite_self _
  rcases hprog trivial rfl htakes hsource with h1 | h1 | h1
  · exact .inl h1.2
  · exact absurd hsource h1.1
  · exact .inr h1

/-- What a cycle makes of the beats that are owed. -/
structure Cycle (S : Sims F T skip L R) (s : F.Run) (i : In α) (o o' : Owed S) : Prop where
  trunk : o.pT ++ T.outs o.qT (s.arrives i).toList = (s.toLeft i).toList ++ o'.pT
  left : o.pL ++ L.outs o.qL (s.toLeft i).toList = (s.leftGives i).toList ++ o'.pL
  right : o.pR ++ R.outs o.qR ((s.toLeft i).toList.filter fun x => !skip x) = (s.rightGives i).toList ++ o'.pR
  trunk_state : o'.qT = T.run o.qT (s.arrives i).toList
  left_state : o'.qL = L.run o.qL (s.toLeft i).toList
  right_state : o'.qR = R.run o.qR ((s.toLeft i).toList.filter fun x => !skip x)
  trunk_moves : s.arrives i = none → s.toLeft i = none → s.trunk.takes (s.trunkIn i) = none →
    (s.trunk.held = none ∧ o.pT = [] ∧ o'.wT ≤ o.wT) ∨ s.ready i = false ∨ o'.wT < o.wT
  left_moves : i.leftReady = true → s.toLeft i = none → s.leftGives i = none →
    (o.pL = [] ∧ o'.wL ≤ o.wL) ∨ o'.wL < o.wL
  right_moves : i.rightReady = true → s.toLeft i = none → s.rightGives i = none →
    (o.pR = [] ∧ o'.wR ≤ o.wR) ∨ o'.wR < o.wR

/-- A cycle of the fork. -/
theorem Holds.cycle (h : Holds S s o) : ∃ o' : Owed S, Cycle S s i o o' ∧ Holds S (s.next i) o' := by
  obtain ⟨pT, wT, hpT, hT, hprogT⟩ := S.trunk.cycle h.trunk (s.trunkIn i) (S.trunk_oks _ _)
  -- a beat passes only when both branches are ready for it
  have hleft : s.toLeft i ≠ none → F.left.ready s.left () (s.toLeft i) i.leftReady = true := fun hx => by
    rw [S.left_ready]
    unfold Run.toLeft Run.ready at hx
    by_contra hr
    simp [hr] at hx
  have hright : s.toRight i ≠ none → F.right.ready s.right () (s.toRight i) i.rightReady = true := fun hx => by
    rw [S.right_ready]
    unfold Run.toRight Run.ready at hx
    by_contra hr
    cases hs : F.skips s.trunk.state <;> simp [hr, hs] at hx
  obtain ⟨pL, wL, hpL, hL, hprogL⟩ := branch_cycle S.left S.left_oks h.left hleft
  obtain ⟨pR, wR, hpR, hR, hprogR⟩ := branch_cycle S.right S.right_oks h.right hright
  -- the right branch sees what the left one sees, less what is skipped
  have hfilter : (s.toRight i).toList = (s.toLeft i).toList.filter fun x => !skip x := by
    rw [toRight_eq S]
    cases s.toLeft i with
    | none => rfl
    | some x => cases hs : skip x <;> simp [Option.filter, hs]
  rw [hfilter] at hpR hR
  refine ⟨⟨_, _, _, pT, pL, pR, wT, wL, wR⟩, ⟨hpT, hpL, hpR, rfl, rfl, rfl, ?_, ?_, ?_⟩, ⟨hT, hL, hR⟩⟩
  · intro harr hleft htakes
    rcases hprogT trivial harr htakes hleft with h1 | h1 | h1
    · exact .inl h1
    · exact .inr (.inl h1.2)
    · exact .inr (.inr h1)
  · intro hr hx hg
    unfold Run.leftGives at hg
    rw [if_pos hr, hx] at hg
    exact hprogL hr hx hg
  · intro hr hx hg
    have hx' : s.toRight i = none := by rw [toRight_eq S, hx]; rfl
    unfold Run.rightGives at hg
    rw [if_pos hr, hx'] at hg
    exact hprogR hr hx' hg

/-! ## Runs -/

/-- In every run. -/
theorem run (S : Sims F T skip L R) (is : List (In α)) : ∃ o : Owed S, Holds S (F.machine.run is) o ∧
    o.qT = T.run T.init (F.arrivals is) ∧ o.qL = L.run L.init (F.passed is) ∧
      o.qR = R.run R.init ((F.passed is).filter fun x => !skip x) ∧
      T.outs T.init (F.arrivals is) = F.passed is ++ o.pT ∧
      L.outs L.init (F.passed is) = F.leftGiven is ++ o.pL ∧
      R.outs R.init ((F.passed is).filter fun x => !skip x) = F.rightGiven is ++ o.pR := by
  induction is using List.reverseRecOn with
  | nil =>
    obtain ⟨wT, hT⟩ := S.trunk.reset
    obtain ⟨wL, hL⟩ := S.left.reset
    obtain ⟨wR, hR⟩ := S.right.reset
    exact ⟨⟨_, _, _, [], [], [], wT, wL, wR⟩, ⟨hT, hL, hR⟩, rfl, rfl, rfl, rfl, rfl, rfl⟩
  | append_singleton is i ih =>
    obtain ⟨o, h, hqT, hqL, hqR, hT, hL, hR⟩ := ih
    obtain ⟨o', hc, h'⟩ := h.cycle i
    have hlog : ∀ {δ : Type} (f : F.Run → In α → List δ), F.machine.log f F.machine.reset (is ++ [i]) =
        F.machine.log f F.machine.reset is ++ f (F.machine.run is) i := fun f => by
      rw [Machine.log_concat]
      rfl
    have hrun : F.machine.run (is ++ [i]) = (F.machine.run is).next i := F.machine.runFrom_concat _ is i
    unfold arrivals passed leftGiven rightGiven at *
    rw [hrun]
    simp only [hlog, List.filter_append, Transducer.run_append, Transducer.outs_append]
    refine ⟨o', h', ?_, ?_, ?_, ?_, ?_, ?_⟩
    · rw [hc.trunk_state, hqT]
    · rw [hc.left_state, hqL]
    · rw [hc.right_state, hqR]
    · rw [hT, List.append_assoc, ← hqT, hc.trunk, List.append_assoc]
    · rw [hL, List.append_assoc, ← hqL, hc.left, List.append_assoc]
    · rw [hR, List.append_assoc, ← hqR, hc.right, List.append_assoc]

/-! ## Draining -/

/-- A cycle in which nothing new is offered and both consumers are ready. -/
def settle : In α := { offer := none, leftReady := true, rightReady := true }

theorem arrives_settle (s : F.Run) : s.arrives settle = none := ite_self _

/-- The rank of what is owed: first by the beats in the trunk, then by those in the branches. -/
def rank (s : F.Run) (o : Owed S) : ℕ ×ₗ ℕ ×ₗ S.left.W ×ₗ S.right.W ×ₗ S.trunk.W :=
  toLex (o.pT.length + s.trunk.held.toList.length, toLex (o.pL.length + o.pR.length, toLex (o.wL, toLex (o.wR, o.wT))))

/-- The branches are ready if they owe nothing. -/
theorem Holds.ready (h : Holds S s o) (hL : o.pL = []) (hR : o.pR = []) : s.ready settle = true := by
  have hleft : F.leftReady s.left true = true := S.left_idle (hL ▸ h.left)
  have hright : F.rightReady s.right true = true := S.right_idle (hR ▸ h.right)
  unfold Run.ready settle
  rw [hleft, hright]
  rfl

/-- A cycle in which no beat moves leaves fewer cycles to be waited for. -/
theorem Holds.waits (h : Holds S s o) {o' : Owed S} (hc : Cycle S s settle o o') (hx : s.toLeft settle = none)
    (ht : s.trunk.takes (s.trunkIn settle) = none) (hl : s.leftGives settle = none) (hr : s.rightGives settle = none)
    (hrest : ¬ (s.trunk.held = none ∧ o.pT = [] ∧ o.pL = [] ∧ o.pR = [])) :
    toLex (o'.wL, toLex (o'.wR, o'.wT)) < toLex (o.wL, toLex (o.wR, o.wT)) := by
  simp only [Prod.Lex.toLex_lt_toLex]
  rcases hc.left_moves rfl hx hl with ⟨hL, hwL⟩ | hwL
  · rcases hc.right_moves rfl hx hr with ⟨hR, hwR⟩ | hwR
    · have hwT : o'.wT < o.wT := by
        rcases hc.trunk_moves (arrives_settle s) hx ht with h1 | h1 | h1
        · exact absurd ⟨h1.1, h1.2.1, hL, hR⟩ hrest
        · rw [h.ready hL hR] at h1
          cases h1
        · exact h1
      rcases lt_or_eq_of_le hwL with hwL | hwL
      · exact .inl hwL
      · rcases lt_or_eq_of_le hwR with hwR | hwR
        · exact .inr ⟨hwL, .inl hwR⟩
        · exact .inr ⟨hwL, .inr ⟨hwR, hwT⟩⟩
    · rcases lt_or_eq_of_le hwL with hwL | hwL
      · exact .inl hwL
      · exact .inr ⟨hwL, .inl hwR⟩
  · exact .inl hwL

/-- The rank decreases while something is owed. -/
theorem Holds.rank_lt (h : Holds S s o) {o' : Owed S} (hc : Cycle S s settle o o')
    (hrest : ¬ (s.trunk.held = none ∧ o.pT = [] ∧ o.pL = [] ∧ o.pR = [])) : rank (s.next settle) o' < rank s o := by
  have hT := congrArg List.length hc.trunk
  have hheld := congrArg List.length (Stage.Run.arrives_held s.trunk (s.trunkIn settle))
  have harr : s.trunk.arrives (s.trunkIn settle) = none := arrives_settle s
  have harr' : s.arrives settle = none := harr
  rw [harr'] at hT
  rw [harr] at hheld
  simp only [Option.toList_none, Transducer.outs_nil, List.append_nil, List.length_append] at hT hheld
  have hnext : (s.next settle).trunk.held = (s.trunk.next (s.trunkIn settle)).held := rfl
  unfold rank
  rw [hnext]
  simp only [Prod.Lex.toLex_lt_toLex]
  -- either a beat moves, which lowers a length, or the rank of a part falls
  by_cases hx : s.toLeft settle = none
  · by_cases ht : s.trunk.takes (s.trunkIn settle) = none
    · right
      rw [hx, Option.toList_none, List.length_nil] at hT
      rw [ht, Option.toList_none, List.length_nil] at hheld
      refine ⟨by omega, ?_⟩
      have hL := congrArg List.length hc.left
      have hR := congrArg List.length hc.right
      rw [hx] at hL hR
      simp only [Option.toList_none, Transducer.outs_nil, List.append_nil, List.length_append, List.filter_nil] at hL hR
      by_cases hl : s.leftGives settle = none
      · by_cases hr : s.rightGives settle = none
        · rw [hl, Option.toList_none, List.length_nil] at hL
          rw [hr, Option.toList_none, List.length_nil] at hR
          have hwaits := h.waits hc hx ht hl hr hrest
          simp only [Prod.Lex.toLex_lt_toLex] at hwaits
          exact .inr ⟨by omega, hwaits⟩
        · obtain ⟨y, hy⟩ := Option.ne_none_iff_exists'.1 hr
          rw [hy, Option.toList_some, List.length_singleton] at hR
          exact .inl (by omega)
      · obtain ⟨y, hy⟩ := Option.ne_none_iff_exists'.1 hl
        rw [hy, Option.toList_some, List.length_singleton] at hL
        exact .inl (by omega)
    · obtain ⟨y, hy⟩ := Option.ne_none_iff_exists'.1 ht
      rw [hy, Option.toList_some, List.length_singleton] at hheld
      exact .inl (by omega)
  · obtain ⟨y, hy⟩ := Option.ne_none_iff_exists'.1 hx
    rw [hy, Option.toList_some, List.length_singleton] at hT
    exact .inl (by omega)

/-- Left alone by the producer, with ready consumers, the fork gives all that is left. -/
theorem drain (h : Holds S s o) : ∃ n, (F.machine.runFrom s (List.replicate n settle)).trunk.held = none ∧
    F.machine.log (fun s i => (s.leftGives i).toList) s (List.replicate n settle) = o.pL ++ L.outs o.qL o.pT ∧
      F.machine.log (fun s i => (s.rightGives i).toList) s (List.replicate n settle) =
        o.pR ++ R.outs o.qR (o.pT.filter fun x => !skip x) := by
  induction hm : rank s o using WellFoundedLT.induction generalizing s o with
  | ind m ih =>
    subst hm
    by_cases hrest : s.trunk.held = none ∧ o.pT = [] ∧ o.pL = [] ∧ o.pR = []
    · obtain ⟨hheld, hT, hL, hR⟩ := hrest
      exact ⟨0, hheld, by rw [hT, hL]; rfl, by rw [hT, hR]; rfl⟩
    · obtain ⟨o', hc, h'⟩ := h.cycle settle
      obtain ⟨n, h1, h2, h3⟩ := ih _ (h.rank_lt hc hrest) h' rfl
      have hT := hc.trunk
      rw [arrives_settle, Option.toList_none, Transducer.outs_nil, List.append_nil] at hT
      refine ⟨n + 1, h1, ?_, ?_⟩
      · rw [List.replicate_succ, Machine.log_cons, hT, Transducer.outs_append, ← hc.left_state, ← List.append_assoc,
          hc.left, List.append_assoc]
        exact congrArg _ h2
      · rw [List.replicate_succ, Machine.log_cons, hT, List.filter_append, Transducer.outs_append, ← hc.right_state,
          ← List.append_assoc, hc.right, List.append_assoc]
        exact congrArg _ h3

/-! ## What is delivered -/

/-- In a run, the consumers are given `toLeft` and `toRight` of what has been offered, in order, whatever the
stalls; and all of it once they are ready and left to settle. -/
structure Delivers (F : Fork α β γ) (toLeft toRight : List α → List β) (is : List (In α)) : Prop where
  left : F.leftGiven is <+: toLeft (F.arrivals is)
  right : F.rightGiven is <+: toRight (F.arrivals is)
  settles : ∃ n, F.leftGiven (is ++ List.replicate n settle) = toLeft (F.arrivals is) ∧
    F.rightGiven (is ++ List.replicate n settle) = toRight (F.arrivals is)

/-- The consumers are given what follows by the transducers. -/
theorem delivers (S : Sims F T skip L R) (is : List (In α)) :
    F.Delivers (fun as => L.outs L.init (T.outs T.init as))
      (fun as => R.outs R.init ((T.outs T.init as).filter fun x => !skip x)) is := by
  obtain ⟨o, h, -, hqL, hqR, hT, hL, hR⟩ := run S is
  have hleft : L.outs L.init (T.outs T.init (F.arrivals is)) = F.leftGiven is ++ (o.pL ++ L.outs o.qL o.pT) := by
    rw [hT, Transducer.outs_append, hL, hqL, List.append_assoc]
  have hright : R.outs R.init ((T.outs T.init (F.arrivals is)).filter fun x => !skip x) =
      F.rightGiven is ++ (o.pR ++ R.outs o.qR (o.pT.filter fun x => !skip x)) := by
    rw [hT, List.filter_append, Transducer.outs_append, hR, hqR, List.append_assoc]
  obtain ⟨n, -, h1, h2⟩ := drain h
  refine ⟨⟨_, hleft.symm⟩, ⟨_, hright.symm⟩, n, ?_, ?_⟩
  · rw [hleft]
    unfold leftGiven
    rw [Machine.log_append]
    exact congrArg _ h1
  · rw [hright]
    unfold rightGiven
    rw [Machine.log_append]
    exact congrArg _ h2

end Simulation

end Fork

end LiteEth.Rtl
