/-
Arbiters of packet streams, by what their users rely on: a master keeps the grant while its packet goes on, and then it
goes round to the next one that has something to send. `Arbiter.status` keeps the grant and the status of each master in
registers. What is given is a sequence of whole packets, each of them from one master; and a master that offers a beat waits
for at most one packet of each other one.
-/
import LiteEth.Rtl.Stream

namespace LiteEth.Rtl

/-- The grant goes on from `g` when it is no longer requested there: to the first master after it that requests it. -/
def roundRobin (n g : ℕ) (request : ℕ → Bool) : ℕ :=
  if request g then g else (((List.range n).map fun k => (g + k + 1) % n).find? request).getD g

/-- An arbiter of the packets of `n` masters; it is stepped with what the masters offer and with `slave.ready`. -/
structure Arbiter (α : Type) (last : α → Bool) (n : ℕ) where
  State : Type
  reset : State
  step : State → (ℕ → Option α) → Bool → State
  /-- The master that is connected to the slave. -/
  grant : State → ℕ
  /-- A packet of the master has been offered, and its last beat has not been taken. -/
  ongoing : State → ℕ → Bool
  grant_reset : grant reset = 0
  ongoing_reset : ∀ j, ongoing reset j = false
  ongoing_step : ∀ s b r j, ongoing (step s b r) j =
    (((b j).isSome || ongoing s j) && !((b j).any last && (j == grant s && r)))
  grant_step : ∀ s b r, grant (step s b r) = roundRobin n (grant s) (ongoing (step s b r))

/-! ## The round -/

section RoundRobin

variable {n g j : ℕ} {request : ℕ → Bool}

/-- How far the grant at `g` has to go to `j`. -/
def ahead (n g j : ℕ) : ℕ := if g ≤ j then j - g else j + n - g

theorem roundRobin_requested (h : request g = true) : roundRobin n g request = g := if_pos h

theorem ahead_lt (hj : j < n) : ahead n g j < n := by
  unfold ahead
  split_ifs <;> omega

/-- The way of the grant, once it has gone `k + 1` places. -/
theorem ahead_after {k : ℕ} (hg : g < n) (hj : j < n) (hk : k < ahead n g j) :
    ahead n ((g + k + 1) % n) j + (k + 1) = ahead n g j := by
  have hwrap : (g + k + 1) % n = if g + k + 1 < n then g + k + 1 else g + k + 1 - n := by
    split_ifs with h
    · exact Nat.mod_eq_of_lt h
    · have hlt := ahead_lt (g := g) hj
      rw [Nat.mod_eq_sub_mod (by omega), Nat.mod_eq_of_lt (by omega)]
  rw [hwrap]
  unfold ahead at hk ⊢
  split_ifs at hk ⊢ <;> omega

theorem add_ahead (hg : g < n) (hj : j < n) : (g + ahead n g j) % n = j := by
  unfold ahead
  split_ifs
  · rw [Nat.add_sub_cancel' (by omega), Nat.mod_eq_of_lt hj]
  · rw [Nat.add_sub_cancel' (by omega), Nat.add_mod_right, Nat.mod_eq_of_lt hj]

/-- The grant does not pass a master that requests it, and it moves on from one that does not. -/
theorem roundRobin_ahead (hg : g < n) (hj : j < n) (h : request j = true) :
    ahead n (roundRobin n g request) j + (if request g then 0 else 1) ≤ ahead n g j := by
  by_cases hreq : request g = true
  · rw [roundRobin_requested hreq, if_pos hreq]
    exact le_rfl
  · rw [if_neg hreq]
    have hpos : 0 < ahead n g j := by
      by_contra hzero
      have hgj := add_ahead hg hj
      rw [Nat.eq_zero_of_not_pos hzero, Nat.add_zero, Nat.mod_eq_of_lt hg] at hgj
      exact hreq (hgj ▸ h)
    have hmem : j = (g + (ahead n g j - 1) + 1) % n := by
      rw [Nat.add_assoc, Nat.sub_add_cancel hpos, add_ahead hg hj]
    -- the first master that requests is not after `j`
    obtain ⟨k, hk, hfound⟩ : ∃ k < ahead n g j, roundRobin n g request = (g + k + 1) % n := by
      unfold roundRobin
      rw [if_neg hreq, List.find?_map]
      cases hf : (List.range n).find? (request ∘ fun k => (g + k + 1) % n) with
      | none =>
        have hnone := List.find?_eq_none.1 hf (ahead n g j - 1) (List.mem_range.2 (by have := ahead_lt (g := g) hj; omega))
        rw [Function.comp_apply, ← hmem] at hnone
        exact absurd h hnone
      | some k =>
        refine ⟨k, ?_, rfl⟩
        obtain ⟨-, -, hfirst⟩ := List.find?_range_eq_some.1 hf
        by_contra hle
        have hno := hfirst (ahead n g j - 1) (by omega)
        rw [Function.comp_apply, ← hmem, h] at hno
        cases hno
    rw [hfound, ← ahead_after hg hj hk]
    omega

theorem roundRobin_lt (hg : g < n) : roundRobin n g request < n := by
  unfold roundRobin
  split_ifs
  · exact hg
  · rw [List.find?_map]
    cases (List.range n).find? (request ∘ fun k => (g + k + 1) % n) with
    | none => exact hg
    | some k => exact Nat.mod_lt _ (by omega)

end RoundRobin

/-- The packets of a stream, without the marks of who they are from. -/
theorem frames_untagged {ι α : Type} {last : α → Bool} (l : List (ι × α)) : frames last (l.map Prod.snd) =
    ((frames (last ∘ Prod.snd) l).1.map (List.map Prod.snd), (frames (last ∘ Prod.snd) l).2.map Prod.snd) :=
  frames_map (last ∘ Prod.snd) (g := Prod.snd) (fun x : ι × α => (rfl : last x.2 = (last ∘ Prod.snd) x)) l

/-- Packets that are each from one of `n`. -/
theorem one_lt {α : Type} {last : α → Bool} {n : ℕ} (hn : 0 < n) {l : List (ℕ × α)} (hlt : ∀ x ∈ l, x.1 < n)
    (hone : ∀ f ∈ packets (last ∘ Prod.snd) l, ∃ j, ∀ x ∈ f, x.1 = j) :
    ∀ f ∈ packets (last ∘ Prod.snd) l, ∃ j < n, ∀ x ∈ f, x.1 = j := by
  rintro (_ | ⟨x, f⟩) hf
  · exact ⟨0, hn, List.forall_mem_nil _⟩
  · obtain ⟨j, hj⟩ := hone _ hf
    refine ⟨j, ?_, hj⟩
    rw [← hj x List.mem_cons_self]
    refine hlt x ?_
    rw [← frames_flatten (last ∘ Prod.snd) l]
    rcases List.mem_append.1 hf with hf | hf
    · exact List.mem_append_left _ (List.mem_flatten.2 ⟨_, hf, List.mem_cons_self⟩)
    · exact List.mem_append_right _ (List.mem_singleton.1 hf ▸ List.mem_cons_self)

namespace Arbiter

variable {α : Type} {last : α → Bool} {n : ℕ}

/-- The arbiter with its registers: the grant, and the status of each master. -/
def status (α : Type) (last : α → Bool) (n : ℕ) : Arbiter α last n where
  State := ℕ × (ℕ → Bool)
  reset := (0, fun _ => false)
  step s b r :=
    let ongoing j := ((b j).isSome || s.2 j) && !((b j).any last && (j == s.1 && r))
    (roundRobin n s.1 ongoing, ongoing)
  grant := Prod.fst
  ongoing := Prod.snd
  grant_reset := rfl
  ongoing_reset _ := rfl
  ongoing_step _ _ _ _ := rfl
  grant_step _ _ _ := rfl

variable (A : Arbiter α last n)

/-! ## A cycle -/

/-- The beat at the slave, with the master it is from. -/
def source (s : A.State) (b : ℕ → Option α) : Option (ℕ × α) := (b (A.grant s)).map (A.grant s, ·)

/-- The beat the slave takes. -/
def gives (s : A.State) (b : ℕ → Option α) (r : Bool) : Option (ℕ × α) := if r then A.source s b else none

/-- The beat that is taken from a master. -/
def takes (s : A.State) (b : ℕ → Option α) (r : Bool) (j : ℕ) : Option α := if A.grant s = j ∧ r = true then b j else none

/-- A beat the slave takes is taken from its master, and nothing else is. -/
theorem takes_toList (s : A.State) (b : ℕ → Option α) (r : Bool) (j : ℕ) :
    (A.takes s b r j).toList = ((A.gives s b r).toList.filter (·.1 == j)).map Prod.snd := by
  unfold takes gives source
  by_cases hj : A.grant s = j
  · subst hj
    cases r <;> cases b (A.grant s) <;> simp
  · cases r <;> cases b (A.grant s) <;> simp [hj]

/-- What has been given so far, when the arbiter is in state `s`: packets of one master each, and the beginning of one of the
master that has the grant. -/
structure Sends (s : A.State) (l : List (ℕ × α)) : Prop where
  whole : ∀ f ∈ (frames (last ∘ Prod.snd) l).1, ∃ j, ∀ x ∈ f, x.1 = j
  begun : ∀ x ∈ (frames (last ∘ Prod.snd) l).2, x.1 = A.grant s
  ongoing : (frames (last ∘ Prod.snd) l).2 ≠ [] → A.ongoing s (A.grant s) = true

theorem sends_reset : A.Sends A.reset [] := ⟨nofun, nofun, fun h => absurd rfl h⟩

variable {A}

/-- Each packet so far, and what has begun of the next one, is from one master. -/
theorem Sends.one {s : A.State} {l : List (ℕ × α)} (h : A.Sends s l) :
    ∀ f ∈ packets (last ∘ Prod.snd) l, ∃ j, ∀ x ∈ f, x.1 = j := by
  intro f hf
  rcases List.mem_append.1 hf with hf | hf
  · exact h.whole f hf
  · rw [List.mem_singleton.1 hf]
    exact ⟨_, h.begun⟩

theorem grant_ongoing {s : A.State} {b : ℕ → Option α} {r : Bool} (h : A.ongoing (A.step s b r) (A.grant s) = true) :
    A.grant (A.step s b r) = A.grant s := (A.grant_step s b r).trans (roundRobin_requested h)

/-- A packet goes on until its last beat is taken. -/
theorem Sends.next {s : A.State} {l : List (ℕ × α)} (h : A.Sends s l) (b : ℕ → Option α) (r : Bool) :
    A.Sends (A.step s b r) (l ++ (A.gives s b r).toList) := by
  have hgives : A.gives s b r = if r then (b (A.grant s)).map (A.grant s, ·) else none := rfl
  have hongoing := A.ongoing_step s b r (A.grant s)
  rw [beq_self_eq_true, Bool.true_and] at hongoing
  by_cases hx : ∃ x, b (A.grant s) = some x ∧ r = true
  · obtain ⟨x, hx, rfl⟩ := hx
    rw [hx] at hgives hongoing
    rw [hgives, if_pos rfl, Option.map_some, Option.toList_some]
    cases hl : last x with
    | true =>
      have hstep : frames (last ∘ Prod.snd) (l ++ [(A.grant s, x)]) =
          ((frames (last ∘ Prod.snd) l).1 ++ [(frames (last ∘ Prod.snd) l).2 ++ [(A.grant s, x)]], []) := by
        rw [frames_concat, frameStep, Function.comp_apply, hl, if_pos rfl]
      refine ⟨?_, ?_, ?_⟩ <;> rw [hstep]
      · rintro f hf
        rcases List.mem_append.1 hf with hf | hf
        · exact h.whole f hf
        · rw [List.mem_singleton.1 hf]
          refine ⟨A.grant s, ?_⟩
          rintro y hy
          rcases List.mem_append.1 hy with hy | hy
          · exact h.begun y hy
          · rw [List.mem_singleton.1 hy]
      · exact List.forall_mem_nil _
      · exact fun hne => absurd rfl hne
    | false =>
      have hstep : frames (last ∘ Prod.snd) (l ++ [(A.grant s, x)]) =
          ((frames (last ∘ Prod.snd) l).1, (frames (last ∘ Prod.snd) l).2 ++ [(A.grant s, x)]) := by
        rw [frames_concat, frameStep, Function.comp_apply, hl, if_neg Bool.false_ne_true]
      have hon : A.ongoing (A.step s b true) (A.grant s) = true := by
        rw [hongoing, Option.any_some, hl]
        rfl
      refine ⟨?_, ?_, ?_⟩ <;> rw [hstep]
      · exact h.whole
      · rw [grant_ongoing hon]
        rintro y hy
        rcases List.mem_append.1 hy with hy | hy
        · exact h.begun y hy
        · rw [List.mem_singleton.1 hy]
      · rw [grant_ongoing hon]
        exact fun _ => hon
  · -- without a beat the packet that has begun stays with its source
    have hnone : A.gives s b r = none := by
      rw [hgives]
      cases hb : b (A.grant s) with
      | none => exact ite_self _
      | some x =>
        rw [if_neg]
        exact fun hr => hx ⟨x, hb, hr⟩
    rw [hnone, Option.toList_none, List.append_nil]
    have hon : (frames (last ∘ Prod.snd) l).2 ≠ [] → A.ongoing (A.step s b r) (A.grant s) = true := by
      intro hne
      rw [hongoing, h.ongoing hne, Bool.or_true, Bool.true_and]
      cases hb : b (A.grant s) with
      | none => rfl
      | some x =>
        cases r with
        | false => simp
        | true => exact absurd ⟨x, hb, rfl⟩ hx
    -- whose grant cannot move while it goes on
    refine ⟨h.whole, ?_, ?_⟩
    · rintro y hy
      rw [grant_ongoing (hon (List.ne_nil_of_mem hy))]
      exact h.begun y hy
    · intro hne
      rw [grant_ongoing (hon hne)]
      exact hon hne

/-- What has been given is from one master in each packet, also with the beat that is at the slave. -/
theorem Sends.waiting {s : A.State} {l : List (ℕ × α)} (h : A.Sends s l) {b : ℕ → Option α} {x : ℕ × α}
    (hx : A.source s b = some x) : ∀ f ∈ packets (last ∘ Prod.snd) (l ++ [x]), ∃ j, ∀ y ∈ f, y.1 = j := by
  have hnext := (h.next b true).one
  have hgives : A.gives s b true = some x := (if_pos rfl).trans hx
  rwa [hgives] at hnext

/-- The beat at the slave stays there until it is taken, if its master keeps it. -/
theorem source_stays {s : A.State} {b b' : ℕ → Option α} {x : ℕ × α} (h : A.source s b = some x)
    (hkeep : b' x.1 = some x.2) : A.source (A.step s b false) b' = some x := by
  obtain ⟨y, hy, rfl⟩ := Option.map_eq_some_iff.1 h
  have hon : A.ongoing (A.step s b false) (A.grant s) = true := by
    rw [A.ongoing_step, hy]
    simp
  unfold source
  rw [grant_ongoing hon, hkeep]
  rfl

/-- A packet that goes on has begun with the beats `l` taken from its master, or is still offered. -/
theorem ongoing_next {s : A.State} {b : ℕ → Option α} {r : Bool} {j : ℕ} {l : List α}
    (h : A.ongoing s j = true → (frames last l).2 ≠ [] ∨ b j ≠ none) (hnext : A.ongoing (A.step s b r) j = true) :
    (frames last (l ++ (A.takes s b r j).toList)).2 ≠ [] ∨ (b j ≠ none ∧ A.takes s b r j = none) := by
  rw [A.ongoing_step, Bool.and_eq_true, Bool.not_eq_true'] at hnext
  obtain ⟨hon, hgoes⟩ := hnext
  by_cases htaken : A.grant s = j ∧ r = true
  · have htakes : A.takes s b r j = b j := if_pos htaken
    rw [htakes]
    cases hb : b j with
    | none =>
      rw [hb] at hon
      rw [Option.toList_none, List.append_nil]
      exact .inl ((h hon).resolve_right (not_not.2 hb))
    | some x =>
      rw [hb, htaken.1, htaken.2, Option.any_some, beq_self_eq_true, Bool.and_self, Bool.and_true] at hgoes
      rw [Option.toList_some, frames_concat, frameStep, hgoes, if_neg Bool.false_ne_true]
      exact .inl (List.append_ne_nil_of_right_ne_nil _ (List.cons_ne_nil _ _))
  · have htakes : A.takes s b r j = none := if_neg htaken
    rw [htakes, Option.toList_none, List.append_nil]
    cases hb : b j with
    | none =>
      rw [hb] at hon
      exact .inl ((h hon).resolve_right (not_not.2 hb))
    | some x => exact .inr ⟨Option.some_ne_none x, rfl⟩

/-- Of two masters, the grant leaves one that has nothing to send. -/
theorem grant_moves {A : Arbiter α last 2} {s : A.State} {b : ℕ → Option α} {j : ℕ} (r : Bool) (hg : A.grant s < 2)
    (hj : j < 2) (hoffers : b j ≠ none) (hsilent : b (A.grant s) = none) (hdone : A.ongoing s (A.grant s) = false) :
    A.grant (A.step s b r) = j := by
  obtain ⟨x, hx⟩ := Option.ne_none_iff_exists'.1 hoffers
  have hne : j ≠ A.grant s := by
    rintro rfl
    rw [hsilent] at hx
    cases hx
  have hoff : A.ongoing (A.step s b r) (A.grant s) = false := by rw [A.ongoing_step, hsilent, hdone]; rfl
  have hon : A.ongoing (A.step s b r) j = true := by
    rw [A.ongoing_step, hx, beq_false_of_ne hne]
    simp
  have hround := roundRobin_ahead hg hj hon
  have hlt : roundRobin 2 (A.grant s) (A.ongoing (A.step s b r)) < 2 := roundRobin_lt hg
  rw [hoff, if_neg Bool.false_ne_true] at hround
  have hahead := ahead_lt (g := A.grant s) hj
  have hzero : ahead 2 (roundRobin 2 (A.grant s) (A.ongoing (A.step s b r))) j = 0 := by omega
  have hadd := add_ahead hlt hj
  rw [hzero, Nat.add_zero, Nat.mod_eq_of_lt hlt] at hadd
  rw [A.grant_step, hadd]

/-! ## Runs -/

/-- The inputs of a cycle: what each master offers unless it still holds a beat, and `slave.ready`. -/
structure In (α : Type) where
  offer : ℕ → Option α
  ready : Bool

/-- The registers, with the beats that have been offered and not taken. -/
structure Run (A : Arbiter α last n) where
  state : A.State
  held : ℕ → Option α

namespace Run

variable (s : Run A) (i : In α) (j : ℕ)

/-- The beat at a master. -/
def offered : Option α := (s.held j).or (i.offer j)

/-- The beat that is offered for the first time. -/
def arrives : Option α := if (s.held j).isSome then none else i.offer j

/-- The beat that is taken from a master. -/
def takes : Option α := A.takes s.state (s.offered i) i.ready j

/-- The beat the slave takes, with its master. -/
def gives : Option (ℕ × α) := A.gives s.state (s.offered i) i.ready

/-- One cycle: a beat that is taken is offered no more. -/
def next : Run A where
  state := A.step s.state (s.offered i) i.ready
  held j := if A.grant s.state = j ∧ i.ready = true then none else s.offered i j

theorem arrives_held : (s.held j).toList ++ (s.arrives i j).toList = (s.takes i j).toList ++ ((s.next i).held j).toList := by
  unfold takes Arbiter.takes next arrives offered
  dsimp only
  cases s.held j <;> split_ifs <;> simp_all

end Run

section Logs

variable (A)

/-- The arbiter, with masters that keep their offers. -/
def machine : Machine (In α) (Run A) where
  reset := { state := A.reset, held := fun _ => none }
  step := Run.next

/-- The beats a master has offered. -/
def arrivals (j : ℕ) (is : List (In α)) : List α := A.machine.log (fun s i => (s.arrives i j).toList) A.machine.reset is

/-- The beats taken from a master. -/
def taken (j : ℕ) (is : List (In α)) : List α := A.machine.log (fun s i => (s.takes i j).toList) A.machine.reset is

/-- The beats the slave has taken, each with its master. -/
def given (is : List (In α)) : List (ℕ × α) := A.machine.log (fun s i => (s.gives i).toList) A.machine.reset is

end Logs

section Concat

variable (is : List (In α)) (i : In α)

theorem run_concat : A.machine.run (is ++ [i]) = (A.machine.run is).next i := A.machine.runFrom_concat _ is i

theorem taken_concat (j : ℕ) : A.taken j (is ++ [i]) = A.taken j is ++ ((A.machine.run is).takes i j).toList := by
  unfold taken
  rw [Machine.log_concat]; rfl

theorem given_concat : A.given (is ++ [i]) = A.given is ++ ((A.machine.run is).gives i).toList := by
  unfold given
  rw [Machine.log_concat]; rfl

end Concat

/-- What a master has offered is taken, or still offered. -/
theorem arrivals_eq (is : List (In α)) (j : ℕ) :
    A.arrivals j is = A.taken j is ++ ((A.machine.run is).held j).toList := by
  have h := A.machine.runFrom_logs_inv (R := fun s l m => l = m ++ (s.held j).toList)
    (f := fun s i => (s.arrives i j).toList) (g := fun s i => (s.takes i j).toList)
    (fun s i l m hl => by
      rw [hl, List.append_assoc, Run.arrives_held, List.append_assoc]
      rfl)
    is A.machine.reset [] [] rfl
  rw [List.nil_append, List.nil_append] at h
  exact h

/-- What is taken from a master is given, in order, and nothing else of it. -/
theorem taken_eq (is : List (In α)) (j : ℕ) : A.taken j is = ((A.given is).filter (·.1 == j)).map Prod.snd := by
  induction is using List.reverseRecOn with
  | nil => rfl
  | append_singleton is i ih =>
    rw [taken_concat, given_concat, ih, List.filter_append, List.map_append]
    exact congrArg (_ ++ ·) (A.takes_toList _ _ _ j)

/-- In every run, what is given is packets of one master each, and the beginning of another one. -/
theorem sends_run (is : List (In α)) : A.Sends (A.machine.run is).state (A.given is) := by
  induction is using List.reverseRecOn with
  | nil => exact A.sends_reset
  | append_singleton is i ih =>
    rw [run_concat, given_concat]
    exact ih.next _ _

theorem grant_lt (hn : 0 < n) (is : List (In α)) : A.grant (A.machine.run is).state < n := by
  induction is using List.reverseRecOn with
  | nil => exact A.grant_reset.trans_lt hn
  | append_singleton is i ih =>
    rw [run_concat]
    exact (A.grant_step _ _ _).trans_lt (roundRobin_lt ih)

/-! ## Waiting -/

/-- The packets that have been given as a whole. -/
def ended (A : Arbiter α last n) (is : List (In α)) : ℕ := (frames (last ∘ Prod.snd) (A.given is)).1.length

/-- A cycle in which a master waits: the grant does not pass it, and goes on with the end of a packet. -/
theorem ended_concat {is : List (In α)} {i : In α} {j : ℕ} (hj : j < n) (hoffered : (A.machine.run is).offered i j ≠ none)
    (htakes : (A.machine.run is).takes i j = none) :
    A.ended (is ++ [i]) + ahead n (A.grant (A.machine.run (is ++ [i])).state) j ≤
      A.ended is + ahead n (A.grant (A.machine.run is).state) j := by
  have hlt := grant_lt (A := A) (Nat.zero_lt_of_lt hj) is
  unfold ended
  rw [given_concat, run_concat]
  generalize A.machine.run is = s at *
  have hgives : s.gives i = if i.ready then (s.offered i (A.grant s.state)).map (A.grant s.state, ·) else none := rfl
  obtain ⟨x, hx⟩ := Option.ne_none_iff_exists'.1 hoffered
  have hwaits : ¬ (A.grant s.state = j ∧ i.ready = true) := by
    intro h
    have hsome : s.takes i j = s.offered i j := if_pos h
    rw [hsome, hx] at htakes
    cases htakes
  -- the master requests the grant
  have hj' : A.ongoing (s.next i).state j = true := by
    refine (A.ongoing_step _ _ _ _).trans ?_
    rw [hx, Option.isSome_some, Bool.true_or, Bool.true_and]
    cases hr : i.ready with
    | false => simp
    | true =>
      have hne : (j == A.grant s.state) = false := beq_false_of_ne fun h => hwaits ⟨h.symm, hr⟩
      rw [hne]
      simp
  have hround := roundRobin_ahead hlt hj hj'
  have hgrant : A.grant (s.next i).state = roundRobin n (A.grant s.state) (A.ongoing (s.next i).state) := A.grant_step _ _ _
  rw [← hgrant] at hround
  have hkept : (frames (last ∘ Prod.snd) (A.given is ++ (s.gives i).toList)).1.length ≤
      (frames (last ∘ Prod.snd) (A.given is)).1.length + if A.ongoing (s.next i).state (A.grant s.state) then 0 else 1 := by
    cases hg : s.gives i with
    | none =>
      rw [Option.toList_none, List.append_nil]
      exact Nat.le_add_right _ _
    | some y =>
      rw [Option.toList_some, frames_concat, frameStep]
      split_ifs with hl hon
      · -- the last beat of a packet leaves its master with nothing that goes on
        rw [hgives] at hg
        split_ifs at hg with hr
        obtain ⟨z, hz, rfl⟩ := Option.map_eq_some_iff.1 hg
        have hlast : last z = true := hl
        have hoff : A.ongoing (s.next i).state (A.grant s.state) = false := by
          refine (A.ongoing_step _ _ _ _).trans ?_
          rw [hz, hr, Option.any_some, hlast, beq_self_eq_true]
          simp
        rw [hoff] at hon
        cases hon
      · rw [List.length_append, List.length_singleton]
      · exact Nat.le_add_right _ _
      · exact Nat.le_add_right _ _
  omega

/-- While a beat of one of `n` masters waits, at most `n - 1` packets end. -/
theorem ended_le {is js : List (In α)} {j : ℕ} (hj : j < n) (hheld : (A.machine.run is).held j ≠ none)
    (hwaits : A.taken j (is ++ js) = A.taken j is) : A.ended (is ++ js) ≤ A.ended is + (n - 1) := by
  have h : (A.machine.run (is ++ js)).held j ≠ none ∧ A.ended (is ++ js) + ahead n (A.grant (A.machine.run (is ++ js)).state) j ≤
      A.ended is + ahead n (A.grant (A.machine.run is).state) j := by
    -- induction on the run: each frame that ends brings the grant nearer
    induction js using List.reverseRecOn with
    | nil => rw [List.append_nil]; exact ⟨hheld, le_rfl⟩
    | append_singleton js i ih =>
      rw [← List.append_assoc, taken_concat] at hwaits
      obtain ⟨ks, hks⟩ : A.taken j is <+: A.taken j (is ++ js) := by
        unfold taken
        rw [Machine.log_append]
        exact List.prefix_append _ _
      rw [← hks, List.append_assoc] at hwaits
      obtain ⟨hks', htakes⟩ := List.append_eq_nil_iff.1 (List.append_right_eq_self.1 hwaits)
      rw [hks', List.append_nil] at hks
      obtain ⟨hold, hle⟩ := ih hks.symm
      obtain ⟨x, hx⟩ := Option.ne_none_iff_exists'.1 hold
      have hoffered : (A.machine.run (is ++ js)).offered i j = some x := by
        unfold Run.offered
        rw [hx]
        rfl
      have htakes' : (A.machine.run (is ++ js)).takes i j = none := by
        cases ht : (A.machine.run (is ++ js)).takes i j with
        | none => rfl
        | some y => rw [ht] at htakes; cases htakes
      have hstep := ended_concat hj (by rw [hoffered]; exact Option.some_ne_none x) htakes'
      rw [← List.append_assoc]
      refine ⟨?_, hstep.trans hle⟩
      rw [run_concat]
      show (if A.grant _ = j ∧ i.ready = true then none else (A.machine.run (is ++ js)).offered i j) ≠ none
      rw [if_neg, hoffered]
      · exact Option.some_ne_none x
      · intro hc
        have hsome : (A.machine.run (is ++ js)).takes i j = (A.machine.run (is ++ js)).offered i j := if_pos hc
        rw [hsome, hoffered] at htakes'
        cases htakes'
  have hlt := ahead_lt (g := A.grant (A.machine.run is).state) hj
  have := h.2
  omega

end Arbiter

end LiteEth.Rtl
