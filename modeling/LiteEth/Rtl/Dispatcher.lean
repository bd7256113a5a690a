/-
Dispatchers with a one-hot selection, by what their users rely on: with several slaves the
selection at the first beat of a packet is kept for the rest of it, and a packet for which no slave
is selected is taken and given to nobody; with one slave there is no selection. `Dispatcher.oneHot`
is the dispatcher that keeps `first` and the latched selection in registers.
-/
import LiteEth.Rtl.Stream

namespace LiteEth.Rtl

/-- A dispatcher of packets to `n` slaves; its functions take `sel` and the beat at the master, if
valid. -/
structure Dispatcher (α : Type) (last : α → Bool) (n : ℕ) where
  State : Type
  reset : State
  /-- What slave `j` is offered. -/
  source : State → ℕ → Option α → ℕ → Option α
  /-- `master.ready`, given that of each slave. -/
  ready : State → ℕ → Option α → (ℕ → Bool) → Bool
  step : State → ℕ → Option α → (ℕ → Bool) → State
  /-- The selection of the packet of which a beat has been taken. -/
  latched : State → Option ℕ
  latched_reset : latched reset = none
  source_one : n = 1 → ∀ s sel b j, source s sel b j = if j = 0 then b else none
  ready_one : n = 1 → ∀ s sel b r, ready s sel b r = r 0
  source_eq : 2 ≤ n → ∀ s sel b j, source s sel b j = if j < n ∧ (latched s).getD sel = 2 ^ j then b else none
  ready_selected : 2 ≤ n → ∀ s sel b r j, j < n → (latched s).getD sel = 2 ^ j → ready s sel b r = r j
  ready_default : 2 ≤ n → ∀ s sel b r, (∀ j < n, (latched s).getD sel ≠ 2 ^ j) → ready s sel b r = true
  latched_none : 2 ≤ n → ∀ s sel r, latched (step s sel none r) = latched s
  latched_some : 2 ≤ n → ∀ s sel a r, latched (step s sel (some a) r) =
    if ready s sel (some a) r then if last a then none else some ((latched s).getD sel) else latched s

namespace Dispatcher

variable {α : Type} {last : α → Bool} {n : ℕ}

/-! ## Registers -/

/-- The registers: `Status.first` and `sel_ongoing`. -/
structure Registers where
  first : Bool
  selOngoing : ℕ

namespace Registers

/-- The selection in this cycle. -/
def sel (s : Registers) (sel : ℕ) : ℕ := if s.first then sel else s.selOngoing

/-- `master.ready`: of the slave that is selected, and of nobody otherwise. -/
def ready (n : ℕ) (s : Registers) (sel : ℕ) (r : ℕ → Bool) : Bool :=
  if n = 1 then r 0 else ((List.range n).find? fun j => s.sel sel = 2 ^ j).elim true r

/-- `taken` is the `last` of the beat that is taken. -/
def next (s : Registers) (sel : ℕ) (taken : Option Bool) : Registers where
  first := taken.getD s.first
  selOngoing := s.sel sel

end Registers

theorem ready_of_selected {s : Registers} {sel : ℕ} (hn : 2 ≤ n) (r : ℕ → Bool) {j : ℕ} (hj : j < n)
    (h : s.sel sel = 2 ^ j) : s.ready n sel r = r j := by
  have hfind : (List.range n).find? (fun j => s.sel sel = 2 ^ j) = some j := by
    rw [List.find?_range_eq_some]
    refine ⟨by simpa using h, List.mem_range.2 hj, fun k hk => ?_⟩
    simpa [h] using fun he => hk.ne (Nat.pow_right_injective le_rfl he).symm
  unfold Registers.ready
  rw [if_neg (by omega), hfind]
  rfl

theorem ready_of_default {s : Registers} {sel : ℕ} (hn : 2 ≤ n) (r : ℕ → Bool)
    (h : ∀ j < n, s.sel sel ≠ 2 ^ j) : s.ready n sel r = true := by
  have hfind : (List.range n).find? (fun j => s.sel sel = 2 ^ j) = none := by
    rw [List.find?_eq_none]
    exact fun j hj => by simpa using h j (List.mem_range.1 hj)
  unfold Registers.ready
  rw [if_neg (by omega), hfind]
  rfl

/-- The dispatcher with its registers. -/
def oneHot (last : α → Bool) (n : ℕ) : Dispatcher α last n where
  State := Registers
  reset := { first := true, selOngoing := 0 }
  source s sel b j := if n = 1 then if j = 0 then b else none else if j < n ∧ s.sel sel = 2 ^ j then b else none
  ready s sel _ r := s.ready n sel r
  step s sel b r := s.next sel (if s.ready n sel r then b.map last else none)
  latched s := if s.first then none else some s.selOngoing
  latched_reset := rfl
  source_one hn s sel b j := if_pos hn
  ready_one hn s sel b r := if_pos hn
  source_eq hn s sel b j := by
    rw [if_neg (by omega), Registers.sel]
    cases s.first <;> rfl
  ready_selected hn s sel b r j hj h := ready_of_selected hn r hj (by rw [← h, Registers.sel]; cases s.first <;> rfl)
  ready_default hn s sel b r h :=
    ready_of_default hn r fun j hj => by rw [Registers.sel]; have := h j hj; cases hf : s.first <;> simp_all
  latched_none hn s sel r := by
    obtain ⟨first, selOngoing⟩ := s
    rw [Option.map_none, ite_self]
    cases first <;> rfl
  latched_some hn s sel a r := by
    obtain ⟨first, selOngoing⟩ := s
    cases Registers.ready n ⟨first, selOngoing⟩ sel r <;> cases first <;> cases hl : last a <;>
      simp [Registers.next, Registers.sel, hl]

/-! ## Runs -/

/-- The inputs of one cycle: the beat the producer offers unless it still holds one, `ready` of each
slave, and `sel` when no beat is offered. -/
structure In (α : Type) where
  offer : Option α
  ready : ℕ → Bool
  idle : ℕ

/-- The registers, with the beat that has been offered and not taken. -/
structure Run (D : Dispatcher α last n) where
  state : D.State
  held : Option α

namespace Run

variable {D : Dispatcher α last n} (sel : α → ℕ) (s : Run D) (i : In α)

/-- The beat at the master. -/
def offered : Option α := s.held.or i.offer

/-- The beat that is offered for the first time. -/
def arrives : Option α := if s.held.isSome then none else i.offer

/-- `sel` in this cycle. -/
def select : ℕ := ((s.offered i).map sel).getD i.idle

/-- `master.ready`. -/
def ready : Bool := D.ready s.state (s.select sel i) (s.offered i) i.ready

/-- The beat that is taken. -/
def takes : Option α := if s.ready sel i then s.offered i else none

/-- The beat that slave `j` takes. -/
def gives (j : ℕ) : Option α := if i.ready j then D.source s.state (s.select sel i) (s.offered i) j else none

/-- One cycle: a beat that is taken is offered no more. -/
def next : Run D where
  state := D.step s.state (s.select sel i) (s.offered i) i.ready
  held := if s.ready sel i then none else s.offered i

end Run

section Logs

variable (D : Dispatcher α last n) (sel : α → ℕ)

/-- The dispatcher, fed by a producer that keeps its offers. -/
def machine : Machine (In α) (Run D) where
  reset := { state := D.reset, held := none }
  step := Run.next sel

/-- The beats that have been offered. -/
def arrivals (is : List (In α)) : List α := (D.machine sel).log (fun s i => (s.arrives i).toList) (D.machine sel).reset is

/-- The beats that have been taken. -/
def taken (is : List (In α)) : List α := (D.machine sel).log (fun s i => (s.takes sel i).toList) (D.machine sel).reset is

/-- The beats that slave `j` has taken. -/
def given (j : ℕ) (is : List (In α)) : List α :=
  (D.machine sel).log (fun s i => (s.gives sel i j).toList) (D.machine sel).reset is

end Logs

section Concat

variable (D : Dispatcher α last n) (sel : α → ℕ) (is : List (In α)) (i : In α)

theorem run_concat : (D.machine sel).run (is ++ [i]) = ((D.machine sel).run is).next sel i :=
  (D.machine sel).runFrom_concat _ is i

theorem taken_concat : D.taken sel (is ++ [i]) = D.taken sel is ++ (((D.machine sel).run is).takes sel i).toList := by
  unfold taken
  rw [Machine.log_concat]; rfl

theorem given_concat (j : ℕ) :
    D.given sel j (is ++ [i]) = D.given sel j is ++ (((D.machine sel).run is).gives sel i j).toList := by
  unfold given
  rw [Machine.log_concat]; rfl

/-- What has been offered is taken, or still held. -/
theorem arrivals_eq : D.arrivals sel is = D.taken sel is ++ ((D.machine sel).run is).held.toList := by
  have h := (D.machine sel).runFrom_logs_inv (R := fun s l m => l = m ++ s.held.toList)
    (f := fun s i => (s.arrives i).toList) (g := fun s i => (s.takes sel i).toList)
    (fun s i l m hl => by
      have hstep : s.held.toList ++ (s.arrives i).toList =
          (s.takes sel i).toList ++ (s.next sel i).held.toList := by
        unfold Run.takes Run.next Run.arrives
        cases hr : s.ready sel i <;> unfold Run.offered <;> rcases s.held with _ | a <;> simp
      rw [hl, List.append_assoc, hstep, List.append_assoc]
      rfl)
    is (D.machine sel).reset [] [] rfl
  rw [List.nil_append, List.nil_append] at h
  exact h

/-- What has been offered was taken before this cycle, or is offered in it. -/
theorem arrivals_concat :
    D.arrivals sel (is ++ [i]) = D.taken sel is ++ (((D.machine sel).run is).offered i).toList := by
  rw [arrivals_eq, taken_concat, run_concat, List.append_assoc]
  unfold Run.takes Run.next
  cases ((D.machine sel).run is).ready sel i <;> simp

end Concat

/-! ## Packets -/

/-- The packets whose first beat satisfies `q`. -/
def routed (q : α → Bool) (fp : List (List α) × List α) : List α :=
  (fp.1.filter (·.head?.any q)).flatten ++ if fp.2.head?.any q then fp.2 else []

/-- The next beat belongs to these packets if the first beat of its packet satisfies `q`. -/
theorem routed_frameStep (q : α → Bool) (fp : List (List α) × List α) (b : α) :
    routed q (frameStep last fp b) = routed q fp ++ if (fp.2 ++ [b]).head?.any q then [b] else [] := by
  obtain ⟨fs, m⟩ := fp
  unfold routed frameStep
  cases hl : last b with
  | true =>
    rw [if_pos rfl, List.filter_append, List.flatten_append]
    cases m with
    | nil => cases hq : q b <;> simp [hq]
    | cons a m => cases hq : q a <;> simp [hq]
  | false =>
    rw [if_neg Bool.false_ne_true]
    cases m with
    | nil => cases hq : q b <;> simp [hq]
    | cons a m => cases hq : q a <;> simp [hq]

section Several

variable {D : Dispatcher α last n} {sel : α → ℕ}

/-- With several slaves, the selection that is latched is that of the first beat of the packet. -/
theorem latched_run (hn : 2 ≤ n) (is : List (In α)) :
    D.latched ((D.machine sel).run is).state = (frames last (D.taken sel is)).2.head?.map sel := by
  induction is using List.reverseRecOn with
  | nil => exact D.latched_reset
  | append_singleton is i ih =>
    have htakes : ((D.machine sel).run is).takes sel i =
        if ((D.machine sel).run is).ready sel i then ((D.machine sel).run is).offered i else none := rfl
    rw [run_concat, taken_concat, htakes]
    show D.latched (D.step _ _ _ _) = _
    cases ho : ((D.machine sel).run is).offered i with
    | none =>
      rw [ite_self, Option.toList_none, List.append_nil, D.latched_none hn, ih]
    | some a =>
      rw [D.latched_some hn, ih]
      have hready : ((D.machine sel).run is).ready sel i =
          D.ready ((D.machine sel).run is).state (((D.machine sel).run is).select sel i) (some a) i.ready := by
        rw [Run.ready, ho]
      have hsel : ((D.machine sel).run is).select sel i = sel a := by rw [Run.select, ho]; rfl
      rw [hready, hsel]
      cases D.ready ((D.machine sel).run is).state (sel a) (some a) i.ready with
      | false => simp
      | true =>
        rw [if_pos rfl, if_pos rfl, Option.toList_some, frames_concat, frameStep]
        cases last a <;> cases (frames last (D.taken sel is)).2 <;> simp

/-- The selection in a cycle is that of the first beat of the packet. -/
theorem selected_eq (hn : 2 ≤ n) (is : List (In α)) {i : In α} {b : α}
    (hb : ((D.machine sel).run is).offered i = some b) :
    (((frames last (D.taken sel is)).2 ++ [b]).head?).map sel = some
      ((D.latched ((D.machine sel).run is).state).getD (((D.machine sel).run is).select sel i)) := by
  rw [latched_run hn, Run.select, hb]
  cases (frames last (D.taken sel is)).2 <;> simp

/-- A beat of a packet for which a slave is selected is taken when that slave is ready. -/
theorem takes_selected (hn : 2 ≤ n) (is : List (In α)) {i : In α} {b : α}
    (hb : ((D.machine sel).run is).offered i = some b) {j : ℕ} (hj : j < n)
    (h : ((frames last (D.taken sel is)).2 ++ [b]).head?.map sel = some (2 ^ j)) :
    ((D.machine sel).run is).takes sel i = if i.ready j then some b else none := by
  rw [selected_eq hn is hb] at h
  rw [Run.takes, Run.ready, D.ready_selected hn _ _ _ _ j hj (Option.some.inj h), hb]

/-- A beat of a packet for which none is selected is taken. -/
theorem takes_default (hn : 2 ≤ n) (is : List (In α)) {i : In α} {b : α}
    (hb : ((D.machine sel).run is).offered i = some b)
    (h : ∀ j < n, ((frames last (D.taken sel is)).2 ++ [b]).head?.map sel ≠ some (2 ^ j)) :
    ((D.machine sel).run is).takes sel i = some b := by
  rw [Run.takes, Run.ready, hb, D.ready_default hn, if_pos rfl]
  exact fun j hj he => h j hj (by rw [selected_eq hn is hb, he])

/-- With several slaves, each is given the packets for which it is selected. -/
theorem given_eq (hn : 2 ≤ n) {j : ℕ} (hj : j < n) (is : List (In α)) :
    D.given sel j is = routed (fun b => sel b == 2 ^ j) (frames last (D.taken sel is)) := by
  induction is using List.reverseRecOn with
  | nil => rfl
  | append_singleton is i ih =>
    rw [given_concat, taken_concat, ih, Run.gives, D.source_eq hn]
    cases ho : ((D.machine sel).run is).offered i with
    | none =>
      rw [Run.takes, ho, ite_self, ite_self, ite_self, Option.toList_none, List.append_nil, List.append_nil]
    | some b =>
      -- the packet's first beat has chosen the output of all of it
      have hsel := selected_eq hn is ho
      obtain ⟨c, hc⟩ : ∃ c, ((frames last (D.taken sel is)).2 ++ [b]).head? = some c := by
        cases (frames last (D.taken sel is)).2 <;> exact ⟨_, rfl⟩
      rw [hc, Option.map_some, Option.some.injEq] at hsel
      rw [← hsel]
      have hstep : ∀ x, x = some b ∨ x = none → routed (fun b => sel b == 2 ^ j) (frames last (D.taken sel is ++ x.toList)) =
          routed (fun b => sel b == 2 ^ j) (frames last (D.taken sel is)) ++ if sel c = 2 ^ j then x.toList else [] := by
        rintro x (rfl | rfl)
        · rw [Option.toList_some, frames_concat, routed_frameStep, hc]
          simp
        · simp
      by_cases hs : sel c = 2 ^ j
      · have hsource : (if j < n ∧ sel c = 2 ^ j then some b else none) = some b := if_pos ⟨hj, hs⟩
        rw [takes_selected hn is ho hj (by rw [hc, Option.map_some, hs]), hstep _ (by cases i.ready j <;> simp), if_pos hs,
          hsource]
      · have htakes : ((D.machine sel).run is).takes sel i = some b ∨ ((D.machine sel).run is).takes sel i = none := by
          rw [Run.takes, ho]
          cases ((D.machine sel).run is).ready sel i <;> simp
        have hsource : (if j < n ∧ sel c = 2 ^ j then some b else none) = none := if_neg fun h => hs h.2
        rw [hstep _ htakes, if_neg hs, hsource, ite_self]
        rfl

end Several

/-- One slave is given everything that is taken. -/
theorem given_one {D : Dispatcher α last n} {sel : α → ℕ} (hn : n = 1) (is : List (In α)) :
    D.given sel 0 is = D.taken sel is := by
  induction is using List.reverseRecOn with
  | nil => rfl
  | append_singleton is i ih =>
    rw [given_concat, taken_concat, ih, Run.gives, Run.takes, Run.ready, D.source_one hn, D.ready_one hn, if_pos rfl]

end Dispatcher

end LiteEth.Rtl
