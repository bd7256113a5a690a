/-
The ARP table serving a requester such as `LiteEthIPTX`: the requester asks for one address at a
time, keeps `request.valid` until the table accepts the request and takes one response for it. A
request can get no answer, and an answer can be a stale entry of the cache: both come from the
cycle in which the retry counter is saturated, which clears the counter and the pending flag
whatever the FSM does with that cycle.
-/
import LiteEth.Core.ArpTable
import Mathlib.Tactic

namespace LiteEth.Core.Arp

open LiteEth.Rtl Table

/-! ## The requester -/

/-- The requester: `LiteEthIPTX` in `SEND_MAC_ADDRESS_REQUEST`, in `WAIT_MAC_ADDRESS_RESPONSE`, or
in any other state. -/
inductive Phase
  | idle
  | requesting (ip : BitVec 32)
  | waiting (ip : BitVec 32)
  deriving DecidableEq

/-- The address whose request is not answered yet. -/
def Phase.outstanding : Phase → Option (BitVec 32)
  | .idle => none
  | .requesting ip => some ip
  | .waiting ip => some ip

namespace Requester

/-- The inputs of one cycle: the table's `sink`, `source.ready`, whether an idle requester makes a
request and for which address, and whether a waiting one is ready for the response. -/
structure In where
  sinkValid : Bool
  sink : TableRecord
  sourceReady : Bool
  start : Bool
  ip : BitVec 32
  responseReady : Bool

variable (p : Table.Params) (rt : WaitTimer (p.clkFreq / 10)) (ct : WaitTimer (p.clkFreq * 10))

/-- The table, its requester and what an observer has seen: the replies accepted so far, the ARP
requests sent for the request in hand, whether a reply to it was accepted, and the record that was
valid at the sink in the previous cycle. -/
structure State where
  table : Table.State p rt ct
  phase : Phase
  accepted : List (BitVec 32 × BitVec 48)
  sent : Nat
  heard : Bool
  held : Option TableRecord

variable {p rt ct}

/-- The table's inputs: `request.ip_address` is kept while the request is outstanding. -/
def State.tableIn (s : State p rt ct) (i : In) : Table.In :=
  { sinkValid := i.sinkValid, sink := i.sink, sourceReady := i.sourceReady
    requestValid := match s.phase with
      | .requesting _ => true
      | _ => false
    requestIp := s.phase.outstanding.getD i.ip
    responseReady := match s.phase with
      | .waiting _ => i.responseReady
      | _ => false }

/-- The next phase of the requester, given `request.ready`. -/
def State.phaseNext (s : State p rt ct) (i : In) (ready : Bool) : Phase :=
  match s.phase with
  | .idle => if i.start then .requesting i.ip else .idle
  | .requesting ip => if ready then .waiting ip else .requesting ip
  | .waiting ip => if s.table.responseValid && i.responseReady then .idle else .waiting ip

/-- One cycle of the table, with what has been observed of it. -/
def State.next (s : State p rt ct) (i : In) : State p rt ct :=
  let t := s.tableIn i
  { table := s.table.next t
    phase := s.phaseNext i (s.table.drive t).requestReady
    accepted :=
      if s.table.accepts t then s.accepted ++ [(i.sink.ipAddress, i.sink.macAddress)] else s.accepted
    sent :=
      if s.phase = .idle then 0
      else if s.table.fsm = .sendRequest ∧ i.sourceReady then s.sent + 1 else s.sent
    heard :=
      if s.phase = .idle then false
      else s.heard || (s.table.accepts t && s.phase.outstanding == some i.sink.ipAddress)
    held := if i.sinkValid then some i.sink else none }

variable (p rt ct) in
/-- The table and its requester as a clocked machine. -/
def system : Machine In (State p rt ct) where
  reset :=
    { table := .init p rt ct, phase := .idle, accepted := [], sent := 0, heard := false, held := none }
  step := State.next

section Next

variable (s : State p rt ct) (i : In)

theorem next_table : (s.next i).table = s.table.next (s.tableIn i) := rfl

theorem next_phase : (s.next i).phase = s.phaseNext i (s.table.drive (s.tableIn i)).requestReady := rfl

@[simp] theorem tableIn_sinkValid : (s.tableIn i).sinkValid = i.sinkValid := rfl

@[simp] theorem tableIn_sink : (s.tableIn i).sink = i.sink := rfl

@[simp] theorem tableIn_sourceReady : (s.tableIn i).sourceReady = i.sourceReady := rfl

end Next

/-- A request that is waited for was accepted in this cycle or before. -/
theorem phase_next_waiting {s : State p rt ct} {i : In} {X : BitVec 32} (h : (s.next i).phase = .waiting X) :
    (s.phase = .requesting X ∧ (s.table.drive (s.tableIn i)).requestReady = true) ∨
    (s.phase = .waiting X ∧ (s.table.responseValid && i.responseReady) = false) := by
  rw [next_phase, State.phaseNext] at h
  cases hp : s.phase with
  | idle => rw [hp] at h; dsimp only at h; split_ifs at h
  | requesting Y =>
    rw [hp] at h
    dsimp only at h
    split_ifs at h with hr
    cases h
    exact .inl ⟨rfl, hr⟩
  | waiting Y =>
    rw [hp] at h
    dsimp only at h
    split_ifs at h with hr
    cases h
    exact .inr ⟨rfl, by simpa using hr⟩

/-- A response is taken only when it is presented. -/
theorem phase_stays_waiting {s : State p rt ct} {X : BitVec 32} (h : s.phase = .waiting X)
    (hf : s.table.fsm ≠ .presentResponse) (i : In) : (s.next i).phase = .waiting X := by
  have hv : s.table.responseValid = false := by simp [Table.State.responseValid, hf]
  rw [next_phase, State.phaseNext, h]
  simp [hv]

/-- What the table sees of a requester that waits for its response. -/
theorem tableIn_waiting {s : State p rt ct} {X : BitVec 32} (h : s.phase = .waiting X) (i : In) :
    (s.tableIn i).requestValid = false ∧ (s.tableIn i).requestIp = X ∧
      (s.tableIn i).responseReady = i.responseReady := by
  simp [State.tableIn, h, Phase.outstanding]

/-- What the table sees of a requester whose request is not accepted yet. -/
theorem tableIn_requesting {s : State p rt ct} {X : BitVec 32} (h : s.phase = .requesting X) (i : In) :
    (s.tableIn i).requestValid = true ∧ (s.tableIn i).requestIp = X ∧ (s.tableIn i).responseReady = false := by
  simp [State.tableIn, h, Phase.outstanding]

/-- What the table sees of a requester without a request. -/
theorem tableIn_idle {s : State p rt ct} (h : s.phase = .idle) (i : In) :
    (s.tableIn i).requestValid = false ∧ (s.tableIn i).responseReady = false := by
  simp [State.tableIn, h]

/-! ## No accepted request is forgotten -/

/-- The table does not rest in `IDLE`, with nothing that would make it answer, while the response to
an accepted request is due. -/
def Remembers (s : State p rt ct) : Prop :=
  ∀ X, s.phase = .waiting X →
    ¬ (s.table.fsm = .idle ∧ s.table.requestPending = false ∧ s.table.requestCounter ≠ p.maxRequests - 1)

/-- An ARP request of another host is presented in the cycle of `IDLE` in which the retry counter is
saturated. -/
def HearsAtLimit (s : State p rt ct) (i : In) : Prop :=
  1 < p.maxRequests ∧ s.table.fsm = .idle ∧ s.table.saturated = true ∧ i.sinkValid = true ∧
    i.sink.request = true

instance (s : State p rt ct) (i : In) : Decidable (HearsAtLimit s i) := inferInstanceAs (Decidable (_ ∧ _))

/-- While a response is due, `IDLE` has the pending flag or the saturated counter to act on, and
`SEND_REPLY` returns to `IDLE` with the pending flag. -/
structure Recalls (s : State p rt ct) : Prop where
  counted : Counted s.table
  idle : ∀ X, s.phase = .waiting X → s.table.fsm = .idle →
    s.table.requestPending = true ∨ s.table.saturated = true
  reply : ∀ X, s.phase = .waiting X → s.table.fsm = .sendReply → s.table.requestPending = true

theorem Recalls.remembers {s : State p rt ct} (h : Recalls s) : Remembers s := by
  rintro X hX ⟨hf, hp, hn⟩
  rcases h.idle X hX hf with hp' | hs
  · rw [hp] at hp'; cases hp'
  · exact hn ((saturated_iff _).1 hs)

theorem recalls_next (hm : 1 < p.maxRequests) (s : State p rt ct) (i : In) (h : Recalls s)
    (hc : ¬ HearsAtLimit s i) : Recalls (s.next i) := by
  obtain ⟨hcnt, hidle, hreply⟩ := h
  have ht := turn s.table (s.tableIn i)
  have hcnt' := counted_next hm hcnt (s.tableIn i)
  -- outside `IDLE` nothing clears the pending flag behind the FSM's back
  have hclr : s.table.fsm ≠ .idle → s.table.saturated = false := by
    intro hf
    cases hs : s.table.saturated with
    | false => rfl
    | true => exact absurd (hcnt.sat hs) hf
  refine ⟨hcnt', ?_, ?_⟩
  · intro X hX hf
    rw [next_table, next_fsm] at hf
    rw [next_table, next_pending]
    generalize hd : s.table.drive (s.tableIn i) = d at ht hf
    have hph := phase_next_waiting hX
    rw [hd] at hph
    cases ht with
    | stay hu hck hs =>
      obtain ⟨-, hr⟩ | ⟨hw, -⟩ := hph
      · cases hr
      · have hsat := hs hf
        refine .inl ?_
        simpa [State.hold, hsat] using hidle X hw hf
    | replied hf' hr =>
      obtain ⟨-, hr⟩ | ⟨hw, -⟩ := hph
      · cases hr
      · refine .inl ?_
        simpa [State.hold, hclr (by simp [hf'])] using hreply X hw hf'
    | sent hf' hr => exact .inl (by simp [State.hold, hclr (by simp [hf'])])
    | answered hf' hr =>
      -- the response is taken in this cycle
      obtain ⟨-, hr'⟩ | ⟨hw, hv⟩ := hph
      · cases hr'
      · rw [(tableIn_waiting hw i).2.2] at hr
        rw [Table.State.responseValid, hf', hr] at hv
        cases hv
    | _ => cases hf
  · intro X hX hf
    rw [next_table, next_fsm] at hf
    rw [next_table, next_pending]
    generalize hd : s.table.drive (s.tableIn i) = d at ht hf
    have hph := phase_next_waiting hX
    rw [hd] at hph
    cases ht with
    | stay hu hck hs =>
      obtain ⟨-, hr⟩ | ⟨hw, -⟩ := hph
      · cases hr
      · have hf' : s.table.fsm = .sendReply := hf
        simpa [State.hold, hclr (by simp [hf'])] using hreply X hw hf'
    | hear hf' hv hr =>
      obtain ⟨-, hr'⟩ | ⟨hw, -⟩ := hph
      · cases hr'
      · have hsat : s.table.saturated = false := by
          rw [← Bool.not_eq_true]
          exact fun hs => hc ⟨hm, hf', hs, hv, hr⟩
        simpa [State.hold, hsat] using hidle X hw hf'
    | _ => cases hf

/-- With `max_requests = 1` the counter is always saturated. -/
theorem run_spent (hm : p.maxRequests ≤ 1) (is : List In) : Spent ((system p rt ct).run is).table :=
  (system p rt ct).runFrom_inv (P := fun s => Spent s.table) (C := fun _ _ => True)
    (fun s i h _ => spent_next hm h (s.tableIn i)) is _ (spent_init hm) (Machine.along_trivial _ _ _)

/-- In every run in which no ARP request of another host is presented in the cycle in which the
retry counter is saturated, no accepted request is forgotten. -/
theorem table_remembers_request (is : List In)
    (hc : (system p rt ct).Along (fun s i => ¬ HearsAtLimit s i) (system p rt ct).reset is) :
    Remembers ((system p rt ct).run is) := by
  by_cases hm : 1 < p.maxRequests
  · refine ((system p rt ct).runFrom_inv (fun s i => recalls_next hm s i) is _ ?_ hc).remembers
    exact ⟨counted_init, fun _ hX => (by cases hX), fun _ hX => (by cases hX)⟩
  · rintro X - ⟨-, -, hn⟩
    exact hn ((saturated_iff _).1 (run_spent (by omega) is).sat)

/-- The condition is exact: an ARP request presented in that cycle makes the table forget the
request waited for, as soon as its reply is sent. -/
theorem forgets_after_limit {s : State p rt ct} {i j : In} {X : BitVec 32} (hX : s.phase = .waiting X)
    (hc : HearsAtLimit s i) (hj : j.sourceReady = true) :
    ¬ Remembers ((system p rt ct).runFrom s [i, j]) := by
  obtain ⟨hm, hf, hs, hv, hr⟩ := hc
  -- the request of another host goes before the end of the wait
  have hd : s.table.drive (s.tableIn i) = { s.table.hold with fsm := .sendReply } := by
    simp [Table.State.drive, Table.State.driveIdle, hf, hv, hr]
  have hfi : (s.next i).table.fsm = .sendReply := by rw [next_table, next_fsm, hd]
  -- the saturated counter is reset in that cycle, so that the wait is forgotten
  have hci : (s.next i).table.requestCounter = 0 := by simp [next_table, hd, Table.State.hold, hs]
  have hpi : (s.next i).table.requestPending = false := by simp [next_table, hd, Table.State.hold, hs]
  have hsi : (s.next i).table.saturated = false := by rw [not_saturated_iff, hci]; omega
  have hXi : (s.next i).phase = .waiting X := phase_stays_waiting hX (by rw [hf]; decide) i
  have hdj : (s.next i).table.drive ((s.next i).tableIn j) = { (s.next i).table.hold with fsm := .idle } := by
    simp only [Table.State.drive, hfi, tableIn_sourceReady, hj, if_true]
  -- after the reply the requester still waits, and nothing of its request is left
  have hXj : ((s.next i).next j).phase = .waiting X := phase_stays_waiting hXi (by rw [hfi]; decide) j
  show ¬ Remembers ((s.next i).next j)
  intro h
  refine h X hXj ⟨?_, ?_, ?_⟩
  · rw [next_table, next_fsm, hdj]
  · rw [next_table, next_pending, hdj]
    simp only [Table.State.hold, hsi, hpi]
    rfl
  · rw [next_table, next_counter, hdj]
    simp only [Table.State.hold, hsi, hci]
    simp
    omega

/-- The table of `LiteEthARP`, clocked so slowly that a retry is due after one cycle. -/
abbrev slowTable : Machine In (State ⟨10, 8⟩ (.down 1) (.down 100)) := system ⟨10, 8⟩ (.down 1) (.down 100)

/-- A cycle without a frame, with the transmitter ready. -/
def quiet : In :=
  { sinkValid := false, sink := .zero, sourceReady := true, start := false, ip := 0, responseReady := true }

/-- A cycle in which the receiver presents a record. -/
def frame (r : TableRecord) : In := { quiet with sinkValid := true, sink := r }

/-- A cycle in which an idle requester asks for an address. -/
def ask (ip : BitVec 32) : In := { quiet with start := true, ip := ip }


theorem table_remembers_request_answered :
    Remembers (slowTable.run (ask 5 :: List.replicate 3 quiet ++ [frame ⟨true, false, 5, 7⟩, quiet])) := by
  have hc : slowTable.Along (fun s i => ¬ HearsAtLimit s i) slowTable.reset
      (ask 5 :: List.replicate 3 quiet ++ [frame ⟨true, false, 5, 7⟩, quiet]) := by decide
  exact table_remembers_request _ hc

/-- Eight ARP requests get no reply; in the cycle after the last one an ARP request of another host
comes in. -/
theorem table_forgets_request :
    ¬ Remembers (slowTable.run (ask 5 :: List.replicate 31 quiet ++ [frame ⟨false, true, 9, 7⟩, quiet])) := by
  intro h
  exact h 5 (by decide) (by decide)

end Requester

end LiteEth.Core.Arp
