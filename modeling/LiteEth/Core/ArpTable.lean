/-
`core/arp.py`: the ARP table. It answers the ARP requests of other hosts, sends its own and
keeps one IP/MAC couple with an expiry. A request for an address is retried on a timer until a
reply is cached or `max_requests` ARP requests were sent.
-/
import LiteEth.Common
import LiteEth.Rtl.Machine
import LiteEth.Rtl.WaitTimer

namespace LiteEth.Core.Arp

open LiteEth.Rtl

/-- `_arp_table_layout`. -/
structure TableRecord where
  reply : Bool
  request : Bool
  ipAddress : BitVec 32
  macAddress : BitVec 48
  deriving DecidableEq

/-- The record of an endpoint that nothing drives. -/
def TableRecord.zero : TableRecord := { reply := false, request := false, ipAddress := 0, macAddress := 0 }

namespace Table

/-- The constructor arguments of the table. -/
structure Params where
  clkFreq : Nat
  maxRequests : Nat

/-- The states of the table's FSM. -/
inductive Fsm
  | idle
  | sendReply
  | updateTable
  | checkTable
  | sendRequest
  | presentResponse
  deriving DecidableEq, Repr

/-- The inputs of one cycle: `sink` (from the receiver), `source.ready` (of the transmitter), and
the requester's side of `request` and `response`. -/
structure In where
  sinkValid : Bool
  sink : TableRecord
  sourceReady : Bool
  requestValid : Bool
  requestIp : BitVec 32
  responseReady : Bool

variable (p : Params) (rt : WaitTimer (p.clkFreq / 10)) (ct : WaitTimer (p.clkFreq * 10))

/-- The registers of the table: the FSM, the pending request with its timer and counter, and the cache with its timer. -/
structure State where
  fsm : Fsm
  requestPending : Bool
  requestIpAddress : BitVec 32
  requestTimer : rt.State
  requestCounter : Nat
  cachedValid : Bool
  cachedIpAddress : BitVec 32
  cachedMacAddress : BitVec 48
  cachedTimer : ct.State

/-- The registers after reset. -/
def State.init : State p rt ct :=
  { fsm := .idle, requestPending := false, requestIpAddress := 0, requestTimer := rt.reset,
    requestCounter := 0, cachedValid := false, cachedIpAddress := 0, cachedMacAddress := 0,
    cachedTimer := ct.reset }

/-- What the table drives in one cycle: the next state of the FSM, `request.ready` and the set,
clear, update and enable strobes of its registers. -/
structure Drive where
  fsm : Fsm
  requestReady : Bool
  pendingClr : Bool
  pendingSet : Bool
  ipReset : Bool
  ipUpdate : Bool
  counterReset : Bool
  counterCe : Bool
  update : Bool

variable {p rt ct}

/-- `request_counter == max_requests - 1`. -/
def State.saturated (s : State p rt ct) : Bool := s.requestCounter == p.maxRequests - 1

/-- What is driven outside the FSM: a saturated counter clears the pending flag and itself. -/
def State.hold (s : State p rt ct) : Drive :=
  { fsm := s.fsm, requestReady := false, pendingClr := s.saturated, pendingSet := false, ipReset := false,
    ipUpdate := false, counterReset := s.saturated, counterCe := false, update := false }

/-- `fsm.act("IDLE", …)`. -/
def State.driveIdle (s : State p rt ct) (i : In) : Drive :=
  if i.sinkValid && i.sink.request then { s.hold with fsm := .sendReply }
  else if i.sinkValid && i.sink.reply && s.requestPending then { s.hold with fsm := .updateTable }
  else if s.saturated then { s.hold with fsm := .presentResponse }
  else if i.requestValid || (s.requestPending && rt.done s.requestTimer) then { s.hold with fsm := .checkTable }
  else s.hold

/-- `fsm.act("CHECK_TABLE", …)`. -/
def State.driveCheck (s : State p rt ct) (i : In) : Drive :=
  if s.cachedValid then
    if s.requestIpAddress = s.cachedIpAddress then
      { s.hold with ipReset := true, fsm := .presentResponse }
    else if i.requestIp = s.cachedIpAddress then
      { s.hold with requestReady := i.requestValid, fsm := .presentResponse }
    else { s.hold with ipUpdate := i.requestValid, fsm := .sendRequest }
  else { s.hold with ipUpdate := i.requestValid, fsm := .sendRequest }

/-- What the FSM drives in a state. -/
def State.drive (s : State p rt ct) (i : In) : Drive :=
  match s.fsm with
  | .idle => s.driveIdle i
  | .sendReply => if i.sourceReady then { s.hold with fsm := .idle } else s.hold
  | .updateTable => { s.hold with pendingClr := true, update := true, fsm := .checkTable }
  | .checkTable => s.driveCheck i
  | .sendRequest =>
    -- the FSM's assignment to the counter's reset comes after the one for a saturated counter
    if i.sourceReady then
      { s.hold with
        counterReset := i.requestValid, counterCe := true, pendingSet := true, requestReady := true, fsm := .idle }
    else s.hold
  | .presentResponse => if i.responseReady then { s.hold with fsm := .idle } else s.hold

/-- `source.valid`. -/
def State.sourceValid (s : State p rt ct) : Bool := s.fsm == .sendReply || s.fsm == .sendRequest

/-- The fields of `source`: those of a reply are the live fields of `sink`. -/
def State.source (s : State p rt ct) (sink : TableRecord) : TableRecord :=
  match s.fsm with
  | .sendReply =>
    { TableRecord.zero with reply := true, ipAddress := sink.ipAddress, macAddress := sink.macAddress }
  | .sendRequest => { TableRecord.zero with request := true, ipAddress := s.requestIpAddress }
  | _ => TableRecord.zero

/-- `response.valid`. -/
def State.responseValid (s : State p rt ct) : Bool := s.fsm == .presentResponse

/-- `response.failed`. -/
def State.responseFailed (s : State p rt ct) : Bool := s.saturated

/-- `response.mac_address`. -/
def State.responseMac (s : State p rt ct) : BitVec 48 := s.cachedMacAddress

/-- The record the table takes for a reply in this cycle: one for which `IDLE` goes to
`UPDATE_TABLE`. -/
def State.accepts (s : State p rt ct) (i : In) : Bool :=
  s.fsm == .idle && i.sinkValid && !i.sink.request && i.sink.reply && s.requestPending

/-- One cycle: the registers take what the FSM drives. -/
def State.next (s : State p rt ct) (i : In) : State p rt ct :=
  let d := s.drive i
  { fsm := d.fsm
    requestPending := if d.pendingClr then false else if d.pendingSet then true else s.requestPending
    requestIpAddress := if d.ipReset then 0 else if d.ipUpdate then i.requestIp else s.requestIpAddress
    requestTimer := rt.step s.requestTimer (s.requestPending && !d.counterCe)
    requestCounter :=
      if d.counterReset then 0
      else if d.counterCe then (s.requestCounter + 1) % 2 ^ bitsFor (p.maxRequests - 1)
      else s.requestCounter
    cachedValid := if d.update then true else if ct.done s.cachedTimer then false else s.cachedValid
    cachedIpAddress := if d.update then i.sink.ipAddress else s.cachedIpAddress
    cachedMacAddress := if d.update then i.sink.macAddress else s.cachedMacAddress
    cachedTimer := ct.step s.cachedTimer (!d.update) }

section Next

variable (s : State p rt ct) (i : In)

@[simp] theorem next_fsm : (s.next i).fsm = (s.drive i).fsm := rfl

@[simp] theorem next_pending : (s.next i).requestPending =
    if (s.drive i).pendingClr then false else if (s.drive i).pendingSet then true else s.requestPending := rfl

@[simp] theorem next_requestIp : (s.next i).requestIpAddress =
    if (s.drive i).ipReset then 0 else if (s.drive i).ipUpdate then i.requestIp else s.requestIpAddress := rfl

@[simp] theorem next_counter : (s.next i).requestCounter =
    if (s.drive i).counterReset then 0
    else if (s.drive i).counterCe then (s.requestCounter + 1) % 2 ^ bitsFor (p.maxRequests - 1)
    else s.requestCounter := rfl

@[simp] theorem next_cachedValid : (s.next i).cachedValid =
    if (s.drive i).update then true else if ct.done s.cachedTimer then false else s.cachedValid := rfl

@[simp] theorem next_cachedIp : (s.next i).cachedIpAddress =
    if (s.drive i).update then i.sink.ipAddress else s.cachedIpAddress := rfl

@[simp] theorem next_cachedMac : (s.next i).cachedMacAddress =
    if (s.drive i).update then i.sink.macAddress else s.cachedMacAddress := rfl

end Next

/-- What the table may drive in one cycle, by the branch its FSM takes. -/
inductive Turn (s : State p rt ct) (i : In) : Drive → Prop
  | hear (hf : s.fsm = .idle) (hv : i.sinkValid = true) (hr : i.sink.request = true) :
    Turn s i { s.hold with fsm := .sendReply }
  | learn (hf : s.fsm = .idle) (hv : i.sinkValid = true) (hq : i.sink.request = false)
      (hr : i.sink.reply = true) (hp : s.requestPending = true) : Turn s i { s.hold with fsm := .updateTable }
  | giveUp (hf : s.fsm = .idle) (hq : (i.sinkValid && i.sink.request) = false)
      (hr : (i.sinkValid && i.sink.reply && s.requestPending) = false) (hs : s.saturated = true) :
    Turn s i { s.hold with fsm := .presentResponse }
  | look (hf : s.fsm = .idle) (hs : s.saturated = false)
      (hr : i.requestValid = true ∨ s.requestPending = true) : Turn s i { s.hold with fsm := .checkTable }
  | stay (hu : s.fsm ≠ .updateTable) (hc : s.fsm ≠ .checkTable) (hs : s.fsm = .idle → s.saturated = false) :
    Turn s i s.hold
  | replied (hf : s.fsm = .sendReply) (hr : i.sourceReady = true) : Turn s i { s.hold with fsm := .idle }
  | update (hf : s.fsm = .updateTable) :
    Turn s i { s.hold with pendingClr := true, update := true, fsm := .checkTable }
  | hitOwn (hf : s.fsm = .checkTable) (hv : s.cachedValid = true) (he : s.requestIpAddress = s.cachedIpAddress) :
    Turn s i { s.hold with ipReset := true, fsm := .presentResponse }
  | hit (hf : s.fsm = .checkTable) (hv : s.cachedValid = true) (hn : s.requestIpAddress ≠ s.cachedIpAddress)
      (he : i.requestIp = s.cachedIpAddress) :
    Turn s i { s.hold with requestReady := i.requestValid, fsm := .presentResponse }
  | miss (hf : s.fsm = .checkTable) (hn : s.cachedValid = true → s.requestIpAddress ≠ s.cachedIpAddress)
      (hi : s.cachedValid = true → i.requestIp ≠ s.cachedIpAddress) :
    Turn s i { s.hold with ipUpdate := i.requestValid, fsm := .sendRequest }
  | sent (hf : s.fsm = .sendRequest) (hr : i.sourceReady = true) :
    Turn s i { s.hold with
      counterReset := i.requestValid, counterCe := true, pendingSet := true, requestReady := true, fsm := .idle }
  | answered (hf : s.fsm = .presentResponse) (hr : i.responseReady = true) :
    Turn s i { s.hold with fsm := .idle }

/-- The FSM takes one of the branches. -/
theorem turn (s : State p rt ct) (i : In) : Turn s i (s.drive i) := by
  unfold State.drive
  -- one case for each state, and in `IDLE` for each event in the order of its tests
  cases hf : s.fsm with
  | idle =>
    unfold State.driveIdle
    dsimp only
    split_ifs with h1 h2 h3 h4
    · rw [Bool.and_eq_true] at h1
      exact .hear hf h1.1 h1.2
    · simp only [Bool.and_eq_true] at h2
      exact .learn hf h2.1.1 (by simpa [h2.1.1] using h1) h2.1.2 h2.2
    · exact .giveUp hf (by simpa using h1) (by simpa using h2) h3
    · refine .look hf (by simpa using h3) ?_
      rw [Bool.or_eq_true, Bool.and_eq_true] at h4
      exact h4.imp id And.left
    · exact .stay (by simp [hf]) (by simp [hf]) fun _ => by simpa using h3
  | sendReply =>
    dsimp only
    split_ifs with h
    · exact .replied hf h
    · exact .stay (by simp [hf]) (by simp [hf]) (by simp [hf])
  | updateTable => exact .update hf
  | checkTable =>
    unfold State.driveCheck
    dsimp only
    split_ifs with hv he hi
    · exact .hitOwn hf hv he
    · exact .hit hf hv he hi
    · exact .miss hf (fun _ => he) fun _ => hi
    · exact .miss hf (fun h => absurd h hv) fun h => absurd h hv
  | sendRequest =>
    dsimp only
    split_ifs with h
    · exact .sent hf h
    · exact .stay (by simp [hf]) (by simp [hf]) (by simp [hf])
  | presentResponse =>
    dsimp only
    split_ifs with h
    · exact .answered hf h
    · exact .stay (by simp [hf]) (by simp [hf]) (by simp [hf])

/-- A reply is accepted in the cycles in which the FSM goes to `UPDATE_TABLE`. -/
theorem accepts_eq (s : State p rt ct) (i : In) : s.accepts i = decide ((s.drive i).fsm = .updateTable) := by
  unfold State.accepts State.drive
  cases hf : s.fsm with
  | idle =>
    unfold State.driveIdle
    cases hv : i.sinkValid <;> cases hq : i.sink.request <;> cases hy : i.sink.reply <;>
      cases hp : s.requestPending <;> simp <;> split_ifs <;> simp_all [State.hold]
  | updateTable => simp
  | checkTable => unfold State.driveCheck; dsimp only; split_ifs <;> simp
  | _ => dsimp only; split_ifs <;> simp [State.hold, hf]

/-- Only `UPDATE_TABLE` writes the cache. -/
theorem drive_update (s : State p rt ct) (i : In) : (s.drive i).update = decide (s.fsm = .updateTable) := by
  have ht := turn s i
  generalize s.drive i = d at ht
  cases ht with
  | stay hu hc hs => simp [State.hold, hu]
  | _ hf => simp [State.hold, hf]

/-- The cache holds an entry for `X`. -/
def Holds (s : State p rt ct) (X : BitVec 32) : Prop := s.cachedValid = true ∧ s.cachedIpAddress = X

/-- Outside `UPDATE_TABLE` an entry can only expire. -/
theorem cached_frame {s : State p rt ct} (h : s.fsm ≠ .updateTable) (i : In) :
    ((s.next i).cachedValid = true → s.cachedValid = true) ∧
      (s.next i).cachedIpAddress = s.cachedIpAddress ∧ (s.next i).cachedMacAddress = s.cachedMacAddress := by
  rw [next_cachedValid, next_cachedIp, next_cachedMac, drive_update]
  refine ⟨fun hv => ?_, by simp [h], by simp [h]⟩
  simp only [h, decide_false, Bool.false_eq_true, if_false] at hv
  split_ifs at hv
  exact hv

theorem Holds.of_next {s : State p rt ct} {i : In} {X : BitVec 32} (h : s.fsm ≠ .updateTable)
    (hx : Holds (s.next i) X) : Holds s X := by
  obtain ⟨hv, hip, -⟩ := cached_frame h i
  exact ⟨hv hx.1, hip ▸ hx.2⟩

/-- `UPDATE_TABLE` caches the fields at the sink. -/
theorem cached_update {s : State p rt ct} (h : s.fsm = .updateTable) (i : In) :
    (s.next i).cachedValid = true ∧ (s.next i).cachedIpAddress = i.sink.ipAddress ∧
      (s.next i).cachedMacAddress = i.sink.macAddress := by
  rw [next_cachedValid, next_cachedIp, next_cachedMac, drive_update]
  simp [h]

/-! ## The retry counter -/

/-- The counter is cleared, keeps its value, or counts an ARP request that is sent. -/
theorem counter_cases (s : State p rt ct) (i : In) :
    (s.next i).requestCounter = 0 ∨
    ((s.next i).requestCounter = s.requestCounter ∧ s.saturated = false) ∨
    (s.fsm = .sendRequest ∧ (s.next i).fsm = .idle ∧ i.sourceReady = true ∧
      (s.next i).requestCounter = (s.requestCounter + 1) % 2 ^ bitsFor (p.maxRequests - 1)) := by
  have ht := turn s i
  rw [next_counter, next_fsm]
  generalize s.drive i = d at ht
  cases ht with
  | sent hf hr =>
    cases hv : i.requestValid with
    | true => simp
    | false => exact .inr (.inr ⟨hf, rfl, hr, by simp⟩)
  | _ => cases hs : s.saturated <;> simp [State.hold, hs]

/-- The retry counter stays below its limit but for the cycle of `IDLE` after a request. -/
structure Counted (s : State p rt ct) : Prop where
  le : s.requestCounter ≤ p.maxRequests - 1
  sat : s.saturated = true → s.fsm = .idle

theorem saturated_iff (s : State p rt ct) : s.saturated = true ↔ s.requestCounter = p.maxRequests - 1 := by
  rw [State.saturated, beq_iff_eq]

theorem not_saturated_iff (s : State p rt ct) : s.saturated = false ↔ s.requestCounter ≠ p.maxRequests - 1 := by
  rw [← Bool.not_eq_true, saturated_iff]

theorem counted_init : Counted (State.init p rt ct) := ⟨Nat.zero_le _, fun _ => rfl⟩

theorem counted_next (hm : 1 < p.maxRequests) {s : State p rt ct} (h : Counted s) (i : In) :
    Counted (s.next i) := by
  rcases counter_cases s i with hc | ⟨hc, hs⟩ | ⟨hf, hf', -, hc⟩
  · refine ⟨by omega, fun hsat => ?_⟩
    rw [saturated_iff] at hsat
    omega
  · refine ⟨by rw [hc]; exact h.le, fun hsat => ?_⟩
    rw [saturated_iff, hc] at hsat
    exact absurd hsat ((not_saturated_iff s).1 hs)
  · -- a request is sent from outside `IDLE`, so that the counter has not reached its limit
    have hlt : s.requestCounter < p.maxRequests - 1 := by
      refine lt_of_le_of_ne h.le fun heq => ?_
      have := h.sat ((saturated_iff s).2 heq)
      rw [hf] at this
      cases this
    have hw := lt_two_pow_bitsFor (p.maxRequests - 1)
    rw [Nat.mod_eq_of_lt (by omega)] at hc
    exact ⟨by omega, fun _ => hf'⟩

/-- Only sending a request saturates the counter. -/
theorem not_saturated_next (hm : 1 < p.maxRequests) {s : State p rt ct} (h : s.saturated = false) {i : In}
    (hf : s.fsm = .sendRequest → i.sourceReady = false) : (s.next i).saturated = false := by
  rw [not_saturated_iff] at h ⊢
  rcases counter_cases s i with hc | ⟨hc, -⟩ | ⟨hf', -, hr, -⟩
  · omega
  · rwa [hc]
  · rw [hf hf'] at hr
    cases hr

/-- With `max_requests = 1` the counter is saturated at zero, and the table never looks for an
entry. -/
structure Spent (s : State p rt ct) : Prop where
  sat : s.saturated = true
  pending : s.requestPending = false
  fsm : s.fsm = .idle ∨ s.fsm = .sendReply ∨ s.fsm = .presentResponse

theorem spent_init (hm : p.maxRequests ≤ 1) : Spent (State.init p rt ct) :=
  ⟨(saturated_iff _).2 (by show 0 = _; omega), rfl, .inl rfl⟩

theorem spent_next (hm : p.maxRequests ≤ 1) {s : State p rt ct} (h : Spent s) (i : In) : Spent (s.next i) := by
  obtain ⟨hs, hp, hf⟩ := h
  have ht := turn s i
  rw [saturated_iff] at hs
  generalize hd : s.drive i = d at ht
  have hsat : s.saturated = true := (saturated_iff s).2 hs
  refine ⟨(saturated_iff _).2 ?_, ?_, ?_⟩
  · rw [next_counter, hd]
    cases ht <;> simp_all [State.hold]
  · rw [next_pending, hd]
    cases ht <;> simp_all [State.hold]
  · rw [next_fsm, hd]
    cases ht <;> simp_all [State.hold]

end Table

end LiteEth.Core.Arp
