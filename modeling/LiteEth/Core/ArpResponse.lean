/-
What the ARP table answers. A response that does not say `failed` should carry the MAC address of
a reply from the address asked for. The table breaks this when it gives up: the cycle that takes
`IDLE` to `PRESENT_RESPONSE` also clears the retry counter that `response.failed` is computed from.
It breaks it once more for a request that is compared through `request_ip_address` while that
register still holds another address.
-/
import LiteEth.Core.ArpRequester

namespace LiteEth.Core.Arp.Requester

open LiteEth.Rtl Table

variable {p : Table.Params} {rt : WaitTimer (p.clkFreq / 10)} {ct : WaitTimer (p.clkFreq * 10)}

/-- A response that is presented to an outstanding request and not marked as failed is for the
address asked for and carries the MAC address of a reply accepted from it, one accepted since the
request was made if `max_requests` ARP requests were sent for it. -/
def Sound (s : State p rt ct) : Prop :=
  ∀ X, s.phase.outstanding = some X → s.table.responseValid = true → s.table.responseFailed = false →
    s.table.cachedIpAddress = X ∧ (X, s.table.responseMac) ∈ s.accepted ∧
      (p.maxRequests ≤ s.sent → s.heard = true)

/-- The receiver keeps the fields of a record for the cycle after the one in which it is valid. -/
def KeepsFields (s : State p rt ct) (i : In) : Prop :=
  ∀ r, s.held = some r → i.sink.ipAddress = r.ipAddress ∧ i.sink.macAddress = r.macAddress

instance (s : State p rt ct) (i : In) : Decidable (KeepsFields s i) :=
  decidable_of_iff (∀ r ∈ s.held, i.sink.ipAddress = r.ipAddress ∧ i.sink.macAddress = r.macAddress) Iff.rfl

/-- `IDLE` acts on the saturated counter: the table gives up the request. -/
def GivesUp (s : State p rt ct) (i : In) : Prop :=
  s.table.fsm = .idle ∧ s.table.saturated = true ∧ (i.sinkValid && i.sink.request) = false ∧
    (i.sinkValid && i.sink.reply && s.table.requestPending) = false

/-- `CHECK_TABLE` finds the cached entry to be for the address in `request_ip_address` while another
one is asked for. -/
def Mistakes (s : State p rt ct) : Prop :=
  s.table.fsm = .checkTable ∧ s.table.cachedValid = true ∧
    s.table.requestIpAddress = s.table.cachedIpAddress ∧ s.phase ≠ .requesting s.table.cachedIpAddress ∧
    s.phase ≠ .waiting s.table.cachedIpAddress

instance (s : State p rt ct) (i : In) : Decidable (GivesUp s i) := inferInstanceAs (Decidable (_ ∧ _))

instance (s : State p rt ct) : Decidable (Mistakes s) := inferInstanceAs (Decidable (_ ∧ _))

/-- The steps that keep the responses sound. -/
def Clean (s : State p rt ct) (i : In) : Prop := 1 < p.maxRequests → ¬ GivesUp s i ∧ ¬ Mistakes s

instance (s : State p rt ct) (i : In) : Decidable (Clean s i) := inferInstanceAs (Decidable (_ → _))

/-! ## The invariant, by the phase of the requester -/

/-- No request: the table has nothing to do but to answer other hosts. -/
structure Unasked (s : State p rt ct) : Prop where
  fsm : s.table.fsm = .idle ∨ s.table.fsm = .sendReply
  pending : s.table.requestPending = false
  sat : s.table.saturated = false

/-- A request for `X` the table has not accepted yet. -/
structure Asking (s : State p rt ct) (X : BitVec 32) : Prop where
  pending : s.table.requestPending = false
  sat : s.table.saturated = false
  update : s.table.fsm ≠ .updateTable
  sent : s.sent = 0
  heard : s.heard = false
  send : s.table.fsm = .sendRequest → s.table.requestIpAddress = X ∧ ¬ Holds s.table X
  present : s.table.fsm = .presentResponse →
    s.table.cachedIpAddress = X ∧ (X, s.table.cachedMacAddress) ∈ s.accepted

/-- A request for `X` whose response is due. Until a reply from `X` is cached, the cache has no
entry for `X`: the table looked before it sent the first ARP request. -/
structure Awaiting (s : State p rt ct) (X : BitVec 32) : Prop where
  ip : s.table.fsm ≠ .presentResponse → s.table.requestIpAddress = X
  sent : s.table.fsm ≠ .presentResponse → s.table.requestCounter < s.sent
  fresh : s.table.fsm = .idle ∨ s.table.fsm = .sendReply ∨ s.table.fsm = .sendRequest →
    s.heard = false ∧ ¬ Holds s.table X
  update : s.table.fsm = .updateTable → ∃ r, s.held = some r ∧
    (r.ipAddress, r.macAddress) ∈ s.accepted ∧ (s.heard = true ↔ r.ipAddress = X)
  check : s.table.fsm = .checkTable →
    (s.heard = true ↔ Holds s.table X) ∧ (s.table.requestPending = true → s.heard = false)
  present : s.table.fsm = .presentResponse → s.table.requestPending = false ∧
    s.table.cachedIpAddress = X ∧ (X, s.table.cachedMacAddress) ∈ s.accepted ∧ (0 < s.sent → s.heard = true)

/-- The invariant: the counter is in its range, the cache holds an accepted pair, and what each phase knows. -/
structure Inv (s : State p rt ct) : Prop where
  counted : Counted s.table
  cached : s.table.cachedValid = true →
    (s.table.cachedIpAddress, s.table.cachedMacAddress) ∈ s.accepted
  idle : s.phase = .idle → Unasked s
  requesting : ∀ X, s.phase = .requesting X → Asking s X
  waiting : ∀ X, s.phase = .waiting X → Awaiting s X

theorem Inv.sound (hm : 1 < p.maxRequests) {s : State p rt ct} (h : Inv s) : Sound s := by
  intro X hX hv _
  have hf : s.table.fsm = .presentResponse := by simpa [Table.State.responseValid] using hv
  cases hp : s.phase with
  | idle => rw [hp] at hX; cases hX
  | requesting Y =>
    rw [hp] at hX
    cases hX
    have ha := h.requesting X hp
    refine ⟨(ha.present hf).1, (ha.present hf).2, fun hle => ?_⟩
    rw [ha.sent] at hle
    omega
  | waiting Y =>
    rw [hp] at hX
    cases hX
    obtain ⟨-, hip, hmac, hs⟩ := (h.waiting X hp).present hf
    exact ⟨hip, hmac, fun hle => hs (by omega)⟩

/-! ## What a step keeps -/

section Step

variable {s : State p rt ct} {i : In} {X : BitVec 32}

theorem next_accepted : (s.next i).accepted =
    if (s.next i).table.fsm = .updateTable then s.accepted ++ [(i.sink.ipAddress, i.sink.macAddress)]
    else s.accepted := by
  show (if s.table.accepts (s.tableIn i) then _ else _) = _
  rw [accepts_eq, next_table, next_fsm]
  simp only [decide_eq_true_eq]

theorem mem_accepted_next {e : BitVec 32 × BitVec 48} (h : e ∈ s.accepted) : e ∈ (s.next i).accepted := by
  rw [next_accepted]
  split
  · exact List.mem_append_left _ h
  · exact h

theorem next_heard (hp : s.phase.outstanding = some X) : (s.next i).heard = true ↔
    s.heard = true ∨ ((s.next i).table.fsm = .updateTable ∧ i.sink.ipAddress = X) := by
  have hne : s.phase ≠ .idle := by rintro h; rw [h] at hp; cases hp
  show (if s.phase = .idle then false else s.heard || (s.table.accepts (s.tableIn i) && _)) = true ↔ _
  rw [if_neg hne, accepts_eq, hp, next_table, next_fsm]
  simp only [Bool.or_eq_true, Bool.and_eq_true, decide_eq_true_eq, beq_iff_eq, Option.some.injEq,
    @eq_comm _ X]

theorem next_sent (hp : s.phase.outstanding = some X) : (s.next i).sent =
    if s.table.fsm = .sendRequest ∧ i.sourceReady = true then s.sent + 1 else s.sent := by
  have hne : s.phase ≠ .idle := by rintro h; rw [h] at hp; cases hp
  show (if s.phase = .idle then 0 else _) = _
  rw [if_neg hne]

/-- The retry counter counts no more ARP requests than were sent. -/
theorem counter_lt_sent (hp : s.phase.outstanding = some X) (h : s.table.requestCounter < s.sent) :
    (s.next i).table.requestCounter < (s.next i).sent := by
  rw [next_sent hp, next_table]
  rcases counter_cases s.table (s.tableIn i) with hc | ⟨hc, -⟩ | ⟨hf, -, hr, hc⟩
  · rw [hc]; split <;> omega
  · rw [hc]; split <;> omega
  · have := Nat.mod_le (s.table.requestCounter + 1) (2 ^ bitsFor (p.maxRequests - 1))
    rw [hc, if_pos ⟨hf, hr⟩]
    omega

end Step

/-! ### From one state of the FSM to the next, while the response is due -/

section Awaiting

variable {s : State p rt ct} {X : BitVec 32}

theorem Awaiting.of_fresh (hf : s.table.fsm = .idle ∨ s.table.fsm = .sendReply ∨ s.table.fsm = .sendRequest)
    (hip : s.table.requestIpAddress = X) (hs : s.table.requestCounter < s.sent) (hh : s.heard = false)
    (hX : ¬ Holds s.table X) : Awaiting s X := by
  refine ⟨fun _ => hip, fun _ => hs, fun _ => ⟨hh, hX⟩, fun h => ?_, fun h => ?_, fun h => ?_⟩
  all_goals rw [h] at hf; simp at hf

theorem Awaiting.of_update (hf : s.table.fsm = .updateTable) (hip : s.table.requestIpAddress = X)
    (hs : s.table.requestCounter < s.sent) {r : TableRecord} (hr : s.held = some r)
    (ha : (r.ipAddress, r.macAddress) ∈ s.accepted) (hh : s.heard = true ↔ r.ipAddress = X) :
    Awaiting s X := by
  refine ⟨fun _ => hip, fun _ => hs, fun h => ?_, fun _ => ⟨r, hr, ha, hh⟩, fun h => ?_, fun h => ?_⟩
  all_goals rw [hf] at h; simp at h

theorem Awaiting.of_check (hf : s.table.fsm = .checkTable) (hip : s.table.requestIpAddress = X)
    (hs : s.table.requestCounter < s.sent) (hh : s.heard = true ↔ Holds s.table X)
    (hp : s.table.requestPending = true → s.heard = false) : Awaiting s X := by
  refine ⟨fun _ => hip, fun _ => hs, fun h => ?_, fun h => ?_, fun _ => ⟨hh, hp⟩, fun h => ?_⟩
  all_goals rw [hf] at h; simp at h

theorem Awaiting.of_present (hf : s.table.fsm = .presentResponse) (hp : s.table.requestPending = false)
    (hip : s.table.cachedIpAddress = X) (ha : (X, s.table.cachedMacAddress) ∈ s.accepted)
    (hh : 0 < s.sent → s.heard = true) : Awaiting s X := by
  refine ⟨fun h => absurd hf h, fun h => absurd hf h, fun h => ?_, fun h => ?_, fun h => ?_,
    fun _ => ⟨hp, hip, ha, hh⟩⟩
  all_goals rw [hf] at h; simp at h

end Awaiting

section Phases

variable {s : State p rt ct} {i : In} {X : BitVec 32}

theorem Awaiting.next
    (hcached : s.table.cachedValid = true → (s.table.cachedIpAddress, s.table.cachedMacAddress) ∈ s.accepted)
    (h : Awaiting s X) (hX : s.phase = .waiting X)
    (ha : (s.table.responseValid && i.responseReady) = false) (hk : KeepsFields s i) (hg : ¬ GivesUp s i) :
    Awaiting (s.next i) X := by
  obtain ⟨hv, hri, hrr⟩ := tableIn_waiting hX i
  have hout : s.phase.outstanding = some X := by rw [hX]; rfl
  have hheard := next_heard (i := i) hout
  have hsent : s.table.fsm ≠ .presentResponse → (s.next i).table.requestCounter < (s.next i).sent :=
    fun hf => counter_lt_sent hout (h.sent hf)
  -- in these states nothing is cached for `X`, and no reply from `X` was accepted
  have hfresh : ∀ _ : s.table.fsm = .idle ∨ s.table.fsm = .sendReply ∨ s.table.fsm = .sendRequest,
      (s.next i).table.fsm ≠ .updateTable → (s.next i).heard = false ∧ ¬ Holds (s.next i).table X := by
    intro hf hf'
    obtain ⟨hh, hn⟩ := h.fresh hf
    refine ⟨?_, fun hx => hn (Holds.of_next (by rcases hf with hf | hf | hf <;> simp [hf]) hx)⟩
    rw [← Bool.not_eq_true, hheard, hh]
    simp [hf']
  have ht := turn s.table (s.tableIn i)
  have hfsm : (s.next i).table.fsm = (s.table.drive (s.tableIn i)).fsm := rfl
  have hpend : (s.next i).table.requestPending = _ := next_pending s.table (s.tableIn i)
  have hip : (s.next i).table.requestIpAddress = _ := next_requestIp s.table (s.tableIn i)
  rw [hri] at hip
  generalize s.table.drive (s.tableIn i) = d at ht hfsm hpend hip
  cases ht with
  | hear hf hv' hr =>
    have hfr := hfresh (.inl hf) (by simp [hfsm])
    refine .of_fresh (.inr (.inl hfsm)) ?_ (hsent (by simp [hf])) hfr.1 hfr.2
    rw [hip]; exact h.ip (by simp [hf])
  | learn hf hv' hq hr hp =>
    refine .of_update hfsm (r := i.sink) ?_ (hsent (by simp [hf])) ?_ ?_ ?_
    · rw [hip]; exact h.ip (by simp [hf])
    · show (if i.sinkValid then _ else _) = _
      rw [tableIn_sinkValid] at hv'
      rw [if_pos hv']
    · rw [next_accepted, if_pos hfsm]
      exact List.mem_append_right _ (List.mem_singleton.2 rfl)
    · rw [hheard, (h.fresh (.inl hf)).1, hfsm]
      simp
  | giveUp hf hq hr hs => exact absurd ⟨hf, hs, hq, hr⟩ hg
  | look hf hs hr =>
    have hfr := hfresh (.inl hf) (by simp [hfsm])
    refine .of_check hfsm ?_ (hsent (by simp [hf])) ?_ fun _ => hfr.1
    · rw [hip]; exact h.ip (by simp [hf])
    · rw [hfr.1]
      exact ⟨fun h => (by cases h), fun h => absurd h hfr.2⟩
  | stay hu hck hs =>
    have hfsm' : (s.next i).table.fsm = s.table.fsm := hfsm
    by_cases hp : s.table.fsm = .presentResponse
    · obtain ⟨hpd, hci, hmem, hh⟩ := h.present hp
      obtain ⟨-, hci', hcm'⟩ := cached_frame (s := s.table) hu (s.tableIn i)
      refine .of_present (hfsm'.trans hp) ?_ (hci'.trans hci) ?_ fun hs' => ?_
      · rw [hpend, hpd]; simp [Table.State.hold]
      · rw [next_table, hcm']
        exact mem_accepted_next hmem
      · rw [next_sent hout, if_neg (by simp [hp])] at hs'
        exact hheard.2 (.inl (hh hs'))
    · have hf : s.table.fsm = .idle ∨ s.table.fsm = .sendReply ∨ s.table.fsm = .sendRequest := by
        cases hf : s.table.fsm <;> simp_all
      have hfr := hfresh hf (by rw [hfsm']; exact hu)
      refine .of_fresh (by rwa [hfsm']) ?_ (hsent hp) hfr.1 hfr.2
      rw [hip]; exact h.ip hp
  | replied hf hr =>
    have hfr := hfresh (.inr (.inl hf)) (by simp [hfsm])
    refine .of_fresh (.inl hfsm) ?_ (hsent (by simp [hf])) hfr.1 hfr.2
    rw [hip]; exact h.ip (by simp [hf])
  | update hf =>
    obtain ⟨r, hr, hmem, hh⟩ := h.update hf
    obtain ⟨hcv, hci, hcm⟩ := cached_update hf (s.tableIn i)
    obtain ⟨hk1, hk2⟩ := hk r hr
    refine .of_check hfsm ?_ (hsent (by simp [hf])) ?_ ?_
    · rw [hip]; exact h.ip (by simp [hf])
    · rw [hheard, hfsm]
      simp only [reduceCtorEq, false_and, or_false, hh]
      rw [Holds, next_table, hcv, hci, tableIn_sink, hk1]
      simp
    · intro hp
      rw [hpend] at hp
      cases hp
  | hitOwn hf hv' he =>
    obtain ⟨-, hci, hcm⟩ := cached_frame (s := s.table) (by simp [hf]) (s.tableIn i)
    have hX' := h.ip (by simp [hf])
    obtain ⟨hh, hpn⟩ := h.check hf
    have hheard' : s.heard = true := hh.2 ⟨hv', by rw [← he, hX']⟩
    have hpd : s.table.requestPending = false := by
      rw [← Bool.not_eq_true]
      intro hp
      rw [hpn hp] at hheard'
      cases hheard'
    refine .of_present hfsm ?_ (by rw [next_table, hci, ← he, hX']) ?_ fun _ => hheard.2 (.inl hheard')
    · rw [hpend, hpd]; simp [Table.State.hold]
    · rw [next_table, hcm]
      have hmem := hcached hv'
      rw [← he, hX'] at hmem
      exact mem_accepted_next hmem
  | hit hf hv' hn he =>
    rw [hri, ← h.ip (by simp [hf])] at he
    exact absurd he hn
  | miss hf hn hi =>
    obtain ⟨hh, -⟩ := h.check hf
    have hX' := h.ip (by simp [hf])
    have hno : ¬ Holds s.table X := fun hx => hn hx.1 (by rw [hX', hx.2])
    refine .of_fresh (.inr (.inr hfsm)) ?_ (hsent (by simp [hf])) ?_ fun hx => hno (Holds.of_next (by simp [hf]) hx)
    · rw [hip, hv, hX']; simp [Table.State.hold]
    · rw [← Bool.not_eq_true, hheard, hh, hfsm]
      simp [hno]
  | sent hf hr =>
    have hfr := hfresh (.inr (.inr hf)) (by simp [hfsm])
    refine .of_fresh (.inl hfsm) ?_ (hsent (by simp [hf])) hfr.1 hfr.2
    rw [hip]; exact h.ip (by simp [hf])
  | answered hf hr =>
    rw [hrr] at hr
    rw [Table.State.responseValid, hf, hr] at ha
    cases ha

/-- Without a request the table only answers other hosts. -/
theorem Unasked.next (hm : 1 < p.maxRequests) (h : Unasked s) (hp : s.phase = .idle) :
    Unasked (s.next i) := by
  obtain ⟨hf, hpd, hs⟩ := h
  obtain ⟨hv, hr⟩ := tableIn_idle hp i
  have ht := turn s.table (s.tableIn i)
  have hfsm : (s.next i).table.fsm = (s.table.drive (s.tableIn i)).fsm := rfl
  have hpend : (s.next i).table.requestPending = _ := next_pending s.table (s.tableIn i)
  have hsat : (s.next i).table.saturated = false :=
    not_saturated_next hm hs fun h => by rw [h] at hf; simp at hf
  generalize s.table.drive (s.tableIn i) = d at ht hfsm hpend
  cases ht with
  | hear hf' hv' hr' => exact ⟨.inr hfsm, by rw [hpend, hpd]; simp [Table.State.hold], hsat⟩
  | stay hu hck hs' =>
    exact ⟨by rw [hfsm]; exact hf, by rw [hpend, hpd]; simp [Table.State.hold], hsat⟩
  | replied hf' hr' => exact ⟨.inl hfsm, by rw [hpend, hpd]; simp [Table.State.hold], hsat⟩
  | learn hf' hv' hq hr' hp' => rw [hpd] at hp'; cases hp'
  | giveUp hf' hq hr' hs' => rw [hs] at hs'; cases hs'
  | look hf' hs' hr' => simp [hv, hpd] at hr'
  | _ hf' => rw [hf'] at hf; simp at hf

/-- Taking the response leaves nothing to do. -/
theorem Awaiting.answered (hm : 1 < p.maxRequests) (hc : Counted s.table) (h : Awaiting s X)
    (hX : s.phase = .waiting X) (ha : (s.table.responseValid && i.responseReady) = true) : Unasked (s.next i) := by
  rw [Table.State.responseValid, Bool.and_eq_true, beq_iff_eq] at ha
  obtain ⟨hf, hr⟩ := ha
  have hd : s.table.drive (s.tableIn i) = { s.table.hold with fsm := .idle } := by
    simp only [Table.State.drive, hf, (tableIn_waiting hX i).2.2, hr, if_true]
  have hs : s.table.saturated = false := by
    rw [← Bool.not_eq_true]
    intro hs
    rw [hc.sat hs] at hf
    cases hf
  refine ⟨.inl (by rw [next_table, next_fsm, hd]), ?_, not_saturated_next hm hs fun h => by rw [hf] at h; cases h⟩
  rw [next_table, next_pending, hd, (h.present hf).1]
  simp [Table.State.hold]

theorem Asking.of_other (hf : s.table.fsm = .idle ∨ s.table.fsm = .sendReply ∨ s.table.fsm = .checkTable)
    (hp : s.table.requestPending = false) (hs : s.table.saturated = false) (hn : s.sent = 0)
    (hh : s.heard = false) : Asking s X := by
  refine ⟨hp, hs, fun h => ?_, hn, hh, fun h => ?_, fun h => ?_⟩
  all_goals rw [h] at hf; simp at hf

/-- A request that is not accepted in this cycle. -/
theorem Asking.next (hm : 1 < p.maxRequests)
    (hcached : s.table.cachedValid = true → (s.table.cachedIpAddress, s.table.cachedMacAddress) ∈ s.accepted)
    (h : Asking s X) (hX : s.phase = .requesting X)
    (hr : (s.table.drive (s.tableIn i)).requestReady = false) (hmi : ¬ Mistakes s) : Asking (s.next i) X := by
  obtain ⟨hpd, hs, hu, hn, hh, hsend, hpres⟩ := h
  obtain ⟨hv, hri, hrr⟩ := tableIn_requesting hX i
  have hout : s.phase.outstanding = some X := by rw [hX]; rfl
  -- the first ARP request is sent in the cycle that accepts the request
  have hnr : s.table.fsm = .sendRequest → i.sourceReady = false := by
    intro hf
    rw [← Bool.not_eq_true]
    intro hsr
    simp [Table.State.drive, hf, hsr] at hr
  have hs' : (s.next i).table.saturated = false := not_saturated_next hm hs hnr
  have hn' : (s.next i).sent = 0 := by
    rw [next_sent hout, if_neg, hn]
    rintro ⟨hf, hsr⟩
    rw [hnr hf] at hsr
    cases hsr
  have hh' : (s.next i).table.fsm ≠ .updateTable → (s.next i).heard = false := by
    intro hf
    rw [← Bool.not_eq_true, next_heard hout, hh]
    simp [hf]
  obtain ⟨hcv, hci, hcm⟩ := cached_frame (s := s.table) hu (s.tableIn i)
  have ht := turn s.table (s.tableIn i)
  have hfsm : (s.next i).table.fsm = (s.table.drive (s.tableIn i)).fsm := rfl
  have hpend : (s.next i).table.requestPending = _ := next_pending s.table (s.tableIn i)
  have hip : (s.next i).table.requestIpAddress = _ := next_requestIp s.table (s.tableIn i)
  generalize s.table.drive (s.tableIn i) = d at ht hfsm hpend hip hr
  have hpd' : d.pendingSet = false → (s.next i).table.requestPending = false := by
    intro hset
    rw [hpend, hset, hpd]
    simp
  cases ht with
  | hear hf hv' hr' => exact .of_other (.inr (.inl hfsm)) (hpd' rfl) hs' hn' (hh' (by simp [hfsm]))
  | learn hf hv' hq hr' hp => rw [hpd] at hp; cases hp
  | giveUp hf hq hr' hs' => rw [hs] at hs'; cases hs'
  | look hf hs'' hr' => exact .of_other (.inr (.inr hfsm)) (hpd' rfl) hs' hn' (hh' (by simp [hfsm]))
  | stay hu' hck hst =>
    have hfsm' : (s.next i).table.fsm = s.table.fsm := hfsm
    have hne : (s.next i).table.fsm ≠ .updateTable := by rwa [hfsm']
    refine ⟨hpd' rfl, hs', hne, hn', hh' hne, fun hf => ?_, fun hf => ?_⟩
    · obtain ⟨hi, hno⟩ := hsend (hfsm' ▸ hf)
      exact ⟨by rw [hip]; exact hi, fun hx => hno (Holds.of_next hu hx)⟩
    · obtain ⟨hi, hmem⟩ := hpres (hfsm' ▸ hf)
      exact ⟨hci.trans hi, by rw [next_table, hcm]; exact mem_accepted_next hmem⟩
  | replied hf hr' => exact .of_other (.inl hfsm) (hpd' rfl) hs' hn' (hh' (by simp [hfsm]))
  | update hf => exact absurd hf hu
  | hitOwn hf hv' he =>
    have hX' : s.table.cachedIpAddress = X := by
      by_contra hne
      exact hmi ⟨hf, hv', he, by rw [hX]; simpa using Ne.symm hne, by rw [hX]; simp⟩
    have hne : (s.next i).table.fsm ≠ .updateTable := by simp [hfsm]
    refine ⟨hpd' rfl, hs', hne, hn', hh' hne, fun hf => ?_, fun _ => ⟨hci.trans hX', ?_⟩⟩
    · rw [hfsm] at hf; cases hf
    · rw [next_table, hcm]
      have hmem := hcached hv'
      rw [hX'] at hmem
      exact mem_accepted_next hmem
  | hit hf hv' hne he => rw [show _ = true from hv] at hr; cases hr
  | miss hf hne hi =>
    have hno : ¬ Holds s.table X := fun hx => hi hx.1 (by rw [hri, hx.2])
    have hne' : (s.next i).table.fsm ≠ .updateTable := by simp [hfsm]
    refine ⟨hpd' rfl, hs', hne', hn', hh' hne', fun _ => ⟨?_, fun hx => hno (Holds.of_next hu hx)⟩, fun hf => ?_⟩
    · rw [hip, hv, hri]; simp [Table.State.hold]
    · rw [hfsm] at hf; cases hf
  | sent hf hr' => cases hr
  | answered hf hr' => rw [hrr] at hr'; cases hr'

/-- A request that is accepted in this cycle. -/
theorem Asking.accepted
    (hcached : s.table.cachedValid = true → (s.table.cachedIpAddress, s.table.cachedMacAddress) ∈ s.accepted)
    (h : Asking s X) (hX : s.phase = .requesting X)
    (hr : (s.table.drive (s.tableIn i)).requestReady = true) : Awaiting (s.next i) X := by
  obtain ⟨hpd, hs, hu, hn, hh, hsend, hpres⟩ := h
  obtain ⟨hv, hri, hrr⟩ := tableIn_requesting hX i
  have hout : s.phase.outstanding = some X := by rw [hX]; rfl
  have ht := turn s.table (s.tableIn i)
  have hfsm : (s.next i).table.fsm = (s.table.drive (s.tableIn i)).fsm := rfl
  have hpend : (s.next i).table.requestPending = _ := next_pending s.table (s.tableIn i)
  have hip : (s.next i).table.requestIpAddress = _ := next_requestIp s.table (s.tableIn i)
  have hcnt : (s.next i).table.requestCounter = _ := next_counter s.table (s.tableIn i)
  generalize s.table.drive (s.tableIn i) = d at ht hfsm hpend hip hcnt hr
  cases ht with
  | hit hf hv' hne he =>
    -- the entry was cached before the request was made
    obtain ⟨-, hci, hcm⟩ := cached_frame (s := s.table) hu (s.tableIn i)
    rw [hri] at he
    refine .of_present hfsm ?_ (by rw [next_table, hci, he]) ?_ fun hs' => ?_
    · rw [hpend, hpd]; simp [Table.State.hold]
    · rw [next_table, hcm]
      have hmem := hcached hv'
      rw [← he] at hmem
      exact mem_accepted_next hmem
    · rw [next_sent hout, if_neg (by simp [hf]), hn] at hs'
      omega
  | sent hf hr' =>
    obtain ⟨hi, hno⟩ := hsend hf
    refine .of_fresh (.inl hfsm) ?_ ?_ ?_ fun hx => hno (Holds.of_next hu hx)
    · rw [hip, hi]; simp [Table.State.hold]
    · rw [next_sent hout, if_pos ⟨hf, hr'⟩, hcnt, hv]
      simp
    · rw [← Bool.not_eq_true, next_heard hout, hh, hfsm]
      simp
  | _ => cases hr

theorem Inv.cached_next (h : Inv s) (hk : KeepsFields s i) (hv : (s.next i).table.cachedValid = true) :
    ((s.next i).table.cachedIpAddress, (s.next i).table.cachedMacAddress) ∈ (s.next i).accepted := by
  by_cases hu : s.table.fsm = .updateTable
  · cases hp : s.phase with
    | idle =>
      have := (h.idle hp).fsm
      rw [hu] at this
      simp at this
    | requesting X => exact absurd hu (h.requesting X hp).update
    | waiting X =>
      obtain ⟨r, hr, hmem, -⟩ := (h.waiting X hp).update hu
      obtain ⟨-, hci, hcm⟩ := cached_update hu (s.tableIn i)
      obtain ⟨hk1, hk2⟩ := hk r hr
      rw [next_table, hci, hcm, tableIn_sink, hk1, hk2]
      exact mem_accepted_next hmem
  · obtain ⟨hcv, hci, hcm⟩ := cached_frame hu (s.tableIn i)
    rw [next_table, hci, hcm]
    exact mem_accepted_next (h.cached (hcv hv))

theorem Inv.next (hm : 1 < p.maxRequests) (h : Inv s) (hk : KeepsFields s i) (hc : Clean s i) :
    Inv (s.next i) := by
  obtain ⟨hg, hmi⟩ := hc hm
  refine ⟨counted_next hm h.counted _, fun hv => h.cached_next hk hv, fun hp' => ?_, fun X hp' => ?_,
    fun X hp' => ?_⟩
  · -- no request is outstanding after the cycle
    cases hp : s.phase with
    | idle => exact (h.idle hp).next hm hp
    | requesting Y => rw [next_phase, State.phaseNext, hp] at hp'; dsimp only at hp'; split_ifs at hp'
    | waiting Y =>
      rw [next_phase, State.phaseNext, hp] at hp'
      dsimp only at hp'
      split_ifs at hp' with ha
      exact (h.waiting Y hp).answered hm h.counted hp ha
  · cases hp : s.phase with
    -- a request that is new
    | idle =>
      obtain ⟨hf, hpd, hs⟩ := (h.idle hp).next (i := i) hm hp
      exact .of_other (hf.imp id .inl) hpd hs (if_pos hp) (if_pos hp)
    | requesting Y =>
      rw [next_phase, State.phaseNext, hp] at hp'
      dsimp only at hp'
      split_ifs at hp' with hr
      cases hp'
      -- the request has not been taken yet
      exact (h.requesting X hp).next hm h.cached hp (by simpa using hr) hmi
    | waiting Y => rw [next_phase, State.phaseNext, hp] at hp'; dsimp only at hp'; split_ifs at hp'
  · -- the request has been taken in this cycle, or before
    rcases phase_next_waiting hp' with ⟨hp, hr⟩ | ⟨hp, ha⟩
    · exact (h.requesting X hp).accepted h.cached hp hr
    · exact (h.waiting X hp).next h.cached hp ha hk hg

/-- Giving up answers the request without `failed`: the counter is cleared in the same cycle. -/
theorem Inv.unsound_of_givesUp (hm : 1 < p.maxRequests) (h : Inv s) (hg : GivesUp s i) : ¬ Sound (s.next i) := by
  obtain ⟨hf, hs, hq, hr⟩ := hg
  -- only a request that waits saturates the counter
  obtain ⟨X, hX⟩ : ∃ X, s.phase = .waiting X := by
    cases hp : s.phase with
    | idle => rw [(h.idle hp).sat] at hs; cases hs
    | requesting Y => rw [(h.requesting Y hp).sat] at hs; cases hs
    | waiting Y => exact ⟨Y, rfl⟩
  have haw := h.waiting X hX
  have hout : s.phase.outstanding = some X := by rw [hX]; rfl
  -- the reply that is shown makes the table give up instead of hearing it
  have hd : s.table.drive (s.tableIn i) = { s.table.hold with fsm := .presentResponse } := by
    simp only [Table.State.drive, hf, Table.State.driveIdle, tableIn_sinkValid, tableIn_sink, hq, hr, hs,
      Bool.false_eq_true, if_false, if_true]
  have hfsm : (s.next i).table.fsm = .presentResponse := by rw [next_table, next_fsm, hd]
  have hX' := phase_stays_waiting hX (by rw [hf]; decide) i
  intro hsound
  obtain ⟨-, -, hheard⟩ := hsound X (by rw [hX']; rfl) (by rw [Table.State.responseValid, hfsm]; rfl) (by
    rw [Table.State.responseFailed, not_saturated_iff, next_table, next_counter, hd]
    simp only [Table.State.hold, hs, if_true]
    omega)
  -- the host has asked as often as it may
  have hsent : p.maxRequests ≤ (s.next i).sent := by
    have := haw.sent (by rw [hf]; decide)
    rw [(saturated_iff _).1 hs] at this
    rw [next_sent hout, if_neg (by simp [hf])]
    omega
  have hno := hheard hsent
  rw [next_heard hout, (haw.fresh (.inl hf)).1, hfsm] at hno
  simp at hno

theorem Inv.unsound_of_mistakes (hm : 1 < p.maxRequests) (h : Inv s) (hmi : Mistakes s) : ¬ Sound (s.next i) := by
  obtain ⟨hf, hv, he, hnr, hnw⟩ := hmi
  obtain ⟨X, hX⟩ : ∃ X, s.phase = .requesting X := by
    cases hp : s.phase with
    | idle => have := (h.idle hp).fsm; rw [hf] at this; simp at this
    | requesting X => exact ⟨X, rfl⟩
    | waiting X =>
      rw [(h.waiting X hp).ip (by rw [hf]; decide)] at he
      rw [hp, ← he] at hnw
      exact absurd rfl hnw
  have hd : s.table.drive (s.tableIn i) = { s.table.hold with ipReset := true, fsm := .presentResponse } := by
    simp only [Table.State.drive, hf, Table.State.driveCheck, hv, he, if_true]
  have hfsm : (s.next i).table.fsm = .presentResponse := by rw [next_table, next_fsm, hd]
  have hX' : (s.next i).phase = .requesting X := by
    rw [next_phase, hd, State.phaseNext, hX]
    simp [Table.State.hold]
  intro hsound
  obtain ⟨hip, -⟩ := hsound X (by rw [hX']; rfl) (by rw [Table.State.responseValid, hfsm]; rfl)
    (not_saturated_next hm (h.requesting X hX).sat fun h => by rw [hf] at h; cases h)
  rw [next_table, (cached_frame (by rw [hf]; decide) _).2.1] at hip
  rw [hX, hip] at hnr
  exact hnr rfl

end Phases

theorem inv_reset (hm : 1 < p.maxRequests) : Inv (system p rt ct).reset := by
  have hs : (system p rt ct).reset.table.saturated = false := by
    rw [not_saturated_iff]
    show 0 ≠ _
    omega
  exact ⟨counted_init, fun h => (by cases h), fun _ => ⟨.inl rfl, rfl, hs⟩, fun _ h => (by cases h),
    fun _ h => (by cases h)⟩

/-- In every run with a receiver that keeps its fields, the responses presented are sound exactly
when the table never gives up a request and never compares with an address that is not asked for. -/
theorem table_sound_iff (is : List In) (hk : (system p rt ct).Along KeepsFields (system p rt ct).reset is) :
    (system p rt ct).Along (fun s i => Sound (s.next i)) (system p rt ct).reset is ↔
      (system p rt ct).Along Clean (system p rt ct).reset is := by
  by_cases hm : 1 < p.maxRequests
  · refine (system p rt ct).along_iff (P := Inv) (fun s i h hk hc => h.next hm hk hc) (fun s i h hk => ?_) is _
      (inv_reset hm) hk
    constructor
    · intro hs _
      exact ⟨fun hg => h.unsound_of_givesUp hm hg hs, fun hmi => h.unsound_of_mistakes hm hmi hs⟩
    · intro hc
      exact (h.next hm hk hc).sound hm
  · -- every response is marked as failed
    have hspent : Spent (system p rt ct).reset.table := spent_init (by omega)
    refine iff_of_true ?_ ((Machine.along_trivial _ is _).imp _ fun _ _ _ h => absurd h hm)
    refine (system p rt ct).along_of_inv (P := fun s => Spent s.table) (C := fun _ _ => True)
      (fun s i h _ => spent_next (by omega) h _) (fun s i h _ X _ _ hfail => ?_) is _ hspent
      (Machine.along_trivial _ _ _)
    rw [Table.State.responseFailed, next_table, (spent_next (by omega) h (s.tableIn i)).sat] at hfail
    cases hfail

/-- The first cycle of a request and the three until its ARP request is sent. -/
def asked (ip : BitVec 32) : List In := ask ip :: List.replicate 3 quiet

/-- A request that is answered, the response being taken in the last cycle. -/
def answeredBy (ip : BitVec 32) (mac : BitVec 48) : List In :=
  asked ip ++ [frame ⟨true, false, ip, mac⟩, { quiet with sink := ⟨true, false, ip, mac⟩ }, quiet, quiet]

theorem table_sound_answered :
    slowTable.Along (fun s i => Sound (s.next i)) slowTable.reset (answeredBy 9 7 ++ answeredBy 5 6) := by
  have hk : slowTable.Along KeepsFields slowTable.reset (answeredBy 9 7 ++ answeredBy 5 6) := by decide
  exact (table_sound_iff _ hk).2 (by decide)

/-- After an answered request for one address, eight ARP requests for another one get no reply: the
response is not marked as failed and carries the MAC address of the first. -/
theorem table_answers_stale :
    slowTable.Along KeepsFields slowTable.reset (answeredBy 9 7 ++ asked 5 ++ List.replicate 29 quiet) ∧
      ¬ Sound (slowTable.run (answeredBy 9 7 ++ asked 5 ++ List.replicate 29 quiet)) := by
  refine ⟨by decide, fun h => ?_⟩
  have hip := (h 5 (by decide) (by decide) (by decide)).1
  exact absurd hip (by decide)

end LiteEth.Core.Arp.Requester
