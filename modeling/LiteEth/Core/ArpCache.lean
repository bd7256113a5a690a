/-
The entry that `LiteEthARP`'s table caches: receiver and table together. The verdict on a frame is
sampled one cycle before the table looks at it, its addresses are read one cycle after that, from the
receiver's live header register, and the entry expires by a timer of its own.
-/
import LiteEth.Core.Arp
import LiteEth.Rtl.PacketSim

namespace LiteEth.Core.Arp.Cache

open LiteEth.Rtl LiteEth.Rtl.Stage

variable (p : Params) (tp : Table.Params) (rt : WaitTimer (tp.clkFreq / 10)) (ct : WaitTimer (tp.clkFreq * 10))
  (D : Depacketizer Header p.dw)

/-- What drives the table in one cycle, besides the receiver: `source.ready` of the transmitter and the
requester's side. -/
structure Env where
  sourceReady : Bool
  requestValid : Bool
  requestIp : BitVec 32
  responseReady : Bool

/-- The receiver and the table. -/
structure State where
  rx : Rx.State p D
  table : Table.State tp rt ct

variable {p tp rt ct D}

/-- What the table sees: what the receiver has decoded, and the requests of the environment. -/
def State.tableIn (s : State p tp rt ct D) (e : Env) : Table.In :=
  { sinkValid := s.rx.sourceValid, sink := s.rx.source, sourceReady := e.sourceReady
    requestValid := e.requestValid, requestIp := e.requestIp, responseReady := e.responseReady }

variable (p tp rt ct D) in
/-- `LiteEthARPRX` feeding `LiteEthARPTable`, which presents no stream. -/
abbrev cache : Stage Env (Beat p.dw) Empty where
  State := State p tp rt ct D
  reset := { rx := .init p D, table := .init tp rt ct }
  source _ _ _ := none
  ready s _ b _ := D.sinkReady s.rx.depacketizer b (s.rx.ready b)
  step s e b _ := { rx := s.rx.next b, table := s.table.next (s.tableIn e) }

/-- The cached IP/MAC couple. -/
def State.cached (s : State p tp rt ct D) : BitVec 32 × BitVec 48 :=
  (s.table.cachedIpAddress, s.table.cachedMacAddress)

/-- The addresses of the host that sent a frame. -/
def sender (h : Header) : BitVec 32 × BitVec 48 := (h.senderIp, h.senderMac)

variable {C : Env → Prop} (S : D.Strips C)

variable (tp rt ct) in
/-- In the cycle after `js`, with the inputs `i`, the table accepts the frame `f` at the sink, the last one as
far as it has come in: a reply to us, while a request is pending. -/
structure Learned (js : List (Stage.In Env (Beat p.dw))) (i : Stage.In Env (Beat p.dw)) (f : List (Beat p.dw)) :
    Prop where
  received : f ∈ packets (·.last) ((cache p tp rt ct D).arrivals js)
  complete : S.payload f ≠ []
  forUs : Rx.forUs p (S.header f) = true
  reply : (S.header f).opcode = opcodeReply
  pending : ((cache p tp rt ct D).machine.run js).state.table.requestPending = true
  accepts : ((cache p tp rt ct D).machine.run js).state.table.accepts
    (((cache p tp rt ct D).machine.run js).state.tableIn i.env) = true

variable (tp rt ct) in
/-- What is cached after the cycles `is` was loaded `n` cycles ago, from the one frame that the table had
accepted in the cycle before. -/
def Loaded (is : List (Stage.In Env (Beat p.dw))) (n : ℕ) : Prop :=
  ∃ js i u ks f, is = js ++ i :: u :: ks ∧ n = ks.length + 1 ∧ Learned tp rt ct S js i f ∧
    ((cache p tp rt ct D).machine.run is).state.cached = sender (S.header f)

/-- In this cycle another couple is cached, or one after none. -/
def Changes (s : (cache p tp rt ct D).Run) (i : Stage.In Env (Beat p.dw)) : Prop :=
  (s.next i).state.cached ≠ s.state.cached ∨
    s.state.table.cachedValid = false ∧ (s.next i).state.table.cachedValid = true

/-- `CHECK_TABLE` answers from the cache. -/
def Answers (s : State p tp rt ct D) (e : Env) : Prop :=
  s.table.fsm = .checkTable ∧ (s.table.next (s.tableIn e)).fsm = .presentResponse

/-! ## The depacketizer in the receiver -/

section Strip

variable (s : (cache p tp rt ct D).Run) (i : Stage.In Env (Beat p.dw))

/-- The depacketizer as a stage of its own. -/
def depRun : (D.stage (ε := Env)).Run := ⟨s.state.rx.depacketizer, s.held⟩

/-- What the depacketizer sees of a cycle. -/
def depIn : Stage.In Env (Beat p.dw) := { env := i.env, offer := i.offer, ready := s.state.rx.ready (s.offered i) }

theorem depRun_arrives : (depRun s).arrives (depIn s i) = s.arrives i := rfl

theorem depRun_source : (depRun s).source (depIn s i) =
    (D.source s.state.rx.depacketizer (s.offered i)).map (s.state.rx.header, ·) := rfl

end Strip

/-- The depacketizer lags behind the beats that were offered, with only their headers to show. -/
theorem strips_behind (is : List (Stage.In Env (Beat p.dw)))
    (hok : S.strip.Oks S.strip.init ((cache p tp rt ct D).arrivals is)) :
    ∃ q w, S.sim.Rel (depRun ((cache p tp rt ct D).machine.run is))
        (S.strip.run S.strip.init ((cache p tp rt ct D).arrivals is)) q w ∧
      ∀ x ∈ q, x ∈ S.strip.outs S.strip.init ((cache p tp rt ct D).arrivals is) := by
  induction is using List.reverseRecOn with
  | nil =>
    obtain ⟨w, hw⟩ := S.sim.reset
    exact ⟨[], w, hw, nofun⟩
  | append_singleton is i ih =>
    rw [arrivals_concat, Transducer.oks_append] at hok
    obtain ⟨q, w, h, hq⟩ := ih hok.1
    obtain ⟨q', w', hq', h', -⟩ := S.sim.cycle h (depIn _ i) hok.2
    rw [depRun_arrives] at hq'
    refine ⟨q', w', ?_, fun x hx => ?_⟩
    · rw [arrivals_concat, run_concat, Transducer.run_append]
      exact h'
    · rw [arrivals_concat, Transducer.outs_append, List.mem_append]
      have hx' := hq' ▸ List.mem_append_right _ hx
      exact (List.mem_append.1 hx').imp_left (hq x)

variable (tp rt ct) in
/-- A header that is shown is that of a packet at the sink. -/
theorem shown_packet (is : List (Stage.In Env (Beat p.dw))) (i : Stage.In Env (Beat p.dw))
    (hlong : ∀ f ∈ (frames (·.last) ((cache p tp rt ct D).arrivals (is ++ [i]))).1, S.Long f)
    (hsrc : (D.source ((cache p tp rt ct D).machine.run is).state.rx.depacketizer
      (((cache p tp rt ct D).machine.run is).offered i)).isSome = true) :
    ∃ f ∈ packets (·.last) ((cache p tp rt ct D).arrivals (is ++ [i])),
      S.payload f ≠ [] ∧ ((cache p tp rt ct D).machine.run is).state.rx.header = S.header f := by
  have hok := S.oks_of_long hlong
  rw [arrivals_concat, Transducer.oks_append] at hok
  obtain ⟨q, w, h, hq⟩ := strips_behind S is hok.1
  obtain ⟨q', hq'⟩ := S.sim.head h (depIn ((cache p tp rt ct D).machine.run is) i) hok.2
  obtain ⟨b, hb⟩ := Option.isSome_iff_exists.1 hsrc
  rw [depRun_source, hb, depRun_arrives] at hq'
  refine S.mem_outs hlong (x := (_, b)) ?_
  rw [arrivals_concat, Transducer.outs_append, List.mem_append]
  have hx := hq' ▸ List.mem_append_left q' (List.mem_singleton.2 rfl)
  exact (List.mem_append.1 hx).imp_left (hq _)

/-! ## The invariant -/

variable (tp rt ct) in
/-- The receiver in `CHECK` holds the header of one packet, which is still there in `UPDATE_TABLE`; the timer
counts the cycles since the entry was loaded. -/
structure Knows (is : List (Stage.In Env (Beat p.dw))) (s : State p tp rt ct D) : Prop where
  check : s.rx.fsm = .check → D.inHeader s.rx.depacketizer = false ∧
    ∃ f ∈ packets (·.last) ((cache p tp rt ct D).arrivals is), S.payload f ≠ [] ∧ s.rx.header = S.header f ∧
      (s.rx.valid = true → Rx.forUs p (S.header f) = true)
  update : s.table.fsm = .updateTable → ∃ js i f, is = js ++ [i] ∧ Learned tp rt ct S js i f ∧
    s.rx.header = S.header f
  entry : s.table.cachedValid = true → ∃ js i u ks f, is = js ++ i :: u :: ks ∧ Learned tp rt ct S js i f ∧
    s.cached = sender (S.header f) ∧ ks.length + ct.count s.table.cachedTimer = tp.clkFreq * 10

variable {S} {is : List (Stage.In Env (Beat p.dw))}

/-- The table accepts what the receiver has checked. -/
theorem Knows.learned {i : Stage.In Env (Beat p.dw)} (h : Knows tp rt ct S is ((cache p tp rt ct D).machine.run is).state)
    (ha : ((cache p tp rt ct D).machine.run is).state.table.accepts
      (((cache p tp rt ct D).machine.run is).state.tableIn i.env) = true) :
    D.inHeader ((cache p tp rt ct D).machine.run is).state.rx.depacketizer = false ∧
      ∃ f, Learned tp rt ct S is i f ∧ ((cache p tp rt ct D).machine.run is).state.rx.header = S.header f := by
  have ha' := ha
  unfold Table.State.accepts at ha'
  simp only [Bool.and_eq_true] at ha'
  obtain ⟨⟨⟨⟨-, hv⟩, -⟩, hr⟩, hp⟩ := ha'
  have hv' : (((cache p tp rt ct D).machine.run is).state.rx.fsm == .check &&
    ((cache p tp rt ct D).machine.run is).state.rx.valid) = true := hv
  have hr' : (((cache p tp rt ct D).machine.run is).state.rx.sourceValid &&
    ((cache p tp rt ct D).machine.run is).state.rx.header.opcode == opcodeReply) = true := hr
  simp only [Bool.and_eq_true, beq_iff_eq] at hv' hr'
  obtain ⟨hin, f, hf, hpay, hh, hus⟩ := h.check hv'.1
  exact ⟨hin, f, ⟨hf, hpay, hus hv'.2, hh ▸ hr'.2, hp, ha⟩, hh⟩

/-- `UPDATE_TABLE` loads the frame that was accepted. -/
theorem Knows.loads {s : State p tp rt ct D} (h : Knows tp rt ct S is s) (hu : s.table.fsm = .updateTable) (e : Env) :
    ∃ js i f, is = js ++ [i] ∧ Learned tp rt ct S js i f ∧
      ((s.table.next (s.tableIn e)).cachedIpAddress, (s.table.next (s.tableIn e)).cachedMacAddress) =
        sender (S.header f) := by
  obtain ⟨js, i, f, his, hl, hh⟩ := h.update hu
  obtain ⟨-, hip, hmac⟩ := Table.cached_update hu (s.tableIn e)
  refine ⟨js, i, f, his, hl, ?_⟩
  rw [hip, hmac, ← hh]
  rfl

/-- The timer is reloaded with the entry. -/
theorem count_next (s : Table.State tp rt ct) (i : Table.In) : ct.count (s.next i).cachedTimer =
    if s.fsm = .updateTable then tp.clkFreq * 10 else ct.count s.cachedTimer - 1 := by
  show ct.count (ct.step s.cachedTimer (!(s.drive i).update)) = _
  rw [ct.count_step, Table.drive_update]
  by_cases h : s.fsm = .updateTable <;> simp [h]

/-- An entry that stays is one whose timer is still running. -/
theorem kept_running {s : Table.State tp rt ct} (hu : s.fsm ≠ .updateTable) {i : Table.In}
    (hv : (s.next i).cachedValid = true) : s.cachedValid = true ∧ 0 < ct.count s.cachedTimer := by
  refine ⟨(Table.cached_frame hu i).1 hv, Nat.pos_of_ne_zero fun hc => ?_⟩
  rw [Table.next_cachedValid, Table.drive_update, (ct.done_iff _).2 hc] at hv
  simp [hu] at hv

theorem Knows.next {i : Stage.In Env (Beat p.dw)}
    (h : Knows tp rt ct S is ((cache p tp rt ct D).machine.run is).state)
    (hlong : ∀ f ∈ (frames (·.last) ((cache p tp rt ct D).arrivals (is ++ [i]))).1, S.Long f) :
    Knows tp rt ct S (is ++ [i]) (((cache p tp rt ct D).machine.run is).next i).state := by
  generalize hs : (cache p tp rt ct D).machine.run is = s at h
  refine ⟨fun hf => ?_, fun hf => ?_, fun hv => ?_⟩
  · -- the record that is checked is that of the frame whose first beat is shown
    have hf' : (s.state.rx.next (s.offered i)).fsm = .check := hf
    obtain ⟨-, hsrc, hin, hh, hus⟩ := Rx.check_next hf'
    obtain ⟨f, hmem, hpay, heq⟩ := shown_packet tp rt ct S is i hlong (by rw [hs]; exact hsrc)
    rw [hs] at heq
    exact ⟨hin, f, hmem, hpay, hh.trans heq, fun hv => heq ▸ hus hv⟩
  · -- a record that the table takes is the one that was checked
    have ha : s.state.table.accepts (s.state.tableIn i.env) = true := by
      rw [Table.accepts_eq]
      exact decide_eq_true hf
    subst hs
    obtain ⟨hin, f, hl, hh⟩ := h.learned ha
    exact ⟨is, i, f, rfl, hl, (Rx.header_next hin _).trans hh⟩
  · -- the entry is loaded in this cycle, or it has been kept for one more
    by_cases hu : s.state.table.fsm = .updateTable
    · obtain ⟨js, i₀, f, his, hl, hc⟩ := h.loads hu i.env
      refine ⟨js, i₀, i, [], f, by rw [his, List.append_assoc]; rfl, hl, hc, ?_⟩
      refine (Nat.zero_add _).trans ((count_next _ _).trans (if_pos hu))
    · obtain ⟨hv', hpos⟩ := kept_running hu (i := s.state.tableIn i.env) hv
      obtain ⟨js, i₀, u, ks, f, his, hl, hc, hcount⟩ := h.entry hv'
      obtain ⟨-, hip, hmac⟩ := Table.cached_frame hu (s.state.tableIn i.env)
      refine ⟨js, i₀, u, ks ++ [i], f, by rw [his, List.append_assoc]; rfl, hl, ?_, ?_⟩
      · exact (congrArg₂ Prod.mk hip hmac).trans hc
      · have hn : ct.count (s.state.table.next (s.state.tableIn i.env)).cachedTimer = _ :=
          (count_next _ _).trans (if_neg hu)
        show (ks ++ [i]).length + ct.count (s.state.table.next (s.state.tableIn i.env)).cachedTimer = _
        rw [hn, List.length_append, List.length_singleton]
        omega

variable (tp rt ct) in
theorem knows (S : D.Strips C) (is : List (Stage.In Env (Beat p.dw)))
    (hlong : ∀ f ∈ (frames (·.last) ((cache p tp rt ct D).arrivals is)).1, S.Long f) :
    Knows tp rt ct S is ((cache p tp rt ct D).machine.run is).state := by
  induction is using List.reverseRecOn with
  | nil => exact ⟨nofun, nofun, nofun⟩
  | append_singleton is i ih =>
    have hmono : (frames (·.last) ((cache p tp rt ct D).arrivals is)).1 <+:
        (frames (·.last) ((cache p tp rt ct D).arrivals (is ++ [i]))).1 := by
      rw [arrivals_concat]
      exact frames_append _ _ _
    rw [run_concat]
    exact (ih fun f hf => hlong f (hmono.subset hf)).next hlong

/-- An answer of `CHECK_TABLE` is one from a valid entry. -/
theorem Answers.valid {s : State p tp rt ct D} {e : Env} (h : Answers s e) : s.table.cachedValid = true := by
  obtain ⟨hf, hf'⟩ := h
  have ht := Table.turn s.table (s.tableIn e)
  rw [Table.next_fsm] at hf'
  generalize s.table.drive (s.tableIn e) = d at ht hf'
  cases ht with
  | hitOwn _ hv _ => exact hv
  | hit _ hv _ _ => exact hv
  | stay _ hc _ => exact absurd hf hc
  | miss => cases hf'
  | _ hx => exact absurd (hf.symm.trans hx) (by decide)

/-- A valid entry is the sender of one reply that was accepted while a request was pending; nothing else
changes the cache; and what `CHECK_TABLE` answers from was loaded at most the timer's period and one cycle
earlier. -/
theorem cache_integrity (S : D.Strips C) (is : List (Stage.In Env (Beat p.dw)))
    (hlong : ∀ f ∈ (frames (·.last) ((cache p tp rt ct D).arrivals is)).1, S.Long f) :
    (((cache p tp rt ct D).machine.run is).state.table.cachedValid = true → ∃ n, Loaded tp rt ct S is n) ∧
    (∀ i, Changes ((cache p tp rt ct D).machine.run is) i → ∃ js j f, is = js ++ [j] ∧ Learned tp rt ct S js j f ∧
      (((cache p tp rt ct D).machine.run is).next i).state.cached = sender (S.header f)) ∧
    ∀ e, Answers ((cache p tp rt ct D).machine.run is).state e →
      ∃ n, Loaded tp rt ct S is n ∧ n ≤ tp.clkFreq * 10 + 1 := by
  have h := knows tp rt ct S is hlong
  have hload : ((cache p tp rt ct D).machine.run is).state.table.cachedValid = true →
      ∃ n, Loaded tp rt ct S is n ∧ n ≤ tp.clkFreq * 10 + 1 := by
    intro hv
    obtain ⟨js, i, u, ks, f, his, hl, hc, hcount⟩ := h.entry hv
    exact ⟨_, ⟨js, i, u, ks, f, his, rfl, hl, hc⟩, by omega⟩
  refine ⟨fun hv => (hload hv).imp fun _ => And.left, fun i hc => ?_, fun e ha => hload ha.valid⟩
  have hu : ((cache p tp rt ct D).machine.run is).state.table.fsm = .updateTable := by
    by_contra hu
    obtain ⟨hv, hip, hmac⟩ := Table.cached_frame hu (((cache p tp rt ct D).machine.run is).state.tableIn i.env)
    rcases hc with hc | ⟨hn, hv'⟩
    · exact hc (congrArg₂ Prod.mk hip hmac)
    · rw [hv hv'] at hn
      cases hn
  exact h.loads hu i.env

/-- Our host, with 8-bit streams. -/
abbrev host : Params := { macAddress := 0x12345678abcd, ipAddress := 0x12345678, dw := 8 }

/-- A reply to our host from the host with addresses 5 and 7. -/
def replyHeader : Header :=
  { hwtype := hwtypeEthernet, proto := protoIp, hwsize := 6, protosize := 4, opcode := opcodeReply, senderMac := 7
    senderIp := 5, targetMac := 0x12345678abcd, targetIp := 0x12345678 }

/-- A request for address 5 is sent, and then its reply comes in, with one byte of padding. -/
def requestAndReply : List (Stage.In Env (Beat 8)) :=
  List.replicate 3 { env := ⟨true, true, 5, false⟩, offer := none, ready := false } ++
    ((List.range 28).map fun k =>
      { env := ⟨false, false, 0, false⟩, offer := some (.ofWord (replyHeader.byte k)), ready := false }) ++
    [{ env := ⟨false, false, 0, false⟩, offer := some { Beat.ofWord 0 with last := true }, ready := false }] ++
    List.replicate 2 { env := ⟨false, false, 0, false⟩, offer := none, ready := false }

/-- The receiver and the table of our host. -/
abbrev hostCache : Stage Env (Beat 8) Empty :=
  cache host ⟨1000, 8⟩ (.down 100) (.down 10000) (.words 28 (Nat.succ_pos 27) Header.ofBytes)

/-- Its depacketizer. -/
abbrev hostStrips : (Depacketizer.words 28 (Nat.succ_pos 27) Header.ofBytes : Depacketizer Header host.dw).Strips
    fun _ : Env => True := (Depacketizer.stripsWords_words 28 (Nat.succ_pos 27) Header.ofBytes).strips _

theorem cache_integrity_reply :
    (hostCache.machine.run requestAndReply).state.cached = (5, 7) ∧
      ∃ n, Loaded ⟨1000, 8⟩ (.down 100) (.down 10000) hostStrips requestAndReply n ∧ n ≤ 10001 := by
  have hlong : ∀ f ∈ (frames (fun b : Beat 8 => b.last) (hostCache.arrivals requestAndReply)).1, 28 < f.length := by
    decide +kernel
  refine ⟨by decide +kernel, (cache_integrity hostStrips requestAndReply hlong).2.2 ⟨false, false, 0, false⟩ ⟨?_, ?_⟩⟩
  · decide +kernel
  · decide +kernel

end LiteEth.Core.Arp.Cache
