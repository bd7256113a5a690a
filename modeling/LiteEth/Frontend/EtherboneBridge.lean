/-
`LiteEthEtherbone` in slave mode and in master mode, with a link from the record module of each to that of the other. The
operations of the local bus are those of the remote one: writes are acknowledged before they are carried out, but all
arrive in order, and the word for a read comes back before anything else is sent.
-/
import LiteEth.Frontend.EtherboneSlave

namespace LiteEth.Frontend.Etherbone

open LiteEth.Rtl Slave

namespace Bridge

variable {ε ε' : Type}

/-- The inputs of one cycle: a new operation of the local bus, unless one is not acknowledged yet, and what the lines of
the bus carry while there is none; what drives the two links; and what the remote bus answers. -/
structure In (ε ε' : Type) where
  offer : Option Op
  lines : Op
  forth : ε
  back : ε'
  remote : Master.Env Unit

variable (A : Stage ε (MmapBeat Unit) (MmapBeat Unit)) (B : Stage ε' (MmapBeat Unit) (MmapBeat Unit))

/-- The registers of the slave, of the links and of the master, and the operation that the local bus holds. -/
structure State where
  held : Option Op
  slave : Slave.Fsm
  forth : A.State
  master : Master.State Unit
  back : B.State

/-- Both ends after reset, with nothing on its way. -/
def State.init : State A B := { held := none, slave := .idle, forth := A.reset, master := .init (), back := B.reset }

variable {A B}

section Signals

variable (s : State A B) (i : In ε ε')

/-- The operation on the local bus. -/
def State.bus : Option Op := s.held.or i.offer

/-- `source` of the slave. -/
def State.request : Option (MmapBeat Unit) := s.slave.source ((s.bus i).getD i.lines)

/-- `sink` of the master. -/
def State.beat : Option (MmapBeat Unit) := A.source s.forth i.forth (s.request i)

/-- `source` of the master. -/
def State.answer : Option (MmapBeat Unit) := s.master.source (s.beat i)

/-- `sink` of the slave. -/
def State.response : Option (MmapBeat Unit) := B.source s.back i.back (s.answer i)

/-- The `ready` of each of them. -/
def State.answerReady : Bool := B.ready s.back i.back (s.answer i) s.slave.sinkReady

/-- The master takes the beat. -/
def State.beatReady : Bool := s.master.sinkReady (s.beat i) i.remote.ack (s.answerReady i)

/-- The carrier takes the request. -/
def State.requestReady : Bool := A.ready s.forth i.forth (s.request i) (s.beatReady i)

/-- `ack` of the local bus. -/
def State.ack : Bool := s.slave.ack (s.requestReady i) (s.response i)

/-- One cycle of both ends and the carriers between them. -/
def State.next : State A B where
  held := if s.ack i then none else s.bus i
  slave := s.slave.next (s.bus i) (s.requestReady i) (s.response i)
  forth := A.step s.forth i.forth (s.request i) (s.beatReady i)
  master := s.master.next (s.beat i) i.remote.undriven i.remote.ack i.remote.datR (s.answerReady i)
  back := B.step s.back i.back (s.answer i) s.slave.sinkReady

/-- The operation that is new in this cycle. -/
def State.offers : Option Op := if s.held.isSome then none else i.offer

/-- The operation that is acknowledged, with the word on the local bus. -/
def State.acks : Option (Op × BitVec 32) :=
  if s.ack i then (s.bus i).map (·, s.slave.datR (s.response i)) else none

/-- What the remote bus acknowledges, with the word it shows. -/
def State.accesses : Option (Master.Bus × BitVec 32) :=
  if (s.master.bus (s.beat i)).stb && i.remote.ack then some (s.master.bus (s.beat i), i.remote.datR) else none

end Signals

variable (A B) in
/-- The bridge as a machine, from reset. -/
def system : Machine (In ε ε') (State A B) where
  reset := .init A B
  step := State.next

section Runs

variable (A B) (is : List (In ε ε'))

/-- The operations of the local bus in a run. -/
def offered : List Op := (system A B).log (fun s i => (s.offers i).toList) (system A B).reset is

/-- Those acknowledged, each with the word on the bus. -/
def acknowledged : List (Op × BitVec 32) := (system A B).log (fun s i => (s.acks i).toList) (system A B).reset is

/-- What is acknowledged on the remote bus. -/
def performed : List (Master.Bus × BitVec 32) :=
  (system A B).log (fun s i => (s.accesses i).toList) (system A B).reset is

end Runs

/-- An operation as it is carried out, with the word for it. -/
def carriedOut (x : Op × BitVec 32) : Master.Bus × BitVec 32 := (x.1.access, x.2)

/-- The reads, with their words. -/
def reads (l : List (Op × BitVec 32)) : List (Op × BitVec 32) := l.filter fun x => !x.1.we

/-! ## The state of the operations -/

/-- What is still to happen for an operation that is in the link. -/
def cost (o : Op) : ℕ := if o.we then 2 else 5

/-- The cycles that operations may take. -/
def todo (os : List Op) : ℕ := (os.map cost).sum

/-- The read that the slave waits for. -/
def State.waiting (s : State A B) : Option Op := if s.slave = .waitRead then s.held else none

/-- The slave waits for the word of a read. -/
structure State.Waits (s : State A B) (o : Op) : Prop where
  slave : s.slave = .waitRead
  held : s.held = some o
  read : o.we = false

/-- The slave, with `os` sent and not carried out; `b` is its beat if the link has refused it. A read is the last one. -/
inductive Sends (s : State A B) (b : Option (MmapBeat Unit)) (os : List Op) : ℕ → Prop
  | idle (hf : s.slave = .idle) (hheld : s.held = none) (hb : b = none) (hw : ∀ o ∈ os, o.we = true) : Sends s b os 0
  | send (o : Op) (hf : s.slave = o.sending) (hheld : s.held = some o) (hb : b = none ∨ b = some o.beat)
      (hw : ∀ o ∈ os, o.we = true) : Sends s b os (cost o + if b = none then 2 else 1)
  | wait (o : Op) (us : List Op) (h : s.Waits o) (hb : b = none) (hw : ∀ o ∈ us, o.we = true) (hos : os = us ++ [o]) :
      Sends s b os 0

/-- The master, with `os` to be carried out. -/
inductive Fetches (m : Master.State Unit) : List Op → ℕ → Prop
  | idle (os : List Op) (hf : m.fsm = .idle) : Fetches m os 0
  | write (o : Op) (os : List Op) (hf : m.fsm = .writeData) (ho : o.we = true) : Fetches m (o :: os) 1
  | read (o : Op) (hf : m.fsm = .readData) (ho : o.we = false) : Fetches m [o] 1

theorem todo_append (os us : List Op) : todo (os ++ us) = todo os + todo us := by
  rw [todo, List.map_append, List.sum_append]
  rfl

theorem two_le_cost (o : Op) : 2 ≤ cost o := by
  unfold cost
  split_ifs <;> omega

theorem two_le_todo {os : List Op} (h : os ≠ []) : 2 ≤ todo os := by
  obtain ⟨o, us, rfl⟩ := List.exists_cons_of_ne_nil h
  exact (two_le_cost o).trans (Nat.le_add_right _ _)

theorem reads_append (l m : List (Op × BitVec 32)) : reads (l ++ m) = reads l ++ reads m :=
  List.filter_append _ _

/-! ## One cycle of the slave -/

section Slave

theorem waiting_of_ne {s : State A B} (h : s.slave ≠ .waitRead) : s.waiting = none := if_neg h

theorem sending_ne (o : Op) : o.sending ≠ .waitRead := by
  unfold Op.sending
  split_ifs <;> exact Fsm.noConfusion

variable {s : State A B} {i : In ε ε'} {b : Option (MmapBeat Unit)} {os : List Op} {k : ℕ}

theorem State.Waits.request {o : Op} (h : s.Waits o) : s.request i = none := by
  unfold State.request
  rw [h.slave]
  rfl

theorem State.Waits.bus {o : Op} (h : s.Waits o) : s.bus i = some o := by
  unfold State.bus
  rw [h.held]
  rfl

theorem State.Waits.waiting {o : Op} (h : s.Waits o) : s.waiting = some o := by
  unfold State.waiting
  rw [if_pos h.slave, h.held]

/-- It goes on to wait while nothing comes back. -/
theorem State.Waits.next {o : Op} (h : s.Waits o) (hresponse : s.response i = none) :
    s.acks i = none ∧ (s.next i).Waits o := by
  have hack : s.ack i = false := by
    unfold State.ack
    rw [h.slave, hresponse]
    rfl
  have hnext : (s.next i).slave = s.slave.next (s.bus i) (s.requestReady i) (s.response i) := rfl
  have hheld : (s.next i).held = if s.ack i then none else s.bus i := rfl
  rw [h.slave, hresponse] at hnext
  rw [hack, h.bus] at hheld
  refine ⟨?_, hnext, hheld, h.read⟩
  unfold State.acks
  rw [hack]
  rfl

/-- What the slave sends is a packet of one beat, and the one it has sent before, if that was refused. -/
theorem Sends.request (h : Sends s b os k) : (b = none ∨ b = s.request i) ∧ ∀ m, s.request i = some m → Single m := by
  cases h with
  | idle hf hheld hb hw =>
    refine ⟨.inl hb, fun m hm => ?_⟩
    unfold State.request at hm
    rw [hf] at hm
    cases hm
  | send o hf hheld hb hw =>
    have hrequest : s.request i = some o.beat := by
      unfold State.request State.bus
      rw [hf, hheld]
      exact sending_source o
    rw [hrequest]
    refine ⟨hb, fun m hm => ?_⟩
    rw [← Option.some.inj hm]
    exact single_beat o
  | wait o us h hb hw hos =>
    refine ⟨.inl hb, fun m hm => ?_⟩
    rw [h.request] at hm
    cases hm

/-- While nothing comes back, the slave sends its operation or goes on to wait; `gone` are those that leave the link. -/
theorem Sends.next (h : Sends s b os k) (hresponse : s.response i = none) {gone : Option Op} {us : List Op}
    (hos : os = gone.toList ++ us) (hgone : ∀ o, gone = some o → o.we = true) : ∃ (sent : Option Op) (k' : ℕ),
      (if s.requestReady i then s.request i else none) = sent.map Op.beat ∧
        Sends (s.next i) (if s.requestReady i then none else s.request i) (us ++ sent.toList) k' ∧
        (s.acks i).toList.map Prod.fst ++ (s.next i).waiting.toList = s.waiting.toList ++ sent.toList ∧
        reads (s.acks i).toList = [] ∧ (s.slave = .waitRead → sent = none) ∧
        (i.offer = none → k' + todo sent.toList < k ∨ k' = k ∧ b = s.request i ∧ sent = none) := by
  have hnext : (s.next i).slave = s.slave.next (s.bus i) (s.requestReady i) none := by rw [← hresponse]; rfl
  have hheld' : (s.next i).held = if s.slave.ack (s.requestReady i) none then none else s.bus i := by
    rw [← hresponse]
    rfl
  have hacks : s.acks i = if s.slave.ack (s.requestReady i) none then (s.bus i).map (·, s.slave.datR none) else none := by
    rw [← hresponse]
    rfl
  have hgoneMem : ∀ {p : Op → Prop}, (∀ o ∈ os, p o) → ∀ o ∈ us, p o := fun h o ho =>
    h o (hos ▸ List.mem_append_right _ ho)
  cases h with
  | idle hf hheld hb hw =>
    have hrequest : s.request i = none := by
      unfold State.request
      rw [hf]
      rfl
    have hbus : s.bus i = i.offer := by
      unfold State.bus
      rw [hheld, Option.none_or]
    have hwaiting : s.waiting = none := waiting_of_ne (hf.trans_ne Fsm.noConfusion)
    rw [hf] at hnext hheld' hacks
    have hheld'' : (s.next i).held = i.offer := hheld'.trans hbus
    have hacks' : s.acks i = none := hacks
    rw [hbus] at hnext
    rw [hrequest, hacks', hwaiting, ite_self]
    cases ho : i.offer with
    | none =>
      rw [ho] at hnext hheld''
      have hf' : (s.next i).slave = .idle := hnext
      refine ⟨none, 0, rfl, .idle hf' hheld'' rfl ?_, ?_, rfl, fun _ => rfl, fun _ => .inr ⟨rfl, hb, rfl⟩⟩
      · rw [Option.toList_none, List.append_nil]
        exact hgoneMem hw
      · rw [waiting_of_ne (hf'.trans_ne Fsm.noConfusion)]
        rfl
    | some o =>
      rw [ho] at hnext hheld''
      have hf' : (s.next i).slave = o.sending := hnext
      refine ⟨none, _, rfl, .send o hf' hheld'' (.inl rfl) ?_, ?_, rfl, fun _ => rfl, nofun⟩
      · rw [Option.toList_none, List.append_nil]
        exact hgoneMem hw
      · rw [waiting_of_ne (hf'.trans_ne (sending_ne o))]
        rfl
  | send o hf hheld hb hw =>
    have hbus : s.bus i = some o := by
      unfold State.bus
      rw [hheld]
      rfl
    have hrequest : s.request i = some o.beat := by
      unfold State.request
      rw [hf, hbus]
      exact sending_source o
    have hwaiting : s.waiting = none := waiting_of_ne (hf.trans_ne (sending_ne o))
    rw [hf, hbus] at hnext hheld' hacks
    rw [hrequest, hwaiting]
    cases hr : s.requestReady i with
    | false =>
      rw [hr] at hnext hheld' hacks
      have hf' : (s.next i).slave = o.sending := by
        rw [hnext, Op.sending]
        split_ifs <;> rfl
      have hack : Slave.Fsm.ack o.sending false none = false := by
        rw [Op.sending]
        split_ifs <;> rfl
      rw [hack] at hheld' hacks
      have hacks' : s.acks i = none := hacks
      rw [hacks']
      refine ⟨none, _, rfl, .send o hf' hheld' (.inr rfl) ?_, ?_, rfl, fun _ => rfl, fun _ => ?_⟩
      · rw [Option.toList_none, List.append_nil]
        exact hgoneMem hw
      · rw [waiting_of_ne (hf'.trans_ne (sending_ne o))]
        rfl
      · rcases hb with rfl | rfl
        · exact .inl (by simp [todo])
        · exact .inr ⟨rfl, rfl, rfl⟩
    | true =>
      rw [hr] at hnext hheld' hacks
      have hlt : 0 + todo [o] < cost o + if b = none then 2 else 1 := by
        rw [todo, List.map_singleton, List.sum_singleton]
        split_ifs <;> omega
      cases hwe : o.we with
      | true =>
        have hsending : o.sending = .sendWrite := if_pos hwe
        rw [hsending] at hnext hheld' hacks hf
        have hf' : (s.next i).slave = .idle := hnext
        have hacks' : s.acks i = some (o, 0) := hacks
        rw [hacks']
        refine ⟨some o, 0, rfl, .idle hf' hheld' rfl fun x hx => ?_, ?_, ?_, fun h => ?_, fun _ => .inl hlt⟩
        · rcases List.mem_append.1 hx with hx | hx
          · exact hgoneMem hw x hx
          · rw [List.mem_singleton.1 hx]
            exact hwe
        · rw [waiting_of_ne (hf'.trans_ne Fsm.noConfusion)]
          rfl
        · show reads [(o, 0)] = []
          simp [reads, hwe]
        · rw [hf] at h
          cases h
      | false =>
        have hsending : o.sending = .sendRead := if_neg (by rw [hwe]; exact Bool.false_ne_true)
        rw [hsending] at hnext hheld' hacks hf
        have hf' : (s.next i).slave = .waitRead := hnext
        have hacks' : s.acks i = none := hacks
        have hheld'' : (s.next i).held = some o := hheld'
        rw [hacks']
        refine ⟨some o, 0, rfl, .wait o us ⟨hf', hheld'', hwe⟩ rfl (hgoneMem hw) rfl, ?_, rfl, fun h => ?_, fun _ => .inl hlt⟩
        · unfold State.waiting
          rw [hf', hheld'']
          rfl
        · rw [hf] at h
          cases h
  | wait o vs h hb hw hos' =>
    obtain ⟨hacks', h'⟩ := h.next hresponse
    -- what leaves the link is a write, and so the read is still in it
    have hus : ∃ ws, us = ws ++ [o] ∧ ∀ o ∈ ws, o.we = true := by
      rw [hos] at hos'
      cases hg : gone with
      | none =>
        rw [hg] at hos'
        exact ⟨vs, hos', hw⟩
      | some g =>
        rw [hg] at hos'
        cases vs with
        | nil =>
          have hgo : g = o := (List.cons.inj hos').1
          exact absurd ((hgone g hg).symm.trans (hgo ▸ h.read)) Bool.noConfusion
        | cons v vs => exact ⟨vs, (List.cons.inj hos').2, fun x hx => hw x (List.mem_cons_of_mem v hx)⟩
    obtain ⟨ws, hws, hw'⟩ := hus
    rw [h.request, hacks', h.waiting, h'.waiting, ite_self]
    refine ⟨none, 0, rfl, .wait o ws h' rfl hw' ?_, rfl, rfl, fun _ => rfl, fun _ => .inr ⟨rfl, hb, rfl⟩⟩
    rw [Option.toList_none, List.append_nil, hws]

end Slave

/-- There is nothing to do for a slave that sends nothing, with nothing sent. -/
theorem Sends.quiet {s : State A B} {i : In ε ε'} {b : Option (MmapBeat Unit)} {k : ℕ} (h : Sends s b [] k)
    (hrequest : s.request i = none) : k = 0 := by
  cases h with
  | idle => rfl
  | send o hf hheld =>
    unfold State.request State.bus at hrequest
    rw [hf, hheld] at hrequest
    exact absurd ((sending_source o).symm.trans hrequest) (Option.some_ne_none _)
  | wait o us h hb hw hos => exact absurd hos.symm (List.append_ne_nil_of_right_ne_nil _ (List.cons_ne_nil _ _))

/-- A read is the last one, and it is waited for. -/
theorem Sends.reads_last {s : State A B} {b : Option (MmapBeat Unit)} {os : List Op} {k : ℕ} (h : Sends s b os k) :
    (∀ o us, os = o :: us → o.we = false → us = []) ∧ ((∃ o ∈ os, o.we = false) → s.slave = .waitRead) := by
  have hwrites : (∀ o ∈ os, o.we = true) → (∀ o us, os = o :: us → o.we = false → us = []) ∧
      ((∃ o ∈ os, o.we = false) → s.slave = .waitRead) := fun hw =>
    ⟨fun o us hos ho => absurd ((hw o (hos ▸ List.mem_cons_self)).symm.trans ho) Bool.noConfusion,
      fun ⟨o, hmem, ho⟩ => absurd ((hw o hmem).symm.trans ho) Bool.noConfusion⟩
  cases h with
  | idle hf hheld hb hw => exact hwrites hw
  | send o hf hheld hb hw => exact hwrites hw
  | wait o us h hb hw hos =>
    refine ⟨fun o' us' hos' ho' => ?_, fun _ => h.slave⟩
    rw [hos] at hos'
    cases us with
    | nil => exact (List.cons.inj hos').2.symm
    | cons u us =>
      have hu : u = o' := (List.cons.inj hos').1
      exact absurd ((hw u List.mem_cons_self).symm.trans (hu ▸ ho')) Bool.noConfusion

/-! ## One cycle of the master -/

section Master

variable {s : State A B} {i : In ε ε'} {os : List Op} {j : ℕ}

theorem bus_asked {m : Master.State Unit} {o : Op} (hf : m.fsm = if o.we then .writeData else .readData) :
    m.bus (some o.asked) = o.access := by
  have hwe := asked_we o
  rw [← access_asked, Master.access, hwe]
  unfold Master.State.bus
  rw [hf]
  cases o.we <;> rfl

/-- The master has no answer to give, and its registers after a clock edge. -/
theorem Fetches.answer_none (h : Fetches s.master os j) : s.answer i = none := by
  unfold State.answer Master.State.source
  cases h with
  | idle _ hf => rw [hf]
  | write _ _ hf => rw [hf]
  | read _ hf => rw [hf]

/-- The master waits for a beat, or for the bus, or carries out a write, or a read; only the answer to a read ends this
phase. -/
theorem Fetches.next (h : Fetches s.master os j) (hshown : ∀ m, s.beat i = some m → ∃ o us, os = o :: us ∧ m = o.asked)
    (hlast : ∀ o us, os = o :: us → o.we = false → us = []) :
    (∃ (gone : Option Op) (us : List Op) (j' : ℕ), os = gone.toList ++ us ∧ (∀ o, gone = some o → o.we = true) ∧
      (if s.beatReady i then s.beat i else none) = gone.map Op.asked ∧
      s.accesses i = gone.map (fun o => carriedOut (o, i.remote.datR)) ∧
      (∀ sent : Option Op, ((∃ o ∈ os, o.we = false) → sent = none) →
        Fetches (s.next i).master (us ++ sent.toList) j') ∧
      (i.remote.ack = true → j < j' + todo gone.toList ∨ j' = j ∧ s.beat i = none ∧ gone = none)) ∨
    ∃ o, os = [o] ∧ o.we = false ∧ s.beat i = some o.asked ∧ s.beatReady i = false ∧
      s.accesses i = some (carriedOut (o, i.remote.datR)) ∧ (s.next i).master.fsm = .sendData ∧
      (s.next i).master.source (some o.asked) = some (Master.answer o.asked i.remote.datR) := by
  have hnext : (s.next i).master =
      s.master.next (s.beat i) i.remote.undriven i.remote.ack i.remote.datR (s.answerReady i) := rfl
  have hready : s.beatReady i = s.master.sinkReady (s.beat i) i.remote.ack (s.answerReady i) := rfl
  have haccesses : s.accesses i = if (s.master.bus (s.beat i)).stb && i.remote.ack then
    some (s.master.bus (s.beat i), i.remote.datR) else none := rfl
  cases h with
  | idle _ hf =>
    have hstb : ((s.master.bus (s.beat i)).stb && i.remote.ack) = false := by
      unfold Master.State.bus
      rw [hf]
      rfl
    have hgiven : (if s.beatReady i then s.beat i else none) = none := by
      rw [hready]
      unfold Master.State.sinkReady
      rw [hf]
      cases s.beat i <;> rfl
    have hfsm : (s.next i).master.fsm = if (s.beat i).isSome then
        (if ((s.beat i).getD i.remote.undriven).we then .writeData else .readData) else .idle := by
      rw [hnext]
      unfold Master.State.next
      rw [hf]
    rw [hstb] at haccesses
    left
    cases hbeat : s.beat i with
    | none =>
      rw [hbeat] at hfsm hgiven
      exact ⟨none, os, 0, rfl, nofun, hgiven, haccesses, fun _ _ => .idle _ hfsm, fun _ => .inr ⟨rfl, rfl, rfl⟩⟩
    | some m =>
      obtain ⟨o, us, rfl, rfl⟩ := hshown m hbeat
      rw [hbeat] at hfsm hgiven
      rw [Option.isSome_some, if_pos rfl, Option.getD_some, asked_we] at hfsm
      refine ⟨none, _, 1, rfl, nofun, hgiven, haccesses, fun sent hsent => ?_, fun _ => .inl Nat.one_pos⟩
      cases ho : o.we with
      | true =>
        rw [ho] at hfsm
        exact .write o _ hfsm ho
      | false =>
        rw [ho] at hfsm
        obtain rfl := hlast o us rfl ho
        rw [hsent ⟨o, List.mem_cons_self, ho⟩]
        exact .read o hfsm ho
  | write o us hf ho =>
    left
    have hisSome : (s.master.bus (s.beat i)).stb = (s.beat i).isSome := by
      unfold Master.State.bus
      rw [hf]
    have hfsm : (s.next i).master.fsm = if (s.master.bus (s.beat i)).stb && i.remote.ack &&
        ((s.beat i).getD i.remote.undriven).last then .idle else .writeData := by
      rw [hnext]
      unfold Master.State.next
      rw [hf]
    have hready' : s.beatReady i = ((s.master.bus (s.beat i)).stb && i.remote.ack) := by
      rw [hready]
      unfold Master.State.sinkReady
      rw [hf]
    rw [hready']
    cases hstb : (s.master.bus (s.beat i)).stb && i.remote.ack with
    | false =>
      rw [hstb] at haccesses hfsm
      refine ⟨none, o :: us, 1, rfl, nofun, rfl, haccesses, fun _ _ => .write o _ hfsm ho, fun hack => .inr ⟨rfl, ?_, rfl⟩⟩
      rw [hisSome, hack, Bool.and_true] at hstb
      exact Option.isSome_eq_false_iff.1 hstb |> Option.isNone_iff_eq_none.1
    | true =>
      have hsome := hstb
      rw [hisSome, Bool.and_eq_true] at hsome
      obtain ⟨m, hbeat⟩ := Option.isSome_iff_exists.1 hsome.1
      obtain ⟨o', us', hos, rfl⟩ := hshown m hbeat
      obtain ⟨rfl, rfl⟩ := List.cons.inj hos
      rw [hstb] at haccesses hfsm
      rw [hbeat] at haccesses hfsm
      rw [Bool.true_and, Option.getD_some, asked_last, if_pos rfl] at hfsm
      rw [bus_asked (by rw [hf, ho]; rfl)] at haccesses
      refine ⟨some o, us, 0, rfl, fun x hx => ?_, hbeat, haccesses, fun _ _ => .idle _ hfsm, fun _ => .inl ?_⟩
      · rw [← Option.some.inj hx]
        exact ho
      · rw [Option.toList_some, todo, List.map_singleton, List.sum_singleton, cost, if_pos ho]
        exact Nat.one_lt_two
  | read o hf ho =>
    have hisSome : (s.master.bus (s.beat i)).stb = (s.beat i).isSome := by
      unfold Master.State.bus
      rw [hf]
    have hready' : s.beatReady i = false := by
      rw [hready]
      unfold Master.State.sinkReady
      rw [hf]
    cases hstb : (s.master.bus (s.beat i)).stb && i.remote.ack with
    | false =>
      left
      have hfsm : (s.next i).master.fsm = .readData := by
        rw [hnext]
        unfold Master.State.next
        rw [hf, hstb, Bool.and_assoc, hstb]
        rfl
      rw [hstb] at haccesses
      rw [hready']
      refine ⟨none, [o], 1, rfl, nofun, rfl, haccesses, fun sent hsent => ?_, fun hack => .inr ⟨rfl, ?_, rfl⟩⟩
      · rw [hsent ⟨o, List.mem_cons_self, ho⟩]
        exact .read o hfsm ho
      · rw [hisSome, hack, Bool.and_true] at hstb
        exact Option.isSome_eq_false_iff.1 hstb |> Option.isNone_iff_eq_none.1
    | true =>
      right
      have hsome := hstb
      rw [hisSome, Bool.and_eq_true] at hsome
      obtain ⟨m, hbeat⟩ := Option.isSome_iff_exists.1 hsome.1
      obtain ⟨o', us', hos, rfl⟩ := hshown m hbeat
      obtain ⟨rfl, rfl⟩ := List.cons.inj hos
      rw [hstb, hbeat, bus_asked (by rw [hf, ho]; rfl), if_pos rfl] at haccesses
      have hmaster : (s.next i).master = ⟨.sendData, true, o.asked.count, o.asked.baseAddr, o.asked.be, o.asked.addr,
          ⟨i.remote.datR, o.asked.addr.tag⟩⟩ := by
        rw [hnext]
        unfold Master.State.next
        rw [hf, hstb, Bool.and_assoc, hstb, hbeat]
        rfl
      refine ⟨o, rfl, ho, hbeat, hready', haccesses, ?_, ?_⟩
      · rw [hmaster]
      · rw [hmaster]
        rfl

end Master

section Phase

variable {H : ε → Prop} {H' : ε' → Prop} (L : Stage.Queueing H A (.beatwise carried Single))
  (L' : Stage.Queueing H' B (.beatwise carried Single))

/-- The operations acknowledged are `l`, those carried out `served`: operations are on their way, or a read has been
carried out and its answer waits at the link back, or is on it. -/
inductive Phase (s : State A B) (l served : List (Op × BitVec 32)) : ℕ → L'.W → L.W → Prop
  | forth (b : Option (MmapBeat Unit)) (os : List Op) (k j n : ℕ) (v : L'.W) (w : L.W)
      (hforth : L.Rel ⟨s.forth, b⟩ () (os.map Op.asked) w) (hback : L'.Rel ⟨s.back, none⟩ () [] v)
      (hsends : Sends s b os k) (hfetches : Fetches s.master os j) (hn : n + j = k + todo os)
      (hserved : served.map Prod.fst ++ os = l.map Prod.fst ++ s.waiting.toList) (hreads : reads l = reads served) :
      Phase s l served n v w
  | answer (o : Op) (d : BitVec 32) (b : Option (MmapBeat Unit)) (served₀ : List (Op × BitVec 32)) (n : ℕ) (v : L'.W)
      (w : L.W) (hwaits : s.Waits o) (hforth : L.Rel ⟨s.forth, none⟩ () [o.asked] w)
      (hshown : ∀ e, A.source s.forth e none = some o.asked) (hmaster : s.master.fsm = .sendData)
      (hsource : s.master.source (some o.asked) = some (Master.answer o.asked d)) (hback : L'.Rel ⟨s.back, b⟩ () [] v)
      (hb : b = none ∨ b = some (Master.answer o.asked d)) (hn : n = if b = none then 3 else 2)
      (hserved : served = served₀ ++ [(o, d)]) (hl : served₀.map Prod.fst = l.map Prod.fst)
      (hreads : reads l = reads served₀) : Phase s l served n v w
  | back (o : Op) (d : BitVec 32) (served₀ : List (Op × BitVec 32)) (v : L'.W) (w : L.W) (hwaits : s.Waits o)
      (hforth : L.Rel ⟨s.forth, none⟩ () [] w) (hmaster : s.master.fsm = .idle)
      (hback : L'.Rel ⟨s.back, none⟩ () [o.returned d] v) (hserved : served = served₀ ++ [(o, d)])
      (hl : served₀.map Prod.fst = l.map Prod.fst) (hreads : reads l = reads served₀) : Phase s l served 1 v w

variable (H H') in
/-- A cycle in which the links get on and the remote bus acknowledges; no operation is new. -/
structure Helps (i : In ε ε') : Prop where
  offer : i.offer = none
  forth : H i.forth
  back : H' i.back
  ack : i.remote.ack = true

variable {L L'} {s : State A B} {i : In ε ε'} {l served : List (Op × BitVec 32)} {n : ℕ} {v : L'.W} {w : L.W}

/-- The link back, with nothing on it. -/
theorem back_rests (hback : L'.Rel ⟨s.back, none⟩ () [] v) (hanswer : s.answer i = none) : s.response i = none ∧
    ∃ v', L'.Rel ⟨(s.next i).back, none⟩ () [] v' ∧ (H' i.back → v' ≤ v) := by
  obtain ⟨p, v', hstep⟩ := L'.step i.back s.slave.sinkReady (.inl rfl) hback (a := s.answer i) (by rw [hanswer]; nofun)
  have hresponse : s.response i = none := by
    by_contra hne
    obtain ⟨m, hm⟩ := Option.ne_none_iff_exists'.1 hne
    obtain ⟨ms, hms⟩ := L'.shown hback (.inl rfl) hm
    cases hms
  have hsource : B.source s.back i.back (s.answer i) = none := hresponse
  have hmoves := hstep.moves
  have hrel := hstep.rel
  rw [hsource, hanswer, ite_self, ite_self] at hmoves
  obtain rfl : [] = p := hmoves
  rw [hanswer, ite_self] at hrel
  have hnext : (s.next i).back = B.step s.back i.back none s.slave.sinkReady := by rw [← hanswer]; rfl
  refine ⟨hresponse, v', hnext ▸ hrel, fun hH => ?_⟩
  rcases hstep.progress hH hanswer.symm (fun _ => hanswer) (fun _ => hsource) with ⟨-, -, h⟩ | ⟨h, -⟩ | h
  · exact h
  · exact absurd hsource h
  · exact h.le

theorem credit_le {m : Master.State Unit} {os : List Op} {j : ℕ} (h : Fetches m os j) : j ≤ todo os := by
  cases h with
  | idle => exact Nat.zero_le _
  | write o us => exact one_le_two.trans (two_le_todo (List.cons_ne_nil o us))
  | read o => exact one_le_two.trans (two_le_todo (List.cons_ne_nil o []))

/-- What has become of the operations after a cycle: of those carried out `x` is new, and if all goes well something has
moved, unless there was nothing to do. -/
def Goes (L : Stage.Queueing H A (.beatwise carried Single)) (L' : Stage.Queueing H' B (.beatwise carried Single))
    (s : State A B) (i : In ε ε') (l served : List (Op × BitVec 32)) (n : ℕ) (v : L'.W) (w : L.W) : Prop :=
  ∃ (x : Option (Op × BitVec 32)) (n' : ℕ) (v' : L'.W) (w' : L.W), s.accesses i = x.map carriedOut ∧
    Phase L L' (s.next i) (l ++ (s.acks i).toList) (served ++ x.toList) n' v' w' ∧
    (Helps H H' i → n = 0 ∨ n' < n ∨ n' ≤ n ∧ (v' < v ∨ v' ≤ v ∧ w' < w))

/-- Operations on their way to the master. -/
theorem Goes.forth {b : Option (MmapBeat Unit)} {os : List Op} {k j : ℕ} (hforth : L.Rel ⟨s.forth, b⟩ () (os.map Op.asked) w)
    (hback : L'.Rel ⟨s.back, none⟩ () [] v) (hsends : Sends s b os k) (hfetches : Fetches s.master os j)
    (hn : n + j = k + todo os) (hserved : served.map Prod.fst ++ os = l.map Prod.fst ++ s.waiting.toList)
    (hreads : reads l = reads served) : Goes L L' s i l served n v w := by
  obtain ⟨hb, hsingle⟩ := hsends.request (i := i)
  obtain ⟨p, w', hstep⟩ := L.step i.forth (s.beatReady i) hb hforth hsingle
  have hshown : ∀ m, s.beat i = some m → ∃ o us, os = o :: us ∧ m = o.asked := fun m hm => by
    obtain ⟨ms, hms⟩ := L.shown hforth hb hm
    obtain ⟨o, us, rfl, rfl, -⟩ := List.map_eq_cons_iff.1 hms
    exact ⟨o, us, rfl, rfl⟩
  obtain ⟨hlast, hwait⟩ := hsends.reads_last
  obtain ⟨hresponse, v', hback', hv⟩ := back_rests hback (hfetches.answer_none (i := i))
  rcases hfetches.next hshown hlast with ⟨gone, us, j', rfl, hgone, hgiven, haccesses, hfetches', hprogM⟩ |
    ⟨o, rfl, hread, hbeat, hready, haccesses, hfsm, hsource⟩
  · obtain ⟨sent, k', hsent, hsends', hwaiting, hreads', hsentNone, hprogS⟩ := hsends.next hresponse rfl hgone
    have hsent' : (if A.ready s.forth i.forth (s.request i) (s.beatReady i) then s.request i else none) =
        sent.map Op.beat := hsent
    have hgiven' : (if s.beatReady i then A.source s.forth i.forth (s.request i) else none) = gone.map Op.asked := hgiven
    have hp : p = (us ++ sent.toList).map Op.asked := by
      have hmoves := hstep.moves
      rw [hsent', hgiven', List.map_append, Option.map_map, Option.toList_map, Option.toList_map, List.append_assoc] at hmoves
      rw [List.map_append]
      exact (List.append_cancel_left hmoves).symm
    have hfetches'' := hfetches' sent fun h => hsentNone (hwait h)
    have hcredit := credit_le hfetches''
    have hrel : L.Rel ⟨(s.next i).forth, if s.requestReady i then none else s.request i⟩ ()
        ((us ++ sent.toList).map Op.asked) w' := hp ▸ hstep.rel
    refine ⟨gone.map (·, i.remote.datR), k' + todo (us ++ sent.toList) - j', v', w', ?_,
      .forth _ _ k' j' _ v' w' hrel hback' hsends' hfetches'' (by omega) ?_ ?_, fun hhelp => ?_⟩
    · rw [haccesses, Option.map_map]
      rfl
    · have hfst : (gone.map fun o => (o, i.remote.datR)).toList.map Prod.fst = gone.toList := by cases gone <;> rfl
      rw [List.map_append, hfst, List.map_append, List.append_assoc, List.append_assoc, hwaiting, ← List.append_assoc,
        ← List.append_assoc, ← List.append_assoc, ← hserved]
      simp only [List.append_assoc]
    · have hwrites : reads (gone.map fun o => (o, i.remote.datR)).toList = [] := by
        cases hg : gone with
        | none => rfl
        | some o => simp [reads, hgone o hg]
      rw [reads_append, reads_append, hreads', hwrites, hreads]
    · have h0 : todo (none : Option Op).toList = 0 := rfl
      rw [todo_append] at hn hcredit ⊢
      rcases hprogM hhelp.ack with hM | ⟨rfl, hbeat, rfl⟩
      · rcases hprogS hhelp.offer with hS | ⟨rfl, -, rfl⟩
        · exact .inr (.inl (by omega))
        · exact .inr (.inl (by omega))
      · rcases hprogS hhelp.offer with hS | ⟨rfl, hbeq, rfl⟩
        · exact .inr (.inl (by omega))
        · -- neither side moves: the link does
          have hsource : A.source s.forth i.forth (s.request i) = none := hbeat
          have hready : A.ready s.forth i.forth (s.request i) (s.beatReady i) = true → s.request i = none := fun h => by
            rwa [if_pos h] at hsent'
          rcases hstep.progress hhelp.forth hbeq hready (fun _ => hsource) with ⟨hrequest, hnil, -⟩ | ⟨h, -⟩ | h
          · obtain rfl : us = [] := List.map_eq_nil_iff.1 hnil
            have hk := hsends.quiet hrequest
            have hnone : todo [] = 0 := rfl
            exact .inl (by omega)
          · exact absurd hsource h
          · exact .inr (.inr ⟨by omega, .inr ⟨hv hhelp.back, h⟩⟩)
  · -- the read is the only one, and its word is there
    cases hsends with
    | idle hf hheld hb hw => exact absurd ((hw o List.mem_cons_self).symm.trans hread) Bool.noConfusion
    | send o' hf hheld hb hw => exact absurd ((hw o List.mem_cons_self).symm.trans hread) Bool.noConfusion
    | wait o' us h hb hw hos =>
      obtain ⟨rfl, rfl⟩ : us = [] ∧ o = o' := by
        cases us with
        | nil => exact ⟨rfl, (List.cons.inj hos).1⟩
        | cons u us => exact absurd (List.cons.inj hos).2.symm (List.append_ne_nil_of_right_ne_nil _ (List.cons_ne_nil _ _))
      obtain ⟨hacks, h'⟩ := h.next hresponse
      have hrequest := h.request (i := i)
      have hmoves := hstep.moves
      have hrel := hstep.rel
      have hstable := hstep.stable o.asked hbeat hready
      rw [hrequest, ite_self, hready] at hmoves hrel hstable
      obtain rfl : [o.asked] = p := hmoves
      have hforth' : (s.next i).forth = A.step s.forth i.forth none false := by rw [← hrequest, ← hready]; rfl
      rw [h.waiting] at hserved
      refine ⟨some (o, i.remote.datR), 3, v', w', haccesses, .answer o i.remote.datR none served 3 v' w' h'
        (hforth' ▸ hrel) (fun e => hforth' ▸ hstable e none rfl) hfsm hsource hback' (.inl rfl) rfl rfl ?_ ?_,
        fun _ => .inr (.inl ?_)⟩
      · rw [hacks, Option.toList_none, List.append_nil]
        exact List.append_cancel_right hserved
      · rw [hacks, Option.toList_none, List.append_nil]
        exact hreads
      · have hcost : todo [o] = 5 := by simp [todo, cost, hread]
        cases hfetches <;> omega

/-- A word that waits at the link back. -/
theorem Goes.answer {o : Op} {d : BitVec 32} {b : Option (MmapBeat Unit)} {served₀ : List (Op × BitVec 32)}
    (hwaits : s.Waits o) (hforth : L.Rel ⟨s.forth, none⟩ () [o.asked] w)
    (hshown : ∀ e, A.source s.forth e none = some o.asked) (hmaster : s.master.fsm = .sendData)
    (hsource : s.master.source (some o.asked) = some (Master.answer o.asked d)) (hback : L'.Rel ⟨s.back, b⟩ () [] v)
    (hb : b = none ∨ b = some (Master.answer o.asked d)) (hl : served₀.map Prod.fst = l.map Prod.fst)
    (hreads : reads l = reads served₀) :
    Goes L L' s i l (served₀ ++ [(o, d)]) (if b = none then 3 else 2) v w := by
  have hrequest := hwaits.request (i := i)
  have hbeat : s.beat i = some o.asked := by
    unfold State.beat
    rw [hrequest]
    exact hshown _
  have hanswer : s.answer i = some (Master.answer o.asked d) := by
    unfold State.answer
    rw [hbeat]
    exact hsource
  have hbeatReady : s.beatReady i = s.answerReady i := by
    unfold State.beatReady Master.State.sinkReady
    rw [hmaster]
  have haccesses : s.accesses i = none := by
    unfold State.accesses Master.State.bus
    rw [hmaster]
    rfl
  -- the response goes back, so that the request side is silent
  have hsink : s.slave.sinkReady = true := by
    rw [hwaits.slave]
    rfl
  have hresponse : s.response i = none := by
    by_contra hne
    obtain ⟨m, hm⟩ := Option.ne_none_iff_exists'.1 hne
    obtain ⟨ms, hms⟩ := L'.shown hback (hanswer.symm ▸ hb) hm
    cases hms
  obtain ⟨hacks, hwaits'⟩ := hwaits.next hresponse
  obtain ⟨p, w', hstep⟩ := L.step i.forth (s.beatReady i) (.inl rfl) hforth (a := none) nofun
  obtain ⟨p', v', hstep'⟩ := L'.step i.back s.slave.sinkReady hb hback fun m hm => by
    rw [← Option.some.inj hm]
    exact single_answer o d
  have hnext : (s.next i).master = { s.master with fsm := if s.answerReady i then .idle else .sendData } := by
    have h := Master.next_answer (t := ()) (s := ⟨s.master, some o.asked⟩) (i := ⟨i.remote, none, s.answerReady i⟩) hmaster rfl
      hsource
    rw [asked_last, if_pos rfl] at h
    rw [← h]
    show s.master.next (s.beat i) _ _ _ _ = _
    rw [hbeat]
    rfl
  have hforth' : (s.next i).forth = A.step s.forth i.forth none (s.beatReady i) := by rw [← hrequest]; rfl
  have hback' : (s.next i).back =
      B.step s.back i.back (some (Master.answer o.asked d)) s.slave.sinkReady := by rw [← hanswer]; rfl
  have hready : B.ready s.back i.back (some (Master.answer o.asked d)) s.slave.sinkReady = s.answerReady i := by
    rw [← hanswer]
    rfl
  have hnone : B.source s.back i.back (some (Master.answer o.asked d)) = none := by
    rw [← hanswer]
    exact hresponse
  have hmoves := hstep.moves
  have hmoves' := hstep'.moves
  have hrel := hstep.rel
  have hrel' := hstep'.rel
  rw [ite_self, hshown, hbeatReady] at hmoves
  rw [hready, hnone, ite_self] at hmoves'
  rw [ite_self, ← hforth'] at hrel
  rw [hready, ← hback'] at hrel'
  cases hr : s.answerReady i with
  | true =>
    rw [hr] at hmoves hmoves' hrel' hnext
    obtain rfl : [] = p := List.append_cancel_left hmoves
    obtain rfl : [o.returned d] = p' := hmoves'
    refine ⟨none, 1, v', w', haccesses, ?_, fun _ => .inr (.inl ?_)⟩
    · rw [hacks, Option.toList_none, List.append_nil, List.append_nil]
      exact .back o d served₀ v' w' hwaits' hrel (congrArg Master.State.fsm hnext) hrel' rfl hl hreads
    · split_ifs <;> omega
  | false =>
    rw [hr] at hmoves hmoves' hrel' hnext hbeatReady hready
    obtain rfl : [o.asked] = p := hmoves
    obtain rfl : [] = p' := hmoves'
    refine ⟨none, 2, v', w', haccesses, ?_, fun hhelp => .inr ?_⟩
    · rw [hacks, Option.toList_none, List.append_nil, List.append_nil]
      refine .answer o d _ served₀ 2 v' w' hwaits' hrel (fun e => ?_) (congrArg Master.State.fsm hnext) ?_ hrel' (.inr rfl)
        rfl rfl hl hreads
      · rw [hforth']
        exact hstep.stable o.asked (hshown _) hbeatReady e none (by rw [ite_self]; rfl)
      · rw [hnext, ← hmaster]
        exact hsource
    · rcases hb with rfl | rfl
      · exact .inl (Nat.lt_succ_self 2)
      · rw [if_neg (Option.some_ne_none _)]
        rcases hstep'.progress hhelp.back rfl (fun h => absurd (hready.symm.trans h) Bool.noConfusion) (fun _ => hnone) with
          ⟨h, -⟩ | ⟨h, -⟩ | h
        · cases h
        · exact absurd hnone h
        · exact .inr ⟨le_rfl, .inl h⟩

/-- A word on the link back. -/
theorem Goes.back {o : Op} {d : BitVec 32} {served₀ : List (Op × BitVec 32)} (hwaits : s.Waits o)
    (hforth : L.Rel ⟨s.forth, none⟩ () [] w) (hmaster : s.master.fsm = .idle)
    (hback : L'.Rel ⟨s.back, none⟩ () [o.returned d] v) (hl : served₀.map Prod.fst = l.map Prod.fst)
    (hreads : reads l = reads served₀) : Goes L L' s i l (served₀ ++ [(o, d)]) 1 v w := by
  have hrequest := hwaits.request (i := i)
  have hsink : s.slave.sinkReady = true := by
    rw [hwaits.slave]
    rfl
  -- the request is served already, nothing is on the way forth
  have hbeat : s.beat i = none := by
    by_contra hne
    obtain ⟨m, hm⟩ := Option.ne_none_iff_exists'.1 hne
    obtain ⟨ms, hms⟩ := L.shown hforth (.inl rfl) hm
    cases hms
  have hanswer : s.answer i = none := by
    unfold State.answer Master.State.source
    rw [hmaster]
  have haccesses : s.accesses i = none := by
    unfold State.accesses Master.State.bus
    rw [hmaster]
    rfl
  have hmaster' : (s.next i).master.fsm = .idle := by
    show (s.master.next (s.beat i) _ _ _ _).fsm = _
    unfold Master.State.next
    rw [hmaster, hbeat]
    rfl
  obtain ⟨p, w', hstep⟩ := L.step i.forth (s.beatReady i) (.inl rfl) hforth (a := none) nofun
  obtain ⟨p', v', hstep'⟩ := L'.step i.back s.slave.sinkReady (.inl rfl) hback (a := none) nofun
  have hforth' : (s.next i).forth = A.step s.forth i.forth none (s.beatReady i) := by rw [← hrequest]; rfl
  have hback' : (s.next i).back = B.step s.back i.back none s.slave.sinkReady := by rw [← hanswer]; rfl
  have hshown : A.source s.forth i.forth none = none := hrequest ▸ hbeat
  have hresponse : B.source s.back i.back none = s.response i := by rw [← hanswer]; rfl
  have hmoves := hstep.moves
  have hmoves' := hstep'.moves
  have hrel := hstep.rel
  have hrel' := hstep'.rel
  rw [ite_self, hshown, ite_self] at hmoves
  rw [ite_self, hsink, if_pos rfl, hresponse] at hmoves'
  rw [ite_self, ← hforth'] at hrel
  rw [ite_self, ← hback'] at hrel'
  obtain rfl : [] = p := hmoves
  cases hm : s.response i with
  | none =>
    rw [hm] at hmoves' hresponse
    obtain rfl : [o.returned d] = p' := hmoves'
    obtain ⟨hacks, hwaits'⟩ := hwaits.next hm
    refine ⟨none, 1, v', w', haccesses, ?_, fun hhelp => .inr ?_⟩
    · rw [hacks, Option.toList_none, List.append_nil, List.append_nil]
      exact .back o d served₀ v' w' hwaits' hrel hmaster' hrel' rfl hl hreads
    · rcases hstep'.progress hhelp.back rfl (fun _ => rfl) (fun _ => hresponse) with ⟨-, h, -⟩ | ⟨h, -⟩ | h
      · cases h
      · exact absurd hresponse h
      · exact .inr ⟨le_rfl, .inl h⟩
  | some m =>
    rw [hm] at hmoves'
    obtain ⟨rfl, rfl⟩ : o.returned d = m ∧ [] = p' := List.cons.inj hmoves'
    obtain ⟨hwe, hdata⟩ := returned_eq o d
    -- a response that arrives acknowledges the access, with the data of the remote bus
    have hack : s.ack i = true := by
      unfold State.ack
      rw [hwaits.slave, hm]
      exact hwe
    have hacks : s.acks i = some (o, d) := by
      unfold State.acks
      rw [hack, if_pos rfl, hwaits.bus, hwaits.slave, hm]
      rfl
    have hslave : (s.next i).slave = .idle := by
      show s.slave.next _ _ (s.response i) = _
      rw [hwaits.slave, hm]
      rfl
    have hheld : (s.next i).held = none := if_pos hack
    refine ⟨none, 0, v', w', haccesses, ?_, fun _ => .inr (.inl Nat.one_pos)⟩
    rw [hacks, Option.toList_none, Option.toList_some, List.append_nil]
    refine .forth none [] 0 0 0 v' w' hrel hrel' (.idle hslave hheld rfl nofun) (.idle [] hmaster') rfl ?_ ?_
    · rw [waiting_of_ne (hslave.trans_ne Fsm.noConfusion), List.map_append, List.map_append, hl]
      rfl
    · rw [reads_append, reads_append, hreads]

/-- One cycle. -/
theorem Phase.goes (h : Phase L L' s l served n v w) (i : In ε ε') : Goes L L' s i l served n v w := by
  cases h with
  | forth b os k j n v w hforth hback hsends hfetches hn hserved hreads =>
    exact .forth hforth hback hsends hfetches hn hserved hreads
  | answer o d b served₀ n v w hwaits hforth hshown hmaster hsource hback hb hn hserved hl hreads =>
    subst hn hserved
    exact .answer hwaits hforth hshown hmaster hsource hback hb hl hreads
  | back o d served₀ v w hwaits hforth hmaster hback hserved hl hreads =>
    subst hserved
    exact .back hwaits hforth hmaster hback hl hreads

/-- What is held and what is new is acknowledged or held on. -/
theorem State.held_offers (s : State A B) (i : In ε ε') :
    s.held.toList ++ (s.offers i).toList = (s.acks i).toList.map Prod.fst ++ (s.next i).held.toList := by
  have hbus : s.held.toList ++ (s.offers i).toList = (s.bus i).toList := by
    unfold State.offers State.bus
    cases s.held with
    | none => rfl
    | some o => rfl
  have hheld : (s.next i).held = if s.ack i then none else s.bus i := rfl
  rw [hbus, hheld]
  unfold State.acks
  cases s.ack i with
  | false => rfl
  | true => cases s.bus i <;> rfl

theorem run_concat (is : List (In ε ε')) (i : In ε ε') :
    (system A B).run (is ++ [i]) = ((system A B).run is).next i := (system A B).runFrom_concat _ is i

/-- Each operation of the local bus is acknowledged, or the bus still holds it. -/
theorem offered_eq (is : List (In ε ε')) :
    offered A B is = (acknowledged A B is).map Prod.fst ++ ((system A B).run is).held.toList := by
  induction is using List.reverseRecOn with
  | nil => rfl
  | append_singleton is i ih =>
    have hcycle := State.held_offers ((system A B).run is) i
    unfold offered acknowledged at ih ⊢
    rw [run_concat, Machine.log_concat, Machine.log_concat, ih, List.map_append, List.append_assoc, List.append_assoc]
    exact congrArg _ hcycle

/-! ## Runs -/

/-- After a run, the operations acknowledged are in their phase, with `served` carried out. -/
structure Tracks (L : Stage.Queueing H A (.beatwise carried Single)) (L' : Stage.Queueing H' B (.beatwise carried Single))
    (is : List (In ε ε')) (served : List (Op × BitVec 32)) (n : ℕ) (v : L'.W) (w : L.W) : Prop where
  phase : Phase L L' ((system A B).run is) (acknowledged A B is) served n v w
  accesses : performed A B is = served.map carriedOut

variable (L L') in
theorem Tracks.reset : ∃ v w, Tracks L L' [] [] 0 v w := by
  obtain ⟨w, hw⟩ := L.reset
  obtain ⟨v, hv⟩ := L'.reset
  exact ⟨v, w, .forth none [] 0 0 0 v w hw hv (.idle rfl rfl rfl nofun) (.idle [] rfl) rfl rfl rfl, rfl⟩

variable {is : List (In ε ε')}

theorem Tracks.concat (h : Tracks L L' is served n v w) (i : In ε ε') : ∃ (x : Option (Op × BitVec 32)) (n' : ℕ)
    (v' : L'.W) (w' : L.W), Tracks L L' (is ++ [i]) (served ++ x.toList) n' v' w' ∧
      (Helps H H' i → n = 0 ∨ n' < n ∨ n' ≤ n ∧ (v' < v ∨ v' ≤ v ∧ w' < w)) := by
  obtain ⟨x, n', v', w', haccesses, hphase, hprog⟩ := h.phase.goes i
  refine ⟨x, n', v', w', ⟨?_, ?_⟩, hprog⟩
  · rw [run_concat, acknowledged, Machine.log_concat]
    exact hphase
  · have hperformed := h.accesses
    unfold performed at hperformed ⊢
    rw [Machine.log_concat, hperformed, List.map_append, ← Option.toList_map, ← haccesses]
    rfl

variable (L L' is) in
theorem Tracks.run : ∃ served n v w, Tracks L L' is served n v w := by
  induction is using List.reverseRecOn with
  | nil =>
    obtain ⟨v, w, h⟩ := Tracks.reset L L'
    exact ⟨[], 0, v, w, h⟩
  | append_singleton is i ih =>
    obtain ⟨served, n, v, w, h⟩ := ih
    obtain ⟨x, n', v', w', h', -⟩ := h.concat i
    exact ⟨_, n', v', w', h'⟩

end Phase

/-- The remote bus has carried out `served`, with the words it has shown for them: the first operations of the local bus,
and the reads acknowledged are the first of its reads, with these words. -/
structure Accounts (A : Stage ε (MmapBeat Unit) (MmapBeat Unit)) (B : Stage ε' (MmapBeat Unit) (MmapBeat Unit))
    (is : List (In ε ε')) (served : List (Op × BitVec 32)) : Prop where
  accesses : performed A B is = served.map carriedOut
  order : served.map Prod.fst <+: offered A B is
  acks : (acknowledged A B is).map Prod.fst <+: offered A B is
  words : reads (acknowledged A B is) <+: reads served

/-- It has carried out all of them, all are acknowledged, and the reads with its words. -/
structure Completes (A : Stage ε (MmapBeat Unit) (MmapBeat Unit)) (B : Stage ε' (MmapBeat Unit) (MmapBeat Unit))
    (is : List (In ε ε')) (served : List (Op × BitVec 32)) : Prop where
  accesses : performed A B is = served.map carriedOut
  order : served.map Prod.fst = offered A B is
  acks : (acknowledged A B is).map Prod.fst = offered A B is
  words : reads (acknowledged A B is) = reads served

section Tracks

variable {H : ε → Prop} {H' : ε' → Prop} {L : Stage.Queueing H A (.beatwise carried Single)}
  {L' : Stage.Queueing H' B (.beatwise carried Single)} {is : List (In ε ε')} {served : List (Op × BitVec 32)} {n : ℕ}
  {v : L'.W} {w : L.W}

theorem State.waiting_held (s : State A B) : s.waiting.toList <+: s.held.toList := by
  unfold State.waiting
  split_ifs
  · exact List.prefix_rfl
  · exact List.nil_prefix

theorem Tracks.accounts (h : Tracks L L' is served n v w) : Accounts A B is served := by
  obtain ⟨hphase, hperformed⟩ := h
  have hoffered := offered_eq (A := A) (B := B) is
  have hacknowledged : (acknowledged A B is).map Prod.fst <+: offered A B is := ⟨_, hoffered.symm⟩
  have hread : ∀ (o : Op) (d : BitVec 32) (served₀ : List (Op × BitVec 32)), ((system A B).run is).Waits o →
      served = served₀ ++ [(o, d)] → served₀.map Prod.fst = (acknowledged A B is).map Prod.fst →
      reads (acknowledged A B is) = reads served₀ → Accounts A B is served := fun o d served₀ hwaits hs hl hr => by
    refine ⟨hperformed, ?_, hacknowledged, ?_⟩
    · rw [hoffered, hwaits.held, hs, List.map_append, hl]
      exact List.prefix_rfl
    · rw [hr, hs, reads_append]
      exact List.prefix_append _ _
  cases hphase with
  | forth b os k j n v w hforth hback hsends hfetches hn hserved hreads =>
    refine ⟨hperformed, ?_, hacknowledged, hreads ▸ List.prefix_rfl⟩
    rw [hoffered]
    exact (List.prefix_append _ os).trans (hserved ▸ (List.prefix_append_right_inj _).2 (State.waiting_held _))
  | answer o d b served₀ n v w hwaits hforth hshown hmaster hsource hback hb hn hserved hl hreads =>
    exact hread o d served₀ hwaits hserved hl hreads
  | back o d served₀ v w hwaits hforth hmaster hback hserved hl hreads => exact hread o d served₀ hwaits hserved hl hreads

/-- With nothing left to happen, all is done. -/
theorem Tracks.completes (h : Tracks L L' is served 0 v w) : Completes A B is served := by
  obtain ⟨hphase, hperformed⟩ := h
  have hoffered := offered_eq (A := A) (B := B) is
  generalize hn : 0 = n at hphase
  cases hphase with
  -- rank zero leaves nothing on its way in either direction
  | forth b os k j n v w hforth hback hsends hfetches hcount hserved hreads =>
    obtain rfl : os = [] := by
      by_contra hne
      have htodo := two_le_todo hne
      cases hfetches <;> omega
    have hnone : todo [] = 0 := rfl
    have hk : k = 0 := by cases hfetches; omega
    have hheld : ((system A B).run is).held = none := by
      cases hsends with
      | idle hf hheld hb hw => exact hheld
      | send o hf hheld hb hw =>
        have hcost := two_le_cost o
        omega
      | wait o us h hb hw hos => exact absurd hos.symm (List.append_ne_nil_of_right_ne_nil _ (List.cons_ne_nil _ _))
    have hwaiting : ((system A B).run is).waiting = none := by
      unfold State.waiting
      rw [hheld, ite_self]
    rw [hheld, Option.toList_none, List.append_nil] at hoffered
    rw [hwaiting, Option.toList_none, List.append_nil, List.append_nil] at hserved
    exact ⟨hperformed, hserved.trans hoffered.symm, hoffered.symm, hreads⟩
  | answer o d b served₀ n v w hwaits hforth hshown hmaster hsource hback hb hcount hserved hl hreads =>
    split_ifs at hcount <;> omega
  | back o d served₀ v w hwaits hforth hmaster hback hserved hl hreads => omega

/-- A helping cycle brings no operation. -/
theorem offered_concat {i : In ε ε'} (hi : i.offer = none) : offered A B (is ++ [i]) = offered A B is := by
  unfold offered
  rw [Machine.log_concat]
  unfold State.offers
  rw [hi, ite_self, Option.toList_none, List.append_nil]

/-- While the environment helps, all that is left happens. -/
theorem Tracks.drain (h : Tracks L L' is served n v w) (es : ℕ → In ε ε') (hes : ∀ k, Helps H H' (es k)) :
    ∃ m served', Completes A B (is ++ (List.range m).map es) served' ∧
      offered A B (is ++ (List.range m).map es) = offered A B is := by
  -- by induction on what is left to happen, and the bounds for the links to get on
  induction hm : toLex (n, toLex (v, w)) using WellFoundedLT.induction generalizing is served n v w es with
  | ind m ih =>
    subst hm
    by_cases hn : n = 0
    · subst hn
      refine ⟨0, served, ?_⟩
      rw [List.range_zero, List.map_nil, List.append_nil]
      exact ⟨h.completes, rfl⟩
    · obtain ⟨x, n', v', w', h', hprog⟩ := h.concat (es 0)
      have hlt : toLex (n', toLex (v', w')) < toLex (n, toLex (v, w)) := by
        simp only [Prod.Lex.toLex_lt_toLex]
        rcases (hprog (hes 0)).resolve_left hn with hlt | ⟨hle, hlt⟩
        · exact .inl hlt
        · rcases hle.lt_or_eq with hlt' | heq
          · exact .inl hlt'
          · refine .inr ⟨heq, ?_⟩
            rcases hlt with hlt | ⟨hle, hlt⟩
            · exact .inl hlt
            · exact hle.lt_or_eq.imp_right fun heq => ⟨heq, hlt⟩
      obtain ⟨m, served', hdone, hoffered⟩ := ih _ hlt h' (fun k => es (k + 1)) (fun k => hes _) rfl
      have his : is ++ [es 0] ++ (List.range m).map (fun k => es (k + 1)) = is ++ (List.range (m + 1)).map es := by
        rw [List.append_assoc, List.range_succ_eq_map, List.map_cons, List.map_map]
        rfl
      rw [his] at hdone hoffered
      exact ⟨m + 1, served', hdone, hoffered.trans (offered_concat (hes 0).offer)⟩

end Tracks

end Bridge

open Bridge

/-- The remote bus carries out the operations of the local one, once each and in order, and the reads are acknowledged
with its words. -/
theorem bridge_equals_remote {ε ε' : Type} (S : RecordLink ε) (S' : RecordLink ε') (hS : 1 ≤ S.bufferDepth)
    (hS' : 1 ≤ S'.bufferDepth) (is : List (In ε ε')) :
    (∃ served, Accounts S.link S'.link is served) ∧
      ∀ es : ℕ → In ε ε', (∀ k, Helps S.helpful S'.helpful (es k)) →
        ∃ n served, Completes S.link S'.link (is ++ (List.range n).map es) served ∧
          offered S.link S'.link (is ++ (List.range n).map es) = offered S.link S'.link is := by
  obtain ⟨served, n, v, w, h⟩ := Tracks.run (S.passes hS) (S'.passes hS') is
  exact ⟨⟨served, h.accounts⟩, fun es hes => h.drain es hes⟩

namespace Bridge

/-- A write, and a read after it. -/
def localWrite : Op := { adr := 4, datW := 7, sel := 0xf, we := true }

/-- A read of the bus. -/
def localRead : Op := { adr := 5, datW := 0, sel := 0xf, we := false }

/-- A cycle in which the remote bus acknowledges, and shows a word. -/
def cycleOf (o : Option Op) : In Unit Unit :=
  { offer := o, lines := localWrite, forth := (), back := ()
    remote := { undriven := localWrite.writeBeat, ack := true, datR := 0xbeef } }

/-- A write and a read, with an idle cycle between them. -/
def localRun : List (In Unit Unit) := [cycleOf (some localWrite), cycleOf none, cycleOf (some localRead)]

end Bridge

theorem bridge_equals_remote_words : ∃ n served,
    Completes wordLink.link wordLink.link (localRun ++ (List.range n).map fun _ => cycleOf none) served ∧
      offered wordLink.link wordLink.link (localRun ++ (List.range n).map fun _ => cycleOf none) =
        [localWrite, localRead] :=
  (bridge_equals_remote wordLink wordLink (Nat.succ_pos 3) (Nat.succ_pos 3) localRun).2 _ fun _ =>
    ⟨rfl, trivial, trivial, rfl⟩

/-- The write is acknowledged before it is carried out. -/
example : acknowledged wordLink.link wordLink.link localRun = [(localWrite, 0)] ∧
    performed wordLink.link wordLink.link localRun = [] := by decide

end LiteEth.Frontend.Etherbone
