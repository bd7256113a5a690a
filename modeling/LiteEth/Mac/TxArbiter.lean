/-
`tx_arbiter_fsm` of `LiteEthMACCoreCrossbar`: the CPU path (`tx_pipe.source`) and the hardware path
(`packetizer.source`) share `core.sink`. Each path keeps a beat it offers until it is taken. What
the core accepts is a sequence of frames, each of them from one path.
-/
import LiteEth.Rtl.Packet
import LiteEth.Rtl.Stream

namespace LiteEth.Mac.CoreCrossbar

open LiteEth.Rtl

/-- The streams that are to be sent. -/
inductive TxPath
  | txPipe
  | packetizer
  deriving DecidableEq

/-- The states of the arbiter: which path is connected to the core. -/
inductive TxArbiter
  | idle
  | wishbone
  | crossbar
  deriving DecidableEq

namespace TxArbiter

variable {dw : ℕ}

/-- `core.sink`, given what the paths offer. -/
def sink : TxArbiter → (TxPath → Option (Beat dw)) → Option (Beat dw)
  | idle, _ => none
  | wishbone, source => source .txPipe
  | crossbar, source => source .packetizer

/-- The `ready` of a path, given `core.sink.ready`. -/
def ready : TxArbiter → Bool → TxPath → Bool
  | wishbone, r, .txPipe => r
  | crossbar, r, .packetizer => r
  | _, _, _ => false

/-- One cycle: a path is connected until the end of its packet is taken. -/
def next : TxArbiter → (TxPath → Option (Beat dw)) → Bool → TxArbiter
  | idle, source, _ =>
    if (source .txPipe).isSome then wishbone else if (source .packetizer).isSome then crossbar else idle
  | wishbone, source, r => if isLast (source .txPipe) && r then idle else wishbone
  | crossbar, source, r => if isLast (source .packetizer) && r then idle else crossbar

/-! ## Runs -/

/-- The inputs of a cycle: what each path offers unless it still holds a beat, and
`core.sink.ready`. -/
structure In (dw : ℕ) where
  offer : TxPath → Option (Beat dw)
  ready : Bool

/-- The state of the arbiter, with the beats that have been offered to it and not taken. -/
structure Run (dw : ℕ) where
  fsm : TxArbiter
  held : TxPath → Option (Beat dw)

namespace Run

variable (s : Run dw) (i : In dw) (p : TxPath)

/-- The beat at the end of a path. -/
def offered : Option (Beat dw) := (s.held p).or (i.offer p)

/-- The beat that is offered for the first time. -/
def arrives : Option (Beat dw) := if (s.held p).isSome then none else i.offer p

/-- The beat that is acknowledged to a path. -/
def takes : Option (Beat dw) := if s.fsm.ready i.ready p then s.offered i p else none

/-- The beat that the core accepts. -/
def accepts : Option (Beat dw) := if i.ready then s.fsm.sink (s.offered i) else none

/-- One cycle of the arbiter, with the beats that wait at its paths. -/
def next : Run dw where
  fsm := s.fsm.next (s.offered i) i.ready
  held p := if s.fsm.ready i.ready p then none else s.offered i p

end Run

/-- The arbiter from reset. -/
def machine (dw : ℕ) : Machine (In dw) (Run dw) where
  reset := { fsm := idle, held := fun _ => none }
  step := Run.next

section Logs

variable (is : List (In dw))

/-- The beats a path has offered. -/
def arrivals (p : TxPath) : List (Beat dw) := (machine dw).log (fun s i => (s.arrives i p).toList) (machine dw).reset is

/-- The beats acknowledged to a path. -/
def taken (p : TxPath) : List (Beat dw) := (machine dw).log (fun s i => (s.takes i p).toList) (machine dw).reset is

/-- The beats the core has accepted. -/
def accepted : List (Beat dw) := (machine dw).log (fun s i => (s.accepts i).toList) (machine dw).reset is

end Logs

/-! ## One path at a time -/

/-- The path that is connected to the core. -/
def connected : TxArbiter → Option TxPath
  | idle => none
  | wishbone => some .txPipe
  | crossbar => some .packetizer

section Cycle

variable {s : Run dw} {i : In dw} {p : TxPath}

/-- The path that is connected has its beat taken when the core accepts it. -/
theorem takes_connected (h : s.fsm.connected = some p) : s.takes i p = s.accepts i := by
  unfold Run.takes Run.accepts
  cases hf : s.fsm <;> rw [hf] at h <;> cases h <;> rfl

theorem takes_other (h : s.fsm.connected ≠ some p) : s.takes i p = none := by
  unfold Run.takes
  cases hf : s.fsm <;> cases p <;> first | rfl | exact absurd (hf ▸ rfl) h

theorem accepts_idle (h : s.fsm.connected = none) : s.accepts i = none := by
  unfold Run.accepts
  cases hf : s.fsm <;> rw [hf] at h <;> cases h
  exact ite_self _

/-- A path that is connected stays so until the core has accepted the last beat of its frame. -/
theorem next_connected (h : s.fsm.connected = some p) :
    (s.next i).fsm.connected = if isLast (s.accepts i) then none else some p := by
  show (s.fsm.next (s.offered i) i.ready).connected = _
  unfold Run.accepts
  cases hf : s.fsm <;> rw [hf] at h <;> cases h <;> simp only [next, sink] <;> cases i.ready <;>
    cases hl : isLast (s.offered i _) <;> simp [connected, hl] <;> rfl

theorem arrives_held (s : Run dw) (i : In dw) (p : TxPath) :
    (s.held p).toList ++ (s.arrives i p).toList = (s.takes i p).toList ++ ((s.next i).held p).toList := by
  unfold Run.takes Run.next Run.arrives Run.offered
  dsimp only
  cases s.held p <;> split_ifs <;> simp_all

/-- A beat is acknowledged to one path, when the core accepts it, and to no other. -/
def Acknowledged (s : Run dw) (i : In dw) : Prop :=
  (∀ p b, s.takes i p = some b → s.accepts i = some b) ∧ ∀ b, s.accepts i = some b → ∃! p, s.takes i p = some b

theorem acknowledged (s : Run dw) (i : In dw) : Acknowledged s i := by
  cases hc : s.fsm.connected with
  | none =>
    refine ⟨fun p b h => ?_, fun b h => ?_⟩
    · rw [takes_other (by rw [hc]; nofun)] at h
      cases h
    · rw [accepts_idle hc] at h
      cases h
  | some q =>
    have hother : ∀ p b, s.takes i p = some b → p = q := fun p b h => by
      by_contra hp
      rw [takes_other (by rw [hc]; exact fun he => hp (Option.some.inj he).symm)] at h
      cases h
    refine ⟨fun p b h => ?_, fun b h => ⟨q, (takes_connected hc).trans h, fun p => hother p b⟩⟩
    obtain rfl := hother p b h
    rw [← takes_connected hc, h]

end Cycle

/-! ## Whole frames -/

/-- What the core has accepted: frames, each of them with the path it is from, and the beginning of
the next one. -/
structure Arbitrated (is : List (In dw)) (fs : List (TxPath × List (Beat dw))) (q : Option TxPath)
    (rest : List (Beat dw)) : Prop where
  beats : accepted is = fs.flatMap Prod.snd ++ rest
  whole : ∀ f ∈ fs, IsFrame Beat.last f.2
  begun : ∀ b ∈ rest, b.last = false
  paths : ∀ p, taken is p = (fs.filter (·.1 = p)).flatMap Prod.snd ++ if q = some p then rest else []
  idle : q = none → rest = []

section Concat

variable (is : List (In dw)) (i : In dw)

theorem run_concat : (machine dw).run (is ++ [i]) = ((machine dw).run is).next i := (machine dw).runFrom_concat _ is i

theorem accepted_concat : accepted (is ++ [i]) = accepted is ++ (((machine dw).run is).accepts i).toList := by
  unfold accepted
  rw [Machine.log_concat]; rfl

theorem taken_concat (p : TxPath) : taken (is ++ [i]) p = taken is p ++ (((machine dw).run is).takes i p).toList := by
  unfold taken
  rw [Machine.log_concat]; rfl

end Concat

section Step

variable {is : List (In dw)} {fs : List (TxPath × List (Beat dw))} {rest : List (Beat dw)} {i : In dw}

/-- Nothing is accepted in a cycle in which no path is connected. -/
theorem Arbitrated.wait (h : Arbitrated is fs none rest) (hc : ((machine dw).run is).fsm.connected = none)
    (q : Option TxPath) : Arbitrated (is ++ [i]) fs q [] := by
  have hrest := h.idle rfl
  refine ⟨?_, h.whole, nofun, fun p => ?_, fun _ => rfl⟩
  · rw [accepted_concat, accepts_idle hc, h.beats, hrest, Option.toList_none, List.append_nil]
  · rw [taken_concat, takes_other (by rw [hc]; nofun), h.paths, hrest, ite_self, ite_self, Option.toList_none,
      List.append_nil]

/-- The path that is connected goes on with its frame, or finishes it. -/
theorem Arbitrated.continue {q : TxPath} (h : Arbitrated is fs (some q) rest)
    (hc : ((machine dw).run is).fsm.connected = some q) :
    ∃ fs' rest', Arbitrated (is ++ [i]) fs'
      (if isLast (((machine dw).run is).accepts i) then none else some q) rest' := by
  -- the beat that is accepted is the connected path's own
  have htaken : ∀ p, taken (is ++ [i]) p = (fs.filter (·.1 = p)).flatMap Prod.snd ++
      if q = p then rest ++ (((machine dw).run is).accepts i).toList else [] := fun p => by
    rw [taken_concat, h.paths, List.append_assoc]
    by_cases hp : q = p
    · subst hp
      rw [takes_connected hc, if_pos rfl, if_pos rfl]
    · rw [takes_other (by rw [hc]; exact fun he => hp (Option.some.inj he)),
        if_neg (fun he => hp (Option.some.inj he)), if_neg hp, Option.toList_none, List.append_nil]
  have haccepted := accepted_concat is i
  rw [h.beats, List.append_assoc] at haccepted
  cases ha : ((machine dw).run is).accepts i with
  | none =>
    rw [ha, Option.toList_none, List.append_nil] at haccepted
    refine ⟨fs, rest, haccepted, h.whole, h.begun, fun p => ?_, nofun⟩
    rw [htaken, ha, Option.toList_none, List.append_nil]
    simp [isLast]
  | some b =>
    rw [ha] at haccepted
    cases hb : b.last with
    | false =>
      refine ⟨fs, rest ++ [b], haccepted, h.whole, fun x hx => ?_, fun p => ?_, ?_⟩
      · rcases List.mem_append.1 hx with hx | hx
        · exact h.begun x hx
        · rw [List.mem_singleton.1 hx, hb]
      · rw [htaken, ha]
        simp [isLast, hb]
      · simp [isLast, hb]
    | true =>
      refine ⟨fs ++ [(q, rest ++ [b])], [], ?_, fun f hf => ?_, nofun, fun p => ?_, fun _ => rfl⟩
      · rw [haccepted, List.flatMap_append, List.flatMap_singleton, List.append_nil]
        rfl
      · rcases List.mem_append.1 hf with hf | hf
        · exact h.whole f hf
        · rw [List.mem_singleton.1 hf]
          exact .mk rest b h.begun hb
      · rw [htaken, ha, List.filter_append, List.flatMap_append, ite_self, List.append_nil]
        by_cases hp : q = p <;> simp [hp]

end Step

/-- What is offered on a path is acknowledged, or still offered. -/
theorem arrivals_eq (is : List (In dw)) (p : TxPath) :
    arrivals is p = taken is p ++ (((machine dw).run is).held p).toList := by
  have h := (machine dw).runFrom_logs_inv (R := fun s l m => l = m ++ (s.held p).toList)
    (f := fun s i => (s.arrives i p).toList) (g := fun s i => (s.takes i p).toList)
    (fun s i l m hl => by
      rw [hl, List.append_assoc, arrives_held, List.append_assoc]
      rfl)
    is (machine dw).reset [] [] rfl
  rw [List.nil_append, List.nil_append] at h
  exact h

/-- What the core has accepted after any run. -/
theorem arbitrated (is : List (In dw)) :
    ∃ fs rest, Arbitrated is fs ((machine dw).run is).fsm.connected rest := by
  induction is using List.reverseRecOn with
  | nil => exact ⟨[], [], rfl, nofun, nofun, fun _ => rfl, fun _ => rfl⟩
  | append_singleton is i ih =>
    obtain ⟨fs, rest, h⟩ := ih
    rw [run_concat]
    cases hc : ((machine dw).run is).fsm.connected with
    | none => exact ⟨fs, [], (hc ▸ h).wait hc _⟩
    | some q =>
      rw [next_connected hc]
      exact (hc ▸ h).continue hc

/-- In any run, a beat is acknowledged to one path, in the cycle in which the core accepts it; what
has been offered on a path has been acknowledged or is still offered; and the beats accepted are
frames, each of them from one path, that together are the beats acknowledged to the paths. -/
theorem frames_whole (is : List (In dw)) :
    (machine dw).Along Acknowledged (machine dw).reset is ∧
      (∀ p, arrivals is p = taken is p ++ (((machine dw).run is).held p).toList) ∧
      ∃ fs q rest, Arbitrated is fs q rest := by
  obtain ⟨fs, rest, h⟩ := arbitrated is
  exact ⟨Machine.Along.imp _ (fun s i _ => acknowledged s i) ((machine dw).along_trivial is _), arrivals_eq is, fs, _, rest, h⟩

/-! ## Progress -/

section Progress

variable {s : Run dw} {i : In dw} {p : TxPath}

/-- The path that is connected has its beat taken once the core is ready. -/
theorem takes_ready (h : s.fsm.connected = some p) (hr : i.ready = true) : s.takes i p = s.offered i p := by
  unfold Run.takes
  rw [hr]
  cases hf : s.fsm <;> rw [hf] at h <;> cases h <;> rfl

/-- A beat that is offered while no path is connected connects one, the CPU's path first. -/
theorem connects (h : s.fsm.connected = none) (hp : s.offered i p ≠ none) :
    (s.next i).fsm.connected = if (s.offered i .txPipe).isSome then some .txPipe else some .packetizer := by
  show (s.fsm.next (s.offered i) i.ready).connected = _
  cases hf : s.fsm <;> rw [hf] at h <;> cases h
  show (if (s.offered i .txPipe).isSome then wishbone
    else if (s.offered i .packetizer).isSome then crossbar else idle).connected = _
  cases hcpu : s.offered i .txPipe with
  | some b => rfl
  | none =>
    cases p with
    | txPipe => exact absurd hcpu hp
    | packetizer =>
      obtain ⟨b, hb⟩ := Option.ne_none_iff_exists'.1 hp
      rw [hb]
      rfl

/-- The core is ready, the path that is connected goes on with its frame, and some path has one while none is connected. -/
def Flows (s : Run dw) (i : In dw) : Prop :=
  i.ready = true ∧ ∃ p, s.offered i p ≠ none ∧ (s.fsm.connected = some p ∨ s.fsm.connected = none)

/-- While frames flow, a beat is accepted every two cycles at least. -/
theorem length_le (is : List (In dw)) (h : (machine dw).Along Flows (machine dw).reset is) :
    is.length ≤ 2 * (accepted is).length + if ((machine dw).run is).fsm.connected.isSome then 1 else 0 := by
  induction is using List.reverseRecOn with
  | nil => exact Nat.zero_le _
  | append_singleton is i ih =>
    rw [Machine.along_append] at h
    obtain ⟨his, ⟨hr, p, hp, hc⟩, -⟩ := h
    have hle := ih his
    rw [List.length_append, List.length_singleton, accepted_concat, List.length_append, run_concat]
    rcases hc with hc | hc
    · -- the beat of the path that is connected is accepted
      obtain ⟨b, hb⟩ := Option.ne_none_iff_exists'.1 hp
      have haccepts := (takes_connected hc).symm.trans ((takes_ready hc hr).trans hb)
      rw [Machine.run, hc, Option.isSome_some, if_pos rfl] at hle
      rw [Machine.run, haccepts, Option.toList_some, List.length_singleton]
      omega
    · -- a path is connected
      have hnext := connects hc hp
      have hsome : (((machine dw).run is).next i).fsm.connected.isSome = true := by
        rw [Machine.run, hnext]
        split_ifs <;> rfl
      rw [Machine.run, hc, Option.isSome_none, if_neg Bool.false_ne_true] at hle
      rw [hsome, if_pos rfl]
      omega

/-- A cycle in which one path offers a beat, and the core is ready. -/
def only (p : TxPath) (b : Beat dw) : In dw := ⟨fun q => if q = p then some b else none, true⟩

/-- A frame of a path: its first beat is there for two cycles. -/
def cycles (x : TxPath × List (Beat dw)) : List (In dw) := (x.2.head?.toList ++ x.2).map (only x.1)

/-- The state in which a path is connected. -/
def ofPath : TxPath → TxArbiter
  | .txPipe => wishbone
  | .packetizer => crossbar

/-- A beat of the path that is connected is accepted at once, also one that has waited. -/
theorem beat_accepted (p : TxPath) (b : Beat dw) {held : TxPath → Option (Beat dw)}
    (hheld : held = (fun _ => none) ∨ held = fun q => if q = p then some b else none) :
    (⟨ofPath p, held⟩ : Run dw).accepts (only p b) = some b ∧
      (⟨ofPath p, held⟩ : Run dw).next (only p b) = ⟨if b.last then idle else ofPath p, fun _ => none⟩ := by
  have hoffered : (⟨ofPath p, held⟩ : Run dw).offered (only p b) = fun q => if q = p then some b else none := by
    funext q
    unfold Run.offered only
    rcases hheld with rfl | rfl
    · rfl
    · by_cases hq : q = p <;> simp [hq]
  unfold Run.accepts Run.next
  rw [hoffered]
  constructor
  · cases p <;> rfl
  · cases hl : b.last <;> cases p <;> simp [ofPath, only, next, ready, isLast, hl] <;> funext q <;> cases q <;> rfl

/-- A frame of the path that is connected is accepted, also if its first beat has waited. -/
theorem goes_on (p : TxPath) {f : List (Beat dw)} (hf : IsFrame Beat.last f) {held : TxPath → Option (Beat dw)}
    (hheld : held = (fun _ => none) ∨ held = fun q => if q = p then f.head? else none) :
    (machine dw).runFrom ⟨ofPath p, held⟩ (f.map (only p)) = ⟨idle, fun _ => none⟩ ∧
      (machine dw).log (fun s i => (s.accepts i).toList) ⟨ofPath p, held⟩ (f.map (only p)) = f := by
  obtain ⟨m, l, hm, hl⟩ := hf
  induction m generalizing held with
  | nil =>
    obtain ⟨haccepts, hnext⟩ := beat_accepted p l hheld
    rw [hl, if_pos rfl] at hnext
    exact ⟨hnext, congrArg (fun x => Option.toList x ++ []) haccepts⟩
  | cons b m ih =>
    obtain ⟨haccepts, hnext⟩ := beat_accepted p b hheld
    rw [hm b List.mem_cons_self, if_neg Bool.false_ne_true] at hnext
    obtain ⟨hrun, hlog⟩ := ih (fun x hx => hm x (List.mem_cons_of_mem b hx)) (.inl rfl)
    rw [List.cons_append, List.map_cons, Machine.runFrom_cons, Machine.log_cons]
    show (machine dw).runFrom ((⟨ofPath p, held⟩ : Run dw).next (only p b)) _ = _ ∧
      ((⟨ofPath p, held⟩ : Run dw).accepts (only p b)).toList ++
        (machine dw).log _ ((⟨ofPath p, held⟩ : Run dw).next (only p b)) _ = _
    rw [hnext, haccepts, hlog]
    exact ⟨hrun, rfl⟩

/-- A frame that is offered while no path is connected is accepted. -/
theorem frame_accepted {x : TxPath × List (Beat dw)} (hf : IsFrame Beat.last x.2) :
    (machine dw).runFrom ⟨idle, fun _ => none⟩ (cycles x) = ⟨idle, fun _ => none⟩ ∧
      (machine dw).log (fun s i => (s.accepts i).toList) ⟨idle, fun _ => none⟩ (cycles x) = x.2 := by
  obtain ⟨p, f⟩ := x
  dsimp only at hf ⊢
  obtain ⟨b, rest, hcons⟩ := List.exists_cons_of_ne_nil hf.ne_nil
  -- the first beat waits for a cycle, in which its path is connected
  have hnext : (⟨idle, fun _ => none⟩ : Run dw).next (only p b) = ⟨ofPath p, fun q => if q = p then f.head? else none⟩ := by
    rw [hcons]
    cases p <;> rfl
  have hcycles : cycles (p, f) = only p b :: f.map (only p) := by
    rw [hcons]
    rfl
  rw [hcycles, Machine.runFrom_cons, Machine.log_cons]
  show (machine dw).runFrom ((⟨idle, fun _ => none⟩ : Run dw).next (only p b)) _ = _ ∧
    (machine dw).log _ ((⟨idle, fun _ => none⟩ : Run dw).next (only p b)) _ = _
  rw [hnext]
  exact goes_on p hf (.inr rfl)

/-- Frames of both paths, one after the other, are accepted in that order by a core that is ready. -/
theorem frames_accepted {xs : List (TxPath × List (Beat dw))} (hxs : ∀ x ∈ xs, IsFrame Beat.last x.2) :
    accepted (xs.flatMap cycles) = xs.flatMap Prod.snd := by
  have h : (machine dw).runFrom (machine dw).reset (xs.flatMap cycles) = (machine dw).reset ∧
      accepted (xs.flatMap cycles) = xs.flatMap Prod.snd := by
    induction xs using List.reverseRecOn with
    | nil => exact ⟨rfl, rfl⟩
    | append_singleton xs x ih =>
      obtain ⟨hrun, hlog⟩ := ih fun y hy => hxs y (List.mem_append_left _ hy)
      obtain ⟨hrun', hlog'⟩ := frame_accepted (hxs x (by simp))
      unfold accepted at hlog ⊢
      rw [List.flatMap_append, List.flatMap_append, List.flatMap_singleton, List.flatMap_singleton, Machine.runFrom_append,
        Machine.log_append, hrun, hlog]
      exact ⟨hrun', congrArg _ hlog'⟩
  exact h.2

/-- A packet of the CPU and one of the crossbar: five cycles for three beats. -/
example : accepted ([(.txPipe, [⟨1, 0, 0, false⟩, ⟨2, 1, 0, true⟩]), (.packetizer, [⟨3, 1, 0, true⟩])].flatMap cycles) =
    ([⟨1, 0, 0, false⟩, ⟨2, 1, 0, true⟩, ⟨3, 1, 0, true⟩] : List (Beat 8)) := by decide +kernel

end Progress

end TxArbiter

end LiteEth.Mac.CoreCrossbar
