/-
`crossbar.py`: the transmitting side of `LiteEthCrossbar`, where the users' sinks share `master.source`, and one crossbar that
sends to another one. The packets of each user are sent whole and in order, and no user waits for more than one packet of each
other one. If the users mark their packets with their keys, the user with the same key at the other crossbar is given exactly
their packets.
-/
import LiteEth.Crossbar
import LiteEth.Rtl.Arbiter

namespace LiteEth.Crossbar

open LiteEth.Rtl

variable {κ α : Type} {last : α → Bool}

/-! ## Transmitting -/

section Transmit

variable (u : Users κ) (A : Arbiter α last u.keys.length)

/-- The beats that `master.source` has given. -/
def sent (is : List (Arbiter.In α)) : List α := (A.given is).map Prod.snd

/-- A run of the arbiter of the users' sinks: each packet that is sent, and what has begun of the next one, is from one
user; all beats of a user are sent, in order, as far as they have been taken; and while a beat of a user waits, at most one
packet of each other user is finished. -/
structure Collects (is : List (Arbiter.In α)) : Prop where
  whole : ∀ f ∈ packets (last ∘ Prod.snd) (A.given is), ∃ j < u.keys.length, ∀ x ∈ f, x.1 = j
  order : ∀ j, ((A.given is).filter (·.1 == j)).map Prod.snd = A.taken j is
  offered : ∀ j, A.arrivals j is = A.taken j is ++ ((A.machine.run is).held j).toList
  waits : ∀ js ks, js ++ ks <+: is → ∀ j < u.keys.length, (A.machine.run js).held j ≠ none →
    A.taken j (js ++ ks) = A.taken j js →
      (frames last (sent u A (js ++ ks))).1.length ≤ (frames last (sent u A js)).1.length + (u.keys.length - 1)

variable {u A}

/-- A beat is given by a user that is there. -/
theorem given_lt (hu : u.keys ≠ []) (is : List (Arbiter.In α)) : ∀ x ∈ A.given is, x.1 < u.keys.length := by
  induction is using List.reverseRecOn with
  | nil => exact List.forall_mem_nil _
  | append_singleton is i ih =>
    rw [Arbiter.given_concat]
    rintro x hx
    rcases List.mem_append.1 hx with hx | hx
    · exact ih x hx
    · have hlt := Arbiter.grant_lt (A := A) (List.length_pos_of_ne_nil hu) is
      have hgives : (A.machine.run is).gives i = some x := Option.mem_toList.1 hx
      unfold Arbiter.Run.gives Arbiter.gives at hgives
      split_ifs at hgives
      obtain ⟨y, -, rfl⟩ := Option.map_eq_some_iff.1 hgives
      exact hlt

/-- In every run, the users' packets are sent whole and in order, and each user in its turn. -/
theorem collects (hu : u.keys ≠ []) (is : List (Arbiter.In α)) : Collects u A is := by
  constructor
  · exact one_lt (List.length_pos_of_ne_nil hu) (given_lt hu is) (A.sends_run is).one
  · exact fun j => (Arbiter.taken_eq is j).symm
  · exact Arbiter.arrivals_eq is
  · intro js ks _ j hj hheld hwaits
    rw [sent, sent, frames_untagged, frames_untagged, List.length_map, List.length_map]
    exact Arbiter.ended_le hj hheld hwaits

end Transmit

theorem nodup_ports : [7, 9].Nodup := by decide

/-- The users of the ports 7 and 9. -/
def ports : Users ℕ := ⟨[7, 9], nodup_ports⟩

/-- Both users offer a packet of one beat, the port and the mark of the end. -/
def bothOffer : Arbiter.In (ℕ × Bool) := { offer := fun j => if j = 0 then some (7, true) else some (9, true), ready := true }

theorem collects_both :
    Collects ports (Arbiter.status (ℕ × Bool) Prod.snd ports.keys.length) [bothOffer, bothOffer, bothOffer] :=
  collects (by decide) _

/-! ## From one crossbar to another -/

variable [DecidableEq κ]

/-- Of beats in packets of one user each, those of the packets addressed to a key are those of its user. -/
theorem routed_of_one {ι : Type} [DecidableEq ι] (field : α → κ) (j : ι) (k : κ) {l : List (ι × α)}
    (hone : ∀ f ∈ packets (last ∘ Prod.snd) l, ∃ i, ∀ x ∈ f, x.1 = i) (hkey : ∀ x ∈ l, (field x.2 == k) = (x.1 == j)) :
    Dispatcher.routed (fun b => field b == k) (frames last (l.map Prod.snd)) = (l.filter (·.1 == j)).map Prod.snd := by
  -- induction on the beats, whose packet has one source throughout
  induction l using List.reverseRecOn with
  | nil => rfl
  | append_singleton l x ih =>
    have hone' : ∀ f ∈ packets (last ∘ Prod.snd) l, ∃ i, ∀ y ∈ f, y.1 = i := by
      intro f hf
      obtain ⟨g, hg, m, rfl⟩ := packets_begins (last ∘ Prod.snd) (List.prefix_append l [x]) hf
      obtain ⟨i, hi⟩ := hone _ hg
      exact ⟨i, fun y hy => hi y (List.mem_append_left m hy)⟩
    -- the key of a beat is the key of its packet's first beat
    have hhead : ∃ y ∈ l ++ [x], ((frames last (l.map Prod.snd)).2 ++ [x.2]).head? = some y.2 ∧ y.1 = x.1 := by
      obtain ⟨i, hi⟩ := hone _ (begun_mem_packets (last ∘ Prod.snd) l x)
      have hsplit := frames_flatten (last ∘ Prod.snd) l
      rw [frames_untagged]
      cases hm : (frames (last ∘ Prod.snd) l).2 with
      | nil => exact ⟨x, List.mem_append_right _ (List.mem_singleton_self x), rfl, rfl⟩
      | cons y m =>
        rw [hm] at hi hsplit
        refine ⟨y, ?_, rfl, ?_⟩
        · rw [← hsplit]
          exact List.mem_append_left _ (List.mem_append_right _ List.mem_cons_self)
        · rw [hi y (List.mem_append_left _ List.mem_cons_self), hi x (List.mem_append_right _ (List.mem_singleton_self x))]
    obtain ⟨y, hy, hhead, hyx⟩ := hhead
    rw [List.map_append, List.map_singleton, frames_concat, Dispatcher.routed_frameStep, hhead, Option.any_some, hkey y hy,
      hyx, ih hone' fun z hz => hkey z (List.mem_append_left _ hz), List.filter_append, List.map_append]
    cases hj : x.1 == j <;> simp [hj]

section Link

variable {u v : Users κ} {field : α → κ} {A : Arbiter α last u.keys.length} {D : Dispatcher α last v.keys.length}

/-- A link from the crossbar of the users `u` to that of `v`: what arrives at the second one is what the first one has sent,
or the beginning of it, and the users of the first one mark their beats with their keys. -/
structure Linked (u v : Users κ) (field : α → κ) (A : Arbiter α last u.keys.length) (D : Dispatcher α last v.keys.length)
    (is : List (Arbiter.In α)) (js : List (Dispatcher.In α)) : Prop where
  carried : D.arrivals (v.sel ∘ field) js <+: sent u A is
  marks : ∀ j k, u.keys[j]? = some k → ∀ a ∈ A.arrivals j is, field a = k

/-- In every run of two crossbars with a link, a user is given what the user with its key has sent, and nothing else, so
far as it has been taken from the link. -/
theorem multiplexed (hv : 2 ≤ v.keys.length) {is : List (Arbiter.In α)} {js : List (Dispatcher.In α)}
    (h : Linked u v field A D is js) {i j : ℕ} {k : κ} (hi : u.keys[i]? = some k) (hj : v.keys[j]? = some k) :
    D.given (v.sel ∘ field) j js <+: A.taken i is ∧
      (D.taken (v.sel ∘ field) js = sent u A is → D.given (v.sel ∘ field) j js = A.taken i is) := by
  obtain ⟨hilt, hik⟩ := List.getElem?_eq_some_iff.1 hi
  obtain ⟨hjlt, -⟩ := List.getElem?_eq_some_iff.1 hj
  have hne : u.keys ≠ [] := List.ne_nil_of_length_pos (Nat.zero_lt_of_lt hilt)
  have hsel : (fun b => (v.sel ∘ field) b == 2 ^ j) = fun b => field b == k := by
    funext b
    rw [Bool.eq_iff_iff, beq_iff_eq, beq_iff_eq]
    exact v.sel_iff hj _
  -- a beat is marked with the key iff it is the user's
  have hkey : ∀ x ∈ A.given is, (field x.2 == k) = (x.1 == i) := by
    intro x hx
    have hlt := given_lt hne is x hx
    have hown : x.2 ∈ A.arrivals x.1 is := by
      rw [Arbiter.arrivals_eq, Arbiter.taken_eq]
      refine List.mem_append_left _ (List.mem_map.2 ⟨x, List.mem_filter.2 ⟨hx, beq_self_eq_true _⟩, rfl⟩)
    rw [h.marks x.1 u.keys[x.1] (List.getElem?_eq_getElem hlt) x.2 hown, Bool.eq_iff_iff, beq_iff_eq, beq_iff_eq, ← hik]
    exact u.nodup.getElem_inj_iff
  have htaken : D.taken (v.sel ∘ field) js <+: sent u A is :=
    ((Dispatcher.arrivals_eq D _ js).symm ▸ List.prefix_append _ _ : _ <+: D.arrivals (v.sel ∘ field) js).trans h.carried
  obtain ⟨l, hl, hmap⟩ : ∃ l, l <+: A.given is ∧ l.map Prod.snd = D.taken (v.sel ∘ field) js := by
    refine ⟨(A.given is).take (D.taken (v.sel ∘ field) js).length, List.take_prefix _ _, ?_⟩
    rw [List.map_take]
    exact (List.prefix_iff_eq_take.1 htaken).symm
  have hone : ∀ f ∈ packets (last ∘ Prod.snd) l, ∃ i, ∀ x ∈ f, x.1 = i := by
    intro f hf
    obtain ⟨g, hg, m, rfl⟩ := packets_begins (last ∘ Prod.snd) hl hf
    obtain ⟨i, hi⟩ := (A.sends_run is).one _ hg
    exact ⟨i, fun x hx => hi x (List.mem_append_left m hx)⟩
  have hgiven : D.given (v.sel ∘ field) j js = (l.filter (·.1 == i)).map Prod.snd := by
    rw [Dispatcher.given_eq hv hjlt, hsel, ← hmap]
    exact routed_of_one field i k hone fun x hx => hkey x (hl.subset hx)
  rw [hgiven, Arbiter.taken_eq]
  constructor
  · exact (hl.filter _).map _
  · intro hall
    rw [hall, sent] at hmap
    have hlen := congrArg List.length hmap
    rw [List.length_map, List.length_map] at hlen
    rw [hl.eq_of_length hlen]

end Link

/-- The first of these packets arrives. -/
def firstArrives : Dispatcher.In (ℕ × Bool) := { offer := some (7, true), ready := fun _ => true, idle := 0 }

theorem linked_ports : Linked ports ports Prod.fst (Arbiter.status (ℕ × Bool) Prod.snd ports.keys.length)
    (Dispatcher.oneHot Prod.snd ports.keys.length) [bothOffer, bothOffer] [firstArrives] := by
  constructor
  · exact ⟨[(9, true)], rfl⟩
  · rintro (_ | _ | j) k hk a ha
    · cases hk
      fin_cases ha <;> rfl
    · cases hk
      fin_cases ha
      rfl
    · cases hk

theorem multiplexed_ports :
    (Dispatcher.oneHot Prod.snd ports.keys.length).given (ports.sel ∘ Prod.fst) 0 [firstArrives] <+:
        (Arbiter.status (ℕ × Bool) Prod.snd ports.keys.length).taken 0 [bothOffer, bothOffer] ∧
      ((Dispatcher.oneHot Prod.snd ports.keys.length).taken (ports.sel ∘ Prod.fst) [firstArrives] =
          sent ports (Arbiter.status (ℕ × Bool) Prod.snd ports.keys.length) [bothOffer, bothOffer] →
        (Dispatcher.oneHot Prod.snd ports.keys.length).given (ports.sel ∘ Prod.fst) 0 [firstArrives] =
          (Arbiter.status (ℕ × Bool) Prod.snd ports.keys.length).taken 0 [bothOffer, bothOffer]) :=
  multiplexed (by decide) linked_ports rfl rfl

end LiteEth.Crossbar
