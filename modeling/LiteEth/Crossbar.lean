/-
`crossbar.py`: the receiving side of `LiteEthCrossbar`. Users register under a key each; a packet
goes to the user whose key its dispatch field is, and to nobody if there is none. With one user
only, the dispatcher does not look at the field: the user is given every packet.
-/
import LiteEth.Core.Ip
import LiteEth.Core.Udp
import LiteEth.Mac.Common
import LiteEth.Rtl.Dispatcher

namespace LiteEth

open LiteEth.Rtl

namespace Crossbar

variable {κ α : Type} [DecidableEq κ] {last : α → Bool}

/-- The registered users, by their keys, in the order in which they registered. -/
structure Users (κ : Type) where
  keys : List κ
  nodup : keys.Nodup

/-- No users. -/
def Users.empty : Users κ := ⟨[], List.nodup_nil⟩

/-- `get_port`; a key that is taken raises an error. -/
def Users.getPort (u : Users κ) (k : κ) : Option (Users κ) :=
  if h : k ∈ u.keys then none
  else some ⟨u.keys ++ [k], u.nodup.append (List.nodup_singleton k) (List.disjoint_singleton.2 h)⟩

/-- `dispatcher.sel`: the cases of `do_finalize`. -/
def Users.sel (u : Users κ) (f : κ) : ℕ := (u.keys.idxOf? f).elim 0 (2 ^ ·)

/-- The field selects the user whose key it is. -/
theorem Users.sel_iff (u : Users κ) {j : ℕ} {k : κ} (hk : u.keys[j]? = some k) (f : κ) : u.sel f = 2 ^ j ↔ f = k := by
  unfold Users.sel
  obtain ⟨hj, hjk⟩ := List.getElem?_eq_some_iff.1 hk
  constructor
  · intro h
    cases hi : u.keys.idxOf? f with
    | none =>
      rw [hi] at h
      exact absurd h.symm (Nat.two_pow_pos j).ne'
    | some i =>
      rw [hi] at h
      obtain rfl : i = j := Nat.pow_right_injective le_rfl h
      obtain ⟨hlt, hf, -⟩ := List.idxOf?_eq_some_iff.1 hi
      exact hf.symm.trans hjk
  · rintro rfl
    have hi : u.keys.idxOf? f = some j := by
      refine List.idxOf?_eq_some_iff.2 ⟨hj, hjk, fun i hij he => ?_⟩
      exact hij.ne ((u.nodup.getElem_inj_iff).1 (he.trans hjk.symm))
    rw [hi]
    rfl

/-- A field that is no key selects nobody. -/
theorem Users.sel_ne (u : Users κ) {f : κ} (hf : f ∉ u.keys) (j : ℕ) : u.sel f ≠ 2 ^ j := by
  unfold Users.sel
  rw [List.idxOf?_eq_none_iff.2 hf]
  exact (Nat.two_pow_pos j).ne

/-! ## Dispatch -/

section Dispatch

variable (u : Users κ) (field : α → κ) (D : Dispatcher α last u.keys.length)

/-- The packet, or what is there of it, has the key in its dispatch field. -/
def addressed (k : κ) (f : List α) : Bool := f.head?.any (field · == k)

/-- A run of the crossbar: the users are given the packets addressed to them and no others; the beats of
a packet that is addressed to nobody are taken when they are offered, those of another one when its
user is ready. -/
structure Dispatches (is : List (Dispatcher.In α)) : Prop where
  whole : ∀ j k, u.keys[j]? = some k → D.given (u.sel ∘ field) j is =
    ((frames last (D.taken (u.sel ∘ field) is)).1.filter (addressed field k)).flatten ++
      if addressed field k (frames last (D.taken (u.sel ∘ field) is)).2
      then (frames last (D.taken (u.sel ∘ field) is)).2 else []
  consumed : ∀ js i, js ++ [i] <+: is → ∀ b, ((D.machine (u.sel ∘ field)).run js).offered i = some b →
    (∀ k ∈ u.keys, ¬ addressed field k ((frames last (D.taken (u.sel ∘ field) js)).2 ++ [b])) →
      ((D.machine (u.sel ∘ field)).run js).takes (u.sel ∘ field) i = some b
  delivered : ∀ js i, js ++ [i] <+: is → ∀ b, ((D.machine (u.sel ∘ field)).run js).offered i = some b →
    ∀ j k, u.keys[j]? = some k → addressed field k ((frames last (D.taken (u.sel ∘ field) js)).2 ++ [b]) →
      ((D.machine (u.sel ∘ field)).run js).takes (u.sel ∘ field) i = if i.ready j then some b else none

/-- A single user is the one the packets are addressed to. -/
def Own (is : List (Dispatcher.In α)) : Prop :=
  ∀ k, u.keys = [k] → ∀ f ∈ packets last (D.arrivals (u.sel ∘ field) is), f ≠ [] → addressed field k f

variable {u field D} {is : List (Dispatcher.In α)}

/-- With several users, each packet goes to the one it is addressed to. -/
theorem dispatches_several (hn : 2 ≤ u.keys.length) : Dispatches u field D is := by
  refine ⟨fun j k hk => ?_, fun js i _ b hb haddr => ?_, fun js i _ b hb j k hk haddr => ?_⟩
  · obtain ⟨hj, -⟩ := List.getElem?_eq_some_iff.1 hk
    have hq : (fun b => (u.sel ∘ field) b == 2 ^ j) = fun b => field b == k := by
      funext b
      rw [Bool.eq_iff_iff, beq_iff_eq, beq_iff_eq]
      exact u.sel_iff hk _
    rw [Dispatcher.given_eq hn hj, hq]
    rfl
  · refine Dispatcher.takes_default hn js hb fun j hj he => ?_
    obtain ⟨c, hc, hsel⟩ := Option.map_eq_some_iff.1 he
    have hkey : u.keys[j]? = some u.keys[j] := List.getElem?_eq_getElem hj
    refine haddr u.keys[j] (List.getElem_mem hj) ?_
    rw [addressed, hc]
    exact beq_iff_eq.2 ((u.sel_iff hkey _).1 hsel)
  · obtain ⟨hj, -⟩ := List.getElem?_eq_some_iff.1 hk
    refine Dispatcher.takes_selected hn js hb hj (Option.map_eq_some_iff.2 ?_)
    obtain ⟨c, hc, hkey⟩ := (Option.any_eq_true _ _).1 haddr
    exact ⟨c, hc, (u.sel_iff hk _).2 (beq_iff_eq.1 hkey)⟩

/-- What has begun of a packet decides to whom it is addressed. -/
theorem addressed_begins {k : κ} {f g : List α} (hf : f ≠ []) (h : f <+: g) :
    addressed field k g = addressed field k f := by
  obtain ⟨m, rfl⟩ := h
  obtain ⟨a, f, rfl⟩ := List.exists_cons_of_ne_nil hf
  rfl

/-- Nothing is left out of a list of packets only if all of them are chosen. -/
theorem all_of_filter_flatten {p : List α → Bool} {q : Bool} {m : List α} :
    ∀ {fs : List (List α)}, (fs.filter p).flatten ++ (if q then m else []) = fs.flatten ++ m →
      (∀ f ∈ fs, f ≠ [] → p f) ∧ (m ≠ [] → q)
  | [], h => ⟨nofun, fun hm => by cases q <;> simp_all⟩
  | f :: fs, h => by
    have hlen : ((fs.filter p).flatten ++ if q then m else []).length ≤ (fs.flatten ++ m).length := by
      have := (List.filter_sublist (p := p) (l := fs)).flatten.length_le
      rw [List.length_append, List.length_append]
      split_ifs
      · exact Nat.add_le_add_right this _
      · exact Nat.add_le_add this (Nat.zero_le _)
    cases hp : p f with
    | true =>
      rw [List.filter_cons_of_pos hp, List.flatten_cons, List.flatten_cons, List.append_assoc, List.append_assoc,
        List.append_cancel_left_eq] at h
      obtain ⟨hfs, hm⟩ := all_of_filter_flatten h
      exact ⟨List.forall_mem_cons.2 ⟨fun _ => hp, hfs⟩, hm⟩
    | false =>
      rw [List.filter_cons_of_neg (by simp [hp]), List.flatten_cons, List.append_assoc] at h
      have hnil : f = [] := by
        rw [h, List.length_append] at hlen
        exact List.length_eq_zero_iff.1 (by omega)
      obtain ⟨hfs, hm⟩ := all_of_filter_flatten (h.trans (by rw [hnil, List.nil_append]))
      exact ⟨List.forall_mem_cons.2 ⟨fun hne => absurd hnil hne, hfs⟩, hm⟩

/-- With one user, what is taken is given to it. -/
theorem whole_one {k : κ} (hu : u.keys = [k]) (is : List (Dispatcher.In α)) :
    D.given (u.sel ∘ field) 0 is = (frames last (D.taken (u.sel ∘ field) is)).1.flatten ++
      (frames last (D.taken (u.sel ∘ field) is)).2 := by
  rw [Dispatcher.given_one (by rw [hu]; rfl), frames_flatten]

/-- With one user, the packets are dispatched only if all of them are addressed to it. -/
theorem own_of_dispatches {k : κ} (hu : u.keys = [k]) (h : Dispatches u field D is) :
    ∀ f ∈ packets last (D.arrivals (u.sel ∘ field) is), f ≠ [] → addressed field k f := by
  have hwhole := h.whole 0 k (by rw [hu]; rfl)
  rw [whole_one hu] at hwhole
  obtain ⟨hfs, hm⟩ := all_of_filter_flatten hwhole.symm
  have htaken : ∀ f ∈ packets last (D.taken (u.sel ∘ field) is), f ≠ [] → addressed field k f := fun f hf hne => by
    rcases List.mem_append.1 hf with hf | hf
    · exact hfs f hf hne
    · rw [List.mem_singleton.1 hf] at hne ⊢
      exact hm hne
  -- what is offered and not yet taken is the last beat of the run
  rcases List.eq_nil_or_concat is with rfl | ⟨js, i, rfl⟩
  · exact htaken
  · rw [List.concat_eq_append] at *
    rw [Dispatcher.arrivals_concat]
    rw [Dispatcher.taken_concat] at htaken
    cases ho : ((D.machine (u.sel ∘ field)).run js).offered i with
    | none =>
      rw [Dispatcher.Run.takes, ho, ite_self] at htaken
      exact htaken
    | some b =>
      cases ht : ((D.machine (u.sel ∘ field)).run js).takes (u.sel ∘ field) i with
      | some c =>
        obtain rfl : b = c := by
          rw [Dispatcher.Run.takes, ho] at ht
          split_ifs at ht
          exact Option.some.inj ht
        rw [ht] at htaken
        exact htaken
      -- a beat that stays would have been taken, had it been for nobody
      | none =>
        rw [ht, Option.toList_none, List.append_nil] at htaken
        have hb : addressed field k ((frames last (D.taken (u.sel ∘ field) js)).2 ++ [b]) := by
          by_contra hk
          have := h.consumed js i List.prefix_rfl b ho fun k' hk' => by
            obtain rfl : k' = k := by simpa [hu] using hk'
            exact hk
          rw [ht] at this
          cases this
        intro f hf hne
        rw [Option.toList_some, packets, frames_concat, frameStep] at hf
        split_ifs at hf <;> simp only [List.mem_append, List.mem_singleton] at hf
        · rcases hf with (hf | rfl) | rfl
          · exact htaken f (List.mem_append_left _ hf) hne
          · exact hb
          · exact absurd rfl hne
        · rcases hf with hf | rfl
          · exact htaken f (List.mem_append_left _ hf) hne
          · exact hb

/-- Packets that are addressed to a single user are dispatched to it. -/
theorem dispatches_of_own {k : κ} (hu : u.keys = [k])
    (h : ∀ f ∈ packets last (D.arrivals (u.sel ∘ field) is), f ≠ [] → addressed field k f) : Dispatches u field D is := by
  -- a packet that has begun is addressed like the whole of it
  have hbegins : ∀ bs, bs <+: D.arrivals (u.sel ∘ field) is → ∀ f ∈ packets last bs, f ≠ [] → addressed field k f := by
    intro bs hbs f hf hne
    obtain ⟨g, hg, hfg⟩ := packets_begins last hbs hf
    rw [← addressed_begins hne hfg]
    exact h g hg fun hnil => hne (List.prefix_nil.1 (hnil ▸ hfg))
  refine ⟨fun j k' hk => ?_, fun js i hjs b hb haddr => ?_, fun js i hjs b hb j k' hk haddr => ?_⟩
  · obtain ⟨rfl, rfl⟩ : j = 0 ∧ k' = k := by
      rw [hu] at hk
      rcases j with _ | j <;> simp_all
    have htaken := hbegins (D.taken (u.sel ∘ field) is) (Dispatcher.arrivals_eq D _ is ▸ List.prefix_append _ _)
    rw [whole_one hu, List.filter_eq_self.2 fun f hf => htaken f (List.mem_append_left _ hf)
      ((frames_spec last _).1 f hf).ne_nil]
    by_cases hm : (frames last (D.taken (u.sel ∘ field) is)).2 = []
    · rw [hm, ite_self]
    · rw [if_pos (htaken _ (by simp [packets]) hm)]
  · refine absurd (hbegins (D.taken (u.sel ∘ field) js ++ [b]) ?_ _ ?_ ?_) (haddr k (by rw [hu]; simp))
    · obtain ⟨ks, rfl⟩ := hjs
      have := Dispatcher.arrivals_concat D (u.sel ∘ field) js i
      rw [hb] at this
      unfold Dispatcher.arrivals at *
      rw [Machine.log_append, this]
      exact List.prefix_append _ _
    · exact begun_mem_packets last _ b
    · simp
  · obtain rfl : j = 0 := by
      rw [hu] at hk
      rcases j with _ | j <;> simp_all
    rw [Dispatcher.Run.takes, Dispatcher.Run.ready, D.ready_one (by rw [hu]; rfl), hb]

/-- The packets are dispatched iff there are several users, or all packets are addressed to the only
one. -/
theorem dispatches_iff (hu : u.keys ≠ []) (is : List (Dispatcher.In α)) : Dispatches u field D is ↔ Own u field D is := by
  rcases hkeys : u.keys with _ | ⟨k, _ | ⟨k', ks⟩⟩
  · exact absurd hkeys hu
  · refine ⟨fun h k' hk' => ?_, fun h => dispatches_of_own hkeys (h k hkeys)⟩
    obtain rfl : k = k' := by simpa [hkeys] using hk'
    exact own_of_dispatches hkeys h
  · exact ⟨fun _ k'' hk'' => by simp [hkeys] at hk'', fun _ => dispatches_several (by rw [hkeys]; simp)⟩

end Dispatch

/-! ## The crossbars -/

section Crossbars

variable {dw : ℕ}

/-- `LiteEthMACCrossbar`: the dispatch field is `ethernet_type`. -/
def macField (b : Mac.Header × Beat dw) : BitVec 16 := b.1.ethernetType

/-- `LiteEthIPV4Crossbar`: the dispatch field is `protocol`. -/
def ipField (b : Core.Ip.UserParams × Beat dw) : BitVec 8 := b.1.protocol

/-- `LiteEthUDPCrossbar`: the dispatch field is `dst_port`. -/
def udpField (b : Core.Udp.UserParams × Beat dw) : BitVec 16 := b.1.dstPort

end Crossbars

/-- A UDP crossbar with the port 1234. -/
def onePort : Users (BitVec 16) := ⟨[1234], List.nodup_singleton _⟩

/-- A datagram of one byte for a port, while everybody is ready. -/
def datagramFor (port : BitVec 16) : List (Dispatcher.In (Core.Udp.UserParams × Beat 8)) :=
  [{ offer := some ({ srcPort := 5, dstPort := port, ipAddress := 0x0a000001, length := 1 }, ⟨0x2a, 1, 0, true⟩)
     ready := fun _ => true
     idle := 0 }]

theorem dispatches_own_port :
    Dispatches onePort udpField (Dispatcher.oneHot (·.2.last) onePort.keys.length) (datagramFor 1234) :=
  (dispatches_iff (by decide) _).2 fun k hk => by
    obtain rfl : k = 1234 := by simpa [onePort, eq_comm] using hk
    decide

/-- A datagram for the port 5678 is given to the user of the port 1234. -/
theorem other_port_not_dispatched : Users.empty.getPort 1234 = some onePort ∧
    ¬ Dispatches onePort udpField (Dispatcher.oneHot (·.2.last) onePort.keys.length) (datagramFor 5678) := by
  refine ⟨rfl, fun h => ?_⟩
  have hwhole := h.whole 0 1234 rfl
  revert hwhole
  decide

end Crossbar

end LiteEth
