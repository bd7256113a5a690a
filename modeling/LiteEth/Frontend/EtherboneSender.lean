/-
The sender of records in a stream: it stores a packet of memory-mapped beats, and sends the base address
and then the data of each beat, all under a header that it reads from the packet as it leaves.
-/
import LiteEth.Frontend.EtherboneRecord
import LiteEth.Rtl.PacketBuffer
import LiteEth.Rtl.PacketSim

namespace LiteEth.Frontend.Etherbone

open LiteEth.Rtl

namespace Sender

variable {ε τ : Type} (G : PacketFIFO (MmapBeat τ) MmapBeat.last)

/-- `LiteEthEtherboneRecordSender`: each word comes with the header fields. -/
abbrev recordSender : Stage ε (MmapBeat τ) (RecordHeader × Beat 32) where
  State := State G
  reset := .init G
  source s _ _ := s.source.map (s.header, ·)
  ready s _ _ _ := G.sinkReady s.fifo
  step s _ a r := s.next a r

/-- The header of a packet, from one of its beats. -/
def headerOf (m : MmapBeat τ) : RecordHeader :=
  { wcount := if m.we then m.count else 0, rcount := if m.we then 0 else m.count, byteEnable := m.be.setWidth 8 }

/-- The word of `SEND_BASE_ADDRESS`. -/
def baseWord (m : MmapBeat τ) : RecordHeader × Beat 32 := (headerOf m, .ofWord m.baseAddr.bits)

/-- The word of `SEND_DATA`. -/
def dataWord (m : MmapBeat τ) : RecordHeader × Beat 32 :=
  (headerOf m, { data := m.data.bits, lastBe := 0, error := 0, last := m.last })

variable (τ) in
/-- The words of packets that have been stored. -/
abbrev words : Transducer (MmapBeat τ) (RecordHeader × Beat 32) :=
  Packetizer.prepend (fun m => [baseWord m]) dataWord MmapBeat.last

variable (τ) in
/-- What the sender makes of packets of at most `payload` beats. -/
abbrev encodes (payload : ℕ) : Transducer (MmapBeat τ) (RecordHeader × Beat 32) :=
  (PacketFIFO.store MmapBeat.last payload).andThen (words τ)

/-! ## One cycle -/

variable {G} {s : State G}

/-- What is at the source, in each state, while the FIFO shows a beat. -/
theorem source_of_shown {x : MmapBeat τ} (hx : G.source s.fifo = some x) : s.source.map (s.header, ·) =
    match s.fsm with
    | .idle => none
    | .sendBaseAddress => some (baseWord x)
    | .sendData => some (dataWord x) := by
  have hr : s.response = some x := hx
  unfold State.source State.header
  rw [hr]
  cases s.fsm with
  | idle => rfl
  | sendBaseAddress => rfl
  | sendData => simp [dataWord, headerOf]

/-- The state after a packet: its last beat closes the record. -/
theorem words_run_whole {p : List (MmapBeat τ)} (hp : ∃ u l, p = u ++ [l] ∧ l.last = true) (b : Bool) :
    (words τ).run b p = false := by
  obtain ⟨u, l, rfl, hl⟩ := hp
  rw [Transducer.run_append, Transducer.run_cons, Transducer.run_nil]
  simp [hl]

/-- What the FIFO completes in a cycle is a whole packet, or nothing. -/
theorem words_run_stored (payload : ℕ) (m : List (MmapBeat τ)) (a : Option (MmapBeat τ)) :
    (words τ).run false ((PacketFIFO.store MmapBeat.last payload).outs m a.toList) = false := by
  cases a with
  | none => rfl
  | some a =>
    rw [Option.toList_some, Transducer.outs_cons, Transducer.outs_nil, List.append_nil]
    cases hl : a.last with
    | false =>
      have hout : (PacketFIFO.store MmapBeat.last payload).out m a = [] := if_neg (by rw [hl]; exact Bool.false_ne_true)
      rw [hout]
      rfl
    | true =>
      have hout : (PacketFIFO.store MmapBeat.last payload).out m a = m ++ [a] := if_pos hl
      rw [hout]
      exact words_run_whole ⟨m, a, rfl, hl⟩ false

/-- The sender, with the packets `p` stored and `m` of the next one: `o` is still to be sent. -/
structure Sends (s : State G) (m p : List (MmapBeat τ)) (o : List (RecordHeader × Beat 32)) : Prop where
  stores : PacketFIFO.Stores G s.fifo m p
  sending : s.fsm ≠ .idle → p ≠ []
  rest : o = (words τ).outs (s.fsm == .sendData) p

section Cycle

variable {payload params : ℕ} (hG : G.Sized payload params) {m p : List (MmapBeat τ)} {o : List (RecordHeader × Beat 32)}
  (h : Sends s m p o)

include hG h

/-- While a record is being sent, its packet is shown. -/
theorem Sends.shown (hs : s.fsm ≠ .idle) : ∃ x xs, G.source s.fifo = some x ∧ p = x :: xs := by
  obtain ⟨x, hx⟩ := Option.ne_none_iff_exists'.1 (h.stores.source_ne hG (h.sending hs))
  obtain ⟨xs, hxs⟩ := h.stores.source_eq hx
  exact ⟨x, xs, hx, hxs⟩

/-- What is at the source comes next. -/
theorem Sends.head {x : RecordHeader × Beat 32} (hx : s.source.map (s.header, ·) = some x) : ∃ xs, o = x :: xs := by
  have hs : s.fsm ≠ .idle := by
    intro hs
    rw [State.source, hs] at hx
    cases hx
  obtain ⟨y, ys, hy, rfl⟩ := h.shown hG hs
  rw [source_of_shown hy] at hx
  rw [h.rest, Transducer.outs_cons]
  cases hf : s.fsm with
  | idle => exact absurd hf hs
  | sendBaseAddress =>
    rw [hf] at hx
    cases hx
    exact ⟨_, rfl⟩
  | sendData =>
    rw [hf] at hx
    cases hx
    exact ⟨_, rfl⟩

/-- One cycle of the sender. -/
theorem Sends.next (a : Option (MmapBeat τ)) (r : Bool) : ∃ p' o',
    o ++ (words τ).outs false ((PacketFIFO.store MmapBeat.last payload).outs m (G.pushed s.fifo a).toList) =
      (if r then s.source.map (s.header, ·) else none).toList ++ o' ∧
    Sends (s.next a r) ((PacketFIFO.store MmapBeat.last payload).run m (G.pushed s.fifo a).toList) p' o' := by
  obtain ⟨p', hp, hs'⟩ := h.stores.next payload a (s.fifoReady r)
  -- what the packets stored after the cycle add to what the cycle gives
  have hrun : (words τ).run (s.fsm == .sendData) p = false := by
    by_cases hpn : p = []
    · have hs : s.fsm = .idle := by
        by_contra hs
        exact h.sending hs hpn
      rw [hpn, hs]
      rfl
    · exact words_run_whole (h.stores.whole hpn) _
  have hout : o ++ (words τ).outs false ((PacketFIFO.store MmapBeat.last payload).outs m (G.pushed s.fifo a).toList) =
      (words τ).outs (s.fsm == .sendData) ((G.popped s.fifo (s.fifoReady r)).toList ++ p') := by
    rw [← hp, Transducer.outs_append, hrun, ← h.rest]
  have hkept : p ≠ [] → G.popped s.fifo (s.fifoReady r) = none → p' ≠ [] := by
    rintro hpn hpop rfl
    rw [hpop, Option.toList_none, List.nil_append] at hp
    exact hpn (List.append_eq_nil_iff.1 hp).1
  rw [hout]
  cases hf : s.fsm with
  | idle =>
    have hpop : G.popped s.fifo (s.fifoReady r) = none := by
      unfold State.fifoReady PacketFIFO.popped
      rw [hf]
      rfl
    have hnext : (s.next a r).fsm = if s.response.isSome then .sendBaseAddress else .idle := by
      unfold State.next
      rw [hf]
    refine ⟨p', _, ?_, hs', fun hne => hkept ?_ hpop, rfl⟩
    · rw [hpop, State.source, hf, hnext]
      cases s.response <;> cases r <;> rfl
    · cases hr : s.response with
      | none =>
        rw [hnext, hr] at hne
        exact absurd rfl hne
      | some x =>
        obtain ⟨xs, hxs⟩ := h.stores.source_eq hr
        rw [hxs]
        exact List.cons_ne_nil _ _
  | sendBaseAddress =>
    obtain ⟨x, xs, hx, hxs⟩ := h.shown hG (by rw [hf]; nofun)
    have hpop : G.popped s.fifo (s.fifoReady r) = none := by
      unfold State.fifoReady PacketFIFO.popped
      rw [hf]
      rfl
    have hnext : (s.next a r).fsm = if r then .sendData else .sendBaseAddress := by
      unfold State.next
      rw [hf]
    have hp' := hkept (by rw [hxs]; exact List.cons_ne_nil _ _) hpop
    refine ⟨p', _, ?_, hs', fun _ => hp', rfl⟩
    rw [hpop, source_of_shown hx, hf, hnext]
    cases r with
    | false => rfl
    | true =>
      -- the packet is the same, behind its base address
      obtain ⟨y, ys, rfl⟩ := List.exists_cons_of_ne_nil hp'
      rw [hpop, Option.toList_none, List.nil_append, hxs, List.cons_append] at hp
      obtain ⟨rfl, -⟩ := List.cons.inj hp
      rfl
  | sendData =>
    obtain ⟨x, xs, hx, hxs⟩ := h.shown hG (by rw [hf]; nofun)
    have hresp : s.response = some x := hx
    have hnext : (s.next a r).fsm = if r && x.last then .idle else .sendData := by
      unfold State.next
      rw [hf, hresp]
      rfl
    cases r with
    | false =>
      have hpop : G.popped s.fifo (s.fifoReady false) = none := by
        unfold State.fifoReady PacketFIFO.popped
        rw [Bool.and_false, if_neg Bool.false_ne_true]
      refine ⟨p', _, ?_, hs', fun _ => hkept (by rw [hxs]; exact List.cons_ne_nil _ _) hpop, rfl⟩
      rw [hpop, hnext]
      rfl
    | true =>
      have hpop : G.popped s.fifo (s.fifoReady true) = some x := by
        unfold State.fifoReady PacketFIFO.popped
        rw [hf, hx]
        rfl
      rw [Bool.true_and] at hnext
      refine ⟨p', _, ?_, hs', fun hne => ?_, rfl⟩
      · rw [hpop, source_of_shown hx, hf, hnext]
        rw [Option.toList_some, List.singleton_append, Transducer.outs_cons]
        cases hl : x.last with
        | false =>
          simp only [hl]
          rfl
        | true =>
          simp only [hl]
          rfl
      · -- more beats of the packet follow
        have hl : x.last = false := by
          by_contra hl
          rw [hnext, if_pos (by simpa using hl)] at hne
          exact hne rfl
        obtain ⟨u, l, hu, hul⟩ := h.stores.whole (by rw [hxs]; exact List.cons_ne_nil _ _)
        rintro rfl
        rw [hpop, hxs, Option.toList_some, List.append_nil] at hp
        have hxs' : xs = [] := by
          have := (List.cons.inj hp).2
          exact (List.append_eq_nil_iff.1 this).1
        rw [hxs, hxs'] at hu
        obtain rfl : x = l := by
          cases u with
          | nil => exact (List.cons.inj hu).1
          | cons y u => simp at hu
        rw [hl] at hul
        cases hul

end Cycle

/-! ## As a queue -/

section Queue

variable {payload params : ℕ} (hG : G.Sized payload params)

include hG in
/-- The sender sends the record of each packet that fits in it. -/
def follows (hparams : 0 < params) (H : ε → Prop) : Stage.Lazy H (recordSender G) (encodes τ payload) where
  W := ℕ
  linear := inferInstance
  wf := wellFoundedLT_nat
  Rel s q o w := q.2 = false ∧ (∃ p, Sends s q.1 p o) ∧ w = if s.fsm = .idle then 1 else 0
  reset := ⟨1, rfl, ⟨[], ⟨G.contents_reset, nofun, fun h => absurd rfl h⟩, fun h => absurd rfl h, rfl⟩, rfl⟩
  cycle := by
    rintro s ⟨m, b⟩ o w ⟨rfl, ⟨p, h⟩, rfl⟩ e a r hok
    obtain ⟨p', o', ho, h'⟩ := h.next hG a r
    refine ⟨o', _, ?_, ⟨?_, ⟨p', ?_⟩, rfl⟩, fun _ hready _ => ?_⟩
    · exact (congrArg (o ++ ·) (Transducer.andThen_outs _ _ _ _)).trans ho
    · exact (congrArg Prod.snd (Transducer.andThen_run _ _ _ _)).trans
        (words_run_stored payload m (if G.sinkReady s.fifo then a else none))
    · rw [show ((encodes τ payload).run (m, false) _).1 = _ from congrArg Prod.fst (Transducer.andThen_run _ _ _ _)]
      exact h'
    · by_cases hf : s.fsm = .idle
      · by_cases hpn : p = []
        · refine .inl ⟨?_, ?_, ?_⟩
          · cases a with
            | none => rfl
            | some a =>
              -- an empty sender takes what fits in it
              refine hready ((hG.ready_iff _).2 ?_)
              have hcount : m.countP MmapBeat.last = 0 :=
                List.countP_eq_zero.2 fun y hy => ne_true_of_eq_false (h.stores.begun y hy)
              rw [h.stores.contents, hpn, List.nil_append, hcount]
              exact ⟨((Transducer.andThen_oks _ _ _ _).1 hok).1.1, hparams⟩
          · rw [h.rest, hpn]
            rfl
          · rw [if_pos hf]
            split_ifs <;> omega
        · refine .inr (.inr ?_)
          have hr : s.response ≠ none := h.stores.source_ne hG hpn
          have hnext : ((recordSender G).step s e a r).fsm = .sendBaseAddress := by
            show (s.next a r).fsm = _
            unfold State.next
            rw [hf]
            exact if_pos (Option.isSome_iff_ne_none.2 hr)
          rw [hnext, hf]
          decide
      · obtain ⟨x, xs, hx, -⟩ := h.shown hG hf
        refine .inr (.inl ?_)
        show s.source.map (s.header, ·) ≠ none
        rw [source_of_shown hx]
        cases hs : s.fsm with
        | idle => exact absurd hs hf
        | _ => exact Option.some_ne_none _
  stable := by
    rintro s ⟨m, b⟩ o w ⟨rfl, ⟨p, h⟩, rfl⟩ e a - x hx e' a' -
    obtain ⟨p', o', ho, h'⟩ := h.next hG a false
    have hx' : s.source.map (s.header, ·) = some x := hx
    obtain ⟨os, rfl⟩ := h.head hG hx'
    have hs : s.fsm ≠ .idle := by
      intro hs
      rw [State.source, hs] at hx'
      cases hx'
    have hnext : (s.next a false).fsm = s.fsm := by
      unfold State.next
      cases hf : s.fsm with
      | idle => exact absurd hf hs
      | _ => rfl
    obtain ⟨y, ys, hy, -⟩ := h'.shown hG (by rw [hnext]; exact hs)
    -- it shows something, and what it shows comes first
    have hsome : ∃ z, (s.next a false).source.map ((s.next a false).header, ·) = some z := by
      rw [source_of_shown hy, hnext]
      cases hf : s.fsm with
      | idle => exact absurd hf hs
      | _ => exact ⟨_, rfl⟩
    obtain ⟨z, hz⟩ := hsome
    obtain ⟨zs, hzs⟩ := h'.head hG hz
    rw [if_neg Bool.false_ne_true, hzs] at ho
    obtain rfl : x = z := (List.cons.inj ho).1
    exact hz

include hG in
/-- It shows nothing before it has taken it. -/
def queues (hparams : 0 < params) (H : ε → Prop) : Stage.Queueing H (recordSender G) (encodes τ payload) :=
  (follows hG hparams H).queueing fun ⟨_, ⟨_, h⟩, _⟩ _ _ _ hx => h.head hG hx

end Queue

end Sender

end LiteEth.Frontend.Etherbone
