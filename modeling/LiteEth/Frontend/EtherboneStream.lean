/-
The receiver of records in a stream, behind its packet FIFO, for records that write or read and do not do both.
-/
import LiteEth.Frontend.EtherboneReceiver
import LiteEth.Rtl.PacketBuffer

namespace LiteEth.Frontend.Etherbone.Receiver

open LiteEth.Rtl

variable {ε τ : Type} (F : PacketFIFO (Word τ) Word.last) (t : τ)

/-- `LiteEthEtherboneRecordReceiver` in a stream; the tag is that of the registers at reset. -/
abbrev recordReceiver (t : τ) : Stage ε (Word τ) (MmapBeat τ) where
  State := State F
  reset := { ctrl := .init t, fifo := F.reset }
  source s _ _ := s.source
  ready s _ _ _ := F.sinkReady s.fifo
  step s _ a r := s.next { sink := a, sourceReady := r }

/-- The receiver behind its FIFO. -/
abbrev decoder (t : τ) : Stage ε (Word τ) (MmapBeat τ) where
  State := Ctrl τ
  reset := .init t
  source c _ w := c.source w
  ready c _ _ r := c.ready r
  step c _ w r := c.next w r

/-- What the receiver makes of words of records that write or read. -/
abbrev decoding (t : τ) : Transducer (Word τ) (MmapBeat τ) where
  State := Ctrl τ
  init := .init t
  next c w := c.take w
  out c w := (c.retBase w).beat w
  ok _ w := w.wcount = 0 ∨ w.rcount = 0

variable {t}

theorem decoding_outs (ws : List (Word τ)) : ∀ c : Ctrl τ, (decoding t).outs c ws = c.beats ws := by
  induction ws with
  | nil => exact fun _ => rfl
  | cons w ws ih =>
    intro c
    rw [Transducer.outs_cons, ih, beats_cons]

theorem decoding_oks {ws : List (Word τ)} (hws : ∀ w ∈ ws, w.wcount = 0 ∨ w.rcount = 0) (c : Ctrl τ) :
    (decoding t).Oks c ws := by
  induction ws generalizing c with
  | nil => trivial
  | cons w ws ih => exact ⟨hws w List.mem_cons_self, ih (fun v hv => hws v (List.mem_cons_of_mem w hv)) _⟩

/-- The return base address of a record that also writes is never awaited. -/
theorem take_ne_retBase {c : Ctrl τ} (hc : c.fsm ≠ .receiveBaseRetAddr) {w : Word τ} (hw : w.wcount = 0 ∨ w.rcount = 0) :
    (c.take w).fsm ≠ .receiveBaseRetAddr := by
  obtain ⟨fsm, b, n⟩ := c
  cases fsm with
  | idle =>
    show (if w.wcount ≠ 0 then Fsm.receiveWrites else if w.rcount ≠ 0 then .receiveReads else .idle) ≠ _
    split_ifs <;> decide
  | receiveBaseRetAddr => exact absurd rfl hc
  | receiveWrites =>
    by_cases hl : (Ctrl.writeBeat ⟨.receiveWrites, b, n⟩ w).last = true
    · have hlast : n + 1 = w.wcount.toNat := by simpa [Ctrl.writeBeat] using hl
      have hr : w.rcount = 0 := hw.resolve_left fun h0 => by
        rw [h0] at hlast
        exact absurd hlast (Nat.succ_ne_zero n)
      simp [Ctrl.take, Ctrl.retBase, Ctrl.next, hl, hr]
    · simp [Ctrl.take, Ctrl.retBase, Ctrl.next, hl]
  | receiveReads =>
    simp only [Ctrl.take, Ctrl.retBase, Ctrl.next, reduceCtorEq, if_false, if_true]
    split_ifs <;> decide

/-- A word that stays is shown, as its beat, until it is taken. -/
theorem shown_of_not_ready {c : Ctrl τ} (hc : c.fsm ≠ .receiveBaseRetAddr) {r : Bool} (hr : c.ready r = false)
    (w : Word τ) : c.source (some w) ≠ none ∧ r = false ∧ c.next (some w) r = c := by
  obtain ⟨fsm, b, n⟩ := c
  cases fsm with
  | idle => cases hr
  | receiveBaseRetAddr => exact absurd rfl hc
  | _ =>
    obtain rfl : r = false := hr
    exact ⟨Option.some_ne_none _, rfl, rfl⟩

/-- A word in `IDLE` is taken whatever the consumer does, and makes no beat. -/
theorem source_of_ready {c : Ctrl τ} (h : c.ready false = true) (w : Option (Word τ)) : c.source w = none := by
  obtain ⟨fsm, b, n⟩ := c
  cases fsm with
  | idle => rfl
  | _ => cases h

/-- Behind the FIFO, the receiver takes each word as it makes its beat. -/
def decodes (H : ε → Prop) : Stage.Lazy H (decoder (ε := ε) t) (decoding t) where
  W := ℕ
  linear := inferInstance
  wf := wellFoundedLT_nat
  Rel c q p w := Same c q ∧ c.fsm ≠ .receiveBaseRetAddr ∧ p = [] ∧ w = 0
  reset := ⟨0, .refl _, Fsm.noConfusion, rfl, rfl⟩
  cycle := by
    rintro c q p w ⟨hsame, hc, rfl, rfl⟩ e a r hok
    cases a with
    | none =>
      have hnext := next_none c r
      have hsource : c.source none = none := by
        unfold Ctrl.source
        cases c.fsm <;> rfl
      rw [ite_self, Option.toList_none]
      refine ⟨[], 0, ?_, ⟨hnext.trans hsame, hnext.fsm ▸ hc, rfl, rfl⟩, fun _ _ _ => .inl ⟨rfl, rfl, le_rfl⟩⟩
      show [] = (if r then c.source none else none).toList ++ []
      rw [hsource, ite_self]
      rfl
    | some x =>
      cases hr : c.ready r with
      | true =>
        obtain ⟨hret, hnext⟩ := next_of_ready hr x
        have hbeat : (q.retBase x).beat x = (c.source (some x)).toList := by
          rw [← blind_beat _ _ x (hsame.retBase x), hret]
          rfl
        have htakes : (if (decoder t).ready c e (some x) r then some x else none) = some x := if_pos hr
        rw [htakes]
        refine ⟨[], 0, ?_, ⟨?_, ?_, rfl, rfl⟩, fun _ h _ => absurd (h hr) (Option.some_ne_none x)⟩
        · show (q.retBase x).beat x ++ [] = (if r then c.source (some x) else none).toList ++ []
          rw [hbeat]
          cases r with
          | false =>
            rw [source_of_ready hr]
            rfl
          | true => rfl
        · show Same (c.next (some x) r) (q.take x)
          rw [hnext, hsame.take_eq]
          exact .refl _
        · show (c.next (some x) r).fsm ≠ _
          rw [hnext]
          exact take_ne_retBase hc hok.1
      | false =>
        obtain ⟨hsource, rfl, hnext⟩ := shown_of_not_ready hc hr x
        have htakes : (if (decoder t).ready c e (some x) false then some x else none) = none :=
          if_neg (ne_true_of_eq_false hr)
        rw [htakes]
        refine ⟨[], 0, rfl, ⟨?_, ?_, rfl, rfl⟩, fun _ _ _ => .inr (.inl hsource)⟩
        · show Same (c.next (some x) false) q
          rw [hnext]
          exact hsame
        · show (c.next (some x) false).fsm ≠ _
          rw [hnext]
          exact hc
  stable := by
    rintro c q p w ⟨-, hc, -, -⟩ e a - x hx e' a' ha
    -- a beat is shown, hence the word is not taken
    have hr : c.ready false = false := by
      by_contra hr
      rw [Bool.not_eq_false] at hr
      have hx' : c.source a = some x := hx
      rw [source_of_ready hr] at hx'
      cases hx'
    cases a with
    | none =>
      have hx' : c.source none = some x := hx
      unfold Ctrl.source at hx'
      cases hf : c.fsm <;> rw [hf] at hx' <;> cases hx'
    | some w =>
      obtain ⟨-, -, hnext⟩ := shown_of_not_ready hc hr w
      rw [ha hr (Option.some_ne_none w)]
      show (c.next (some w) false).source (some w) = some x
      rw [hnext]
      exact hx

/-- What the receiver makes of packets of at most `payload` words. -/
abbrev receives (payload : ℕ) (t : τ) : Transducer (Word τ) (MmapBeat τ) :=
  ((PacketFIFO.store Word.last payload).mapped id).andThen (decoding t)

variable {F} {payload params : ℕ} (hF : F.Sized payload params)

include hF in
/-- The receiver decodes the records that fit in it. -/
def queues (hparams : 0 < params) (H : ε → Prop) : Stage.Queueing H (recordReceiver F t) (receives payload t) :=
  (PacketFIFO.queues hF hparams (decodes H).sim id).comap (fun s => (s.fifo, s.ctrl)) rfl
    (fun s _ _ => by
      show s.source = s.ctrl.source ((F.source s.fifo).map id)
      rw [Option.map_id]
      rfl)
    (fun _ _ _ _ => rfl)
    (fun s _ a r => by
      show (F.step s.fifo a (s.ctrl.ready r), s.ctrl.next (F.source s.fifo) r) =
        (F.step s.fifo a (s.ctrl.ready r), s.ctrl.next ((F.source s.fifo).map id) r)
      rw [Option.map_id]
      rfl)

end LiteEth.Frontend.Etherbone.Receiver
