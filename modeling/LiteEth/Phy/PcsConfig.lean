/-
The config words that a PCS receives (`phy/pcs_1000basex.py`, the `eth_rx` part of `PCS`). An ability match is two words
in a row, the same but for the acknowledge bit, of which the second is not empty; an acknowledgement match has this bit in
both, and is of the ability matched last. Read off the symbols: two config ordered sets with nothing between them.
-/
import LiteEth.Phy.PcsAlignment

namespace LiteEth.Phy.Pcs

open LiteEth.Rtl

/-- The bit of an acknowledgement. -/
def ACK : BitVec 16 := 0x4000

/-- Words that differ in nothing but the acknowledgement. -/
def SameAbility (v w : BitVec 16) : Prop := v ||| ACK = w ||| ACK

instance (v w : BitVec 16) : Decidable (SameAbility v w) := inferInstanceAs (Decidable (_ = _))

/-- `config_reg_empty`. -/
def NoAbility (w : BitVec 16) : Prop := w ||| 1 = 1

instance (w : BitVec 16) : Decidable (NoAbility w) := inferInstanceAs (Decidable (_ = _))

namespace Config

/-- The receive path, and what the PCS keeps of its words. -/
structure State where
  rx : Rx.State
  cCounter : ℕ
  previousConfigReg : BitVec 16
  preackConfigReg : BitVec 16
  rxConfigRegAbi : Bool
  rxConfigRegAck : Bool
  linkPartnerAdvAbility : BitVec 16

namespace State

variable (s : State) (y : Symbol)

/-- Bit 0 of the partner's word tells SGMII from 1000BASE-X. -/
def isSgmii : Bool := s.linkPartnerAdvAbility[0]

/-- The speed the partner asks for; a gigabit with 1000BASE-X. -/
def sgmiiSpeed : BitVec 2 := if s.isSgmii then s.linkPartnerAdvAbility.extractLsb' 10 2 else 0b10

/-- The partner has no abilities. -/
def configRegEmpty : Bool := decide (NoAbility s.linkPartnerAdvAbility)

/-- The word just received is the second of two with the same abilities, and these are not empty. -/
def abilityMatch : Bool :=
  s.rx.seenConfigReg && s.cCounter == 1 && decide (SameAbility s.previousConfigReg s.rx.configReg) &&
    !decide (NoAbility s.rx.configReg)

/-- Two such words acknowledge, with the abilities that were agreed on before. -/
def acknowledgeMatch : Bool :=
  s.abilityMatch && (s.previousConfigReg[14] && s.rx.configReg[14]) &&
    decide (SameAbility s.preackConfigReg s.rx.configReg)

/-- A cycle of `eth_rx` with the symbol `y`. -/
def next : State where
  rx := s.rx.next s.sgmiiSpeed y
  cCounter := if s.rx.seenConfigReg then 4 else if s.cCounter ≠ 0 then s.cCounter - 1 else s.cCounter
  previousConfigReg := if s.rx.seenConfigReg then s.rx.configReg else s.previousConfigReg
  preackConfigReg := if s.abilityMatch then s.previousConfigReg else s.preackConfigReg
  rxConfigRegAbi := s.abilityMatch
  rxConfigRegAck := s.acknowledgeMatch
  linkPartnerAdvAbility := if s.rx.seenConfigReg then s.rx.configReg else s.linkPartnerAdvAbility

end State

/-- The receiver with the registers that compare configuration words. -/
def receiver : Machine Symbol State where
  reset :=
    { rx := .init, cCounter := 0, previousConfigReg := 0, preackConfigReg := 0, rxConfigRegAbi := false,
      rxConfigRegAck := false, linkPartnerAdvAbility := 0 }
  step := State.next

/-! ## A config word among the symbols -/

section Backward

variable {r : Rx.State} {speed : BitVec 2} {y : Symbol}

theorem start_of_k28_5 (h : (r.next speed y).fsm = .k28_5) : r.fsm = .start ∧ y = Tx.comma := by
  unfold Rx.State.next at h
  cases hs : r.fsm with
  | start =>
    rw [hs] at h
    dsimp only at h
    split_ifs at h with h1 h2
    obtain ⟨k, d⟩ := y
    simp only [Bool.and_eq_true, beq_iff_eq] at h2
    exact ⟨rfl, by rw [h2.1, h2.2]; rfl⟩
  | configRegMsb =>
    rw [hs] at h
    cases h
  | _ =>
    rw [hs] at h
    dsimp only at h
    split_ifs at h

theorem k28_5_of_lsb (h : (r.next speed y).fsm = .configRegLsb) :
    r.fsm = .k28_5 ∧ ∃ d, (d = D 21 5 ∨ d = D 2 2) ∧ y = ⟨false, d⟩ := by
  unfold Rx.State.next at h
  cases hs : r.fsm with
  | k28_5 =>
    rw [hs] at h
    dsimp only at h
    split_ifs at h with h1
    obtain ⟨k, d⟩ := y
    simp only [Bool.and_eq_true, Bool.not_eq_true', Bool.or_eq_true, beq_iff_eq] at h1
    exact ⟨rfl, d, h1.2, by rw [h1.1]⟩
  | configRegMsb =>
    rw [hs] at h
    cases h
  | _ =>
    rw [hs] at h
    dsimp only at h
    split_ifs at h

theorem lsb_of_msb (h : (r.next speed y).fsm = .configRegMsb) :
    r.fsm = .configRegLsb ∧ y = ⟨false, y.d⟩ ∧ (r.next speed y).configRegLsb = y.d := by
  unfold Rx.State.next at h ⊢
  cases hs : r.fsm with
  | configRegLsb =>
    rw [hs] at h
    dsimp only at h
    split_ifs at h with h1
    obtain ⟨k, d⟩ := y
    rw [Bool.not_eq_true] at h1
    simp_all [Rx.State.loadConfigRegLsb]
  | configRegMsb =>
    rw [hs] at h
    cases h
  | _ =>
    rw [hs] at h
    dsimp only at h
    split_ifs at h

theorem msb_of_seen (h : (r.next speed y).seenConfigReg = true) :
    r.fsm = .configRegMsb ∧ y = ⟨false, y.d⟩ ∧ (r.next speed y).configReg = y.d ++ r.configRegLsb := by
  obtain ⟨k, d⟩ := y
  have loaded : r.loadConfigRegMsb ⟨k, d⟩ = true := h
  simp only [Rx.State.loadConfigRegMsb, Bool.and_eq_true, beq_iff_eq, Bool.not_eq_true'] at loaded
  refine ⟨loaded.1, by rw [loaded.2], ?_⟩
  simp [Rx.State.next, Rx.State.loadConfigRegMsb, Rx.State.configWord, loaded.1, loaded.2]

end Backward

section Words

variable {ys : List Symbol}

theorem run_concat (ys : List Symbol) (y : Symbol) : receiver.run (ys ++ [y]) = (receiver.run ys).next y :=
  receiver.runFrom_concat _ ys y

/-- A step of the receive path in a run. -/
theorem rx_concat (ys : List Symbol) (y : Symbol) :
    (receiver.run (ys ++ [y])).rx = (receiver.run ys).rx.next (receiver.run ys).sgmiiSpeed y := by
  rw [run_concat]
  rfl

/-- What a state of the receive path says about the last symbols, the last one of them on its own. -/
theorem exists_concat (h : (receiver.run ys).rx.fsm ≠ .start ∨ (receiver.run ys).rx.seenConfigReg = true) :
    ∃ pre y, ys = pre ++ [y] := by
  rcases List.eq_nil_or_concat ys with rfl | ⟨pre, y, rfl⟩
  · rcases h with h | h
    · exact absurd rfl h
    · cases h
  · exact ⟨pre, y, List.concat_eq_append⟩

/-- A word that has been seen is the config ordered set of the last four symbols. -/
theorem config_of_seen (h : (receiver.run ys).rx.seenConfigReg = true) :
    ∃ pre c, ys = pre ++ c ∧ Tx.IsConfig (receiver.run ys).rx.configReg c ∧ (receiver.run pre).rx.fsm = .start := by
  obtain ⟨ys₃, y₄, rfl⟩ := exists_concat (.inr h)
  rw [rx_concat] at h ⊢
  obtain ⟨fsm₃, hy₄, word⟩ := msb_of_seen h
  obtain ⟨ys₂, y₃, rfl⟩ := exists_concat (.inl (show (receiver.run ys₃).rx.fsm ≠ .start by rw [fsm₃]; decide))
  have lsb : (receiver.run (ys₂ ++ [y₃])).rx.configRegLsb = y₃.d := by
    rw [rx_concat] at fsm₃ ⊢
    exact (lsb_of_msb fsm₃).2.2
  rw [rx_concat] at fsm₃
  obtain ⟨fsm₂, hy₃, -⟩ := lsb_of_msb fsm₃
  obtain ⟨ys₁, y₂, rfl⟩ := exists_concat (.inl (show (receiver.run ys₂).rx.fsm ≠ .start by rw [fsm₂]; decide))
  rw [rx_concat] at fsm₂
  obtain ⟨fsm₁, d, hd, hy₂⟩ := k28_5_of_lsb fsm₂
  obtain ⟨pre, y₁, rfl⟩ := exists_concat (.inl (show (receiver.run ys₁).rx.fsm ≠ .start by rw [fsm₁]; decide))
  rw [rx_concat] at fsm₁
  obtain ⟨fsm₀, hy₁⟩ := start_of_k28_5 fsm₁
  refine ⟨pre, [y₁, y₂, y₃, y₄], by simp, ⟨d, hd, ?_⟩, fsm₀⟩
  have low : (y₄.d ++ y₃.d).extractLsb' 0 8 = y₃.d := BitVec.extractLsb'_append_eq_right
  have high : (y₄.d ++ y₃.d).extractLsb' 8 8 = y₄.d := BitVec.extractLsb'_append_eq_left
  rw [word, lsb, low, high, hy₁, hy₂, ← hy₃, ← hy₄]

/-- A config ordered set, from `START`. -/
theorem run_config {s : State} {w : BitVec 16} {c : List Symbol} (hs : s.rx.fsm = .start) (hc : Tx.IsConfig w c) :
    (receiver.runFrom s c).rx.fsm = .start ∧ (receiver.runFrom s c).rx.seenConfigReg = true ∧
      (receiver.runFrom s c).rx.configReg = w ∧
      (s.rx.seenConfigReg = true →
        (receiver.runFrom s c).cCounter = 1 ∧ (receiver.runFrom s c).previousConfigReg = s.rx.configReg) := by
  obtain ⟨d, hd, rfl⟩ := hc
  have code : (d == D 21 5 || d == D 2 2) = true := by
    rcases hd with rfl | rfl <;> rfl
  have word : w.extractLsb' 8 8 ++ w.extractLsb' 0 8 = w := BitVec.extractLsb'_append_extractLsb'
  have comma : ¬ (K 28 5 == K 27 7) = true := by decide
  -- the four symbols of an ordered set, one after the other
  simp only [Machine.runFrom_cons, Machine.runFrom_nil]
  set s₁ := receiver.step s Tx.comma with h₁
  set s₂ := receiver.step s₁ ⟨false, d⟩ with h₂
  set s₃ := receiver.step s₂ ⟨false, w.extractLsb' 0 8⟩ with h₃
  have fsm₁ : s₁.rx.fsm = .k28_5 := by simp [h₁, receiver, State.next, Rx.State.next, hs, Tx.comma, comma]
  have fsm₂ : s₂.rx.fsm = .configRegLsb := by simp [h₂, receiver, State.next, Rx.State.next, fsm₁, code]
  have fsm₃ : s₃.rx.fsm = .configRegMsb := by simp [h₃, receiver, State.next, Rx.State.next, fsm₂]
  have lsb : s₃.rx.configRegLsb = w.extractLsb' 0 8 := by
    simp [h₃, receiver, State.next, Rx.State.next, Rx.State.loadConfigRegLsb, fsm₂]
  have unseen₁ : s₁.rx.seenConfigReg = false := by
    simp [h₁, receiver, State.next, Rx.State.next, Rx.State.loadConfigRegMsb, hs]
  have unseen₂ : s₂.rx.seenConfigReg = false := by
    simp [h₂, receiver, State.next, Rx.State.next, Rx.State.loadConfigRegMsb, fsm₁]
  have unseen₃ : s₃.rx.seenConfigReg = false := by
    simp [h₃, receiver, State.next, Rx.State.next, Rx.State.loadConfigRegMsb, fsm₂]
  refine ⟨?_, ?_, ?_, ?_⟩
  · simp [receiver, State.next, Rx.State.next, fsm₃]
  · simp [receiver, State.next, Rx.State.next, Rx.State.loadConfigRegMsb, fsm₃]
  · simp [receiver, State.next, Rx.State.next, Rx.State.loadConfigRegMsb, Rx.State.configWord, fsm₃, lsb, word]
  · -- the word before counts for three cycles more
    intro seen
    have c₁ : s₁.cCounter = 4 ∧ s₁.previousConfigReg = s.rx.configReg := by
      simp [h₁, receiver, State.next, seen]
    have c₂ : s₂.cCounter = 3 ∧ s₂.previousConfigReg = s.rx.configReg := by
      simp [h₂, receiver, State.next, unseen₁, c₁]
    have c₃ : s₃.cCounter = 2 ∧ s₃.previousConfigReg = s.rx.configReg := by
      simp [h₃, receiver, State.next, unseen₂, c₂]
    simp [receiver, State.next, unseen₃, c₃]

/-! ## Two words in a row -/

theorem cCounter_le (ys : List Symbol) : (receiver.run ys).cCounter ≤ 4 := by
  refine receiver.runFrom_inv (P := fun s => s.cCounter ≤ 4) (C := fun _ _ => True) ?_ ys _ (Nat.zero_le 4)
    (receiver.along_trivial ys _)
  intro s y h _
  show (s.next y).cCounter ≤ 4
  unfold State.next
  dsimp only
  split_ifs <;> omega

theorem cCounter_concat (ys : List Symbol) (y : Symbol) :
    (receiver.run (ys ++ [y])).cCounter =
      if (receiver.run ys).rx.seenConfigReg then 4 else (receiver.run ys).cCounter - 1 := by
  rw [run_concat]
  unfold State.next
  dsimp only
  split_ifs <;> omega

theorem previous_concat (ys : List Symbol) (y : Symbol) :
    (receiver.run (ys ++ [y])).previousConfigReg =
      if (receiver.run ys).rx.seenConfigReg then (receiver.run ys).rx.configReg
      else (receiver.run ys).previousConfigReg := by
  rw [run_concat]
  rfl

/-- The counter tells how long ago the last word was seen. -/
theorem seen_of_cCounter {k : ℕ} (hk : k < 4) {ys : List Symbol} (h : (receiver.run ys).cCounter = 4 - k) :
    ∃ pre l, ys = pre ++ l ∧ l.length = k + 1 ∧ (receiver.run pre).rx.seenConfigReg = true ∧
      (receiver.run ys).previousConfigReg = (receiver.run pre).rx.configReg := by
  -- each cycle without a word counts one down
  induction k generalizing ys with
  | zero =>
    rcases List.eq_nil_or_concat ys with rfl | ⟨pre, y, rfl⟩
    · cases h
    · have le := cCounter_le pre
      rw [List.concat_eq_append] at h ⊢
      rw [cCounter_concat] at h
      split_ifs at h with seen
      · exact ⟨pre, [y], rfl, rfl, seen, by rw [previous_concat, if_pos seen]⟩
      · omega
  | succ k ih =>
    rcases List.eq_nil_or_concat ys with rfl | ⟨pre, y, rfl⟩
    · have : (receiver.run []).cCounter = 0 := rfl
      omega
    · rw [List.concat_eq_append] at h ⊢
      rw [cCounter_concat] at h
      split_ifs at h with unseen
      · omega
      · have earlier : (receiver.run pre).cCounter = 4 - k := by omega
        obtain ⟨pre', l, rfl, length, seen, previous⟩ := ih (by omega) earlier
        refine ⟨pre', l ++ [y], by simp, by simp [length], seen, ?_⟩
        rw [previous_concat, if_neg unseen, previous]

/-- The words of two config ordered sets that are all of the last eight symbols. -/
def Consecutive (ys : List Symbol) (v w : BitVec 16) : Prop :=
  ∃ pre c c', ys = pre ++ c ++ c' ∧ Tx.IsConfig v c ∧ Tx.IsConfig w c' ∧ (receiver.run pre).rx.fsm = .start

theorem length_config {w : BitVec 16} {c : List Symbol} (h : Tx.IsConfig w c) : c.length = 4 := by
  obtain ⟨d, -, rfl⟩ := h
  rfl

/-- Two words in a row. -/
theorem consecutive_iff (ys : List Symbol) (v w : BitVec 16) :
    Consecutive ys v w ↔ (receiver.run ys).rx.seenConfigReg = true ∧ (receiver.run ys).cCounter = 1 ∧
      (receiver.run ys).previousConfigReg = v ∧ (receiver.run ys).rx.configReg = w := by
  constructor
  · rintro ⟨pre, c, c', rfl, hc, hc', start⟩
    obtain ⟨start', seen, word, -⟩ := run_config start hc
    rw [Machine.run, Machine.runFrom_append, Machine.runFrom_append]
    obtain ⟨-, seen', word', previous⟩ := run_config start' hc'
    obtain ⟨counter, previous⟩ := previous seen
    exact ⟨seen', counter, previous.trans word, word'⟩
  · rintro ⟨seen, counter, rfl, rfl⟩
    obtain ⟨mid, c', hys, hc', start'⟩ := config_of_seen seen
    obtain ⟨mid', l, hys', length, seen', previous⟩ := seen_of_cCounter (k := 3) (by decide) counter
    -- both are the symbols before the last four
    obtain ⟨rfl, rfl⟩ := List.append_inj' (hys.symm.trans hys') ((length_config hc').trans length.symm)
    obtain ⟨pre, c, hmid, hc, start⟩ := config_of_seen seen'
    rw [previous]
    exact ⟨pre, c, c', by rw [hys, hmid], hc, hc', start⟩

/-! ## The matches -/

/-- The words of the ability matches so far. -/
def abilities (ys : List Symbol) : List (BitVec 16) :=
  receiver.log (fun s _ => if s.abilityMatch then [s.previousConfigReg] else []) receiver.reset ys

/-- The words of the acknowledgement matches so far. -/
def acknowledgements (ys : List Symbol) : List (BitVec 16) :=
  receiver.log (fun s _ => if s.acknowledgeMatch then [s.rx.configReg] else []) receiver.reset ys

theorem abilities_concat (ys : List Symbol) (y : Symbol) :
    abilities (ys ++ [y]) = abilities ys ++
      if (receiver.run ys).abilityMatch then [(receiver.run ys).previousConfigReg] else [] :=
  receiver.log_concat _ _ ys y

theorem acknowledgements_concat (ys : List Symbol) (y : Symbol) :
    acknowledgements (ys ++ [y]) = acknowledgements ys ++
      if (receiver.run ys).acknowledgeMatch then [(receiver.run ys).rx.configReg] else [] :=
  receiver.log_concat _ _ ys y

/-- An acknowledgement is compared with the ability matched last. -/
theorem preack_eq (ys : List Symbol) : (receiver.run ys).preackConfigReg = (abilities ys).getLast?.getD 0 := by
  induction ys using List.reverseRecOn with
  | nil => rfl
  | append_singleton ys y ih =>
    have step : (receiver.run (ys ++ [y])).preackConfigReg =
        if (receiver.run ys).abilityMatch then (receiver.run ys).previousConfigReg
        else (receiver.run ys).preackConfigReg := by
      rw [run_concat]
      rfl
    rw [step, abilities_concat]
    split_ifs
    · simp
    · rw [List.append_nil, ih]

/-- The matches, by the symbols received: an ability match is two config words with nothing between them, the same but for
the acknowledge bit; only the later one is tested for being empty, so `0x0000` and then `0x4000` are a match. An
acknowledgement match is one in which both carry the acknowledge bit and the ability is that of the match before. -/
theorem match_iff (ys : List Symbol) :
    ((receiver.run ys).abilityMatch = true ↔ ∃ v w, Consecutive ys v w ∧ SameAbility v w ∧ ¬ NoAbility w) ∧
      ((receiver.run ys).acknowledgeMatch = true ↔ ∃ v w, Consecutive ys v w ∧ SameAbility v w ∧ ¬ NoAbility w ∧
        v[14] = true ∧ w[14] = true ∧ SameAbility ((abilities ys).getLast?.getD 0) w) := by
  constructor
  · constructor
    · intro h
      simp only [State.abilityMatch, Bool.and_eq_true, beq_iff_eq, decide_eq_true_eq, Bool.not_eq_true',
        decide_eq_false_iff_not] at h
      exact ⟨_, _, (consecutive_iff ys _ _).2 ⟨h.1.1.1, h.1.1.2, rfl, rfl⟩, h.1.2, h.2⟩
    · rintro ⟨v, w, consecutive, same, ability⟩
      obtain ⟨seen, counter, rfl, rfl⟩ := (consecutive_iff ys v w).1 consecutive
      simp [State.abilityMatch, seen, counter, same, ability]
  · constructor
    · intro h
      simp only [State.acknowledgeMatch, State.abilityMatch, Bool.and_eq_true, beq_iff_eq, decide_eq_true_eq,
        Bool.not_eq_true', decide_eq_false_iff_not, preack_eq] at h
      obtain ⟨⟨⟨⟨⟨seen, counter⟩, same⟩, ability⟩, ack, ack'⟩, last⟩ := h
      exact ⟨_, _, (consecutive_iff ys _ _).2 ⟨seen, counter, rfl, rfl⟩, same, ability, ack, ack', last⟩
    · rintro ⟨v, w, consecutive, same, ability, ack, ack', last⟩
      obtain ⟨seen, counter, rfl, rfl⟩ := (consecutive_iff ys v w).1 consecutive
      simp only [State.acknowledgeMatch, State.abilityMatch, seen, counter, same, ability, ack, ack', preack_eq, last]
      rfl

end Words

end Config

end LiteEth.Phy.Pcs
