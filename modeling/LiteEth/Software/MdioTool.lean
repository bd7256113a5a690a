/-
The rest of `software/liteeth_mdio.py`: sessions of a client, its typed registers of `mdio_regs.py`, and the tool that
configures a device. What they do on the pads they do on the registers.
-/
import LiteEth.Software.MdioClient
import LiteEth.Software.Programs

namespace LiteEth.Software.MdioClient

open LiteEth.Phy.Mdio

/-- What programs need of a host: the words read, and the state after an operation. -/
structure Host (σ : Type) where
  read : ℤ → ℤ → σ → ℤ × σ
  write : ℤ → ℤ → ℤ → σ → σ

section Hosts

variable {σ ρ : Type}

/-- The client on the pads. -/
def pads (D : Devices σ ρ) (lag : ℕ → ℕ) : Host (Bus σ) where
  read := read D lag
  write := write D lag

/-- A host that reaches the registers; an address is five bits, a register sixteen. -/
def direct (R : Registers ρ) : Host ρ where
  read phyaddr reg regs :=
    (((R.get regs (BitVec.ofInt 5 phyaddr) (BitVec.ofInt 5 reg)).toNat : ℤ),
      R.touch regs (BitVec.ofInt 5 phyaddr) (BitVec.ofInt 5 reg))
  write phyaddr reg val regs := R.put regs (BitVec.ofInt 5 phyaddr) (BitVec.ofInt 5 reg) (BitVec.ofInt 16 val)

/-- A bus on which host and devices have never driven the line at once, with these registers. -/
structure Holds (D : Devices σ ρ) (Idle : σ → Prop) (b : Bus σ) (regs : ρ) : Prop where
  idle : Idle b.devices
  regs : D.regs b.devices = regs
  clash : b.clash = false

variable {D : Devices σ ρ} {R : Registers ρ} {Idle : σ → Prop} (conf : D.Conforms R Idle) {lag : ℕ → ℕ}
  (hlag : ∀ n, 2 ≤ lag n)

include conf hlag

theorem holds_write (phyaddr reg val : ℤ) {b : Bus σ} {regs : ρ} (h : Holds D Idle b regs) :
    Holds D Idle ((pads D lag).write phyaddr reg val b) ((direct R).write phyaddr reg val regs) := by
  obtain ⟨idle, regs, clash⟩ := write_spec hlag conf phyaddr reg val h.idle
  rw [h.regs] at regs
  exact ⟨idle, regs, clash.trans h.clash⟩

theorem holds_read (phyaddr reg : ℤ) {b : Bus σ} {regs : ρ} (h : Holds D Idle b regs) :
    ((pads D lag).read phyaddr reg b).1 = ((direct R).read phyaddr reg regs).1 ∧
      Holds D Idle ((pads D lag).read phyaddr reg b).2 ((direct R).read phyaddr reg regs).2 := by
  obtain ⟨idle, regs, clash, word⟩ := read_spec hlag conf phyaddr reg h.idle
  rw [h.regs] at regs word
  exact ⟨word, idle, regs, clash.trans h.clash⟩

end Hosts

/-! ## Sessions -/

/-- An operation of a client. -/
inductive Op
  | write (phyaddr reg val : ℤ)
  | read (phyaddr reg : ℤ)

/-- A sequence of operations, with the words read. -/
def Host.session {σ : Type} (host : Host σ) : List Op → σ → List ℤ × σ
  | [], s => ([], s)
  | .write phyaddr reg val :: ops, s => host.session ops (host.write phyaddr reg val s)
  | .read phyaddr reg :: ops, s =>
    let word := host.read phyaddr reg s
    let rest := host.session ops word.2
    (word.1 :: rest.1, rest.2)

/-- Software that moves the pads bit by bit accesses the registers: every sequence of operations reads and writes what
it should, and host and devices never drive the line at once. -/
theorem session_refines {σ ρ : Type} {D : Devices σ ρ} {R : Registers ρ} {Idle : σ → Prop} (conf : D.Conforms R Idle)
    {lag : ℕ → ℕ} (hlag : ∀ n, 2 ≤ lag n) (ops : List Op) {b : Bus σ} {regs : ρ} (h : Holds D Idle b regs) :
    ((pads D lag).session ops b).1 = ((direct R).session ops regs).1 ∧
      Holds D Idle ((pads D lag).session ops b).2 ((direct R).session ops regs).2 := by
  induction ops generalizing b regs with
  | nil => exact ⟨rfl, h⟩
  | cons op ops ih =>
    cases op with
    | write phyaddr reg val => exact ih (holds_write conf hlag phyaddr reg val h)
    | read phyaddr reg =>
      obtain ⟨word, h'⟩ := holds_read conf hlag phyaddr reg h
      obtain ⟨words, rest⟩ := ih h'
      refine ⟨?_, rest⟩
      rw [Host.session, Host.session, word, words]

/-- A register is written and read again; nobody answers at another address. -/
theorem session_refines_device :
    ((pads (Device.devices 1) fun _ => 2).session [.write 1 3 0x1234, .read 1 3, .read 2 3]
      (Bus.reset ⟨0, [], fun _ => 0⟩)).1 = [0x1234, 0xffff] :=
  (session_refines Device.conforms (fun _ => le_rfl) _ ⟨⟨rfl, Nat.zero_le 2⟩, rfl, rfl⟩).1.trans rfl

/-! ## Typed registers -/

/-- A class of `mdio_regs.py`. -/
structure MDIOReg where
  addr : ℤ
  union : BitFieldUnion

/-- Fields that lie one above the other share no bit. -/
theorem disjoint_of_apart {fields : List BitField}
    (apart : ∀ f ∈ fields, ∀ g ∈ fields, f ≠ g → f.offset + f.width ≤ g.offset ∨ g.offset + g.width ≤ f.offset)
    (f : BitField) (hf : f ∈ fields) (g : BitField) (hg : g ∈ fields) (distinct : f ≠ g) (k : ℕ) (covered : f.Covers k) :
    ¬ g.Covers k := by
  rintro ⟨lower, upper⟩
  obtain ⟨lower', upper'⟩ := covered
  rcases apart f hf g hg distinct with h | h <;> omega

/-- The fields of the status register. -/
def statusFields : List BitField :=
  [⟨"b100base_t4", 15, 1⟩, ⟨"b100_x_fd", 14, 1⟩, ⟨"b100_x_hd", 13, 1⟩, ⟨"b10_fd", 12, 1⟩, ⟨"b10_hd", 11, 1⟩,
    ⟨"b100_t2_fd", 10, 1⟩, ⟨"b100_t2_hd", 9, 1⟩, ⟨"extended_status", 8, 1⟩, ⟨"mf_preamble_suppression", 6, 1⟩,
    ⟨"copper_autoneg_done", 5, 1⟩, ⟨"copper_remote_fault", 4, 1⟩, ⟨"autoneg_ability", 3, 1⟩,
    ⟨"copper_link_status", 2, 1⟩, ⟨"jabber_detect", 1, 1⟩, ⟨"extended_capability", 0, 1⟩]

/-- The fields of the PHY specific status register. -/
def specificStatusFields : List BitField :=
  [⟨"speed", 14, 2⟩, ⟨"duplex", 13, 1⟩, ⟨"page_rxed", 12, 1⟩, ⟨"speed_and_duplex_resolved", 11, 1⟩,
    ⟨"link_real_time", 10, 1⟩, ⟨"cable_length_gige", 7, 3⟩, ⟨"mdi_crossover", 6, 1⟩, ⟨"downshift", 5, 1⟩,
    ⟨"copper_energy_detect", 4, 1⟩, ⟨"tx_pause_en", 3, 1⟩, ⟨"rx_pause_en", 2, 1⟩, ⟨"polarity_real_time", 1, 1⟩,
    ⟨"jabber_real_time", 0, 1⟩]

/-- The fields of the extended control register. -/
def extCtrlFields : List BitField :=
  [⟨"block_carrier_ext", 15, 1⟩, ⟨"line_loopback", 14, 1⟩, ⟨"disable_link_pulses", 12, 1⟩, ⟨"downshift_counter", 9, 3⟩,
    ⟨"downshift_en", 8, 1⟩, ⟨"rgmii_rx_timing_ctrl", 7, 1⟩, ⟨"default_mac_speed", 4, 3⟩, ⟨"dte_detect_en", 2, 1⟩,
    ⟨"rgmii_tx_timing_ctrl", 1, 1⟩]

/-- The field of the receive error counter. -/
def rxErrorFields : List BitField := [⟨"rx_err_cnt", 0, 16⟩]

/-- The fields of the extended status register. -/
def extStatusFields : List BitField :=
  [⟨"fiber_copper_autosel_dis", 15, 1⟩, ⟨"fiper_copper_resolution", 13, 1⟩, ⟨"serial_if_autoneg_bypass_en", 12, 1⟩,
    ⟨"serial_if_autoneg_bypass_status", 11, 1⟩, ⟨"irq_polarity", 10, 1⟩, ⟨"dis_en_auto_medium_reg_sel", 9, 1⟩,
    ⟨"dte_det_status_drop_hys", 5, 4⟩, ⟨"dte_pwr_status", 4, 1⟩, ⟨"hw_config", 0, 4⟩]

/-- The fields of a class are laid out soundly. -/
structure Sound (fields : List BitField) : Prop where
  nodup : (fields.map BitField.name).Nodup
  packed_reserved : "packed" ∉ fields.map BitField.name
  apart : ∀ f ∈ fields, ∀ g ∈ fields, f ≠ g → f.offset + f.width ≤ g.offset ∨ g.offset + g.width ≤ f.offset

theorem sound_status : Sound statusFields := ⟨by decide, by decide, by decide⟩
theorem sound_specificStatus : Sound specificStatusFields := ⟨by decide, by decide, by decide⟩
theorem sound_extCtrl : Sound extCtrlFields := ⟨by decide, by decide, by decide⟩
theorem sound_rxError : Sound rxErrorFields := ⟨by decide, by decide, by decide⟩
theorem sound_extStatus : Sound extStatusFields := ⟨by decide, by decide, by decide⟩

/-- The class of fields that are sound. -/
def Sound.union {fields : List BitField} (h : Sound fields) : BitFieldUnion where
  fields := fields
  nodup := h.nodup
  packed_reserved := h.packed_reserved
  disjoint := disjoint_of_apart h.apart

/-- Register 0. -/
def CONTROL_COPPER : MDIOReg := ⟨0x00, controlCopper⟩

/-- Register 1. -/
def STATUS_COPPER : MDIOReg := ⟨0x01, sound_status.union⟩

/-- Register 17. -/
def PHY_SPECIFIC_STATUS_COPPER : MDIOReg := ⟨0x11, sound_specificStatus.union⟩

/-- Register 20. -/
def EXT_PHY_SPECIFIC_CTRL : MDIOReg := ⟨0x14, sound_extCtrl.union⟩

/-- Register 21. -/
def RX_ERROR_COUNTER : MDIOReg := ⟨0x15, sound_rxError.union⟩

/-- Register 27. -/
def EXT_PHY_SPECIFIC_STATUS : MDIOReg := ⟨0x1b, sound_extStatus.union⟩

section Programs

variable {σ : Type} (host : Host σ) (phyaddr : ℤ)

/-- `read_reg`: the word of a register, as an instance of its class. -/
def readReg (reg : MDIOReg) : EStateM PyError σ Obj := do
  let packed ← modifyGet (host.read phyaddr reg.addr)
  match reg.union.init [("packed", packed)] with
  | .ok r => pure r
  | .error e => throw e

/-- `write_reg`: an instance of the class, as the word of its register. -/
def writeReg (reg : MDIOReg) (r : Obj) : EStateM PyError σ Unit :=
  modifyGet fun s => ((), host.write phyaddr reg.addr r.packed s)

/-- An assignment to a field. -/
def assign (reg : MDIOReg) (name : String) (value : ℤ) (r : Obj) : EStateM PyError σ Obj :=
  match (reg.union.setattr name value).run r with
  | .ok _ r => pure r
  | .error e _ => throw e

/-- `reset_phy`: sets the reset bit of the control register. -/
def resetPhy : EStateM PyError σ Unit := do
  let r ← readReg host phyaddr CONTROL_COPPER
  let r ← assign CONTROL_COPPER "reset" 1 r
  writeReg host phyaddr CONTROL_COPPER r

/-- `--dump`. -/
def dumpRegs : EStateM PyError σ Unit := do
  let _ ← readReg host phyaddr CONTROL_COPPER
  let _ ← readReg host phyaddr STATUS_COPPER
  let _ ← readReg host phyaddr PHY_SPECIFIC_STATUS_COPPER
  let _ ← readReg host phyaddr EXT_PHY_SPECIFIC_CTRL
  let _ ← readReg host phyaddr RX_ERROR_COUNTER

/-- `--set-hwconfig`, with `r` as read before. -/
def setHwconfig (hwconfig : ℤ) (r : Obj) : EStateM PyError σ Unit := do
  let r ← assign EXT_PHY_SPECIFIC_STATUS "hw_config" hwconfig r
  writeReg host phyaddr EXT_PHY_SPECIFIC_STATUS r
  resetPhy host phyaddr
  let _ ← readReg host phyaddr EXT_PHY_SPECIFIC_STATUS
  let _ ← readReg host phyaddr PHY_SPECIFIC_STATUS_COPPER

/-- `--set-rx-delay`. -/
def setRxDelay (delay : Bool) : EStateM PyError σ Unit := do
  let r ← readReg host phyaddr EXT_PHY_SPECIFIC_CTRL
  let r ← assign EXT_PHY_SPECIFIC_CTRL "rgmii_rx_timing_ctrl" (if delay then 1 else 0) r
  writeReg host phyaddr EXT_PHY_SPECIFIC_CTRL r
  resetPhy host phyaddr

/-- `main`, less what it prints. -/
def main (dump : Bool) (hwconfig : Option ℤ) (rxDelay : Option Bool) : EStateM PyError σ Unit := do
  (if dump then dumpRegs host phyaddr else pure ())
  let r ← readReg host phyaddr EXT_PHY_SPECIFIC_STATUS
  (match hwconfig with
    | some v => setHwconfig host phyaddr v r
    | none => pure ())
  (match rxDelay with
    | some delay => setRxDelay host phyaddr delay
    | none => pure ())

end Programs

/-! ## On the pads as on the registers -/

section Related

variable {σ ρ : Type} {D : Devices σ ρ} {R : Registers ρ} {Idle : σ → Prop} (conf : D.Conforms R Idle) {lag : ℕ → ℕ}
  (hlag : ∀ n, 2 ≤ lag n) (phyaddr : ℤ)

omit conf hlag in
theorem related_assign (reg : MDIOReg) (name : String) (v : ℤ) (r : Obj) :
    Related (Holds D Idle) (assign reg name v r) (assign reg name v r) := by
  unfold assign
  split
  · exact .pure _
  · exact .throw _

include conf hlag

theorem related_readReg (reg : MDIOReg) :
    Related (Holds D Idle) (readReg (pads D lag) phyaddr reg) (readReg (direct R) phyaddr reg) := by
  refine .bind (.modifyGet fun _ _ h => holds_read conf hlag phyaddr reg.addr h) fun packed => ?_
  split
  · exact .pure _
  · exact .throw _

theorem related_writeReg (reg : MDIOReg) (r : Obj) :
    Related (Holds D Idle) (writeReg (pads D lag) phyaddr reg r) (writeReg (direct R) phyaddr reg r) :=
  .modifyGet fun _ _ h => ⟨rfl, holds_write conf hlag phyaddr reg.addr r.packed h⟩

theorem related_resetPhy : Related (Holds D Idle) (resetPhy (pads D lag) phyaddr) (resetPhy (direct R) phyaddr) :=
  .bind (related_readReg conf hlag phyaddr _) fun _ =>
    .bind (related_assign _ _ _ _) fun _ => related_writeReg conf hlag phyaddr _ _

theorem related_main (dump : Bool) (hwconfig : Option ℤ) (rxDelay : Option Bool) :
    Related (Holds D Idle) (main (pads D lag) phyaddr dump hwconfig rxDelay)
      (main (direct R) phyaddr dump hwconfig rxDelay) := by
  have read := related_readReg conf hlag phyaddr
  have write := related_writeReg conf hlag phyaddr
  have reset := related_resetPhy conf hlag phyaddr
  unfold main
  refine .bind ?_ fun _ => .bind (read _) fun r => .bind ?_ fun _ => ?_
  · cases dump with
    | true =>
      exact .bind (read _) fun _ => .bind (read _) fun _ => .bind (read _) fun _ => .bind (read _) fun _ =>
        .bind (read _) fun _ => .pure _
    | false => exact .pure _
  · cases hwconfig with
    | some v =>
      exact .bind (related_assign _ _ _ _) fun _ => .bind (write _ _) fun _ => .bind reset fun _ =>
        .bind (read _) fun _ => .bind (read _) fun _ => .pure _
    | none => exact .pure _
  · cases rxDelay with
    | some delay =>
      exact .bind (read _) fun _ => .bind (related_assign _ _ _ _) fun _ => .bind (write _ _) fun _ => reset
    | none => exact .pure _

end Related

/-! ## On the registers -/

section Direct

variable {ρ : Type} (R : Registers ρ) (phyaddr : ℤ) (regs : ρ)

/-- A word with the bits of a field replaced. -/
theorem ofInt_put (f : BitField) (v : ℤ) (w : BitVec 16) (k : ℕ) (hk : k < 16) :
    (BitVec.ofInt 16 (f.put v w.toNat)).getLsbD k = if f.Covers k then v.testBit (k - f.offset) else w.getLsbD k := by
  rw [Int.getLsbD_ofInt, decide_eq_true hk, Bool.true_and, f.testBit_put, Int.testBit_natCast]
  rfl

/-- An instance with a word read. -/
def ofWord (w : BitVec 16) : Obj := { Obj.new with packed := w.toNat }

theorem readReg_direct (reg : MDIOReg) {a : BitVec 5} (address : BitVec.ofInt 5 reg.addr = a) :
    (readReg (direct R) phyaddr reg).run regs =
      .ok (ofWord (R.get regs (BitVec.ofInt 5 phyaddr) a)) (R.touch regs (BitVec.ofInt 5 phyaddr) a) := by
  have read : (modifyGet ((direct R).read phyaddr reg.addr) : EStateM PyError ρ ℤ).run regs =
      .ok ((direct R).read phyaddr reg.addr regs).1 ((direct R).read phyaddr reg.addr regs).2 := rfl
  rw [readReg, run_bind_ok read, reg.union.init_packed, ← address]
  rfl

theorem writeReg_direct (reg : MDIOReg) {a : BitVec 5} (address : BitVec.ofInt 5 reg.addr = a) (r : Obj) :
    (writeReg (direct R) phyaddr reg r).run regs =
      .ok () (R.put regs (BitVec.ofInt 5 phyaddr) a (BitVec.ofInt 16 r.packed)) := by
  rw [← address]
  rfl

theorem assign_ok (reg : MDIOReg) (f : BitField) (member : f ∈ reg.union.fields) {v : ℤ}
    (fits : 0 ≤ v ∧ v < 2 ^ f.width) (r : Obj) :
    (assign reg f.name v r).run regs = .ok { r with packed := f.put v r.packed } regs := by
  unfold assign
  rw [reg.union.setattr_of_mem member, f.fset_ok r fits]
  rfl

theorem assign_error (reg : MDIOReg) (f : BitField) (member : f ∈ reg.union.fields) {v : ℤ}
    (wide : ¬ (0 ≤ v ∧ v < 2 ^ f.width)) (r : Obj) :
    (assign reg f.name v r).run regs =
      .error (.valueError ("attempted to assign value that does not fit in bit field width " ++ toString f.width))
        regs := by
  unfold assign
  rw [reg.union.setattr_of_mem member, f.fset_error r wide]
  rfl

/-- The words that are written: the field replaced, and the reset bit set. -/
theorem ofInt_put_hwconfig {v : ℤ} (fits : 0 ≤ v ∧ v < 16) (w : BitVec 16) :
    BitVec.ofInt 16 (BitField.put ⟨"hw_config", 0, 4⟩ v w.toNat) = w &&& 0xfff0 ||| BitVec.ofInt 16 v := by
  have high : ∀ k ≥ 4, v.testBit k = false := (Int.testBit_eq_false_iff v 4).2 fits
  refine BitVec.eq_of_getLsbD_eq fun k hk => ?_
  rw [ofInt_put _ _ _ _ hk, BitVec.getLsbD_or, BitVec.getLsbD_and, Int.getLsbD_ofInt, decide_eq_true hk]
  have mask : (0xfff0 : BitVec 16).getLsbD k = decide (4 ≤ k) := by
    interval_cases k <;> rfl
  rw [mask]
  by_cases low : k < 4
  · simp [BitField.Covers, low]
  · simp [BitField.Covers, low, Nat.not_lt.1 low, high k (Nat.not_lt.1 low)]

theorem ofInt_put_reset (w : BitVec 16) :
    BitVec.ofInt 16 (BitField.put ⟨"reset", 15, 1⟩ 1 w.toNat) = w ||| 0x8000 := by
  refine BitVec.eq_of_getLsbD_eq fun k hk => ?_
  rw [ofInt_put _ _ _ _ hk, BitVec.getLsbD_or]
  have mask : (0x8000 : BitVec 16).getLsbD k = decide (k = 15) := by
    interval_cases k <;> rfl
  rw [mask]
  by_cases bit : k = 15
  · subst bit
    simp [BitField.Covers, Int.testBit_one]
  · simp [BitField.Covers, bit, show ¬ (15 ≤ k ∧ k < 16) by omega]

theorem resetPhy_direct :
    (resetPhy (direct R) phyaddr).run regs =
      .ok () (R.put (R.touch regs (BitVec.ofInt 5 phyaddr) 0) (BitVec.ofInt 5 phyaddr) 0
        (R.get regs (BitVec.ofInt 5 phyaddr) 0 ||| 0x8000)) := by
  have read := readReg_direct R phyaddr regs CONTROL_COPPER (a := 0) rfl
  have assigned := assign_ok (R.touch regs (BitVec.ofInt 5 phyaddr) 0) CONTROL_COPPER ⟨"reset", 15, 1⟩
    List.mem_cons_self (v := 1) ⟨by decide, by decide⟩ (ofWord (R.get regs (BitVec.ofInt 5 phyaddr) 0))
  rw [resetPhy, run_bind_ok read, run_bind_ok assigned, writeReg_direct _ _ _ _ rfl, ← ofInt_put_reset]
  rfl

/-- The registers after `--set-hwconfig`. -/
def hwconfigured (phyaddr : BitVec 5) (v : ℤ) : ρ :=
  let w := R.get regs phyaddr 0x1b
  let regs := R.put (R.touch regs phyaddr 0x1b) phyaddr 0x1b (w &&& 0xfff0 ||| BitVec.ofInt 16 v)
  let c := R.get regs phyaddr 0
  let regs := R.put (R.touch regs phyaddr 0) phyaddr 0 (c ||| 0x8000)
  R.touch (R.touch regs phyaddr 0x1b) phyaddr 0x11

theorem main_direct (v : ℤ) :
    (main (direct R) phyaddr false (some v) none).run regs =
      if 0 ≤ v ∧ v < 16 then .ok () (hwconfigured R regs (BitVec.ofInt 5 phyaddr) v)
      else .error (.valueError "attempted to assign value that does not fit in bit field width 4")
        (R.touch regs (BitVec.ofInt 5 phyaddr) 0x1b) := by
  have nothing_dumped : ((if false then dumpRegs (direct R) phyaddr else pure ()) : EStateM PyError ρ Unit).run regs =
      .ok () regs := rfl
  have read := readReg_direct R phyaddr regs EXT_PHY_SPECIFIC_STATUS (a := 0x1b) rfl
  have member : (⟨"hw_config", 0, 4⟩ : BitField) ∈ EXT_PHY_SPECIFIC_STATUS.union.fields := by decide
  rw [main, run_bind_ok nothing_dumped, run_bind_ok read]
  split_ifs with fits
  · have assigned := assign_ok (R.touch regs (BitVec.ofInt 5 phyaddr) 0x1b) EXT_PHY_SPECIFIC_STATUS _ member fits
      (ofWord (R.get regs (BitVec.ofInt 5 phyaddr) 0x1b))
    have configured : (setHwconfig (direct R) phyaddr v (ofWord (R.get regs (BitVec.ofInt 5 phyaddr) 0x1b))).run
        (R.touch regs (BitVec.ofInt 5 phyaddr) 0x1b) = .ok () (hwconfigured R regs (BitVec.ofInt 5 phyaddr) v) := by
      rw [setHwconfig, run_bind_ok assigned, run_bind_ok (writeReg_direct _ _ _ _ (a := 0x1b) rfl _),
        run_bind_ok (resetPhy_direct _ _ _), run_bind_ok (readReg_direct _ _ _ _ (a := 0x1b) rfl),
        run_bind_ok (readReg_direct _ _ _ _ (a := 0x11) rfl), hwconfigured, ← ofInt_put_hwconfig fits]
      rfl
    rw [run_bind_ok configured]
    rfl
  · have assigned := assign_error (R.touch regs (BitVec.ofInt 5 phyaddr) 0x1b) EXT_PHY_SPECIFIC_STATUS _ member fits
      (ofWord (R.get regs (BitVec.ofInt 5 phyaddr) 0x1b))
    have raised : (setHwconfig (direct R) phyaddr v (ofWord (R.get regs (BitVec.ofInt 5 phyaddr) 0x1b))).run
        (R.touch regs (BitVec.ofInt 5 phyaddr) 0x1b) = _ := run_bind_error assigned
    rw [run_bind_error raised]
    rfl

end Direct

/-- `--set-hwconfig`, on the pads: four bits of a register are replaced, then the device is reset, and no other bit of any
register is written; a value that does not fit raises before anything is written. -/
theorem main_set_hwconfig {σ ρ : Type} {D : Devices σ ρ} {R : Registers ρ} {Idle : σ → Prop} (conf : D.Conforms R Idle)
    {lag : ℕ → ℕ} (hlag : ∀ n, 2 ≤ lag n) (phyaddr v : ℤ) {b : Bus σ} {regs : ρ} (h : Holds D Idle b regs) :
    if 0 ≤ v ∧ v < 16 then
      ∃ b', (main (pads D lag) phyaddr false (some v) none).run b = .ok () b' ∧
        Holds D Idle b' (hwconfigured R regs (BitVec.ofInt 5 phyaddr) v)
    else
      ∃ message b', (main (pads D lag) phyaddr false (some v) none).run b = .error (.valueError message) b' ∧
        Holds D Idle b' (R.touch regs (BitVec.ofInt 5 phyaddr) 0x1b) := by
  have same := related_main conf hlag phyaddr false (some v) none b regs h
  rw [main_direct] at same
  split_ifs at same ⊢
  · exact same.of_ok
  · obtain ⟨b', raised, states⟩ := same.of_error
    exact ⟨_, b', raised, states⟩

/-- A device with its registers clear. -/
theorem main_set_hwconfig_device :
    ∃ b', (main (pads (Device.devices 0) fun _ => 2) 0 false (some 11) none).run (Bus.reset ⟨0, [], fun _ => 0⟩) =
        .ok () b' ∧ Holds (Device.devices 0) Device.Idle b'
          (hwconfigured (Device.registers 0) (fun _ => 0) (BitVec.ofInt 5 0) 11) := by
  have set := main_set_hwconfig (D := Device.devices 0) Device.conforms (fun _ => le_rfl) 0 11
    (b := Bus.reset ⟨0, [], fun _ => 0⟩) ⟨⟨rfl, Nat.zero_le 2⟩, rfl, rfl⟩
  rwa [if_pos ⟨by decide, by decide⟩] at set

end LiteEth.Software.MdioClient
