/-
`LiteEthPHYMDIO` of `phy/common.py`: the pads of a management bus behind two CSRs, which software moves bit by bit. On the
bus are the devices of 802.3 clause 22, by what a host relies on: a frame it sends is an access to their registers.
-/
import Mathlib.Tactic

namespace LiteEth.Phy.Mdio

/-! ## The devices -/

/-- What an access does to the registers of all devices, by the address of the device and of its register. Reading may
change them as well: some bits are latched until they are read. -/
structure Registers (ρ : Type) where
  get : ρ → BitVec 5 → BitVec 5 → BitVec 16
  put : ρ → BitVec 5 → BitVec 5 → BitVec 16 → ρ
  touch : ρ → BitVec 5 → BitVec 5 → ρ

/-- The devices of a bus: at a rising edge of `mdc` they sample `mdio`, after it they may drive it. -/
structure Devices (σ ρ : Type) where
  sample : σ → Bool → σ
  drive : σ → Option Bool
  regs : σ → ρ

/-- A word as it is sent. -/
def msbFirst {n : ℕ} (word : BitVec n) : List Bool := (List.range n).map word.getMsbD

@[simp]
theorem length_msbFirst {n : ℕ} (word : BitVec n) : (msbFirst word).length = n := by
  simp [msbFirst]

/-- The 32 ones before a frame. -/
def preamble : List Bool := List.replicate 32 true

/-- A frame up to the turnaround: 32 ones, the start, the operation and the two addresses. -/
def header (opcode : List Bool) (phyaddr reg : BitVec 5) : List Bool :=
  preamble ++ [false, true] ++ opcode ++ msbFirst phyaddr ++ msbFirst reg

/-- A frame that writes a register, without the preamble. -/
def writeFrame (phyaddr reg : BitVec 5) (val : BitVec 16) : List Bool :=
  header [false, true] phyaddr reg ++ [true, false] ++ msbFirst val

/-- The part of a frame that reads a register up to the turnaround, without the preamble. -/
def readHeader (phyaddr reg : BitVec 5) : List Bool := header [true, false] phyaddr reg

namespace Devices

variable {σ ρ : Type} (D : Devices σ ρ)

/-- The devices after more bits. -/
def run (s : σ) (bits : List Bool) : σ := bits.foldl D.sample s

@[simp] theorem run_nil (s : σ) : D.run s [] = s := rfl

@[simp] theorem run_cons (s : σ) (b : Bool) (bits : List Bool) : D.run s (b :: bits) = D.run (D.sample s b) bits := rfl

theorem run_append (s : σ) (bits bits' : List Bool) : D.run s (bits ++ bits') = D.run (D.run s bits) bits' :=
  List.foldl_append

/-- The devices leave the line alone while they sample `bits`, before and after. -/
def Silent (s : σ) (bits : List Bool) : Prop := ∀ l, l <+: bits → D.drive (D.run s l) = none

/-- The level of a line that no host drives; it is pulled up. -/
def level (s : σ) : Bool := (D.drive s).getD true

theorem silent_append {s : σ} {bits bits' : List Bool} :
    D.Silent s (bits ++ bits') ↔ D.Silent s bits ∧ D.Silent (D.run s bits) bits' := by
  constructor
  · intro h
    constructor
    · exact fun l hl => h l (hl.trans (List.prefix_append _ _))
    · intro l hl
      rw [← run_append]
      exact h _ ((List.prefix_append_right_inj bits).2 hl)
  · rintro ⟨h, h'⟩ l hl
    rcases List.prefix_or_prefix_of_prefix hl (List.prefix_append bits bits') with hl' | ⟨t, rfl⟩
    · exact h l hl'
    · rw [run_append]
      exact h' t ((List.prefix_append_right_inj bits).1 hl)

@[simp]
theorem silent_nil {s : σ} : D.Silent s [] ↔ D.drive s = none := by simp [Silent]

theorem silent_cons {s : σ} {b : Bool} {bits : List Bool} :
    D.Silent s (b :: bits) ↔ D.drive s = none ∧ D.Silent (D.sample s b) bits := by
  constructor
  · intro h
    exact ⟨h [] List.nil_prefix, fun l hl => h (b :: l) (List.cons_prefix_cons.2 ⟨rfl, hl⟩)⟩
  · rintro ⟨h, hs⟩ l hl
    cases l with
    | nil => exact h
    | cons c l =>
      obtain ⟨rfl, hl'⟩ := List.cons_prefix_cons.1 hl
      exact hs l hl'

/-- What a host relies on. Frames come one after the other, each followed by two clocks; `Idle` is where a frame may
begin. -/
structure Conforms (R : Registers ρ) (Idle : σ → Prop) : Prop where
  /-- Nobody answers to a write frame, and it writes. -/
  write : ∀ s, Idle s → ∀ phyaddr reg val after, after.length = 2 →
    D.Silent s (writeFrame phyaddr reg val ++ after) ∧ Idle (D.run s (writeFrame phyaddr reg val ++ after)) ∧
      D.regs (D.run s (writeFrame phyaddr reg val ++ after)) = R.put (D.regs s) phyaddr reg val
  /-- In the header of a read frame nobody answers. -/
  readHeader : ∀ s, Idle s → ∀ phyaddr reg, D.Silent s (readHeader phyaddr reg)
  /-- After the turnaround of two clocks the bits are there, each until the next clock, whatever is sampled. -/
  data : ∀ s, Idle s → ∀ phyaddr reg k, k < 16 → ∀ l, l.length = k + 2 →
    D.level (D.run s (Mdio.readHeader phyaddr reg ++ l)) = (R.get (D.regs s) phyaddr reg).getMsbD k
  /-- After the last bit the line is released. -/
  read : ∀ s, Idle s → ∀ phyaddr reg l, l.length = 20 →
    Idle (D.run s (Mdio.readHeader phyaddr reg ++ l)) ∧
      D.regs (D.run s (Mdio.readHeader phyaddr reg ++ l)) = R.touch (D.regs s) phyaddr reg

end Devices

/-! ## The pads -/

variable {σ ρ : Type} (D : Devices σ ρ)

/-- The host's side and the devices. `w` is the storage of the CSR, `data_r` goes through the two registers of a
`MultiReg` into the other one; `clash` tells that host and devices have driven the line at once. -/
structure Bus (σ : Type) where
  w : BitVec 3
  sync : Bool
  r : Bool
  devices : σ
  clash : Bool
  accesses : ℕ

namespace Bus

/-- The bus before the first access: nothing is driven. -/
def reset (devices : σ) : Bus σ where
  w := 0
  sync := false
  r := false
  devices := devices
  clash := false
  accesses := 0

variable (b : Bus σ)

/-- Bit 0 of the register `w`: the clock pad. -/
def mdc : Bool := b.w[0]

/-- Bit 1: the host drives the data pad. -/
def dataOe : Bool := b.w[1]

/-- Bit 2: what the host drives. -/
def dataW : Bool := b.w[2]

/-- `data_r`. -/
def line : Bool := if b.dataOe then b.dataW else D.level b.devices

/-- `n` cycles of the system clock. -/
def cycles : ℕ → Bus σ → Bus σ
  | 0, b => b
  | n + 1, b => cycles n { b with sync := b.line D, r := b.sync }

/-- The devices after a write: at a rising edge they see the level that was there before it. -/
def clocked (v : BitVec 3) : σ := if !b.mdc && v[0] then D.sample b.devices (b.line D) else b.devices

/-- A write to the CSR `w`, and the cycles until the next access. -/
def write (lag : ℕ → ℕ) (v : BitVec 3) (b : Bus σ) : Bus σ :=
  cycles D (lag b.accesses)
    { b with
      w := v
      devices := b.clocked D v
      clash := b.clash || (v[1] && (D.drive (b.clocked D v)).isSome)
      accesses := b.accesses + 1 }

/-- A read of the CSR `r`, and the cycles until the next access. -/
def read (lag : ℕ → ℕ) (b : Bus σ) : Bool × Bus σ :=
  (b.r, cycles D (lag b.accesses) { b with accesses := b.accesses + 1 })

/-! ## What an access does -/

/-- A bus whose line has reached the CSR. -/
def Settled : Prop := b.sync = b.line D ∧ b.r = b.line D

variable {D} {b}

theorem cycles_settled (h : b.Settled D) (n : ℕ) : cycles D n b = b := by
  induction n with
  | zero => rfl
  | succ n ih =>
    have same : { b with sync := b.line D, r := b.sync } = b := by
      show Bus.mk b.w (b.line D) b.sync _ _ _ = Bus.mk b.w b.sync b.r _ _ _
      rw [h.2, h.1]
    rw [cycles, same, ih]

theorem cycles_eq {n : ℕ} (hn : 2 ≤ n) : cycles D n b = { b with sync := b.line D, r := b.line D } := by
  obtain ⟨m, rfl⟩ := Nat.exists_eq_add_of_le' hn
  exact cycles_settled ⟨rfl, rfl⟩ m

variable {lag : ℕ → ℕ} (hlag : ∀ n, 2 ≤ lag n)

include hlag

theorem write_eq (v : BitVec 3) :
    b.write D lag v =
      { w := v
        sync := if v[1] then v[2] else D.level (b.clocked D v)
        r := if v[1] then v[2] else D.level (b.clocked D v)
        devices := b.clocked D v
        clash := b.clash || (v[1] && (D.drive (b.clocked D v)).isSome)
        accesses := b.accesses + 1 } :=
  cycles_eq (hlag _)

/-- Host and devices clash in a write that leaves both of them driving. -/
theorem write_clash (v : BitVec 3) :
    (b.write D lag v).clash = (b.clash || (v[1] && (D.drive (b.write D lag v).devices).isSome)) := by
  rw [write_eq hlag]

omit hlag in
theorem read_eq (h : b.Settled D) : b.read D lag = (b.line D, { b with accesses := b.accesses + 1 }) :=
  Prod.ext h.2 (cycles_settled (b := { b with accesses := b.accesses + 1 }) h _)

end Bus

/-! ## Sequences of accesses -/

/-- The host drives `bits` and clocks each of them; it clashes with the devices only if they drive the line. -/
structure Sends (b b' : Bus σ) (bits : List Bool) : Prop where
  devices : b'.devices = D.run b.devices bits
  low : b'.mdc = false
  settled : b'.Settled D
  clash : D.Silent b.devices bits → b'.clash = b.clash

/-- The host clocks `n` bits and drives none. -/
structure Clocks (b b' : Bus σ) (n : ℕ) : Prop where
  devices : ∃ bits, bits.length = n ∧ b'.devices = D.run b.devices bits
  low : b'.mdc = false
  settled : b'.Settled D
  released : b'.dataOe = false
  clash : b'.clash = b.clash

variable {D} {b b' b'' : Bus σ}

theorem Sends.refl (low : b.mdc = false) (settled : b.Settled D) : Sends D b b [] := ⟨rfl, low, settled, fun _ => rfl⟩

theorem Sends.trans {bits bits' : List Bool} (h : Sends D b b' bits) (h' : Sends D b' b'' bits') :
    Sends D b b'' (bits ++ bits') := by
  refine ⟨?_, h'.low, h'.settled, ?_⟩
  · rw [h'.devices, h.devices, D.run_append]
  · rintro silent
    obtain ⟨s, s'⟩ := D.silent_append.1 silent
    rw [h'.clash (by rwa [h.devices]), h.clash s]

theorem Clocks.refl (low : b.mdc = false) (settled : b.Settled D) (released : b.dataOe = false) : Clocks D b b 0 :=
  ⟨⟨[], rfl, rfl⟩, low, settled, released, rfl⟩

theorem Clocks.trans {m n : ℕ} (h : Clocks D b b' m) (h' : Clocks D b' b'' n) : Clocks D b b'' (m + n) := by
  obtain ⟨l, hl, hd⟩ := h.devices
  obtain ⟨l', hl', hd'⟩ := h'.devices
  refine ⟨⟨l ++ l', ?_, ?_⟩, h'.low, h'.settled, h'.released, ?_⟩
  · rw [List.length_append, hl, hl']
  · rw [hd', hd, D.run_append]
  · rw [h'.clash, h.clash]

/-! ## A device -/

/-- A word from its bits. -/
def ofMsbFirst (n : ℕ) (bits : List Bool) : BitVec n := BitVec.ofNat n (bits.foldl (fun a b => 2 * a + b.toNat) 0)

theorem ofMsbFirst_msbFirst {n : ℕ} (word : BitVec n) : ofMsbFirst n (msbFirst word) = word := by
  have bits : ∀ k ≤ n, ((List.range k).map word.getMsbD).foldl (fun a b => 2 * a + b.toNat) 0 =
      word.toNat >>> (n - k) := by
    intro k hk
    induction k with
    | zero => simp [Nat.shiftRight_eq_div_pow, Nat.div_eq_of_lt word.isLt]
    | succ k ih =>
      have bit : word.getMsbD k = word.toNat.testBit (n - (k + 1)) := by
        rw [BitVec.getMsbD_eq_getLsbD, decide_eq_true (by omega), Bool.true_and, BitVec.getLsbD,
          show n - 1 - k = n - (k + 1) by omega]
      have half : word.toNat >>> (n - k) = word.toNat >>> (n - (k + 1)) / 2 := by
        rw [show n - k = n - (k + 1) + 1 by omega, Nat.shiftRight_succ]
      rw [List.range_succ, List.map_append, List.foldl_append, ih (by omega), half, List.map_singleton,
        List.foldl_cons, List.foldl_nil, bit, Nat.testBit, Nat.one_and_eq_mod_two]
      have := Nat.div_add_mod (word.toNat >>> (n - (k + 1))) 2
      rcases Nat.mod_two_eq_zero_or_one (word.toNat >>> (n - (k + 1))) with h | h <;> rw [h] at this ⊢ <;> simpa using this
  rw [ofMsbFirst, msbFirst, bits n le_rfl, Nat.sub_self, Nat.shiftRight_zero, BitVec.ofNat_toNat, BitVec.setWidth_eq]

/-- A device at one address: the ones it has seen while it waits for a frame, or the bits of the frame so far. -/
structure Device where
  ones : ℕ
  bits : List Bool
  regs : BitVec 5 → BitVec 16

namespace Device

variable (address : BitVec 5) (d : Device)

/-- The frame so far is one with this opcode to this device. -/
def addressed (opcode : List Bool) : Bool :=
  d.bits.extract 0 9 == [false, true] ++ opcode ++ msbFirst address

/-- The register that the frame names. -/
def register : BitVec 5 := ofMsbFirst 5 (d.bits.extract 9 14)

/-- The end of a frame. -/
def done : Device where
  ones := 0
  bits := []
  regs := if d.addressed address [false, true] then
      Function.update d.regs d.register (ofMsbFirst 16 (d.bits.extract 16 32))
    else d.regs

/-- A bit of the line: one more of the preamble, or of the frame, which is performed with its 32nd bit. -/
def sample (b : Bool) : Device :=
  if d.bits = [] then
    if b then { d with ones := d.ones + 1 }
    else if 32 ≤ d.ones then { d with bits := [false] }
    else { d with ones := 0 }
  else
    let d' := { d with bits := d.bits ++ [b] }
    if d'.bits.length = 32 then d'.done address else d'

/-- In a read of its own, the device drives the second bit of the turnaround and the word. -/
def drive : Option Bool :=
  if d.addressed address [true, false] && 15 ≤ d.bits.length then
    some (if d.bits.length = 15 then false else (d.regs d.register).getMsbD (d.bits.length - 16))
  else none

/-- The device alone on the bus. -/
def devices : Devices Device (BitVec 5 → BitVec 16) where
  sample := sample address
  drive := drive address
  regs := regs

/-- The line is pulled up when another device is read. -/
def registers : Registers (BitVec 5 → BitVec 16) where
  get regs phyaddr reg := if phyaddr = address then regs reg else BitVec.allOnes 16
  put regs phyaddr reg val := if phyaddr = address then Function.update regs reg val else regs
  touch regs _ _ := regs

/-- Too few ones for a frame to begin. -/
def Idle : Prop := d.bits = [] ∧ d.ones ≤ 2

variable {address} {d}

theorem drive_of_short (h : d.bits.length < 15) : d.drive address = none := by
  have short : ¬ 15 ≤ d.bits.length := Nat.not_le.2 h
  simp [drive, short]

theorem drive_of_waiting (h : d.bits = []) : d.drive address = none := drive_of_short (by simp [h])

variable (address) in
theorem drive_done (d : Device) : (devices address).drive (d.done address) = none := by
  show Device.drive address (d.done address) = none
  exact drive_of_waiting rfl

theorem drive_of_write {l : List Bool} (h : d.bits = [false, true, false, true] ++ l) : d.drive address = none := by
  simp [drive, addressed, h, List.extract]

theorem run_ones (h : d.bits = []) (n : ℕ) :
    (devices address).run d (List.replicate n true) = { d with ones := d.ones + n } := by
  induction n generalizing d with
  | zero => rfl
  | succ n ih =>
    have one : d.sample address true = { d with ones := d.ones + 1 } := by simp [sample, h]
    rw [List.replicate_succ, Devices.run_cons, show (devices address).sample d true = _ from one,
      ih (d := { d with ones := d.ones + 1 }) h]
    simp [Nat.add_comm, Nat.add_left_comm]

theorem run_bits (h : d.bits ≠ []) (l : List Bool) (hl : d.bits.length + l.length < 32) :
    (devices address).run d l = { d with bits := d.bits ++ l } := by
  induction l generalizing d with
  | nil => simp
  | cons b l ih =>
    rw [List.length_cons] at hl
    have unfinished : d.bits.length + 1 ≠ 32 := by omega
    have one : d.sample address b = { d with bits := d.bits ++ [b] } := by simp [sample, h, unfinished]
    rw [Devices.run_cons, show (devices address).sample d b = _ from one, ih (by simp) (by simp; omega)]
    simp

theorem run_last (h : d.bits.length = 31) (b : Bool) :
    (devices address).run d [b] = Device.done address { d with bits := d.bits ++ [b] } := by
  have some_bits : d.bits ≠ [] := by
    rintro none
    rw [none] at h
    cases h
  show d.sample address b = _
  simp [sample, some_bits, h]

theorem silent_ones (h : d.bits = []) (n : ℕ) : (devices address).Silent d (List.replicate n true) := by
  intro l hl
  rw [(List.prefix_replicate_iff.1 hl).2, run_ones h]
  exact drive_of_waiting h

variable (address) in
/-- Between frames two clocks begin nothing. -/
theorem run_after (h : d.bits = []) (zero : d.ones = 0) {l : List Bool} (hl : l.length = 2) :
    ((devices address).run d l).Idle ∧ ((devices address).run d l).regs = d.regs ∧ (devices address).Silent d l := by
  obtain ⟨a, b, rfl⟩ := List.length_eq_two.1 hl
  refine ⟨?_, ?_, ?_⟩
  · cases a <;> cases b <;> simp [devices, sample, h, zero, Idle]
  · cases a <;> cases b <;> simp [devices, sample, h, zero]
  · simp only [Devices.silent_cons, Devices.silent_nil]
    refine ⟨drive_of_waiting h, drive_of_waiting ?_, drive_of_waiting ?_⟩
    · cases a <;> simp [devices, sample, h, zero]
    · cases a <;> cases b <;> simp [devices, sample, h, zero]

/-- A frame of 32 bits, after its preamble, up to its last bit. -/
theorem run_frame (h : d.Idle) {l : List Bool} (hl : l.length < 31) :
    (devices address).run d (preamble ++ false :: l) =
      { d with ones := d.ones + 32, bits := false :: l } := by
  have start : (devices address).run d (preamble ++ [false]) = { d with ones := d.ones + 32, bits := [false] } := by
    rw [Devices.run_append, preamble, run_ones h.1, Devices.run_cons, Devices.run_nil]
    simp [devices, sample, h.1]
  rw [← List.singleton_append, ← List.append_assoc, Devices.run_append, start,
    run_bits (List.cons_ne_nil _ _) l (by simp; omega)]

variable (address) in
theorem run_whole (h : d.Idle) {l : List Bool} (hl : l.length = 30) (b : Bool) :
    (devices address).run d (preamble ++ false :: (l ++ [b])) =
      Device.done address { d with ones := d.ones + 32, bits := false :: (l ++ [b]) } := by
  rw [← List.cons_append, ← List.append_assoc, Devices.run_append, run_frame h (by omega), run_last (by simp [hl])]

/-- In a frame the device is silent unless it shows a bit. -/
theorem silent_frame (h : d.Idle) {l : List Bool} (hl : l.length < 31)
    (quiet : ∀ l', l' <+: l → Device.drive address { d with ones := d.ones + 32, bits := false :: l' } = none) :
    (devices address).Silent d (preamble ++ false :: l) := by
  rw [Devices.silent_append]
  refine ⟨silent_ones h.1 32, ?_⟩
  intro l' hl'
  rw [← Devices.run_append]
  cases l' with
  | nil =>
    rw [List.append_nil, preamble, run_ones h.1]
    exact drive_of_waiting h.1
  | cons b l' =>
    obtain ⟨rfl, hl''⟩ := List.cons_prefix_cons.1 hl'
    have := hl''.length_le
    rw [run_frame h (by omega)]
    exact quiet l' hl''

theorem msbFirst_inj {n : ℕ} {v w : BitVec n} : msbFirst v = msbFirst w ↔ v = w := by
  constructor
  · intro h
    rw [← ofMsbFirst_msbFirst v, h, ofMsbFirst_msbFirst]
  · rintro rfl
    rfl

/-- The bits of a frame after its preamble and its first bit. -/
def tail (opcode : List Bool) (phyaddr reg : BitVec 5) : List Bool :=
  [true] ++ opcode ++ msbFirst phyaddr ++ msbFirst reg

theorem addressed_tail {opcode opcode' : List Bool} (h : opcode.length = 2) (h' : opcode'.length = 2)
    (phyaddr reg : BitVec 5) (l : List Bool) (ones : ℕ) (regs : BitVec 5 → BitVec 16) :
    (Device.mk ones (false :: (tail opcode phyaddr reg ++ l)) regs).addressed address opcode' =
      (opcode == opcode' && phyaddr == address) := by
  obtain ⟨a, b, rfl⟩ := List.length_eq_two.1 h
  obtain ⟨a', b', rfl⟩ := List.length_eq_two.1 h'
  have head : (false :: (tail [a, b] phyaddr reg ++ l)).extract 0 9 = [false, true, a, b] ++ msbFirst phyaddr := rfl
  rw [Bool.eq_iff_iff, addressed, head]
  simp [msbFirst_inj, and_assoc]

theorem register_tail {opcode : List Bool} (h : opcode.length = 2) (phyaddr reg : BitVec 5) (l : List Bool) (ones : ℕ)
    (regs : BitVec 5 → BitVec 16) : (Device.mk ones (false :: (tail opcode phyaddr reg ++ l)) regs).register = reg := by
  obtain ⟨a, b, rfl⟩ := List.length_eq_two.1 h
  exact ofMsbFirst_msbFirst reg

theorem writeFrame_eq (phyaddr reg : BitVec 5) (val : BitVec 16) :
    writeFrame phyaddr reg val = preamble ++ false ::
      ((tail [false, true] phyaddr reg ++ ([true, false] ++ (List.range 15).map val.getMsbD)) ++ [val.getMsbD 15]) := rfl

theorem conforms_write (h : d.Idle) (phyaddr reg : BitVec 5) (val : BitVec 16) {after : List Bool}
    (hafter : after.length = 2) :
    (devices address).Silent d (writeFrame phyaddr reg val ++ after) ∧
      ((devices address).run d (writeFrame phyaddr reg val ++ after)).Idle ∧
      ((devices address).run d (writeFrame phyaddr reg val ++ after)).regs =
        (registers address).put d.regs phyaddr reg val := by
  set l := tail [false, true] phyaddr reg ++ ([true, false] ++ (List.range 15).map val.getMsbD) with l_def
  have hl : l.length = 30 := by simp [l_def, tail]
  have whole := run_whole address h hl (val.getMsbD 15)
  rw [writeFrame_eq, ← l_def, Devices.silent_append,
    Devices.run_append _ _ (preamble ++ false :: (l ++ [val.getMsbD 15])), whole]
  obtain ⟨idle, regs, silent⟩ := run_after address
    (d := Device.done address { d with ones := d.ones + 32, bits := false :: (l ++ [val.getMsbD 15]) }) rfl rfl hafter
  refine ⟨⟨?_, silent⟩, idle, regs.trans ?_⟩
  · -- the operation is not a read
    have quiet : ∀ l', l' <+: l → Device.drive address { d with ones := d.ones + 32, bits := false :: l' } = none := by
      rintro l' hl'
      have opening : [true, false, true] <+: l := ⟨_, rfl⟩
      rcases List.prefix_or_prefix_of_prefix hl' opening with short | ⟨t, rfl⟩
      · have few : l'.length ≤ 3 := short.length_le
        exact drive_of_short (by simp; omega)
      · exact drive_of_write (l := t) rfl
    rw [← List.cons_append, ← List.append_assoc, Devices.silent_append, run_frame h (by omega), Devices.silent_cons,
      Devices.silent_nil]
    refine ⟨silent_frame h (by omega) quiet, quiet l List.prefix_rfl, ?_⟩
    have last : (devices address).sample { d with ones := d.ones + 32, bits := false :: l } (val.getMsbD 15) =
        Device.done address { d with ones := d.ones + 32, bits := false :: l ++ [val.getMsbD 15] } :=
      run_last (by simp [hl]) _
    rw [last]
    exact drive_done address _
  · have value : ofMsbFirst 16 ((false :: (l ++ [val.getMsbD 15])).extract 16 32) = val := ofMsbFirst_msbFirst val
    rw [l_def, List.append_assoc] at value ⊢
    rw [done, addressed_tail rfl rfl, register_tail rfl, value]
    by_cases same : phyaddr = address <;> simp [registers, same]

theorem conforms : (devices address).Conforms (registers address) Idle where
  write s h phyaddr reg val after hafter := conforms_write h phyaddr reg val hafter
  readHeader s h phyaddr reg := by
    -- the header is shorter than a frame, so that nothing is driven
    have short : ∀ l, l <+: tail [true, false] phyaddr reg →
        Device.drive address { s with ones := s.ones + 32, bits := false :: l } = none := by
      intro l hl
      have := hl.length_le
      exact drive_of_short (by simp [tail] at this ⊢; omega)
    exact silent_frame h (by simp) short
  data s h phyaddr reg k hk l hl := by
    have frame : Mdio.readHeader phyaddr reg ++ l = preamble ++ false :: (tail [true, false] phyaddr reg ++ l) := rfl
    have ran : (devices address).run s (preamble ++ false :: (tail [true, false] phyaddr reg ++ l)) = _ :=
      run_frame h (by simp [tail, hl]; omega)
    rw [frame, ran, Devices.level]
    show ((Device.drive address _).getD true) = _
    have length : (false :: (tail [true, false] phyaddr reg ++ l)).length = 16 + k := by simp [tail, hl]; omega
    rw [drive, addressed_tail rfl rfl, register_tail rfl, length]
    -- the addressed device drives its register, any other leaves the line pulled up
    by_cases same : phyaddr = address
    · simp [same, registers, devices, show 15 ≤ 16 + k by omega, show 16 + k ≠ 15 by omega]
    · have pulled_up : (BitVec.allOnes 16).getMsbD k = true := by
        rw [BitVec.getMsbD_eq_getLsbD, BitVec.getLsbD_allOnes]
        simp [hk]
        omega
      simp only [registers, if_neg same, pulled_up]
      simp [same]
  read s h phyaddr reg l hl := by
    obtain ⟨data, rest, rfl, hdata, hrest⟩ : ∃ x y, l = x ++ y ∧ x.length = 17 ∧ y.length = 3 :=
      ⟨l.take 17, l.drop 17, (List.take_append_drop 17 l).symm, by simp [hl], by simp [hl]⟩
    obtain ⟨b, after, rfl⟩ := List.exists_cons_of_length_eq_add_one hrest
    have hafter : after.length = 2 := by simpa using hrest
    have frame : Mdio.readHeader phyaddr reg ++ (data ++ b :: after) =
        preamble ++ false :: ((tail [true, false] phyaddr reg ++ data) ++ [b]) ++ after := by
      simp [Mdio.readHeader, header, tail]
    rw [frame, Devices.run_append, run_whole address h (by simp [tail, hdata])]
    obtain ⟨idle, regs, -⟩ := run_after address
      (d := Device.done address
        { s with ones := s.ones + 32, bits := false :: ((tail [true, false] phyaddr reg ++ data) ++ [b]) })
      rfl rfl hafter
    refine ⟨idle, regs.trans ?_⟩
    rw [done, List.append_assoc, addressed_tail rfl rfl]
    simp [devices, registers]

end Device

end LiteEth.Phy.Mdio
