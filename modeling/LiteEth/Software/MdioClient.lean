/-
`MDIOClient` of `software/liteeth_mdio.py`: a host of the management bus in software. Its words are Python integers; what
is sent of one are its low bits.
-/
import LiteEth.Phy.Mdio
import LiteEth.Software.BitField

namespace LiteEth.Software.MdioClient

open LiteEth.Phy.Mdio

/-- The clock bit of the CSR. -/
def MDIO_CLK : BitVec 3 := 0x01

/-- The output enable bit of the CSR. -/
def MDIO_OE : BitVec 3 := 0x02

/-- The data bit of the CSR. -/
def MDIO_DO : BitVec 3 := 0x04

/-- The 32 ones before a frame. -/
def MDIO_PREAMBLE : ℤ := 0xffffffff

/-- The start of a frame. -/
def MDIO_START : ℤ := 0x1

/-- The opcode of a read. -/
def MDIO_READ : ℤ := 0x2

/-- The opcode of a write. -/
def MDIO_WRITE : ℤ := 0x1

/-- The turnaround of a write. -/
def MDIO_TURNAROUND : ℤ := 0x2

/-- The loop of `reverse_bits`, with `nbits` to go. -/
def reverseLoop : ℤ → ℕ → ℤ → ℤ
  | _, 0, r => r
  | word, nbits + 1, r => reverseLoop (word >>> (1 : ℕ)) nbits ((r <<< (1 : ℕ)).lor (word.land 1))

/-- `reverse_bits`: the low bits of a word, the highest first. -/
def reverseBits (word : ℤ) (nbits : ℕ) : ℤ := reverseLoop word nbits 0

section Client

variable {σ ρ : Type} (D : Devices σ ρ) (lag : ℕ → ℕ)

/-- The loop of `raw_write`. -/
def rawWriteLoop : ℤ → ℕ → Bus σ → Bus σ
  | _, 0, b => b
  | word, bitcount + 1, b =>
    rawWriteLoop (word >>> (1 : ℕ)) bitcount
      (if word.land 1 ≠ 0 then
        ((b.write D lag (MDIO_DO ||| MDIO_OE)).write D lag (MDIO_CLK ||| MDIO_DO ||| MDIO_OE)).write D lag
          (MDIO_DO ||| MDIO_OE)
      else
        ((b.write D lag MDIO_OE).write D lag (MDIO_CLK ||| MDIO_OE)).write D lag MDIO_OE)

/-- `raw_write`: the low bits of a word, each with a pulse of the clock. -/
def rawWrite (word : ℤ) (bitcount : ℕ) (b : Bus σ) : Bus σ :=
  rawWriteLoop D lag (reverseBits word bitcount) bitcount b

/-- The loop of `raw_read`, with `n` rounds to go. -/
def rawReadLoop : ℕ → ℤ → Bus σ → ℤ × Bus σ
  | 0, word, b => (word, b)
  | n + 1, word, b =>
    let word := word <<< (1 : ℕ)
    let di := b.read D lag
    let word := if di.1 then word.lor 1 else word
    rawReadLoop n word ((di.2.write D lag MDIO_CLK).write D lag 0)

/-- `raw_read`: sixteen bits, each sampled before a pulse of the clock. -/
def rawRead (b : Bus σ) : ℤ × Bus σ := rawReadLoop D lag 16 0 b

/-- `raw_turnaround`: two pulses of the clock while the line is released. -/
def rawTurnaround (b : Bus σ) : Bus σ :=
  (((b.write D lag MDIO_CLK).write D lag 0).write D lag MDIO_CLK).write D lag 0

/-- `write`: a frame that writes a register of a device. -/
def write (phyaddr reg val : ℤ) (b : Bus σ) : Bus σ :=
  let b := b.write D lag MDIO_OE
  let b := rawWrite D lag MDIO_PREAMBLE 32 b
  let b := rawWrite D lag MDIO_START 2 b
  let b := rawWrite D lag MDIO_WRITE 2 b
  let b := rawWrite D lag phyaddr 5 b
  let b := rawWrite D lag reg 5 b
  let b := rawWrite D lag MDIO_TURNAROUND 2 b
  let b := rawWrite D lag val 16 b
  rawTurnaround D lag b

/-- `read`: a frame that reads a register of a device. -/
def read (phyaddr reg : ℤ) (b : Bus σ) : ℤ × Bus σ :=
  let b := b.write D lag MDIO_OE
  let b := rawWrite D lag MDIO_PREAMBLE 32 b
  let b := rawWrite D lag MDIO_START 2 b
  let b := rawWrite D lag MDIO_READ 2 b
  let b := rawWrite D lag phyaddr 5 b
  let b := rawWrite D lag reg 5 b
  let b := rawTurnaround D lag b
  let r := rawRead D lag b
  (r.1, rawTurnaround D lag r.2)

end Client

/-! ## Words -/

theorem land_one_ne_zero (word : ℤ) : word.land 1 ≠ 0 ↔ word.testBit 0 = true := by
  have bit : (word.land 1).testBit 0 = word.testBit 0 := by simp [Int.testBit_land, Int.testBit_one]
  constructor
  · intro h
    by_contra clear
    rw [Bool.not_eq_true] at clear
    refine h (Int.eq_of_testBit_eq fun k => ?_)
    rw [Int.testBit_land, Int.testBit_one, Int.testBit_zero]
    by_cases hk : k = 0
    · simp [hk, clear]
    · simp [hk]
  · rintro set zero
    rw [zero, set, Int.testBit_zero] at bit
    cases bit

theorem testBit_reverseLoop (word : ℤ) (nbits : ℕ) (r : ℤ) (k : ℕ) :
    (reverseLoop word nbits r).testBit k =
      if k < nbits then word.testBit (nbits - 1 - k) else r.testBit (k - nbits) := by
  induction nbits generalizing word r with
  | zero => simp [reverseLoop]
  | succ n ih =>
    rw [reverseLoop, ih]
    rcases lt_trichotomy k n with lt | rfl | gt
    · rw [if_pos lt, if_pos (by omega), Int.testBit_shiftRight]
      congr 1
      omega
    · simp [Int.testBit_lor, Int.testBit_land, Int.testBit_one]
    · have past : 1 ≤ k - n := by omega
      have rest : k - n - 1 = k - (n + 1) := by omega
      rw [if_neg (by omega), if_neg (by omega), Int.testBit_lor, Int.testBit_land, Int.testBit_one,
        Int.testBit_shiftLeft, rest]
      simp [past, Nat.ne_of_gt past]

/-- What `raw_write` sends: the low bits of a word, the highest of them first. -/
theorem sent_eq_msbFirst (word : ℤ) (n : ℕ) :
    (List.range n).map (reverseBits word n).testBit = msbFirst (BitVec.ofInt n word) := by
  refine List.map_congr_left fun k hk => ?_
  have hk : k < n := List.mem_range.1 hk
  rw [reverseBits, testBit_reverseLoop, if_pos hk, BitVec.getMsbD_eq_getLsbD, Int.getLsbD_ofInt]
  simp [hk, show n - 1 - k < n by omega]

/-- A round of `raw_read` appends a bit. -/
theorem append_bit {n : ℕ} (w : ℕ) :
    (if w.testBit n then (((w >>> (n + 1) : ℕ) : ℤ) <<< (1 : ℕ)).lor 1 else ((w >>> (n + 1) : ℕ) : ℤ) <<< (1 : ℕ)) =
      ((w >>> n : ℕ) : ℤ) := by
  have shifted : ∀ k, ((((w >>> (n + 1) : ℕ) : ℤ) <<< (1 : ℕ)).testBit k) = (decide (1 ≤ k) && w.testBit (n + k)) := by
    intro k
    rw [Int.testBit_shiftLeft, Int.testBit_natCast, Nat.testBit_shiftRight]
    by_cases hk : 1 ≤ k
    · rw [show n + 1 + (k - 1) = n + k by omega]
    · simp [hk]
  refine Int.eq_of_testBit_eq fun k => ?_
  rw [Int.testBit_natCast, Nat.testBit_shiftRight, apply_ite (Int.testBit · k), Int.testBit_lor, shifted, Int.testBit_one]
  by_cases hk : k = 0
  · subst hk
    cases w.testBit n <;> rfl
  · simp [hk, Nat.one_le_iff_ne_zero]

/-! ## On the wire -/

section Wire

variable {σ ρ : Type} {D : Devices σ ρ} {lag : ℕ → ℕ} (hlag : ∀ n, 2 ≤ lag n)

include hlag

/-- Three writes send the bit that they drive. -/
theorem sends_bit {v : BitVec 3} {bit : Bool} (low : v.getLsbD 0 = false) (driven : v.getLsbD 1 = true)
    (hbit : v.getLsbD 2 = bit) (b : Bus σ) :
    Sends D b (((b.write D lag v).write D lag (MDIO_CLK ||| v)).write D lag v) [bit] := by
  rw [BitVec.getLsbD_eq_getElem (by decide)] at low driven hbit
  have first : (b.write D lag v).devices = b.devices ∧ (b.write D lag v).w = v := by
    simp [Bus.write_eq hlag, Bus.clocked, low]
  have line : (b.write D lag v).line D = bit := by
    simp [Bus.line, Bus.dataOe, Bus.dataW, first.2, driven, hbit]
  have second : ((b.write D lag v).write D lag (MDIO_CLK ||| v)).devices = D.sample b.devices bit := by
    rw [Bus.write_eq hlag]
    simp [Bus.clocked, Bus.mdc, first, line, low, MDIO_CLK]
  have third : (((b.write D lag v).write D lag (MDIO_CLK ||| v)).write D lag v).devices = D.sample b.devices bit := by
    rw [Bus.write_eq hlag]
    simp [Bus.clocked, second, low]
  refine ⟨third, ?_, ?_, ?_⟩
  · simp [Bus.write_eq hlag, Bus.mdc, low]
  · simp [Bus.write_eq hlag, Bus.Settled, Bus.line, Bus.dataOe, Bus.dataW, driven]
  · intro silent
    have before := silent [] (List.nil_prefix)
    have after := silent [bit] List.prefix_rfl
    rw [Devices.run_nil] at before
    rw [Devices.run_cons, Devices.run_nil] at after
    rw [Bus.write_clash hlag, Bus.write_clash hlag, Bus.write_clash hlag, first.1, second, third, before, after]
    simp

theorem sends_rawWriteLoop (n : ℕ) (word : ℤ) {b : Bus σ} (low : b.mdc = false) (settled : b.Settled D) :
    Sends D b (rawWriteLoop D lag word n b) ((List.range n).map word.testBit) := by
  induction n generalizing word b with
  | zero => exact .refl low settled
  | succ n ih =>
    have bits : (List.range (n + 1)).map word.testBit =
        [word.testBit 0] ++ (List.range n).map (word >>> (1 : ℕ)).testBit := by
      rw [List.range_succ_eq_map]
      simp [Function.comp_def, Nat.add_comm]
    rw [bits, rawWriteLoop]
    split_ifs with set
    · rw [(land_one_ne_zero word).1 set]
      have h := sends_bit (D := D) hlag (v := MDIO_DO ||| MDIO_OE) rfl rfl rfl b
      exact h.trans (ih _ h.low h.settled)
    · rw [land_one_ne_zero, Bool.not_eq_true] at set
      rw [set]
      have h := sends_bit (D := D) hlag (v := MDIO_OE) rfl rfl rfl b
      exact h.trans (ih _ h.low h.settled)

/-- `raw_write` sends the low bits of any integer. -/
theorem sends_rawWrite (word : ℤ) (n : ℕ) {b : Bus σ} (low : b.mdc = false) (settled : b.Settled D) :
    Sends D b (rawWrite D lag word n b) (msbFirst (BitVec.ofInt n word)) := by
  rw [← sent_eq_msbFirst]
  exact sends_rawWriteLoop hlag n _ low settled

/-- A clock of a line that is not driven. -/
theorem clocks_bit {b : Bus σ} (low : b.mdc = false) :
    Clocks D b ((b.write D lag MDIO_CLK).write D lag 0) 1 := by
  refine ⟨⟨[b.line D], rfl, ?_⟩, ?_, ?_, ?_, ?_⟩
  · simp [Bus.write_eq hlag, Bus.clocked, low, MDIO_CLK]
  · simp [Bus.write_eq hlag, Bus.mdc]
  · simp [Bus.write_eq hlag, Bus.Settled, Bus.line, Bus.dataOe]
  · simp [Bus.write_eq hlag, Bus.dataOe]
  · simp [Bus.write_eq hlag, MDIO_CLK]

theorem clocks_rawTurnaround {b : Bus σ} (low : b.mdc = false) : Clocks D b (rawTurnaround D lag b) 2 := by
  have h := clocks_bit (D := D) hlag low
  exact h.trans (clocks_bit hlag h.low)

/-- The first write of an operation begins to drive the line. -/
theorem sends_enable {b : Bus σ} : Sends D b (b.write D lag MDIO_OE) [] := by
  have devices : (b.write D lag MDIO_OE).devices = b.devices := by simp [Bus.write_eq hlag, Bus.clocked, MDIO_OE]
  refine ⟨devices, ?_, ?_, ?_⟩
  · simp [Bus.write_eq hlag, Bus.mdc, MDIO_OE]
  · simp [Bus.write_eq hlag, Bus.Settled, Bus.line, Bus.dataOe, Bus.dataW, MDIO_OE]
  · intro silent
    have before := silent [] List.nil_prefix
    rw [Devices.run_nil] at before
    rw [Bus.write_clash hlag, devices, before]
    simp

/-- `raw_read` puts together the bits that the devices show, one before each of its clocks. -/
theorem rawReadLoop_eq {m : ℕ} (w : BitVec m) (n : ℕ) (hn : n ≤ m) {b : Bus σ} (low : b.mdc = false)
    (settled : b.Settled D) (released : b.dataOe = false)
    (shown : ∀ k < n, ∀ l, l.length = k → D.level (D.run b.devices l) = w.getMsbD (m - n + k)) :
    (rawReadLoop D lag n ((w.toNat >>> n : ℕ) : ℤ) b).1 = w.toNat ∧
      Clocks D b (rawReadLoop D lag n ((w.toNat >>> n : ℕ) : ℤ) b).2 n := by
  -- induction on the bits left, the highest of them comes first
  induction n generalizing b with
  | zero => exact ⟨rfl, .refl low settled released⟩
  | succ n ih =>
    have bit : b.line D = w.toNat.testBit n := by
      have index : m - 1 - (m - (n + 1) + 0) = n := by omega
      rw [Bus.line, released, if_neg Bool.false_ne_true]
      rw [show D.level b.devices = _ from shown 0 (Nat.succ_pos n) [] rfl, BitVec.getMsbD_eq_getLsbD, index,
        decide_eq_true (by omega), Bool.true_and]
      rfl
    have clock := clocks_bit (D := D) hlag (b := { b with accesses := b.accesses + 1 }) low
    rw [rawReadLoop, Bus.read_eq settled, bit]
    simp only [append_bit]
    obtain ⟨l, hl, devices⟩ := clock.devices
    have rest := ih (by omega) clock.low clock.settled clock.released (by
      intro k hk l' hl'
      rw [devices, ← D.run_append, shown (k + 1) (by omega) (l ++ l') (by rw [List.length_append, hl, hl']; omega)]
      congr 1
      omega)
    refine ⟨rest.1, ?_⟩
    have both := clock.trans rest.2
    rw [Nat.add_comm 1 n] at both
    exact ⟨both.devices, both.low, both.settled, both.released, both.clash⟩

/-! ## The operations -/

variable {R : Registers ρ} {Idle : σ → Prop} (conf : D.Conforms R Idle)

include conf

theorem write_spec (phyaddr reg val : ℤ) {b : Bus σ} (idle : Idle b.devices) :
    Idle (write D lag phyaddr reg val b).devices ∧
      D.regs (write D lag phyaddr reg val b).devices =
        R.put (D.regs b.devices) (BitVec.ofInt 5 phyaddr) (BitVec.ofInt 5 reg) (BitVec.ofInt 16 val) ∧
      (write D lag phyaddr reg val b).clash = b.clash := by
  -- the parts of the frame, sent one after the other
  have h0 := sends_enable (D := D) hlag (b := b)
  have h1 := h0.trans (sends_rawWrite hlag MDIO_PREAMBLE 32 h0.low h0.settled)
  have h2 := h1.trans (sends_rawWrite hlag MDIO_START 2 h1.low h1.settled)
  have h3 := h2.trans (sends_rawWrite hlag MDIO_WRITE 2 h2.low h2.settled)
  have h4 := h3.trans (sends_rawWrite hlag phyaddr 5 h3.low h3.settled)
  have h5 := h4.trans (sends_rawWrite hlag reg 5 h4.low h4.settled)
  have h6 := h5.trans (sends_rawWrite hlag MDIO_TURNAROUND 2 h5.low h5.settled)
  have h7 := h6.trans (sends_rawWrite hlag val 16 h6.low h6.settled)
  have after := clocks_rawTurnaround (D := D) hlag h7.low
  obtain ⟨l, hl, devices⟩ := after.devices
  have frame : [] ++ msbFirst (BitVec.ofInt 32 MDIO_PREAMBLE) ++ msbFirst (BitVec.ofInt 2 MDIO_START) ++
      msbFirst (BitVec.ofInt 2 MDIO_WRITE) ++ msbFirst (BitVec.ofInt 5 phyaddr) ++ msbFirst (BitVec.ofInt 5 reg) ++
      msbFirst (BitVec.ofInt 2 MDIO_TURNAROUND) ++ msbFirst (BitVec.ofInt 16 val) =
      writeFrame (BitVec.ofInt 5 phyaddr) (BitVec.ofInt 5 reg) (BitVec.ofInt 16 val) := rfl
  rw [frame] at h7
  obtain ⟨silent, idle', regs⟩ := conf.write b.devices idle (BitVec.ofInt 5 phyaddr) (BitVec.ofInt 5 reg)
    (BitVec.ofInt 16 val) l hl
  have devices : (write D lag phyaddr reg val b).devices = D.run b.devices (writeFrame (BitVec.ofInt 5 phyaddr)
      (BitVec.ofInt 5 reg) (BitVec.ofInt 16 val) ++ l) := by
    rw [D.run_append, ← h7.devices]
    exact devices
  rw [devices]
  refine ⟨idle', regs, ?_⟩
  exact after.clash.trans (h7.clash (D.silent_append.1 silent).1)

theorem read_spec (phyaddr reg : ℤ) {b : Bus σ} (idle : Idle b.devices) :
    Idle (read D lag phyaddr reg b).2.devices ∧
      D.regs (read D lag phyaddr reg b).2.devices =
        R.touch (D.regs b.devices) (BitVec.ofInt 5 phyaddr) (BitVec.ofInt 5 reg) ∧
      (read D lag phyaddr reg b).2.clash = b.clash ∧
      (read D lag phyaddr reg b).1 =
        (R.get (D.regs b.devices) (BitVec.ofInt 5 phyaddr) (BitVec.ofInt 5 reg)).toNat := by
  have h0 := sends_enable (D := D) hlag (b := b)
  have h1 := h0.trans (sends_rawWrite hlag MDIO_PREAMBLE 32 h0.low h0.settled)
  have h2 := h1.trans (sends_rawWrite hlag MDIO_START 2 h1.low h1.settled)
  have h3 := h2.trans (sends_rawWrite hlag MDIO_READ 2 h2.low h2.settled)
  have h4 := h3.trans (sends_rawWrite hlag phyaddr 5 h3.low h3.settled)
  have h5 := h4.trans (sends_rawWrite hlag reg 5 h4.low h4.settled)
  have frame : [] ++ msbFirst (BitVec.ofInt 32 MDIO_PREAMBLE) ++ msbFirst (BitVec.ofInt 2 MDIO_START) ++
      msbFirst (BitVec.ofInt 2 MDIO_READ) ++ msbFirst (BitVec.ofInt 5 phyaddr) ++ msbFirst (BitVec.ofInt 5 reg) =
      readHeader (BitVec.ofInt 5 phyaddr) (BitVec.ofInt 5 reg) := rfl
  rw [frame] at h5
  have turn := clocks_rawTurnaround (D := D) hlag h5.low
  obtain ⟨l, hl, turned⟩ := turn.devices
  rw [h5.devices, ← D.run_append] at turned
  -- after the turnaround the devices show the register
  have word := rawReadLoop_eq (D := D) hlag
    (R.get (D.regs b.devices) (BitVec.ofInt 5 phyaddr) (BitVec.ofInt 5 reg)) 16 le_rfl turn.low turn.settled turn.released
    (by
      intro k hk l' hl'
      rw [turned, ← D.run_append, List.append_assoc,
        conf.data b.devices idle _ _ k hk (l ++ l') (by rw [List.length_append, hl, hl']; omega)]
      simp)
  have none_yet : (((R.get (D.regs b.devices) (BitVec.ofInt 5 phyaddr) (BitVec.ofInt 5 reg)).toNat >>> 16 : ℕ) : ℤ) = 0 := by
    rw [Nat.shiftRight_eq_div_pow, Nat.div_eq_of_lt (BitVec.isLt _)]
    rfl
  rw [none_yet] at word
  have after := (word.2.trans (clocks_rawTurnaround hlag word.2.low))
  obtain ⟨l', hl', devices⟩ := after.devices
  rw [turned, ← D.run_append, List.append_assoc] at devices
  obtain ⟨idle', regs⟩ := conf.read b.devices idle (BitVec.ofInt 5 phyaddr) (BitVec.ofInt 5 reg) (l ++ l')
    (by rw [List.length_append, hl, hl'])
  have devices : (read D lag phyaddr reg b).2.devices = D.run b.devices (readHeader (BitVec.ofInt 5 phyaddr)
      (BitVec.ofInt 5 reg) ++ (l ++ l')) := devices
  rw [devices]
  refine ⟨idle', regs, ?_, word.1⟩
  calc (read D lag phyaddr reg b).2.clash = _ := after.clash
    _ = _ := turn.clash
    _ = b.clash := h5.clash (conf.readHeader b.devices idle _ _)

end Wire

end LiteEth.Software.MdioClient
