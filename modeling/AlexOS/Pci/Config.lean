import AlexOS.Lib.Bits
import AlexOS.Lib.Mem

/-!
# The configuration space of PCI

`PCI_controller_read` and `PCI_controller_write`, in `kernel/driver/pci/pci.c`.
Configuration space is the registers that an address written to the command
port selects; a write to the data port changes the bits of a register that can
be written. The fields of an address do not overlap (`address_inj`), so that a
write changes the bytes it is for, and no others (`write_exact`).
-/

namespace AlexOS.Pci

/-- The address that was written last to the command port, the registers, and their bits that a write changes. -/
structure Ports where
  command : Word
  regs : Word → Word
  writable : Word → Word

namespace Ports

/-- `i686_outl(PCI_COMMAND_PORT, address)`. -/
def outCommand (p : Ports) (address : Word) : Ports := { p with command := address }

/-- `i686_inl(PCI_DATA_PORT)`. -/
def inData (p : Ports) : Word := p.regs p.command

/-- `i686_outl(PCI_DATA_PORT, v)`. -/
def outData (p : Ports) (v : Word) : Ports where
  __ := p
  regs := Function.update p.regs p.command
    ((p.regs p.command &&& ~~~ p.writable p.command) ||| (v &&& p.writable p.command))

/-- All bits of all registers can be written. -/
def Plain (p : Ports) : Prop := ∀ a, p.writable a = BitVec.allOnes 32

end Ports

/-- `enum READ_SIZE`. -/
inductive ReadSize where
  | byte
  | word
  | dword
deriving DecidableEq

def ReadSize.bytes : ReadSize → Nat
  | byte => 1
  | word => 2
  | dword => 4

def BAR_TYPE_IO : Word := 0
def BAR_TYPE_MMIO : Word := 1

structure PCIBar where
  type : Word
  size : Word
  addr : BitVec 64
deriving DecidableEq

/-- `PCI_device_t`. It has `bars` 0 to 5. -/
structure PCIDevice where
  bus : Byte
  slot : Byte
  func : Byte
  intPin : Byte
  intLine : Byte
  bars : Nat → PCIBar
  vendorId : BitVec 16
  deviceId : BitVec 16
  classCode : Byte
  subclass : Byte
  progIf : Byte

/-- The address of the register at an offset. -/
def address (dev : PCIDevice) (offset : Byte) : Word :=
  dev.bus.setWidth 32 <<< 16 ||| dev.slot.setWidth 32 <<< 11 ||| dev.func.setWidth 32 <<< 8 |||
    (offset.setWidth 32 &&& (0xFC : Word)) ||| (1 : Word) <<< 31

/-- `(offset & 3) * 8`. -/
def bitoffset (offset : Byte) : Nat := (offset &&& 3).toNat * 8

/-- `mask`. -/
def ReadSize.mask : ReadSize → Word
  | byte => 0xFF
  | word => 0xFFFF
  | dword => 0xFFFFFFFF

def pciControllerRead (p : Ports) (dev : PCIDevice) (offset : Byte) (size : ReadSize) : Word × Ports :=
  let p := p.outCommand (address dev offset)
  let val := p.inData >>> bitoffset offset
  match size with
  | .byte => ((val.setWidth 8).setWidth 32, p)
  | .word => ((val.setWidth 16).setWidth 32, p)
  | .dword => (val, p)

def pciControllerWrite (p : Ports) (dev : PCIDevice) (offset : Byte) (value : Word) (size : ReadSize) : Ports :=
  let p := p.outCommand (address dev offset)
  let oldval := p.inData
  let value := (value &&& size.mask) <<< bitoffset offset
  let oldval := oldval &&& ~~~ (size.mask <<< bitoffset offset)
  let oldval := oldval ||| value
  let p := p.outCommand (address dev offset)
  p.outData oldval

/-! ## Addresses -/

/-- The slot and the function are in range. -/
structure PCIDevice.Valid (dev : PCIDevice) : Prop where
  slot_lt : dev.slot.toNat < 32
  func_lt : dev.func.toNat < 8

section

variable {p : Ports} {dev dev' : PCIDevice} {offset offset' : Byte} {size : ReadSize} {i k : Nat} {value : Word}

theorem toNat_and_FC : ∀ offset : Byte, (offset.setWidth 32 &&& 0xFC : Word).toNat = offset.toNat / 4 * 4 := by
  decide +kernel

/-- The fields side by side. -/
theorem toNat_address (hv : dev.Valid) : (address dev offset).toNat =
    2 ^ 31 + dev.bus.toNat * 2 ^ 16 + dev.slot.toNat * 2 ^ 11 + dev.func.toNat * 2 ^ 8 + offset.toNat / 4 * 4 := by
  obtain ⟨hslot, hfunc⟩ := hv
  have hbus := dev.bus.isLt
  have hoff := offset.isLt
  have e : ∀ x : Byte, (x.setWidth 32).toNat = x.toNat := fun x => BitVec.toNat_setWidth_of_le (by decide)
  have h1 : (dev.bus.setWidth 32 <<< 16).toNat = dev.bus.toNat * 2 ^ 16 := by
    rw [toNat_shiftLeft_of_lt (by rw [e]; omega), e]
  have h2 : (dev.slot.setWidth 32 <<< 11).toNat = dev.slot.toNat * 2 ^ 11 := by
    rw [toNat_shiftLeft_of_lt (by rw [e]; omega), e]
  have h3 : (dev.func.setWidth 32 <<< 8).toNat = dev.func.toNat * 2 ^ 8 := by
    rw [toNat_shiftLeft_of_lt (by rw [e]; omega), e]
  have h4 := toNat_and_FC offset
  -- one field after another, each below the bits of those before
  have s1 := toNat_or_of_dvd (k := 16) (x := dev.bus.setWidth 32 <<< 16) (y := dev.slot.setWidth 32 <<< 11)
    (by rw [h1]; omega) (by rw [h2]; omega)
  have s2 := toNat_or_of_dvd (k := 11) (x := dev.bus.setWidth 32 <<< 16 ||| dev.slot.setWidth 32 <<< 11)
    (y := dev.func.setWidth 32 <<< 8) (by rw [s1, h1, h2]; omega) (by rw [h3]; omega)
  have s3 := toNat_or_of_dvd (k := 8) (x := dev.bus.setWidth 32 <<< 16 ||| dev.slot.setWidth 32 <<< 11 |||
    dev.func.setWidth 32 <<< 8)
      (y := offset.setWidth 32 &&& 0xFC) (by rw [s2, s1, h1, h2, h3]; omega) (by rw [h4]; omega)
  have s4 := toNat_or_of_dvd (k := 31) (x := ((1 : Word) <<< 31)) (y := dev.bus.setWidth 32 <<< 16 |||
    dev.slot.setWidth 32 <<< 11 ||| dev.func.setWidth 32 <<< 8 ||| (offset.setWidth 32 &&& 0xFC)) (by decide)
    (by rw [s3, s2, s1, h1, h2, h3, h4]; omega)
  rw [address, BitVec.or_comm, s4, s3, s2, s1, h1, h2, h3, h4, show ((1 : Word) <<< 31).toNat = 2 ^ 31 from rfl]
  omega

/-- Addresses differ for other functions, and for other registers. -/
theorem address_inj (hv : dev.Valid) (hv' : dev'.Valid) (h : address dev offset = address dev' offset') :
    dev.bus = dev'.bus ∧ dev.slot = dev'.slot ∧ dev.func = dev'.func ∧ offset.toNat / 4 = offset'.toNat / 4 := by
  have e := congrArg BitVec.toNat h
  rw [toNat_address hv, toNat_address hv'] at e
  have := dev.bus.isLt
  have := dev'.bus.isLt
  have := offset.isLt
  have := offset'.isLt
  obtain ⟨hs, hf⟩ := hv
  obtain ⟨hs', hf'⟩ := hv'
  simp only [BitVec.toNat_eq]
  omega

/-! ## Reads and writes -/

theorem toNat_bitoffset : bitoffset offset = offset.toNat % 4 * 8 := by
  rw [bitoffset, BitVec.toNat_and, show (3 : Byte).toNat = 2 ^ 2 - 1 from rfl, Nat.and_two_pow_sub_one_eq_mod]

theorem getLsbD_mask (hi : i < 32) : size.mask.getLsbD i = decide (i < 8 * size.bytes) := by
  have h : ∀ i < 32, ReadSize.byte.mask.getLsbD i = decide (i < 8) ∧
      ReadSize.word.mask.getLsbD i = decide (i < 16) ∧ ReadSize.dword.mask.getLsbD i = decide (i < 32) := by decide
  cases size with
  | byte => exact (h i hi).1
  | word => exact (h i hi).2.1
  | dword => exact (h i hi).2.2

/-- The register that is read or written, and no other. -/
theorem pciControllerWrite_regs (hp : p.Plain) : (pciControllerWrite p dev offset value size).regs =
    Function.update p.regs (address dev offset)
      (merge (p.regs (address dev offset)) size.mask value (bitoffset offset)) := by
  simp only [pciControllerWrite, Ports.outData, Ports.outCommand, Ports.inData, hp _, BitVec.not_allOnes,
    BitVec.and_zero, BitVec.and_allOnes, BitVec.zero_or, merge]

/-- The bits that a read returns. -/
theorem getLsbD_pciControllerRead (hi : i < 32) : (pciControllerRead p dev offset size).1.getLsbD i =
    (decide (i < 8 * size.bytes) && (p.regs (address dev offset)).getLsbD (bitoffset offset + i)) := by
  have h : (p.regs (address dev offset) >>> bitoffset offset).getLsbD i =
      (p.regs (address dev offset)).getLsbD (bitoffset offset + i) := BitVec.getLsbD_ushiftRight ..
  cases size with
  | byte =>
    refine (BitVec.getLsbD_setWidth ..).trans ?_
    rw [BitVec.getLsbD_setWidth, decide_eq_true hi, Bool.true_and]
    exact congrArg _ h
  | word =>
    refine (BitVec.getLsbD_setWidth ..).trans ?_
    rw [BitVec.getLsbD_setWidth, decide_eq_true hi, Bool.true_and]
    exact congrArg _ h
  | dword =>
    rw [ReadSize.bytes, decide_eq_true (by omega), Bool.true_and]
    exact h

/-- Byte `offset` of the configuration space of a function. -/
def Ports.byteAt (p : Ports) (dev : PCIDevice) (offset : Byte) : Byte :=
  (p.regs (address dev offset)).extractLsb' (8 * (offset.toNat % 4)) 8

/-- A field that is aligned lies in one register. -/
theorem bitoffset_add_le (ha : offset.toNat % size.bytes = 0) : bitoffset offset + 8 * size.bytes ≤ 32 := by
  rw [toNat_bitoffset]
  cases size <;> simp only [ReadSize.bytes] at ha ⊢ <;> omega

/-- The bits of a register after a write. -/
theorem getLsbD_written {old : Word} (hi : i < 32) : (merge old size.mask value (bitoffset offset)).getLsbD i =
    if bitoffset offset ≤ i ∧ i < bitoffset offset + 8 * size.bytes then value.getLsbD (i - bitoffset offset)
    else old.getLsbD i :=
  getLsbD_merge (fun _ h => getLsbD_mask h) hi

/-- What was written is read back. -/
theorem read_written (hp : p.Plain) (ha : offset.toNat % size.bytes = 0) :
    (pciControllerRead (pciControllerWrite p dev offset value size) dev offset size).1 =
      (value.setWidth (8 * size.bytes)).setWidth 32 := by
  have hle := bitoffset_add_le ha
  apply BitVec.eq_of_getLsbD_eq
  intro i hi
  rw [getLsbD_pciControllerRead hi, pciControllerWrite_regs hp, Function.update_self, BitVec.getLsbD_setWidth,
    BitVec.getLsbD_setWidth, decide_eq_true hi, Bool.true_and]
  by_cases h : i < 8 * size.bytes
  · rw [decide_eq_true h, Bool.true_and, Bool.true_and, getLsbD_written (by omega), if_pos (by omega),
      Nat.add_sub_cancel_left]
  · rw [decide_eq_false h, Bool.false_and, Bool.false_and]

/-- Another byte of configuration space is as before. -/
theorem byteAt_written (hp : p.Plain) (hv : dev.Valid) (hv' : dev'.Valid) (ha : offset.toNat % size.bytes = 0)
    (h : ¬ (dev'.bus = dev.bus ∧ dev'.slot = dev.slot ∧ dev'.func = dev.func ∧ offset.toNat ≤ offset'.toNat ∧
      offset'.toNat < offset.toNat + size.bytes)) :
    (pciControllerWrite p dev offset value size).byteAt dev' offset' = p.byteAt dev' offset' := by
  rw [Ports.byteAt, Ports.byteAt, pciControllerWrite_regs hp]
  by_cases he : address dev' offset' = address dev offset
  swap
  · rw [Function.update_of_ne he]
  obtain ⟨hb, hs, hf, ho⟩ := address_inj hv' hv he
  have hbit : bitoffset offset = offset.toNat % 4 * 8 := toNat_bitoffset
  have hle := bitoffset_add_le ha
  have hout : ¬ (offset.toNat ≤ offset'.toNat ∧ offset'.toNat < offset.toNat + size.bytes) := fun hin =>
    h ⟨hb, hs, hf, hin⟩
  rw [he, Function.update_self]
  apply BitVec.eq_of_getLsbD_eq
  intro j hj
  rw [BitVec.getLsbD_extractLsb', BitVec.getLsbD_extractLsb', getLsbD_written (by omega), if_neg (by omega)]

/-- A write changes the bytes that it is for, and no others. -/
theorem write_exact (hp : p.Plain) (hv : dev.Valid) (ha : offset.toNat % size.bytes = 0) (value : Word) :
    let p' := pciControllerWrite p dev offset value size
    (pciControllerRead p' dev offset size).1.toNat = value.toNat % 2 ^ (8 * size.bytes) ∧
      ∀ (dev' : PCIDevice) (offset' : Byte), dev'.Valid →
        ¬ (dev'.bus = dev.bus ∧ dev'.slot = dev.slot ∧ dev'.func = dev.func ∧ offset.toNat ≤ offset'.toNat ∧
          offset'.toNat < offset.toNat + size.bytes) →
        p'.byteAt dev' offset' = p.byteAt dev' offset' := by
  intro p'
  refine ⟨?_, fun dev' offset' hv' h => byteAt_written hp hv hv' ha h⟩
  rw [read_written hp ha, BitVec.toNat_setWidth, BitVec.toNat_setWidth]
  exact Nat.mod_eq_of_lt ((Nat.mod_le ..).trans_lt value.isLt)

/-- Function 1 of slot 3. -/
def someFunction : PCIDevice where
  bus := 0
  slot := 3
  func := 1
  intPin := 0
  intLine := 0
  bars _ := ⟨0, 0, 0⟩
  vendorId := 0
  deviceId := 0
  classCode := 0
  subclass := 0
  progIf := 0

def plainPorts : Ports := ⟨0, fun _ => 0, fun _ => BitVec.allOnes 32⟩

/-- The high half of a register. -/
theorem write_exact_someFunction :
    (pciControllerRead (pciControllerWrite plainPorts someFunction 6 0x12345 .word) someFunction 6 .word).1.toNat =
      0x2345 :=
  have hv : someFunction.Valid := ⟨by decide, by decide⟩
  have hp : plainPorts.Plain := fun _ => rfl
  (write_exact hp hv (show (6 : Byte).toNat % ReadSize.word.bytes = 0 by decide) 0x12345).1.trans (by decide)

end

end AlexOS.Pci
