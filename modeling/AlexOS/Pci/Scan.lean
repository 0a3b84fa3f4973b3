import AlexOS.Lib.Collect
import AlexOS.Pci.Bars

/-!
# The functions on the buses

`scan_bus`, `scan_root_bus` and `PCI_init`, in `kernel/driver/pci/pci.c`. Each
candidate is written to the entry after the last, and stays there if there is a
function. Candidates come in order, so the entries are in order too, and there
is room for all of them; but those with the multi-function bit are passed over,
and what `get_bar` writes behind `bars` replaces the ids (`pciInit_iff`).
-/

namespace AlexOS.Pci

/-- `{ 0 }`. -/
def noDevice : PCIDevice where
  bus := 0
  slot := 0
  func := 0
  intPin := 0
  intLine := 0
  bars _ := ⟨0, 0, 0⟩
  vendorId := 0
  deviceId := 0
  classCode := 0
  subclass := 0
  progIf := 0

/-- `devices` and `nb_device`, and which entries have been written so far. -/
structure Devices where
  devices : Nat → PCIDevice
  nbDevice : Nat
  written : List Nat

namespace Devices

/-- `devices[nb_device]` becomes `dev`. -/
def store (s : Devices) (dev : PCIDevice) : Devices where
  devices := Function.update s.devices s.nbDevice dev
  nbDevice := s.nbDevice
  written := s.nbDevice :: s.written

/-- The same, and `nb_device++`. -/
def push (s : Devices) (dev : PCIDevice) : Devices := { s.store dev with nbDevice := s.nbDevice + 1 }

end Devices

/-- `REG(x)`. -/
def reg (x : Nat) : Byte := BitVec.ofNat 8 (x * 4)

/-- The ids, the class codes and the interrupt. -/
def readHeader (p : Ports) (dev : PCIDevice) : Ports × PCIDevice :=
  let vendor := pciControllerRead p dev (reg 0) .word
  let device := pciControllerRead vendor.2 dev (reg 0) .dword
  let code := pciControllerRead device.2 dev (reg 2) .dword
  let sub := pciControllerRead code.2 dev (reg 2) .dword
  let prog := pciControllerRead sub.2 dev (reg 2) .dword
  let line := pciControllerRead prog.2 dev (reg 0xF) .dword
  let pin := pciControllerRead line.2 dev (reg 0xF) .dword
  (pin.2,
    { dev with
      vendorId := vendor.1.setWidth 16
      deviceId := (device.1 >>> 16).setWidth 16
      classCode := (code.1 >>> 24).setWidth 8
      subclass := (sub.1 >>> 16).setWidth 8
      progIf := (prog.1 >>> 8).setWidth 8
      intLine := line.1.setWidth 8
      intPin := (pin.1 >>> 8).setWidth 8 })

/-- `bus`, `slot` and `func` are set. -/
def PCIDevice.locate (dev : PCIDevice) (bus slot func : Byte) : PCIDevice := { dev with bus, slot, func }

/-- The body of the loops of `scan_bus`. -/
def scanFunction (bus slot func : Byte) (x : Ports × Devices) : Ports × Devices :=
  let dev := (x.2.devices x.2.nbDevice).locate bus slot func
  let s := x.2.store dev
  let vendor := pciControllerRead x.1 dev 0 .word
  if vendor.1 = 0xFFFF then (vendor.2, s)
  else
    let header := pciControllerRead vendor.2 dev 0xC .dword
    if header.1 &&& 0x800000 ≠ 0 then (header.2, s)
    else
      let r := readHeader header.2 dev
      let b := getBar r.1 r.2
      (b.1, s.push b.2)

def scanBus (bus : Byte) : Ports × Devices → Ports × Devices :=
  forBelow 32 fun i => forBelow 8 fun j => scanFunction bus (BitVec.ofNat 8 i) (BitVec.ofNat 8 j)

def scanRootBus (x : Ports × Devices) : Ports × Devices :=
  let header := pciControllerRead x.1 noDevice 0xC .dword
  if header.1 &&& 0x800000 ≠ 0 then scanBus 0 (header.2, x.2)
  else forBelow 8 (fun i => scanBus (BitVec.ofNat 8 i)) (header.2, x.2)

/-- `PCI_init`, from the tables as they are at the start. -/
def pciInit (p : Ports) : Ports × Devices := scanRootBus (p, ⟨fun _ => noDevice, 0, []⟩)

/-! ## What should be found -/

/-- Two bytes of the configuration space of a function. -/
def Ports.wordAt (p : Ports) (dev : PCIDevice) (offset : Byte) : BitVec 16 :=
  p.byteAt dev (offset + 1) ++ p.byteAt dev offset

structure Ids where
  vendorId : BitVec 16
  deviceId : BitVec 16
  classCode : Byte
  subclass : Byte
  progIf : Byte
deriving DecidableEq

def PCIDevice.ids (dev : PCIDevice) : Ids := ⟨dev.vendorId, dev.deviceId, dev.classCode, dev.subclass, dev.progIf⟩

/-- The ids of a function, where configuration space has them. -/
def Ports.ids (p : Ports) (dev : PCIDevice) : Ids :=
  ⟨p.wordAt dev 0, p.wordAt dev 2, p.byteAt dev 0xB, p.byteAt dev 0xA, p.byteAt dev 9⟩

/-- There is a function. -/
def Present (p : Ports) (dev : PCIDevice) : Prop := p.wordAt dev 0 ≠ 0xFFFF

/-- The last bit of the header type. -/
def MultiFunction (p : Ports) (dev : PCIDevice) : Prop := (p.byteAt dev 0xE).getLsbD 7 = true

instance (p : Ports) (dev : PCIDevice) : Decidable (MultiFunction p dev) := inferInstanceAs (Decidable (_ = _))

/-- How many buses are scanned. -/
def busCount (p : Ports) : Nat := if MultiFunction p noDevice then 1 else 8

/-- A function of one of them. -/
def OnScannedBus (p : Ports) (dev : PCIDevice) : Prop := dev.bus.toNat < busCount p ∧ dev.Valid

/-- The position of a function in the order of buses, slots and functions. -/
def number (dev : PCIDevice) : Nat := dev.bus.toNat * 256 + dev.slot.toNat * 8 + dev.func.toNat

/-- The list has the functions that there are, in order, and the writes are inside the table. -/
structure Enumerates (p : Ports) (s : Devices) : Prop where
  entry : ∀ k < s.nbDevice, OnScannedBus p (s.devices k) ∧ Present p (s.devices k) ∧
    (s.devices k).ids = p.ids (s.devices k)
  complete : ∀ f, OnScannedBus p f → Present p f →
    ∃ k < s.nbDevice, (s.devices k).bus = f.bus ∧ (s.devices k).slot = f.slot ∧ (s.devices k).func = f.func
  ordered : ∀ k l, k < l → l < s.nbDevice → number (s.devices k) < number (s.devices l)
  inside : ∀ k ∈ s.written, k < 8 * 32 * 8

/-! ## What goes wrong -/

/-- Is a BAR register the first of a BAR? It is not if the one before is the first of a 64-bit BAR. -/
def firstRegister (r : Nat → Word) : Nat → Bool
  | 0 => true
  | i + 1 => !(firstRegister r i && decide (Marked (r i)))

/-- The last BAR register is the first of a 64-bit BAR. -/
def MarkedLast (r : Nat → Word) : Prop := firstRegister r 5 = true ∧ Marked (r 5)

instance (r : Nat → Word) : Decidable (MarkedLast r) := inferInstanceAs (Decidable (_ ∧ _))

/-- What is where the ids are after a type and a size have been written behind `bars`. -/
def idsBehind (sizeLow : Word) : Ids :=
  let size := ~~~ (sizeLow &&& 0b1111) + 1
  let type := BAR_TYPE_MMIO
  ⟨type.setWidth 16, (type >>> 16).setWidth 16, size.setWidth 8, (size >>> 8).setWidth 8,
    (size >>> 16).setWidth 8⟩

/-- The ids that the entry of a function ends up with. -/
def storedIds (p : Ports) (dev : PCIDevice) : Ids :=
  if MarkedLast (barReg p dev) then idsBehind (sizeBits (barReg p dev 5) (barMask p dev 5)) else p.ids dev

/-- What the scan keeps. -/
def Kept (p : Ports) (dev : PCIDevice) : Prop := Present p dev ∧ ¬ MultiFunction p dev

section

variable {p p' : Ports} {dev dev' : PCIDevice} {i j m n : Nat} {offset : Byte}

/-! ## Fields of a register -/

/-- A byte of the register at `base`. -/
theorem byteAt_eq (p : Ports) (dev : PCIDevice) {base : Byte}
    (h : offset.setWidth 32 &&& (0xFC : Word) = base.setWidth 32 &&& (0xFC : Word)) :
    p.byteAt dev offset = (p.regs (address dev base)).extractLsb' (8 * (offset.toNat % 4)) 8 := by
  rw [Ports.byteAt, address, address, h]

/-- The ids, as bits of the registers that have them. -/
theorem ids_eq (p : Ports) (dev : PCIDevice) : p.ids dev =
    ⟨(p.regs (address dev 0)).extractLsb' 0 16, (p.regs (address dev 0)).extractLsb' 16 16,
      (p.regs (address dev 8)).extractLsb' 24 8, (p.regs (address dev 8)).extractLsb' 16 8,
      (p.regs (address dev 8)).extractLsb' 8 8⟩ := by
  have h0 : p.byteAt dev 0 = (p.regs (address dev 0)).extractLsb' 0 8 := byteAt_eq p dev rfl
  have h1 : p.byteAt dev 1 = (p.regs (address dev 0)).extractLsb' 8 8 := byteAt_eq p dev rfl
  have h2 : p.byteAt dev 2 = (p.regs (address dev 0)).extractLsb' 16 8 := byteAt_eq p dev rfl
  have h3 : p.byteAt dev 3 = (p.regs (address dev 0)).extractLsb' 24 8 := byteAt_eq p dev rfl
  have h9 : p.byteAt dev 9 = (p.regs (address dev 8)).extractLsb' 8 8 := byteAt_eq p dev rfl
  have hA : p.byteAt dev 0xA = (p.regs (address dev 8)).extractLsb' 16 8 := byteAt_eq p dev rfl
  have hB : p.byteAt dev 0xB = (p.regs (address dev 8)).extractLsb' 24 8 := byteAt_eq p dev rfl
  have hv : p.wordAt dev 0 = (p.regs (address dev 0)).extractLsb' 0 16 := by
    rw [Ports.wordAt, show (0 : Byte) + 1 = 1 from rfl, h0, h1]
    exact BitVec.extractLsb'_append_extractLsb'_eq_extractLsb' rfl
  have hd : p.wordAt dev 2 = (p.regs (address dev 0)).extractLsb' 16 16 := by
    rw [Ports.wordAt, show (2 : Byte) + 1 = 3 from rfl, h2, h3]
    exact BitVec.extractLsb'_append_extractLsb'_eq_extractLsb' rfl
  rw [Ports.ids, hv, hd, h9, hA, hB]

/-- The vendor id that is read. -/
theorem read_vendor (p : Ports) (dev : PCIDevice) :
    (pciControllerRead p dev 0 .word).1 = (p.ids dev).vendorId.setWidth 32 := by
  change ((p.regs (address dev 0) >>> 0).setWidth 16).setWidth 32 = _
  rw [ids_eq, BitVec.setWidth_ushiftRight_eq_extractLsb]

theorem present_iff (p : Ports) (dev : PCIDevice) :
    (pciControllerRead p dev 0 .word).1 = 0xFFFF ↔ ¬ Present p dev := by
  rw [read_vendor, Present, not_not, Ports.ids]
  constructor
  · intro h
    apply BitVec.eq_of_toNat_eq
    have h' := congrArg BitVec.toNat h
    rwa [BitVec.toNat_setWidth_of_le (by decide)] at h'
  · intro h
    rw [h]
    rfl

/-- The bit of the header type that is tested. -/
theorem multiFunction_iff (p : Ports) (dev : PCIDevice) :
    (pciControllerRead p dev 0xC .dword).1 &&& 0x800000 ≠ 0 ↔ MultiFunction p dev := by
  have hbit : (0x800000 : Word) = BitVec.twoPow 32 23 := by decide
  have hbyte : p.byteAt dev 0xE = (p.regs (address dev 0xC)).extractLsb' 16 8 := byteAt_eq p dev rfl
  rw [read_dword (by decide), MultiFunction, hbyte, BitVec.getLsbD_extractLsb', hbit, BitVec.and_twoPow]
  simp only [show decide (7 < 8) = true from rfl, Bool.true_and, show 16 + 7 = 23 from rfl]
  cases (p.regs (address dev 0xC)).getLsbD 23 <;> decide

theorem readHeader_regs (p : Ports) (dev : PCIDevice) :
    (readHeader p dev).1.regs = p.regs ∧ (readHeader p dev).1.writable = p.writable := by
  simp only [readHeader, read_regs, read_writable, and_self]

/-- The ids of the function are read. -/
theorem readHeader_ids (p : Ports) (dev : PCIDevice) : (readHeader p dev).2.ids = p.ids dev := by
  have hr : reg 2 = 8 := rfl
  have h0 : reg 0 = 0 := rfl
  simp only [readHeader, PCIDevice.ids, hr, h0, read_dword (show (8 : Byte).toNat % 4 = 0 from rfl),
    read_dword (show (0 : Byte).toNat % 4 = 0 from rfl), read_vendor, read_regs, ids_eq,
    BitVec.setWidth_ushiftRight_eq_extractLsb]
  rw [BitVec.setWidth_setWidth_of_le _ (by decide), BitVec.setWidth_eq]

/-! ## The ids after `get_bar` -/

section

variable {v sizeLow high mask : Word} {r : Nat → Word}

@[simp] theorem withBar_ids (x : PCIBar) : (dev.withBar i x).ids = dev.ids := rfl

theorem storeMemory_ids (hi : i < 6) : (storeMemory dev i sizeLow).ids = dev.ids := by
  rw [storeMemory, PCIDevice.setBarType, if_pos hi, PCIDevice.setBarSize, if_pos hi, withBar_ids, withBar_ids]

/-- The entry behind the last. -/
theorem storeMemory_behind : (storeMemory dev 6 sizeLow).ids = idsBehind sizeLow := rfl

/-- A round for a register without the mark. -/
theorem barStores_unmarked (hi : i < 6) (h : ¬ Marked v) :
    (barStores i v sizeLow high dev).1 = i ∧ (barStores i v sizeLow high dev).2.ids = dev.ids := by
  by_cases h1 : v &&& 1 = 0
  · rw [barStores_memory hi h1 fun h2 => h ⟨h1, h2⟩]
    exact ⟨rfl, rfl⟩
  · rw [barStores_io hi h1]
    exact ⟨rfl, rfl⟩

/-- A round for a register with it. -/
theorem barStores_marked_ids (h : Marked v) : (barStores i v sizeLow high dev).1 = i + 1 ∧
    (i < 5 → (barStores i v sizeLow high dev).2.ids = dev.ids) ∧
    (i = 5 → (barStores i v sizeLow high dev).2.ids = idsBehind sizeLow) := by
  obtain ⟨addr, e⟩ : ∃ addr, barStores i v sizeLow high dev = _ := barStores_marked h
  rw [e]
  refine ⟨rfl, fun hi => ?_, fun hi => ?_⟩
  · rw [storeMemory_ids (by omega), PCIDevice.setBarAddr, withBar_ids]
  · rw [hi]
    exact storeMemory_behind

/-- The loop keeps the function. -/
theorem getBarLoop_function : SameFunction dev (getBarLoop n i p dev).2 := by
  induction n generalizing i p dev with
  | zero => exact ⟨rfl, rfl, rfl⟩
  | succ n ih =>
    by_cases hi : i < 6
    · obtain ⟨p', -, -, e⟩ := getBarLoop_round n p dev hi
      obtain ⟨-, -, hsame⟩ : _ ≤ (roundOf p dev i).1 ∧ _ := barStores_keeps hi
      rw [e]
      exact hsame.trans ih
    · rw [getBarLoop, if_neg hi]
      exact ⟨rfl, rfl, rfl⟩

theorem firstRegister_succ : firstRegister r (i + 1) = true ↔ ¬ (firstRegister r i = true ∧ Marked (r i)) := by
  rw [firstRegister, Bool.not_eq_true', ← Bool.not_eq_true, Bool.and_eq_true, decide_eq_true_eq]

/-- From the first register of a BAR on, the ids are replaced iff the last register is marked. -/
theorem getBarLoop_ids (hn : 6 ≤ n + i) (hi : i < 6) (hfirst : firstRegister (barReg p dev) i = true) :
    (getBarLoop n i p dev).2.ids = if MarkedLast (barReg p dev) then
      idsBehind (sizeBits (barReg p dev 5) (barMask p dev 5)) else dev.ids := by
  induction n generalizing i p dev with
  | zero => omega
  | succ n ih =>
    obtain ⟨p', hregs, hw, e⟩ := getBarLoop_round n p dev hi
    obtain ⟨-, -, hsame⟩ : _ ≤ (roundOf p dev i).1 ∧ _ := barStores_keeps hi
    have hreg : barReg p' (roundOf p dev i).2 = barReg p dev := hsame.barReg hregs
    have hmask : barMask p' (roundOf p dev i).2 = barMask p dev := hsame.barMask hw
    rw [e]
    by_cases hm : Marked (barReg p dev i)
    · obtain ⟨h1, hids, hlast⟩ : (roundOf p dev i).1 = i + 1 ∧ _ := barStores_marked_ids hm
      have hnext : ¬ firstRegister (barReg p dev) (i + 1) = true := fun h => firstRegister_succ.mp h ⟨hfirst, hm⟩
      have hafter : firstRegister (barReg p dev) (i + 1 + 1) = true := firstRegister_succ.mpr fun h => hnext h.1
      rw [h1]
      by_cases h6 : i + 1 + 1 < 6
      · rw [ih (by omega) h6 (by rw [hreg, hafter]), hreg, hmask]
        exact congrArg _ (hids (by omega))
      rw [getBarLoop_end (by omega)]
      by_cases h5 : i = 5
      · subst h5
        rw [if_pos ⟨hfirst, hm⟩]
        exact hlast rfl
      · have h4 : i + 1 = 5 := by omega
        rw [if_neg fun h => hnext (h4 ▸ h.1)]
        exact hids (by omega)
    · obtain ⟨h0, hids⟩ : (roundOf p dev i).1 = i ∧ _ := barStores_unmarked hi hm
      have hnext : firstRegister (barReg p dev) (i + 1) = true := firstRegister_succ.mpr fun h => hm h.2
      rw [h0]
      by_cases h6 : i + 1 < 6
      · rw [ih (by omega) h6 (by rw [hreg, hnext]), hreg, hmask]
        exact congrArg _ hids
      · have h5 : i = 5 := by omega
        subst h5
        rw [getBarLoop_end (Nat.le_refl 6), if_neg fun h => hm h.2]
        exact hids

end

/-! ## A candidate -/

namespace SameFunction

variable (h : SameFunction dev dev')

include h

theorem ids (hregs : p'.regs = p.regs) : p'.ids dev' = p.ids dev := by
  rw [ids_eq, ids_eq, h.address, h.address, hregs]

theorem storedIds (hregs : p'.regs = p.regs) (hw : p'.writable = p.writable) : storedIds p' dev' = storedIds p dev := by
  rw [Pci.storedIds, Pci.storedIds, h.barReg hregs, h.barMask hw, h.ids hregs]

theorem valid (hv : dev.Valid) : dev'.Valid := ⟨h.slot ▸ hv.slot_lt, h.func ▸ hv.func_lt⟩

theorem number : number dev' = number dev := by rw [Pci.number, Pci.number, h.bus, h.slot, h.func]

theorem kept (hregs : p'.regs = p.regs) : Kept p' dev' ↔ Kept p dev := by
  simp only [Kept, Present, MultiFunction, Ports.wordAt, Ports.byteAt, h.address, hregs]

end SameFunction

/-- What is stored for a function. -/
theorem found_ok (p : Ports) (dev : PCIDevice) :
    let r := readHeader p dev
    let b := getBar r.1 r.2
    b.1.regs = p.regs ∧ b.1.writable = p.writable ∧ SameFunction dev b.2 ∧ b.2.ids = storedIds p dev := by
  intro r b
  obtain ⟨hregs, hw⟩ : r.1.regs = p.regs ∧ r.1.writable = p.writable := readHeader_regs p dev
  obtain ⟨hregs', hw'⟩ : b.1.regs = r.1.regs ∧ b.1.writable = r.1.writable := getBar_regs
  have hsame : SameFunction dev r.2 := ⟨rfl, rfl, rfl⟩
  have hreg : barReg r.1 r.2 = barReg p dev := hsame.barReg hregs
  have hmask : barMask r.1 r.2 = barMask p dev := hsame.barMask hw
  have hids : b.2.ids = if MarkedLast (barReg r.1 r.2) then idsBehind (sizeBits (barReg r.1 r.2 5) (barMask r.1 r.2 5))
      else r.2.ids := getBarLoop_ids (Nat.le_refl 6) (by decide) rfl
  have hread : r.2.ids = p.ids dev := readHeader_ids p dev
  rw [hreg, hmask, hread] at hids
  exact ⟨hregs'.trans hregs, hw'.trans hw, hsame.trans getBarLoop_function, hids⟩

/-- The entry of a candidate stays iff there is a function without the bit. -/
theorem scanFunction_ok (x : Ports × Devices) (dev : PCIDevice) : ∃ (p' : Ports) (e : PCIDevice),
    p'.regs = x.1.regs ∧ p'.writable = x.1.writable ∧ SameFunction dev e ∧
      ((¬ Kept x.1 dev ∧ scanFunction dev.bus dev.slot dev.func x = (p', x.2.store e)) ∨
        (Kept x.1 dev ∧ e.ids = storedIds x.1 dev ∧
          ∃ e', scanFunction dev.bus dev.slot dev.func x = (p', (x.2.store e').push e))) := by
  obtain ⟨p, s⟩ := x
  let e : PCIDevice := (s.devices s.nbDevice).locate dev.bus dev.slot dev.func
  have hsame : SameFunction dev e := ⟨rfl, rfl, rfl⟩
  have hkept : Kept p e ↔ Kept p dev := hsame.kept rfl
  let p₁ := (pciControllerRead p e 0 .word).2
  have hregs₁ : p₁.regs = p.regs := read_regs
  have hw₁ : p₁.writable = p.writable := read_writable
  have hmulti : (pciControllerRead p₁ e 0xC .dword).1 &&& 0x800000 ≠ 0 ↔ MultiFunction p e := by
    rw [multiFunction_iff, MultiFunction, Ports.byteAt, hregs₁, MultiFunction, Ports.byteAt]
  let p₂ := (pciControllerRead p₁ e 0xC .dword).2
  have hregs₂ : p₂.regs = p.regs := read_regs.trans hregs₁
  have hw₂ : p₂.writable = p.writable := read_writable.trans hw₁
  by_cases hv : (pciControllerRead p e 0 .word).1 = 0xFFFF
  · have hnot : ¬ Kept p dev := fun h => (present_iff p e).mp hv (hkept.mpr h).1
    exact ⟨p₁, e, hregs₁, hw₁, hsame, .inl ⟨hnot, if_pos hv⟩⟩
  by_cases hm : MultiFunction p e
  · have hnot : ¬ Kept p dev := fun h => (hkept.mpr h).2 hm
    exact ⟨p₂, e, hregs₂, hw₂, hsame, .inl ⟨hnot, (if_neg hv).trans (if_pos (hmulti.mpr hm))⟩⟩
  have hpresent : Present p e := not_not.mp fun h => hv ((present_iff p e).mpr h)
  obtain ⟨hregs, hw, hfun, hids⟩ := found_ok p₂ e
  have hids' : storedIds p₂ e = storedIds p dev := hsame.storedIds hregs₂ hw₂
  exact ⟨_, _, hregs.trans hregs₂, hw.trans hw₂, hsame.trans hfun,
    .inr ⟨hkept.mp ⟨hpresent, hm⟩, hids.trans hids', e,
    (if_neg hv).trans (if_neg fun h => hm (hmulti.mp h))⟩⟩

/-! ## The loops -/

/-- The function with a number. -/
def functionAt (m : Nat) : PCIDevice where
  __ := noDevice
  bus := BitVec.ofNat 8 (m / 256)
  slot := BitVec.ofNat 8 (m / 8 % 32)
  func := BitVec.ofNat 8 (m % 8)

theorem functionAt_valid (m : Nat) : (functionAt m).Valid where
  slot_lt := by
    rw [functionAt, BitVec.toNat_ofNat]
    omega
  func_lt := by
    rw [functionAt, BitVec.toNat_ofNat]
    omega

theorem number_functionAt (hm : m < 65536) : number (functionAt m) = m := by
  simp only [number, functionAt, BitVec.toNat_ofNat]
  omega

/-- Functions of one number are the same. -/
theorem eq_of_number (hv : dev.Valid) (hv' : dev'.Valid) (h : number dev' = number dev) : SameFunction dev dev' := by
  obtain ⟨hs, hf⟩ := hv
  obtain ⟨hs', hf'⟩ := hv'
  rw [number, number] at h
  refine ⟨?_, ?_, ?_⟩
  · rw [BitVec.toNat_eq]
    omega
  · rw [BitVec.toNat_eq]
    omega
  · rw [BitVec.toNat_eq]
    omega

/-- After the candidates below `m`. -/
structure Scanned (p : Ports) (m : Nat) (x : Ports × Devices) : Prop where
  regs : x.1.regs = p.regs
  writable : x.1.writable = p.writable
  collected : Collected (fun m => Kept p (functionAt m)) m (fun k => number (x.2.devices k)) x.2.nbDevice
  valid : ∀ k < x.2.nbDevice, (x.2.devices k).Valid
  ids : ∀ k < x.2.nbDevice, (x.2.devices k).ids = storedIds p (x.2.devices k)
  written : ∀ k ∈ x.2.written, k < m

section

variable {x : Ports × Devices}

@[simp] theorem store_devices_self (s : Devices) (e : PCIDevice) : (s.store e).devices s.nbDevice = e :=
  Function.update_self ..

theorem store_devices_of_lt (s : Devices) (e : PCIDevice) (hk : j < s.nbDevice) :
    (s.store e).devices j = s.devices j :=
  Function.update_of_ne hk.ne _ _

/-- One candidate. -/
theorem Scanned.succ (h : Scanned p m x) (hm : m < 65536) : Scanned p (m + 1)
    (scanFunction (functionAt m).bus (functionAt m).slot (functionAt m).func x) := by
  have hfun := SameFunction.refl (functionAt m)
  obtain ⟨p', e, hregs, hw, hsame, ⟨hkept, heq⟩ | ⟨hkept, hids, e', heq⟩⟩ :=
    scanFunction_ok x (functionAt m)
  · have hbefore : ∀ k < x.2.nbDevice, (x.2.store e).devices k = x.2.devices k :=
      fun k hk => store_devices_of_lt _ e hk
    rw [heq]
    refine ⟨hregs.trans h.regs, hw.trans h.writable, ?_, fun k hk => ?_, fun k hk => ?_, fun k hk => ?_⟩
    · refine h.collected.skip (fun hp => hkept ((hfun.kept h.regs).mpr hp)) fun k hk => ?_
      rw [hbefore k hk]
    · rw [hbefore k hk]
      exact h.valid k hk
    · rw [hbefore k hk]
      exact h.ids k hk
    · rcases List.mem_cons.mp hk with rfl | hk
      · exact Nat.lt_succ_of_le h.collected.count_le
      · exact Nat.lt_succ_of_lt (h.written k hk)
  · have hbefore : ∀ k < x.2.nbDevice, ((x.2.store e').push e).devices k = x.2.devices k := fun k hk =>
      (store_devices_of_lt (x.2.store e') e hk).trans (store_devices_of_lt x.2 e' hk)
    have hlast : ((x.2.store e').push e).devices x.2.nbDevice = e := store_devices_self (x.2.store e') e
    have hv : e.Valid := hsame.valid (functionAt_valid m)
    have hids' : e.ids = storedIds p e := hids.trans (hsame.storedIds h.regs.symm h.writable.symm).symm
    have each : ∀ {q : PCIDevice → Prop}, (∀ k < x.2.nbDevice, q (x.2.devices k)) → q e →
        ∀ k < x.2.nbDevice + 1, q (((x.2.store e').push e).devices k) := by
      intro q hq he k hk
      rcases Nat.lt_succ_iff_lt_or_eq.mp hk with hk | rfl
      · rw [hbefore k hk]
        exact hq k hk
      · rwa [hlast]
    rw [heq]
    refine ⟨hregs.trans h.regs, hw.trans h.writable, ?_, each h.valid hv,
      each (q := fun f => f.ids = storedIds p f) h.ids hids', fun k hk => ?_⟩
    · refine h.collected.push ((hfun.kept h.regs).mp hkept) (fun k hk => ?_) ?_
      · rw [hbefore k hk]
      · rw [hlast, hsame.number]
        exact number_functionAt hm
    · rcases List.mem_cons.mp hk with rfl | hk
      · exact Nat.lt_succ_of_le h.collected.count_le
      rcases List.mem_cons.mp hk with rfl | hk
      · exact Nat.lt_succ_of_le h.collected.count_le
      · exact Nat.lt_succ_of_lt (h.written k hk)

/-- One slot. -/
theorem scanSlot_ok {b : Nat} (hb : b < 8) (hi : i < 32) (h : Scanned p (b * 256 + i * 8) x) :
    Scanned p (b * 256 + i * 8 + 8)
      (forBelow 8 (fun j => scanFunction (BitVec.ofNat 8 b) (BitVec.ofNat 8 i) (BitVec.ofNat 8 j)) x) := by
  have h0 : Scanned p (b * 256 + i * 8 + 0) x := by rwa [Nat.add_zero]
  refine forBelow_inv (fun j => Scanned p (b * 256 + i * 8 + j)) h0 fun j hj y hy => ?_
  have hnext := hy.succ (by omega)
  rw [← Nat.add_assoc]
  rwa [functionAt, show (b * 256 + i * 8 + j) / 256 = b by omega, show (b * 256 + i * 8 + j) / 8 % 32 = i by omega,
    show (b * 256 + i * 8 + j) % 8 = j by omega] at hnext

/-- One bus. -/
theorem scanBus_ok {b : Nat} (hb : b < 8) (h : Scanned p (b * 256) x) :
    Scanned p ((b + 1) * 256) (scanBus (BitVec.ofNat 8 b) x) := by
  have h0 : Scanned p (b * 256 + 0 * 8) x := by rwa [Nat.zero_mul, Nat.add_zero]
  have h32 : Scanned p (b * 256 + 32 * 8) (scanBus (BitVec.ofNat 8 b) x) := by
    refine forBelow_inv (fun i => Scanned p (b * 256 + i * 8)) h0 fun i hi y hy => ?_
    rw [Nat.succ_mul, ← Nat.add_assoc]
    exact scanSlot_ok hb hi hy
  rwa [show (b + 1) * 256 = b * 256 + 32 * 8 by omega]

theorem busCount_le (p : Ports) : busCount p ≤ 8 := by
  rw [busCount]
  split <;> decide

/-- All candidates on the buses that are scanned. -/
theorem pciInit_scanned (p : Ports) : Scanned p (busCount p * 256) (pciInit p) := by
  let start : Ports × Devices := ((pciControllerRead p noDevice 0xC .dword).2, ⟨fun _ => noDevice, 0, []⟩)
  have h0 : Scanned p (0 * 256) start :=
    ⟨read_regs, read_writable, .zero, fun k hk => absurd hk (Nat.not_lt_zero k),
      fun k hk => absurd hk (Nat.not_lt_zero k),
      fun k hk => absurd hk List.not_mem_nil⟩
  by_cases hm : MultiFunction p noDevice
  · have e : pciInit p = scanBus 0 start := if_pos ((multiFunction_iff p noDevice).mpr hm)
    rw [e, busCount, if_pos hm]
    exact scanBus_ok (by decide) h0
  · have e : pciInit p = forBelow 8 (fun i => scanBus (BitVec.ofNat 8 i)) start :=
      if_neg fun h => hm ((multiFunction_iff p noDevice).mp h)
    rw [e, busCount, if_neg hm]
    exact forBelow_inv (fun b => Scanned p (b * 256)) h0 fun b hb y hy => scanBus_ok hb hy

/-! ## The list -/

/-- The function with the number of a function is that function. -/
theorem functionAt_number (hv : dev.Valid) : SameFunction dev (functionAt (number dev)) := by
  have hlt : number dev < 65536 := by
    obtain ⟨hs, hf⟩ := hv
    have := dev.bus.isLt
    rw [number]
    omega
  exact eq_of_number hv (functionAt_valid _) (number_functionAt hlt)

theorem number_lt_iff (hv : dev.Valid) : number dev < n * 256 ↔ dev.bus.toNat < n := by
  obtain ⟨hs, hf⟩ := hv
  rw [number]
  omega

/-- A function is in the list. -/
theorem Scanned.kept (h : Scanned p m x) (hj : j < x.2.nbDevice) : Kept p (x.2.devices j) :=
  ((functionAt_number (h.valid j hj)).kept rfl).mp (h.collected.sound j hj).2

/-- The functions in the list are without the bit, and have the ids that they should have. -/
theorem kept_of_enumerates (h : Scanned p (busCount p * 256) x) (H : Enumerates p x.2) (hs : OnScannedBus p dev)
    (hp : Present p dev) : ¬ MultiFunction p dev ∧ storedIds p dev = p.ids dev := by
  obtain ⟨k, hk, hbus, hslot, hfunc⟩ := H.complete dev hs hp
  have hsame : SameFunction dev (x.2.devices k) := ⟨hbus, hslot, hfunc⟩
  have hkept : Kept p dev := (hsame.kept rfl).mp (h.kept hk)
  have hstored : storedIds p (x.2.devices k) = p.ids (x.2.devices k) := (h.ids k hk).symm.trans (H.entry k hk).2.2
  rw [hsame.storedIds rfl rfl, hsame.ids rfl] at hstored
  exact ⟨hkept.2, hstored⟩

theorem Scanned.enumerates (h : Scanned p (busCount p * 256) x)
    (H : ∀ dev, OnScannedBus p dev → Present p dev → ¬ MultiFunction p dev ∧ storedIds p dev = p.ids dev) :
    Enumerates p x.2 where
  entry k hk := by
    have hv := h.valid k hk
    have hon : OnScannedBus p (x.2.devices k) := ⟨(number_lt_iff hv).mp (h.collected.sound k hk).1, hv⟩
    have hp := (h.kept hk).1
    exact ⟨hon, hp, (h.ids k hk).trans (H _ hon hp).2⟩
  complete f hon hp := by
    have hkept : Kept p (functionAt (number f)) := ((functionAt_number hon.2).kept rfl).mpr ⟨hp, (H f hon hp).1⟩
    obtain ⟨k, hk, e⟩ := h.collected.complete (number f) ((number_lt_iff hon.2).mpr hon.1) hkept
    obtain ⟨hb, hs, hf⟩ := eq_of_number hon.2 (h.valid k hk) e
    exact ⟨k, hk, hb, hs, hf⟩
  ordered := h.collected.ordered
  inside k hk := (h.written k hk).trans_le (Nat.mul_le_mul_right 256 (busCount_le p))

theorem storedIds_eq_iff : storedIds p dev = p.ids dev ↔
    (MarkedLast (barReg p dev) → p.ids dev = idsBehind (sizeBits (barReg p dev 5) (barMask p dev 5))) := by
  rw [storedIds]
  split
  · exact ⟨fun h _ => h.symm, fun h => (h ‹_›).symm⟩
  · exact ⟨fun _ h => absurd h ‹_›, fun _ => rfl⟩

/-- The list is right iff no function has the bit of the header type, and none has a 64-bit mark in the last register,
unless its ids are what is then written over them. -/
theorem pciInit_iff (p : Ports) : Enumerates p (pciInit p).2 ↔ ∀ dev, OnScannedBus p dev → Present p dev →
    ¬ MultiFunction p dev ∧
      (MarkedLast (barReg p dev) → p.ids dev = idsBehind (sizeBits (barReg p dev 5) (barMask p dev 5))) := by
  have h := pciInit_scanned p
  constructor
  · intro H dev hon hp
    obtain ⟨hm, hids⟩ := kept_of_enumerates h H hon hp
    exact ⟨hm, storedIds_eq_iff.mp hids⟩
  · intro H
    refine h.enumerates fun dev hon hp => ?_
    obtain ⟨hm, hids⟩ := H dev hon hp
    exact ⟨hm, storedIds_eq_iff.mpr hids⟩

/-- A host bridge, and the first function of a bridge to ISA that has several. Where there is no
function, ones are read. -/
def bridges : Ports where
  command := 0
  regs a :=
    if a = address noDevice 0 then 0x12378086
    else if a = address noDevice 0xC then 0
    else if a = address (functionAt 8) 0 then 0x70008086
    else if a = address (functionAt 8) 0xC then 0x00800000
    else 0xFFFFFFFF
  writable _ := 0

/-- The bridge to ISA is not in the list. -/
theorem not_enumerates : ¬ ∀ p, Enumerates p (pciInit p).2 := by
  intro H
  have hon : OnScannedBus bridges (functionAt 8) := ⟨by decide, functionAt_valid 8⟩
  have hp : Present bridges (functionAt 8) := by
    rw [Present]
    decide
  have hm : MultiFunction bridges (functionAt 8) := by decide
  exact (kept_of_enumerates (pciInit_scanned bridges) (H bridges) hon hp).1 hm

end

end

end AlexOS.Pci
