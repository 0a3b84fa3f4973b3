import AlexOS.Pci.Config

/-!
# Base address registers

`get_bar`, in `kernel/driver/pci/pci.c`. It saves each register, writes ones to
it, reads which of them stay, and restores it, so that configuration space is
as before (`getBar_regs`). The size of a memory BAR is computed from the wrong
bits, and that of a 64-bit one is stored at the index after it, which is behind
`bars` if the mark is in the last register. So the result is right iff no
memory BAR is implemented (`getBar_iff`).
-/

namespace AlexOS.Pci

/-! ## The entries -/

namespace PCIDevice

variable (dev : PCIDevice) (i : Nat)

/-- `bars[i]` becomes `x`. -/
def withBar (x : PCIBar) : PCIDevice := { dev with bars := Function.update dev.bars i x }

/-- `bars[i].addr`. -/
def setBarAddr (v : BitVec 64) : PCIDevice := dev.withBar i { dev.bars i with addr := v }

/-- `bars[i].type`. Behind `bars` are the ids: `vendor_id` and `device_id` are where the type of an entry 6 would be. -/
def setBarType (v : Word) : PCIDevice :=
  if i < 6 then dev.withBar i { dev.bars i with type := v }
  else { dev with vendorId := v.setWidth 16, deviceId := (v >>> 16).setWidth 16 }

/-- `bars[i].size`. The class codes are where the size of an entry 6 would be. -/
def setBarSize (v : Word) : PCIDevice :=
  if i < 6 then dev.withBar i { dev.bars i with size := v }
  else { dev with classCode := v.setWidth 8, subclass := (v >>> 8).setWidth 8, progIf := (v >>> 16).setWidth 8 }

end PCIDevice

/-- The offset of BAR `i`. -/
def barOffset (i : Nat) : Byte := BitVec.ofNat 8 (0x10 + i * 4)

/-- `base_low` and `size_low`. -/
def probeBar (p : Ports) (dev : PCIDevice) (i : Nat) : Word × Word × Ports :=
  let base := pciControllerRead p dev (barOffset i) .dword
  let p := pciControllerWrite base.2 dev (barOffset i) 0xFFFFFFFF .dword
  let size := pciControllerRead p dev (barOffset i) .dword
  (base.1, size.1, pciControllerWrite size.2 dev (barOffset i) base.1 .dword)

/-- The size and the type of a memory BAR. -/
def storeMemory (dev : PCIDevice) (i : Nat) (sizeLow : Word) : PCIDevice :=
  (dev.setBarSize i (~~~ (sizeLow &&& 0b1111) + 1)).setBarType i BAR_TYPE_MMIO

/-- The body of the loop: the index after it, without the increment, and what is stored. -/
def getBarRound (i : Nat) (p : Ports) (dev : PCIDevice) : Nat × Ports × PCIDevice :=
  let r := probeBar p dev i
  let baseLow := r.1
  let sizeLow := r.2.1
  if baseLow &&& 1 ≠ 0 then
    let dev := dev.setBarType i BAR_TYPE_IO
    let dev := dev.setBarAddr i ((baseLow &&& ~~~ 0b11).setWidth 64)
    (i, r.2.2, dev.setBarSize i (~~~ (sizeLow &&& ~~~ 0b11) + 1))
  else
    let type := (baseLow >>> 1) &&& 3
    let high := pciControllerRead r.2.2 dev (barOffset i + 4) .dword
    let dev := dev.setBarAddr i ((baseLow &&& ~~~ 0xF).setWidth 64)
    if type = 2 then
      let dev := dev.setBarAddr i ((dev.bars i).addr ||| high.1.setWidth 64 <<< 32)
      (i + 1, high.2, storeMemory dev (i + 1) sizeLow)
    else (i, high.2, storeMemory dev i sizeLow)

/-- The loop, for at most `n` rounds. -/
def getBarLoop : Nat → Nat → Ports → PCIDevice → Ports × PCIDevice
  | 0, _, p, dev => (p, dev)
  | n + 1, i, p, dev =>
    if i < 6 then
      let r := getBarRound i p dev
      getBarLoop n (r.1 + 1) r.2.1 r.2.2
    else (p, dev)

def getBar (p : Ports) (dev : PCIDevice) : Ports × PCIDevice := getBarLoop 6 0 p dev

/-! ## Legal registers -/

inductive Bar where
  | unimplemented
  | io (log : Nat) (base : Word)
  | mem32 (prefetch : Bool) (log : Nat) (base : Word)
  | mem64 (prefetch : Bool) (log : Nat) (base : BitVec 64)

namespace Bar

/-- The size is a power of two, and the base a multiple of it. -/
def Legal : Bar → Prop
  | unimplemented => True
  | io log base => 2 ≤ log ∧ log < 32 ∧ 2 ^ log ∣ base.toNat
  | mem32 _ log base => 4 ≤ log ∧ log < 32 ∧ 2 ^ log ∣ base.toNat
  | mem64 _ log base => 4 ≤ log ∧ log < 64 ∧ 2 ^ log ∣ base.toNat

/-- The low bits of a memory BAR. -/
def flags (prefetch : Bool) (type : Word) : Word := (if prefetch then 8 else 0) ||| type <<< 1

/-- What the registers hold, and their bits that a write changes: those below the size read back as they are. -/
def registers : Bar → List (Word × Word)
  | unimplemented => [(0, 0)]
  | io log base => [(base ||| 1, BitVec.allOnes 32 <<< log)]
  | mem32 prefetch log base => [(base ||| flags prefetch 0, BitVec.allOnes 32 <<< log)]
  | mem64 prefetch log base =>
    [(base.setWidth 32 ||| flags prefetch 2, (BitVec.allOnes 64 <<< log).setWidth 32),
      ((base >>> 32).setWidth 32, ((BitVec.allOnes 64 <<< log) >>> 32).setWidth 32)]

/-- What should be stored for a BAR. -/
def Stored : Bar → PCIBar → Prop
  | unimplemented, _ => True
  | io log base, x => x.type = BAR_TYPE_IO ∧ x.size.toNat = 2 ^ log ∧ x.addr.toNat = base.toNat
  | mem32 _ log base, x => x.type = BAR_TYPE_MMIO ∧ x.size.toNat = 2 ^ log ∧ x.addr.toNat = base.toNat
  | mem64 _ log base, x => x.type = BAR_TYPE_MMIO ∧ x.size.toNat = 2 ^ log ∧ x.addr.toNat = base.toNat

def IsMemory : Bar → Prop
  | unimplemented => False
  | io .. => False
  | mem32 .. => True
  | mem64 .. => True

end Bar

/-- BAR register `i` of a function. -/
def barReg (p : Ports) (dev : PCIDevice) (i : Nat) : Word := p.regs (address dev (barOffset i))

/-- The bits of it that can be written. -/
def barMask (p : Ports) (dev : PCIDevice) (i : Nat) : Word := p.writable (address dev (barOffset i))

/-- The registers from number `i` on are those of the BARs. The second half of the last may be behind register 5. -/
def Describes (p : Ports) (dev : PCIDevice) : Nat → List Bar → Prop
  | i, [] => 6 ≤ i
  | i, b :: bs => i < 6 ∧ b.Legal ∧
    (∀ j r, b.registers[j]? = some r → barReg p dev (i + j) = r.1 ∧ barMask p dev (i + j) = r.2) ∧
    Describes p dev (i + b.registers.length) bs

/-- Each BAR is stored at the index of its first register. -/
def AllStored (bars : Nat → PCIBar) : Nat → List Bar → Prop
  | _, [] => True
  | i, b :: bs => b.Stored (bars i) ∧ AllStored bars (i + b.registers.length) bs

/-- Whatever was in the entry before, `get_bar` stores the BARs, writes nothing but `bars`, and leaves configuration
space as it is. -/
def ProbesRight (p : Ports) (bus slot func : Byte) (bs : List Bar) : Prop :=
  ∀ dev : PCIDevice, dev.bus = bus → dev.slot = slot → dev.func = func →
    AllStored (getBar p dev).2.bars 0 bs ∧ (getBar p dev).2 = { dev with bars := (getBar p dev).2.bars } ∧
      (getBar p dev).1.regs = p.regs

section

variable {p p' : Ports} {dev dev' : PCIDevice} {i j n : Nat} {offset : Byte}

/-! ## Whole registers -/

/-- An entry for the same function. -/
structure SameFunction (dev dev' : PCIDevice) : Prop where
  bus : dev'.bus = dev.bus
  slot : dev'.slot = dev.slot
  func : dev'.func = dev.func

namespace SameFunction

theorem refl (dev : PCIDevice) : SameFunction dev dev := ⟨rfl, rfl, rfl⟩

theorem trans {dev₁ : PCIDevice} (h : SameFunction dev dev₁) (h' : SameFunction dev₁ dev') :
    SameFunction dev dev' :=
  ⟨h'.bus.trans h.bus, h'.slot.trans h.slot, h'.func.trans h.func⟩

theorem address (h : SameFunction dev dev') (offset : Byte) : address dev' offset = address dev offset := by
  rw [Pci.address, Pci.address, h.bus, h.slot, h.func]

theorem barReg (h : SameFunction dev dev') (hregs : p'.regs = p.regs) : barReg p' dev' = barReg p dev := by
  funext i
  rw [Pci.barReg, Pci.barReg, hregs, h.address]

theorem barMask (h : SameFunction dev dev') (hw : p'.writable = p.writable) : barMask p' dev' = barMask p dev := by
  funext i
  rw [Pci.barMask, Pci.barMask, hw, h.address]

end SameFunction

theorem read_dword (ha : offset.toNat % 4 = 0) :
    (pciControllerRead p dev offset .dword).1 = p.regs (address dev offset) := by
  have h0 : bitoffset offset = 0 := by rw [toNat_bitoffset, ha]
  simp only [pciControllerRead, Ports.inData, Ports.outCommand, h0, BitVec.ushiftRight_zero]

@[simp] theorem read_regs {size : ReadSize} : (pciControllerRead p dev offset size).2.regs = p.regs := by
  cases size <;> rfl

@[simp] theorem read_writable {size : ReadSize} : (pciControllerRead p dev offset size).2.writable = p.writable := by
  cases size <;> rfl

@[simp] theorem write_writable {size : ReadSize} {v : Word} :
    (pciControllerWrite p dev offset v size).writable = p.writable := rfl

theorem write_dword (ha : offset.toNat % 4 = 0) (v : Word) : (pciControllerWrite p dev offset v .dword).regs =
    Function.update p.regs (address dev offset)
      ((p.regs (address dev offset) &&& ~~~ p.writable (address dev offset)) |||
      (v &&& p.writable (address dev offset))) := by
  have h0 : bitoffset offset = 0 := by rw [toNat_bitoffset, ha]
  have hm : ReadSize.dword.mask = BitVec.allOnes 32 := rfl
  simp only [pciControllerWrite, Ports.outData, Ports.inData, Ports.outCommand, h0, hm, BitVec.shiftLeft_zero,
    BitVec.not_allOnes, BitVec.and_zero, BitVec.zero_or, BitVec.and_allOnes]

theorem toNat_barOffset (hi : i ≤ 6) : (barOffset i).toNat = 0x10 + i * 4 := by
  rw [barOffset, BitVec.toNat_ofNat]
  omega

/-- What is read after ones are written. -/
def sizeBits (v mask : Word) : Word := (v &&& ~~~ mask) ||| mask

/-- What is restored. -/
theorem restore_eq (v mask : Word) : sizeBits v mask &&& ~~~ mask ||| v &&& mask = v := by
  apply BitVec.eq_of_getLsbD_eq
  intro k hk
  simp only [sizeBits, BitVec.getLsbD_or, BitVec.getLsbD_and, BitVec.getLsbD_not, decide_eq_true hk, Bool.true_and]
  cases v.getLsbD k <;> cases mask.getLsbD k <;> rfl

/-- A register is restored. -/
theorem probeBar_ok (p : Ports) (dev : PCIDevice) (hi : i < 6) : (probeBar p dev i).1 = barReg p dev i ∧
    (probeBar p dev i).2.1 = sizeBits (barReg p dev i) (barMask p dev i) ∧ (probeBar p dev i).2.2.regs = p.regs ∧
      (probeBar p dev i).2.2.writable = p.writable := by
  have ha : (barOffset i).toNat % 4 = 0 := by
    rw [toNat_barOffset hi.le]
    omega
  have hones : ∀ m : Word, 0xFFFFFFFF &&& m = m := fun m => BitVec.allOnes_and
  simp only [probeBar, read_dword ha, write_dword ha, read_regs, read_writable, write_writable, Function.update_self,
    Function.update_idem, barReg, barMask, hones]
  refine ⟨trivial, rfl, ?_, trivial⟩
  rw [← sizeBits, restore_eq, Function.update_eq_self]

/-! ## A round -/

/-- What a round stores, by the values of the registers. -/
def barStores (i : Nat) (v sizeLow high : Word) (dev : PCIDevice) : Nat × PCIDevice :=
  if v &&& 1 ≠ 0 then
    (i, ((dev.setBarType i BAR_TYPE_IO).setBarAddr i ((v &&& ~~~ 0b11).setWidth 64)).setBarSize i
      (~~~ (sizeLow &&& ~~~ 0b11) + 1))
  else
    let dev := dev.setBarAddr i ((v &&& ~~~ 0xF).setWidth 64)
    if (v >>> 1) &&& 3 = 2 then
      (i + 1, storeMemory (dev.setBarAddr i ((dev.bars i).addr ||| high.setWidth 64 <<< 32)) (i + 1) sizeLow)
    else (i, storeMemory dev i sizeLow)

/-- What the round for register `i` stores. -/
def roundOf (p : Ports) (dev : PCIDevice) (i : Nat) : Nat × PCIDevice :=
  barStores i (barReg p dev i) (sizeBits (barReg p dev i) (barMask p dev i)) (barReg p dev (i + 1)) dev

theorem getBarRound_ok (p : Ports) (dev : PCIDevice) (hi : i < 6) : ∃ p' : Ports, p'.regs = p.regs ∧
    p'.writable = p.writable ∧ getBarRound i p dev = ((roundOf p dev i).1, p', (roundOf p dev i).2) := by
  obtain ⟨hbase, hsize, hregs, hwritable⟩ := probeBar_ok p dev hi
  have hnext : barOffset i + 4 = barOffset (i + 1) := by
    apply BitVec.eq_of_toNat_eq
    rw [BitVec.toNat_add, toNat_barOffset hi.le, toNat_barOffset hi, show (4 : Byte).toNat = 4 from rfl]
    omega
  have ha : (barOffset (i + 1)).toNat % 4 = 0 := by
    rw [toNat_barOffset hi]
    omega
  have hhigh : (pciControllerRead (probeBar p dev i).2.2 dev (barOffset (i + 1)) .dword).1 = barReg p dev (i + 1) := by
    rw [read_dword ha, hregs, barReg]
  simp only [getBarRound, roundOf, barStores, hbase, hsize, hnext, hhigh]
  split_ifs
  · exact ⟨_, hregs, hwritable, rfl⟩
  · exact ⟨_, read_regs.trans hregs, read_writable.trans hwritable, rfl⟩
  · exact ⟨_, read_regs.trans hregs, read_writable.trans hwritable, rfl⟩

theorem getBarLoop_round (n : Nat) (p : Ports) (dev : PCIDevice) (hi : i < 6) : ∃ p' : Ports, p'.regs = p.regs ∧
    p'.writable = p.writable ∧
      getBarLoop (n + 1) i p dev = getBarLoop n ((roundOf p dev i).1 + 1) p' (roundOf p dev i).2 := by
  obtain ⟨p', hregs, hwritable, e⟩ := getBarRound_ok p dev hi
  refine ⟨p', hregs, hwritable, ?_⟩
  rw [getBarLoop, if_pos hi, e]

/-- Configuration space is as before. -/
theorem getBarLoop_regs : (getBarLoop n i p dev).1.regs = p.regs ∧
    (getBarLoop n i p dev).1.writable = p.writable := by
  induction n generalizing i p dev with
  | zero => exact ⟨rfl, rfl⟩
  | succ n ih =>
    by_cases hi : i < 6
    · obtain ⟨p', hregs, hwritable, e⟩ := getBarLoop_round n p dev hi
      rw [e, ← hregs, ← hwritable]
      exact ih
    · rw [getBarLoop, if_neg hi]
      exact ⟨rfl, rfl⟩

theorem getBar_regs : (getBar p dev).1.regs = p.regs ∧ (getBar p dev).1.writable = p.writable := getBarLoop_regs

/-! ## What is stored -/

/-- The mark of a 64-bit BAR. -/
def Marked (v : Word) : Prop := v &&& 1 = 0 ∧ (v >>> 1) &&& 3 = 2

instance (v : Word) : Decidable (Marked v) := inferInstanceAs (Decidable (_ ∧ _))

section

variable {v sizeLow high : Word}

@[simp] theorem withBar_bars_self (x : PCIBar) : (dev.withBar i x).bars i = x := Function.update_self ..

theorem withBar_bars_of_ne (x : PCIBar) (h : j ≠ i) : (dev.withBar i x).bars j = dev.bars j :=
  Function.update_of_ne h _ _

@[simp] theorem withBar_withBar (x y : PCIBar) : (dev.withBar i x).withBar i y = dev.withBar i y := by
  rw [PCIDevice.withBar, PCIDevice.withBar, Function.update_idem]
  rfl

theorem barStores_io (hi : i < 6) (h : v &&& 1 ≠ 0) : barStores i v sizeLow high dev =
    (i, dev.withBar i
      { type := BAR_TYPE_IO, size := ~~~ (sizeLow &&& ~~~ 0b11) + 1, addr := (v &&& ~~~ 0b11).setWidth 64 }) := by
  simp only [barStores, if_pos h, PCIDevice.setBarType, PCIDevice.setBarAddr, PCIDevice.setBarSize, if_pos hi,
    withBar_bars_self, withBar_withBar]

theorem barStores_memory (hi : i < 6) (h : v &&& 1 = 0) (h2 : (v >>> 1) &&& 3 ≠ 2) :
    barStores i v sizeLow high dev =
      (i, dev.withBar i
        { type := BAR_TYPE_MMIO, size := ~~~ (sizeLow &&& 0b1111) + 1, addr := (v &&& ~~~ 0xF).setWidth 64 }) := by
  simp only [barStores, if_neg (not_not.mpr h), if_neg h2, storeMemory, PCIDevice.setBarType, PCIDevice.setBarAddr,
    PCIDevice.setBarSize, if_pos hi, withBar_bars_self, withBar_withBar]

/-- The size is stored at the next index. -/
theorem barStores_marked (h : Marked v) : ∃ addr, barStores i v sizeLow high dev =
    (i + 1, storeMemory (dev.setBarAddr i addr) (i + 1) sizeLow) := by
  refine ⟨(v &&& ~~~ 0xF).setWidth 64 ||| high.setWidth 64 <<< 32, ?_⟩
  simp only [barStores, if_neg (not_not.mpr h.1), if_pos h.2, PCIDevice.setBarAddr, withBar_bars_self, withBar_withBar]

theorem storeMemory_bars {k : Nat} (hj : j ≠ k) : (storeMemory dev k sizeLow).bars j = dev.bars j := by
  simp only [storeMemory, PCIDevice.setBarSize, PCIDevice.setBarType]
  split
  · rw [withBar_bars_of_ne _ hj, withBar_bars_of_ne _ hj]
  · rfl

/-- Entries before the register are as before, and so is the function. -/
theorem barStores_keeps (hi : i < 6) : i ≤ (barStores i v sizeLow high dev).1 ∧
    (∀ j, j < i ∨ (barStores i v sizeLow high dev).1 < j →
      (barStores i v sizeLow high dev).2.bars j = dev.bars j) ∧
    SameFunction dev (barStores i v sizeLow high dev).2 := by
  by_cases h : v &&& 1 = 0
  swap
  · rw [barStores_io hi h]
    exact ⟨Nat.le_refl i, fun j hj => withBar_bars_of_ne _ (by omega), rfl, rfl, rfl⟩
  by_cases h2 : (v >>> 1) &&& 3 = 2
  swap
  · rw [barStores_memory hi h h2]
    exact ⟨Nat.le_refl i, fun j hj => withBar_bars_of_ne _ (by omega), rfl, rfl, rfl⟩
  · obtain ⟨addr, e⟩ : ∃ addr, barStores i v sizeLow high dev = _ := barStores_marked ⟨h, h2⟩
    rw [e]
    refine ⟨Nat.le_succ i, fun j hj => ?_, ?_⟩
    · rw [storeMemory_bars (by omega)]
      exact withBar_bars_of_ne _ (by omega)
    · simp only [storeMemory, PCIDevice.setBarSize, PCIDevice.setBarType, PCIDevice.setBarAddr]
      split <;> exact ⟨rfl, rfl, rfl⟩

end

/-! ## The registers of a BAR -/

section

variable {v : Word} {log : Nat}

theorem and_one_eq_zero_iff : v &&& 1 = 0 ↔ v.toNat % 2 = 0 := by
  rw [BitVec.toNat_eq, BitVec.toNat_and, show (1 : Word).toNat = 2 ^ 1 - 1 from rfl, Nat.and_two_pow_sub_one_eq_mod]
  rfl

theorem type_eq_two_iff : (v >>> 1) &&& 3 = 2 ↔ v.toNat / 2 % 4 = 2 := by
  rw [BitVec.toNat_eq, BitVec.toNat_and, show (3 : Word).toNat = 2 ^ 2 - 1 from rfl, Nat.and_two_pow_sub_one_eq_mod,
    BitVec.toNat_ushiftRight, Nat.shiftRight_eq_div_pow]
  rfl

theorem toNat_flags (prefetch : Bool) : (Bar.flags prefetch 0).toNat = (if prefetch then 8 else 0) ∧
    (Bar.flags prefetch 2).toNat = (if prefetch then 12 else 4) := by
  cases prefetch <;> decide

/-- A size from 4 on, as a multiple of 4. -/
theorem two_pow_four (hl : 2 ≤ log) (hl' : log < 32) :
    ∃ q, 2 ^ log = 4 * q ∧ 0 < q ∧ 2 ^ log * 2 ≤ 2 ^ 32 := by
  refine ⟨2 ^ (log - 2), ?_, Nat.two_pow_pos _, ?_⟩
  · rw [show (4 : Nat) = 2 ^ 2 from rfl, ← Nat.pow_add, Nat.add_sub_cancel' hl]
  · rw [← Nat.pow_succ]
    exact Nat.pow_le_pow_right (by decide) hl'

theorem not_add_one (x : Word) : ~~~ x + 1 = -x := (BitVec.neg_eq_not_add x).symm

/-- The registers of an I/O BAR give its base and its size. -/
theorem io_stored {base : Word} (hl : 2 ≤ log) (hl' : log < 32) (hb : 2 ^ log ∣ base.toNat) :
    (base ||| 1) &&& 1 ≠ 0 ∧ (((base ||| 1) &&& ~~~ 0b11).setWidth 64).toNat = base.toNat ∧
      (~~~ (sizeBits (base ||| 1) (BitVec.allOnes 32 <<< log) &&& ~~~ 0b11) + 1).toNat = 2 ^ log := by
  obtain ⟨q, hq, hpos, hle⟩ := two_pow_four hl hl'
  have h3 : ~~~ (0b11 : Word) = BitVec.allOnes 32 <<< 2 := by decide
  have hv : (base ||| 1).toNat = base.toNat + 1 :=
    toNat_or_of_dvd hb (show (1 : Word).toNat < 2 ^ log by rw [hq]; exact (by omega : 1 < 4 * q))
  have hsize : (sizeBits (base ||| 1) (BitVec.allOnes 32 <<< log)).toNat = 2 ^ 32 - 2 ^ log + 1 := by
    have hmask := toNat_allOnes_shiftLeft (w := 32) hl'.le
    have hlow : ((base ||| 1) &&& ~~~ (BitVec.allOnes 32 <<< log)).toNat = 1 := by
      obtain ⟨c, hc⟩ := hb
      rw [toNat_and_low _ hl'.le, hv, hc, Nat.mul_add_mod, Nat.mod_eq_of_lt]
      omega
    have hdvd : 2 ^ log ∣ (BitVec.allOnes 32 <<< log).toNat := by
      rw [hmask]
      exact Nat.dvd_sub (Nat.pow_dvd_pow 2 hl'.le) (Nat.dvd_refl _)
    rw [sizeBits, BitVec.or_comm, toNat_or_of_dvd hdvd (by rw [hlow]; omega), hmask, hlow]
  have hbase : base.toNat % 4 = 0 := Nat.mod_eq_zero_of_dvd ((Dvd.intro q hq.symm).trans hb)
  refine ⟨?_, ?_, ?_⟩
  · rw [Ne, and_one_eq_zero_iff, hv]
    omega
  · rw [h3, BitVec.toNat_setWidth_of_le (by decide), toNat_and_high, hv]
    omega
  · rw [h3, not_add_one, BitVec.toNat_neg, toNat_and_high, hsize]
    omega

/-- The size that is stored for a memory BAR is none of a 32-bit one. -/
theorem memory_size_ne (hl : 4 ≤ log) (hl' : log < 32) : (~~~ (v &&& 0b1111) + 1).toNat ≠ 2 ^ log := by
  obtain ⟨q, hq, hpos, hle⟩ := two_pow_four (Nat.le_of_lt (Nat.lt_of_lt_of_le (by decide) hl)) hl'
  rw [not_add_one, BitVec.toNat_neg, BitVec.toNat_and, show (0b1111 : Word).toNat = 2 ^ 4 - 1 from rfl,
    Nat.and_two_pow_sub_one_eq_mod]
  have := Nat.mod_lt v.toNat (show 0 < 2 ^ 4 by decide)
  omega

/-- The first register of a 32-bit memory BAR has no mark. -/
theorem mem32_unmarked {base : Word} (prefetch : Bool) (hl : 4 ≤ log) (hb : 2 ^ log ∣ base.toNat) :
    (base ||| Bar.flags prefetch 0) &&& 1 = 0 ∧ ((base ||| Bar.flags prefetch 0) >>> 1) &&& 3 ≠ 2 := by
  have hf := (toNat_flags prefetch).1
  have hb4 : 2 ^ 4 ∣ base.toNat := (Nat.pow_dvd_pow 2 hl).trans hb
  have hlt : (Bar.flags prefetch 0).toNat < 2 ^ 4 := by
    rw [hf]
    split <;> decide
  have hv := toNat_or_of_dvd hb4 hlt
  rw [and_one_eq_zero_iff, Ne, type_eq_two_iff, hv, hf]
  split <;> omega

/-- The first register of a 64-bit BAR is marked. -/
theorem mem64_marked {base : BitVec 64} (prefetch : Bool) (hl : 4 ≤ log) (hb : 2 ^ log ∣ base.toNat) :
    Marked (base.setWidth 32 ||| Bar.flags prefetch 2) := by
  have hf := (toNat_flags prefetch).2
  have hb4 : 2 ^ 4 ∣ base.toNat := (Nat.pow_dvd_pow 2 hl).trans hb
  have hlow : (base.setWidth 32).toNat = base.toNat % 2 ^ 32 := BitVec.toNat_setWidth 32 base
  have hlt : (Bar.flags prefetch 2).toNat < 2 ^ 4 := by
    rw [hf]
    split <;> decide
  have hv := toNat_or_of_dvd (show 2 ^ 4 ∣ (base.setWidth 32).toNat by rw [hlow]; omega) hlt
  rw [Marked, and_one_eq_zero_iff, type_eq_two_iff, hv, hf, hlow]
  split <;> omega

end

/-! ## The loop -/

/-- Entries before the register that the loop starts with are as before. -/
theorem getBarLoop_before (hj : j < i) : (getBarLoop n i p dev).2.bars j = dev.bars j := by
  induction n generalizing i p dev with
  | zero => rfl
  | succ n ih =>
    by_cases hi : i < 6
    · obtain ⟨p', -, -, e⟩ := getBarLoop_round n p dev hi
      obtain ⟨hle, hbars, -⟩ : i ≤ (roundOf p dev i).1 ∧ _ := barStores_keeps hi
      rw [e, ih (by omega)]
      exact hbars j (.inl hj)
    · rw [getBarLoop, if_neg hi]

theorem SameFunction.describes (h : SameFunction dev dev') (hregs : p'.regs = p.regs) (hw : p'.writable = p.writable)
    {bs : List Bar} (D : Describes p dev i bs) : Describes p' dev' i bs := by
  induction bs generalizing i with
  | nil => exact D
  | cons b bs ih =>
    obtain ⟨hi, hl, hr, D⟩ := D
    refine ⟨hi, hl, fun j r hj => ?_, ih D⟩
    rw [h.barReg hregs, h.barMask hw]
    exact hr j r hj

section

variable {b : Bar} {bs : List Bar}

/-- The first register of the first BAR. -/
theorem Describes.first {v mask : Word} {rest : List (Word × Word)} (D : Describes p dev i (b :: bs))
    (h : b.registers = (v, mask) :: rest) : barReg p dev i = v ∧ barMask p dev i = mask :=
  D.2.2.1 0 (v, mask) (by rw [h]; rfl)

/-- A BAR that is not of memory is stored, and nothing else. -/
theorem Describes.round_ok (D : Describes p dev i (b :: bs)) (hb : ¬ b.IsMemory) :
    b.registers.length = 1 ∧ ∃ x, roundOf p dev i = (i, dev.withBar i x) ∧ b.Stored x := by
  cases b with
  | unimplemented =>
    obtain ⟨hv, -⟩ := D.first rfl
    have heven : barReg p dev i &&& 1 = 0 := by
      rw [hv]
      rfl
    have htype : (barReg p dev i >>> 1) &&& 3 ≠ 2 := by
      rw [hv]
      decide
    have hround : roundOf p dev i = _ := barStores_memory D.1 heven htype
    exact ⟨rfl, _, hround, trivial⟩
  | io log base =>
    obtain ⟨hv, hm⟩ := D.first rfl
    obtain ⟨hl, hl', hdvd⟩ := D.2.1
    obtain ⟨hodd, hbase, hsize⟩ := io_stored hl hl' hdvd
    have hround : roundOf p dev i = _ := barStores_io D.1 (hv ▸ hodd)
    rw [hv, hm] at hround
    exact ⟨rfl, _, hround, rfl, hsize, hbase⟩
  | mem32 => exact absurd trivial hb
  | mem64 => exact absurd trivial hb

theorem getBarLoop_end (h : 6 ≤ i) : getBarLoop n i p dev = (p, dev) := by
  cases n with
  | zero => rfl
  | succ n => rw [getBarLoop, if_neg (not_lt.mpr h)]

/-- The round for a BAR that is not of memory. -/
theorem Describes.loop_round (D : Describes p dev i (b :: bs)) (hb : ¬ b.IsMemory) :
    ∃ x p', b.Stored x ∧ getBarLoop (n + 1) i p dev = getBarLoop n (i + 1) p' (dev.withBar i x) ∧
      Describes p' (dev.withBar i x) (i + 1) bs := by
  obtain ⟨hlen, x, hround, hx⟩ := D.round_ok hb
  obtain ⟨p', hregs, hw, e⟩ := getBarLoop_round n p dev D.1
  have D' := D.2.2.2
  rw [hlen] at D'
  rw [hround] at e
  have hsame : SameFunction dev (dev.withBar i x) := ⟨rfl, rfl, rfl⟩
  exact ⟨x, p', hx, e, hsame.describes hregs hw D'⟩

theorem getBarLoop_stored (D : Describes p dev i bs) (hn : bs.length ≤ n) (hmem : ∀ b ∈ bs, ¬ b.IsMemory) :
    AllStored (getBarLoop n i p dev).2.bars i bs ∧
      (getBarLoop n i p dev).2 = { dev with bars := (getBarLoop n i p dev).2.bars } := by
  induction bs generalizing n i p dev with
  | nil =>
    rw [getBarLoop_end D]
    exact ⟨trivial, rfl⟩
  | cons b bs ih =>
    obtain ⟨n, rfl⟩ : ∃ k, n = k + 1 := ⟨n - 1, by rw [List.length_cons] at hn; omega⟩
    have hb := hmem b List.mem_cons_self
    obtain ⟨x, p', hx, e, D'⟩ := D.loop_round (n := n) hb
    obtain ⟨S, hrest⟩ := ih D' (Nat.le_of_succ_le_succ hn) fun b h => hmem b (List.mem_cons_of_mem _ h)
    rw [e]
    refine ⟨⟨?_, ?_⟩, hrest⟩
    · rwa [getBarLoop_before (Nat.lt_succ_self i), withBar_bars_self]
    · rwa [(D.round_ok hb).1]

/-- If everything is stored right where there were no sizes before, there is no memory BAR. -/
theorem getBarLoop_not_memory (D : Describes p dev i bs) (hn : bs.length ≤ n)
    (hz : ∀ j, i ≤ j → (dev.bars j).size = 0)
    (S : AllStored (getBarLoop n i p dev).2.bars i bs) : ∀ b ∈ bs, ¬ b.IsMemory := by
  induction bs generalizing n i p dev with
  | nil => exact fun b h => absurd h List.not_mem_nil
  | cons b bs ih =>
    obtain ⟨n, rfl⟩ : ∃ k, n = k + 1 := ⟨n - 1, by rw [List.length_cons] at hn; omega⟩
    have hb : ¬ b.IsMemory := by
      obtain ⟨p', -, -, e⟩ := getBarLoop_round n p dev D.1
      have hfirst := S.1
      rw [e] at hfirst
      cases b with
      | unimplemented => exact id
      | io => exact id
      | mem32 prefetch log base =>
        obtain ⟨hv, -⟩ := D.first rfl
        obtain ⟨hl, hl', hdvd⟩ := D.2.1
        obtain ⟨heven, htype⟩ := mem32_unmarked prefetch hl hdvd
        have hround : roundOf p dev i = _ := barStores_memory D.1 (hv ▸ heven) (hv ▸ htype)
        rw [hround, getBarLoop_before (Nat.lt_succ_self i), withBar_bars_self] at hfirst
        exact fun _ => memory_size_ne hl hl' hfirst.2.1
      | mem64 prefetch log base =>
        obtain ⟨hv, -⟩ := D.first rfl
        obtain ⟨hl, -, hdvd⟩ := D.2.1
        obtain ⟨addr, hround⟩ : ∃ addr, roundOf p dev i = _ :=
          barStores_marked (hv ▸ mem64_marked prefetch hl hdvd)
        -- nothing is stored to the size at the first index
        rw [hround, getBarLoop_before (by omega), storeMemory_bars (Nat.ne_of_lt (Nat.lt_succ_self i)),
          PCIDevice.setBarAddr, withBar_bars_self] at hfirst
        have hsize := hfirst.2.1
        rw [hz i (Nat.le_refl i)] at hsize
        exact fun _ => absurd hsize (Nat.two_pow_pos log).ne
    obtain ⟨x, p', hx, e, D'⟩ := D.loop_round (n := n) hb
    intro b' hb'
    rcases List.mem_cons.mp hb' with rfl | hb'
    · exact hb
    · have S' := S.2
      rw [e, (D.round_ok hb).1] at S'
      refine ih D' (Nat.le_of_succ_le_succ hn) (fun j hj => ?_) S' b' hb'
      rw [withBar_bars_of_ne _ (Nat.ne_of_gt hj)]
      exact hz j (Nat.le_of_succ_le hj)

theorem Describes.length_le (D : Describes p dev i bs) : bs.length ≤ 6 - i := by
  induction bs generalizing i with
  | nil => exact Nat.zero_le _
  | cons b bs ih =>
    have hpos : 0 < b.registers.length := by cases b <;> exact Nat.succ_pos _
    have h := ih D.2.2.2
    have hi := D.1
    rw [List.length_cons]
    omega

/-- If there is a memory BAR, something is not stored right. -/
theorem not_memory_of_right (D : Describes p dev 0 bs) (H : ProbesRight p dev.bus dev.slot dev.func bs) :
    ∀ b ∈ bs, ¬ b.IsMemory := by
  let dev' : PCIDevice := { dev with bars := fun _ => ⟨0, 0, 0⟩ }
  obtain ⟨S, -⟩ := H dev' rfl rfl rfl
  have hsame : SameFunction dev dev' := ⟨rfl, rfl, rfl⟩
  have D' : Describes p dev' 0 bs := hsame.describes rfl rfl D
  exact getBarLoop_not_memory D' D.length_le (fun _ _ => rfl) S

/-- The BARs of a function are stored right iff none of them is a memory BAR. -/
theorem getBar_iff (D : Describes p dev 0 bs) :
    ProbesRight p dev.bus dev.slot dev.func bs ↔ ∀ b ∈ bs, ¬ b.IsMemory := by
  refine ⟨not_memory_of_right D, fun hmem dev' hb hs hf => ?_⟩
  have hsame : SameFunction dev dev' := ⟨hb, hs, hf⟩
  obtain ⟨S, e⟩ := getBarLoop_stored (hsame.describes rfl rfl D) D.length_le hmem
  exact ⟨S, e, getBar_regs.1⟩

/-- A BAR of one register. -/
theorem Describes.single {v mask : Word} (hi : i < 6) (hl : b.Legal) (h : b.registers = [(v, mask)])
    (hv : barReg p dev i = v) (hm : barMask p dev i = mask) (D : Describes p dev (i + 1) bs) :
    Describes p dev i (b :: bs) := by
  refine ⟨hi, hl, fun j r hj => ?_, by rwa [h]⟩
  rw [h] at hj
  cases j with
  | zero =>
    cases hj
    exact ⟨hv, hm⟩
  | succ j => cases hj

/-- BAR 4 of the function has this content, and the others are not there. -/
def portsWith (dev : PCIDevice) (v mask : Word) : Ports where
  command := 0
  regs a := if a = address dev (barOffset 4) then v else 0
  writable a := if a = address dev (barOffset 4) then mask else 0

/-- The registers, if that is what describes a BAR. -/
theorem describes_portsWith {v mask : Word} (hl : b.Legal) (h : b.registers = [(v, mask)]) :
    Describes (portsWith someFunction v mask) someFunction 0
      [.unimplemented, .unimplemented, .unimplemented, .unimplemented, b, .unimplemented] := by
  have hne : ∀ i < 6, i ≠ 4 → address someFunction (barOffset i) ≠ address someFunction (barOffset 4) :=
    by decide
  have hnone : ∀ i < 6, i ≠ 4 → barReg (portsWith someFunction v mask) someFunction i = 0 ∧
      barMask (portsWith someFunction v mask) someFunction i = 0 := fun i hi h4 =>
    ⟨if_neg (hne i hi h4), if_neg (hne i hi h4)⟩
  have empty : ∀ {i bs}, i < 6 → i ≠ 4 → Describes (portsWith someFunction v mask) someFunction (i + 1) bs →
      Describes (portsWith someFunction v mask) someFunction i (.unimplemented :: bs) := fun hi h4 D =>
    .single hi trivial rfl (hnone _ hi h4).1 (hnone _ hi h4).2 D
  have hv : barReg (portsWith someFunction v mask) someFunction 4 = v := by
    simp [barReg, portsWith]
  have hm : barMask (portsWith someFunction v mask) someFunction 4 = mask := by
    simp [barMask, portsWith]
  have last : Describes (portsWith someFunction v mask) someFunction 4 [b, .unimplemented] :=
    .single (by decide) hl h hv hm (empty (by decide) (by decide) (Nat.le_refl 6))
  exact empty (by decide) (by decide) (empty (by decide) (by decide)
    (empty (by decide) (by decide) (empty (by decide) (by decide) last)))

/-- An I/O BAR of 32 ports. -/
theorem getBar_iff_someFunction : ProbesRight (portsWith someFunction 0xC041 (BitVec.allOnes 32 <<< 5)) 0 3 1
    [.unimplemented, .unimplemented, .unimplemented, .unimplemented, .io 5 0xC040, .unimplemented] := by
  have hl : (Bar.io 5 0xC040).Legal := ⟨by decide, by decide, by decide⟩
  refine (getBar_iff (describes_portsWith hl rfl)).mpr fun b hb => ?_
  simp only [List.mem_cons, List.not_mem_nil, or_false] at hb
  rcases hb with rfl | rfl | rfl | rfl | rfl | rfl <;> exact id

/-- A memory BAR of 4 KiB is not stored right. -/
theorem not_probesRight : ¬ ∀ p dev bs, Describes p dev 0 bs → ProbesRight p dev.bus dev.slot dev.func bs := by
  intro H
  have hl : (Bar.mem32 false 12 0xFEBF1000).Legal := ⟨by decide, by decide, by decide⟩
  have D := describes_portsWith (v := 0xFEBF1000) hl rfl
  exact not_memory_of_right D (H _ _ _ D) (.mem32 false 12 0xFEBF1000) (by simp) trivial

end

end

end AlexOS.Pci
