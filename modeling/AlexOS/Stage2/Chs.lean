import AlexOS.Lib.Bits
import AlexOS.Lib.Geometry
import AlexOS.Lib.Mem

/-!
# Sector addresses

`lba_to_chs` of the bootloader, in `bootloader/stage2/disk.c`, with the
registers that `x86_Disk_Read` passes to the BIOS, in `x86.asm`; `lba_2_chs` of
stage 1, in `bootloader/stage1/boot.asm`; and `lba_to_chs` of the kernel's
floppy driver, in `kernel/driver/fdc/fdc.c`. They all give the triple of a
sector (`Geometry.chs`), which the registers hold exactly (`chs_exact`).
-/

namespace AlexOS

/-- The numbers that a conversion stores. -/
structure ChsWords (w : Nat) where
  c : BitVec w
  h : BitVec w
  s : BitVec w

def ChsWords.toChs {w : Nat} (x : ChsWords w) : Chs := ⟨x.c.toNat, x.h.toNat, x.s.toNat⟩

/-- The registers that hold the arguments and the results. -/
structure Registers where
  ax : BitVec 16
  cx : BitVec 16
  dx : BitVec 16

namespace Registers

variable (r : Registers)

def al : Byte := r.ax.setWidth 8
def ch : Byte := (r.cx >>> 8).setWidth 8
def cl : Byte := r.cx.setWidth 8
def dh : Byte := (r.dx >>> 8).setWidth 8
def dl : Byte := r.dx.setWidth 8
def setAl (v : Byte) : Registers := { r with ax := (r.ax >>> 8).setWidth 8 ++ v }
def setCh (v : Byte) : Registers := { r with cx := v ++ r.cl }
def setCl (v : Byte) : Registers := { r with cx := r.ch ++ v }
def setDh (v : Byte) : Registers := { r with dx := v ++ r.dl }
def setDl (v : Byte) : Registers := { r with dx := r.dh ++ v }

/-- `div` of `dx:ax`. There is no result if the quotient does not fit. -/
def div (m : BitVec 16) : Option Registers :=
  let n : BitVec 32 := r.dx ++ r.ax
  if m = 0 ∨ 2 ^ 16 ≤ n.toNat / m.toNat then none
  else some { r with ax := BitVec.ofNat 16 (n.toNat / m.toNat), dx := BitVec.ofNat 16 (n.toNat % m.toNat) }

end Registers

namespace Stage2

structure DISK where
  cylinders : BitVec 16
  sectors : BitVec 16
  heads : BitVec 16

def lbaToChs (disk : DISK) (lba : Word) : ChsWords 16 where
  c := (lba / (disk.sectors.setWidth 32 * disk.heads.setWidth 32)).setWidth 16
  h := (lba / disk.sectors.setWidth 32 % disk.heads.setWidth 32).setWidth 16
  s := (lba % disk.sectors.setWidth 32 + 1).setWidth 16

/-- The registers `cx` and `dx` of `x86_Disk_Read`, when it calls the BIOS. The arguments are on the stack as words. -/
def x86DiskRead (drive : Byte) (x : ChsWords 16) (r : Registers) : Registers :=
  let r := r.setDl drive
  let r := r.setCh (x.c.setWidth 8)
  let r := r.setCl ((x.c >>> 8).setWidth 8)
  let r := r.setCl (r.cl <<< 6)
  let r := r.setAl (x.s.setWidth 8)
  let r := r.setAl (r.al &&& 0x3F)
  let r := r.setCl (r.cl ||| r.al)
  r.setDh (x.h.setWidth 8)

/-- The triple that the BIOS takes from them. -/
def biosChs (r : Registers) : Chs where
  cylinder := (r.cl >>> 6).toNat * 256 + r.ch.toNat
  head := r.dh.toNat
  sector := (r.cl &&& 0x3F).toNat

end Stage2

namespace Stage1

def bpbSectorsPerTrack : BitVec 16 := 18
def bpbHeadCount : BitVec 16 := 2

/-- `ax` and `dx` are pushed, and both are popped to `ax`. -/
def lba2Chs (r₀ : Registers) : Option Registers := do
  let r ← Registers.div { r₀ with dx := 0 } bpbSectorsPerTrack
  let r := { r with dx := r.dx + 1 }
  let r := { r with cx := r.dx }
  let r ← Registers.div { r with dx := 0 } bpbHeadCount
  let r := r.setCh r.al
  let r := r.setDh r.dl
  let r := { r with ax := r₀.dx }
  let r := r.setDl r.al
  return { r with ax := r₀.ax }

/-- What it returns: the cylinder in `ch`, the head in `dh`, the sector in `cl`. -/
def chsOf (r : Registers) : Chs := ⟨r.ch.toNat, r.dh.toNat, r.cl.toNat⟩

end Stage1

namespace Fdc

def lbaToChs (lba : Word) : ChsWords 8 where
  c := (lba / (18 * 2)).setWidth 8
  h := (lba % (2 * 18) / 18).setWidth 8
  s := (lba % (2 * 18) % 18 + 1).setWidth 8

end Fdc

/-- The geometry of a disk. -/
def Stage2.DISK.geometry (disk : Stage2.DISK) : Geometry := ⟨disk.heads.toNat, disk.sectors.toNat⟩

/-- A disk that the BIOS can address. -/
structure Stage2.DISK.Addressable (disk : Stage2.DISK) : Prop where
  sectors_pos : 1 ≤ disk.sectors.toNat
  sectors_le : disk.sectors.toNat ≤ 63
  heads_pos : 1 ≤ disk.heads.toNat
  heads_le : disk.heads.toNat ≤ 256

def floppy : Geometry := ⟨2, 18⟩

section

variable {r : Registers} {v : Byte} {lba : Word} {disk : Stage2.DISK}

/-! ## Halves of a register -/

theorem toNat_append_byte (a b : Byte) : (a ++ b : BitVec 16).toNat = a.toNat * 256 + b.toNat := by
  rw [BitVec.toNat_append, ← Nat.shiftLeft_add_eq_or_of_lt b.isLt, Nat.shiftLeft_eq]

theorem high_append (a b : Byte) : (((a ++ b : BitVec 16) >>> 8).setWidth 8 : Byte) = a := by
  apply BitVec.eq_of_toNat_eq
  rw [BitVec.toNat_setWidth, BitVec.toNat_ushiftRight, toNat_append_byte, Nat.shiftRight_eq_div_pow]
  omega

theorem low_append (a b : Byte) : ((a ++ b : BitVec 16).setWidth 8 : Byte) = b := by
  apply BitVec.eq_of_toNat_eq
  rw [BitVec.toNat_setWidth, toNat_append_byte]
  omega

namespace Registers

@[simp] theorem al_setAl : (r.setAl v).al = v := low_append _ v
@[simp] theorem ch_setCh : (r.setCh v).ch = v := high_append v _
@[simp] theorem cl_setCh : (r.setCh v).cl = r.cl := low_append v _
@[simp] theorem cl_setCl : (r.setCl v).cl = v := low_append _ v
@[simp] theorem ch_setCl : (r.setCl v).ch = r.ch := high_append _ v
@[simp] theorem dh_setDh : (r.setDh v).dh = v := high_append v _
@[simp] theorem dl_setDh : (r.setDh v).dl = r.dl := low_append v _
@[simp] theorem dl_setDl : (r.setDl v).dl = v := low_append _ v
@[simp] theorem dh_setDl : (r.setDl v).dh = r.dh := high_append _ v
@[simp] theorem ch_setAl : (r.setAl v).ch = r.ch := rfl
@[simp] theorem cl_setAl : (r.setAl v).cl = r.cl := rfl
@[simp] theorem ch_setDh : (r.setDh v).ch = r.ch := rfl
@[simp] theorem cl_setDh : (r.setDh v).cl = r.cl := rfl
@[simp] theorem ch_setDl : (r.setDl v).ch = r.ch := rfl
@[simp] theorem cl_setDl : (r.setDl v).cl = r.cl := rfl

end Registers

/-! ## The bootloader -/

namespace Stage2

theorem lbaToChs_eq (A : disk.Addressable) (h : lba.toNat < 1024 * disk.heads.toNat * disk.sectors.toNat) :
    (lbaToChs disk lba).toChs = disk.geometry.chs lba.toNat := by
  obtain ⟨hs, hs', hh, hh'⟩ := A
  have hc := Geometry.cylinder_lt (g := disk.geometry) h
  have hv := disk.geometry.valid_chs (n := lba.toNat) hh hs
  have hprod := Nat.mul_le_mul hs' hh'
  simp only [Geometry.chs, DISK.geometry] at hc hv
  have hhead := hv.head_lt
  have hsector := hv.sector_le
  simp only at hhead hsector
  have e1 : (disk.sectors.setWidth 32).toNat = disk.sectors.toNat := BitVec.toNat_setWidth_of_le (by decide)
  have e2 : (disk.heads.setWidth 32).toNat = disk.heads.toNat := BitVec.toNat_setWidth_of_le (by decide)
  simp only [ChsWords.toChs, lbaToChs, Geometry.chs, DISK.geometry, BitVec.toNat_setWidth, BitVec.toNat_udiv,
    BitVec.toNat_umod, BitVec.toNat_mul, BitVec.toNat_add, e1, e2, Chs.mk.injEq]
  refine ⟨?_, ?_, ?_⟩
  · rw [Nat.mod_eq_of_lt (a := _ * _) (by omega), Nat.mod_eq_of_lt (by omega)]
  · rw [Nat.mod_eq_of_lt (by omega)]
  · rw [show (1 : Word).toNat = 1 from rfl]
    omega

/-- The bits of `cl`: the last two of the cylinder, and the sector. -/
theorem toNat_cl {x y : Byte} (hx : x.toNat < 4) :
    (x <<< 6 ||| y &&& 0x3F).toNat = x.toNat * 64 + y.toNat % 64 := by
  have hlow : (y &&& 0x3F).toNat = y.toNat % 64 := by
    rw [BitVec.toNat_and]
    exact Nat.and_two_pow_sub_one_eq_mod y.toNat 6
  have h : (x <<< 6 ||| y &&& 0x3F).toNat = x.toNat * 2 ^ 6 + (y &&& 0x3F).toNat :=
    toNat_shiftLeft_or (by omega) (by omega)
  omega

/-- The BIOS takes the triple that the caller passed. -/
theorem biosChs_x86DiskRead {x : ChsWords 16} {drive : Byte} (hc : x.c.toNat < 1024) (hh : x.h.toNat < 256)
    (hs : x.s.toNat < 64) : biosChs (x86DiskRead drive x r) = x.toChs := by
  have hbyte : ((x.c >>> 8).setWidth 8 : Byte).toNat = x.c.toNat / 256 := by
    rw [BitVec.toNat_setWidth, BitVec.toNat_ushiftRight, Nat.shiftRight_eq_div_pow]
    omega
  have hcl := toNat_cl (x := (x.c >>> 8).setWidth 8) (y := x.s.setWidth 8) (by omega)
  rw [hbyte, BitVec.toNat_setWidth] at hcl
  simp only [biosChs, x86DiskRead, Registers.al_setAl, Registers.ch_setCh, Registers.cl_setCl, Registers.ch_setCl,
    Registers.dh_setDh, Registers.ch_setAl, Registers.cl_setAl, Registers.ch_setDh, Registers.cl_setDh,
    BitVec.toNat_ushiftRight, BitVec.toNat_and, hcl, ChsWords.toChs, Chs.mk.injEq]
  refine ⟨?_, ?_, ?_⟩
  · rw [Nat.shiftRight_eq_div_pow, BitVec.toNat_setWidth]
    omega
  · rw [BitVec.toNat_setWidth]
    omega
  · rw [show (0x3F : Byte).toNat = 2 ^ 6 - 1 from rfl, Nat.and_two_pow_sub_one_eq_mod]
    omega

end Stage2

/-! ## The floppy disk -/

theorem fdc_lbaToChs (h : lba.toNat < 9216) : (Fdc.lbaToChs lba).toChs = floppy.chs lba.toNat := by
  simp only [ChsWords.toChs, Fdc.lbaToChs, Geometry.chs, floppy, BitVec.toNat_setWidth, BitVec.toNat_udiv,
    BitVec.toNat_umod, BitVec.toNat_add, Chs.mk.injEq]
  have e : (18 * 2 : Word).toNat = 36 ∧ (2 * 18 : Word).toNat = 36 ∧ (18 : Word).toNat = 18 ∧
    (1 : Word).toNat = 1 := by
    decide
  rw [e.1, e.2.1, e.2.2.1, e.2.2.2]
  refine ⟨?_, ?_, ?_⟩ <;> omega

/-- A quotient of a word. -/
theorem div_word {ax cx m : BitVec 16} (hm : m ≠ 0) :
    Registers.div ⟨ax, cx, 0⟩ m = some ⟨ax / m, cx, ax % m⟩ := by
  have hword : ((0 : BitVec 16) ++ ax : BitVec 32).toNat = ax.toNat := by
    rw [BitVec.toNat_append]
    exact Nat.zero_or _
  have hlt : ax.toNat / m.toNat < 2 ^ 16 := (Nat.div_le_self ..).trans_lt ax.isLt
  have hmod : ax.toNat % m.toNat < 2 ^ 16 := (Nat.mod_le ..).trans_lt ax.isLt
  simp only [Registers.div, hword]
  rw [if_neg (not_or.mpr ⟨hm, not_le.mpr hlt⟩)]
  congr 2
  · apply BitVec.eq_of_toNat_eq
    rw [BitVec.toNat_ofNat, BitVec.toNat_udiv, Nat.mod_eq_of_lt hlt]
  · apply BitVec.eq_of_toNat_eq
    rw [BitVec.toNat_ofNat, BitVec.toNat_umod, Nat.mod_eq_of_lt hmod]

/-- `ax` and `dl` are as before. -/
theorem lba2Chs_ok (h : r.ax.toNat < 9216) : ∃ r', Stage1.lba2Chs r = some r' ∧
    Stage1.chsOf r' = floppy.chs r.ax.toNat ∧ r'.ax = r.ax ∧ r'.dl = r.dl := by
  simp only [Stage1.lba2Chs]
  rw [div_word (by decide), Option.bind_eq_bind, Option.bind_some]
  simp only
  rw [div_word (by decide), Option.bind_some]
  have e : Stage1.bpbSectorsPerTrack.toNat = 18 ∧ Stage1.bpbHeadCount.toNat = 2 ∧
    (1 : BitVec 16).toNat = 1 := by decide
  refine ⟨_, rfl, (Chs.mk.injEq ..).mpr ⟨?_, ?_, ?_⟩, rfl, low_append _ _⟩
  · refine (congrArg BitVec.toNat (high_append _ _)).trans ?_
    simp only [Registers.al, BitVec.toNat_setWidth, BitVec.toNat_udiv, e, floppy]
    omega
  · -- the head is put to `dh` before `dl` is restored
    refine (congrArg BitVec.toNat ((high_append _ _).trans (high_append _ _))).trans ?_
    simp only [Registers.dl, BitVec.toNat_setWidth, BitVec.toNat_udiv, BitVec.toNat_umod, Registers.setCh, e, floppy]
    omega
  · refine (congrArg BitVec.toNat (low_append _ _)).trans ?_
    simp only [Registers.cl, BitVec.toNat_setWidth, BitVec.toNat_umod, BitVec.toNat_add, e, floppy]
    omega

theorem addressable_floppy (cylinders : BitVec 16) : (Stage2.DISK.mk cylinders 18 2).Addressable where
  sectors_pos := (by decide : 1 ≤ (18 : BitVec 16).toNat)
  sectors_le := (by decide : (18 : BitVec 16).toNat ≤ 63)
  heads_pos := (by decide : 1 ≤ (2 : BitVec 16).toNat)
  heads_le := (by decide : (2 : BitVec 16).toNat ≤ 256)

/-! ## The conversions -/

/-- The triple that `lba_to_chs` gives is that of the sector, and the BIOS takes it from the registers of
`x86_Disk_Read`; the kernel and stage 1 give the same triples on a floppy disk. -/
theorem chs_exact (A : disk.Addressable) (drive : Byte) (r : Registers) :
    (∀ lba : Word, lba.toNat < 1024 * disk.heads.toNat * disk.sectors.toNat →
      let x := Stage2.lbaToChs disk lba
      x.h.toNat < disk.heads.toNat ∧ 1 ≤ x.s.toNat ∧ x.s.toNat ≤ disk.sectors.toNat ∧
        (x.c.toNat * disk.heads.toNat + x.h.toNat) * disk.sectors.toNat + x.s.toNat - 1 = lba.toNat ∧
        Stage2.biosChs (Stage2.x86DiskRead drive x r) = ⟨x.c.toNat, x.h.toNat, x.s.toNat⟩) ∧
    (∀ lba lba' : Word, lba.toNat < 1024 * disk.heads.toNat * disk.sectors.toNat →
      lba'.toNat < 1024 * disk.heads.toNat * disk.sectors.toNat →
      let a := Stage2.x86DiskRead drive (Stage2.lbaToChs disk lba) r
      let b := Stage2.x86DiskRead drive (Stage2.lbaToChs disk lba') r
      a.ch = b.ch → a.cl = b.cl → a.dh = b.dh → lba = lba') ∧
    ∀ (cylinders : BitVec 16) (lba : Word), lba.toNat < 9216 →
      (Fdc.lbaToChs lba).toChs = (Stage2.lbaToChs ⟨cylinders, 18, 2⟩ lba).toChs ∧
      ∀ r : Registers, r.ax = lba.setWidth 16 → ∃ r', Stage1.lba2Chs r = some r' ∧
        Stage1.chsOf r' = (Stage2.lbaToChs ⟨cylinders, 18, 2⟩ lba).toChs := by
  have hchs : ∀ lba : Word, lba.toNat < 1024 * disk.heads.toNat * disk.sectors.toNat →
      (Stage2.lbaToChs disk lba).toChs = disk.geometry.chs lba.toNat ∧
        Stage2.biosChs (Stage2.x86DiskRead drive (Stage2.lbaToChs disk lba) r) = disk.geometry.chs lba.toNat := by
    intro lba h
    have e := Stage2.lbaToChs_eq A h
    have hv := disk.geometry.valid_chs (n := lba.toNat) A.heads_pos A.sectors_pos
    have hc := Geometry.cylinder_lt (g := disk.geometry) h
    rw [← e] at hv hc
    refine ⟨e, (Stage2.biosChs_x86DiskRead hc ?_ ?_).trans e⟩
    · exact hv.head_lt.trans_le A.heads_le
    · exact Nat.lt_succ_of_le (hv.sector_le.trans A.sectors_le)
  refine ⟨fun lba h => ?_, fun lba lba' h h' => ?_, fun cylinders lba h => ?_⟩
  · obtain ⟨e, ebios⟩ := hchs lba h
    have hv := disk.geometry.valid_chs (n := lba.toNat) A.heads_pos A.sectors_pos
    have hlba := disk.geometry.lba_chs (n := lba.toNat)
    rw [← e] at hv hlba ebios
    exact ⟨hv.head_lt, hv.sector_pos, hv.sector_le, hlba, ebios⟩
  · intro a b hch hcl hdh
    have e : Stage2.biosChs a = Stage2.biosChs b := by rw [Stage2.biosChs, Stage2.biosChs, hch, hcl, hdh]
    rw [(hchs lba h).2, (hchs lba' h').2] at e
    rw [← BitVec.toNat_inj, ← disk.geometry.lba_chs (n := lba.toNat), e, disk.geometry.lba_chs]
  · have e := Stage2.lbaToChs_eq (addressable_floppy cylinders)
      (h.trans (by decide : 9216 < 1024 * (2 : BitVec 16).toNat * (18 : BitVec 16).toNat))
    refine ⟨(fdc_lbaToChs h).trans e.symm, fun r hr => ?_⟩
    have hax : r.ax.toNat = lba.toNat := by
      rw [hr, BitVec.toNat_setWidth]
      omega
    obtain ⟨r', hr', hc, -⟩ := lba2Chs_ok (r := r) (by omega)
    exact ⟨r', hr', (hc.trans (congrArg floppy.chs hax)).trans e.symm⟩

/-- A hard disk of 1024 cylinders. -/
theorem chs_exact_hardDisk : (Stage2.DISK.mk 1024 63 256).Addressable ∧
    Stage2.biosChs (Stage2.x86DiskRead 0x80 (Stage2.lbaToChs ⟨1024, 63, 256⟩ 16515071) ⟨0, 0, 0⟩) =
      ⟨1023, 255, 63⟩ :=
  have A : (Stage2.DISK.mk 1024 63 256).Addressable := ⟨by decide, by decide, by decide, by decide⟩
  ⟨A, ((chs_exact A 0x80 ⟨0, 0, 0⟩).1 16515071 (by decide)).2.2.2.2.trans (by decide)⟩

end

end AlexOS
