import AlexOS.Fat.Driver
import AlexOS.Stage2.Driver

/-!
# The layout of a volume, in both drivers

`FAT_Initialize` of the bootloader and `FAT_init` of the kernel, on the same
boot sector. They find the same layout on volumes of 12 and 16 bits. Where
`sector_per_fat` is 0 the kernel has a volume of 32 bits, of any size, and
counts the entries of the root directory, and the bootloader does neither: they
agree on large volumes without such entries only (`layouts_agree_iff`).
-/

namespace AlexOS.Stage2

namespace BootSector

variable (b : BootSector)

def total : Nat := if b.totalSectors = 0 then b.largeSectorCount.toNat else b.totalSectors.toNat

def fatSectors : Nat := if b.sectorsPerFat = 0 then b.sectorPerFat32.toNat else b.sectorsPerFat.toNat

/-- The sectors of a root directory that is not in a cluster. -/
def rootSectors : Nat := if b.sectorsPerFat = 0 then 0 else (32 * b.dirEntryCount.toNat + 511) / 512

/-- The sectors before the first cluster. -/
def metadata : Nat := b.reservedSectors.toNat + b.fatCount.toNat * b.fatSectors + b.rootSectors

end BootSector

/-- A boot sector of a volume. -/
structure Mountable (b : BootSector) : Prop where
  bytesPerSector : b.bytesPerSector = 512
  sectorsPerCluster : ∃ k, b.sectorsPerCluster.toNat = 2 ^ k
  fatCount : 0 < b.fatCount.toNat
  metadata : b.metadata < b.total

/-- The drivers have the same type, the same first data sector, and the same sector for each cluster. -/
structure Agree (k : Fat.Driver) (s : FatData) : Prop where
  fatType : k.fatType = s.fatType
  firstDataSector : k.firstDataSector = s.dataSectionLba
  cluster : ∀ c : Word, 2 ≤ c.toNat → Fat.cluster2Lba k c = fatClusterToLba s c

/-- The boot sector that is read. -/
def bootBytes (p : Partition) : Buffer := Buffer.copy (fun _ => 0) 0 (p.bytes 0) SECTOR_SIZE

/-- The boot sector as the kernel has it. -/
def BootSector.toKernel (b : BootSector) : Fat.BootSector :=
  ⟨b.bytesPerSector, b.sectorsPerCluster, b.reservedSectors, b.fatCount, b.dirEntryCount,
    b.totalSectors, b.sectorsPerFat, b.largeSectorCount, b.sectorPerFat32, b.rootDirCluster⟩

theorem ofSector_toKernel (b : Buffer) :
    (BootSector.ofSector b).toKernel = Fat.BootSector.ofSector b := rfl

section

variable {p : Partition} {s s' : FatData} {k k' : Fat.Driver} {b : BootSector}

/-! ## The bootloader -/

theorem fatReadBootSector_ok (h : (fatReadBootSector p s).1 = true) :
    (fatReadBootSector p s).2.bootSector = BootSector.ofSector (bootBytes p) := by
  have hf := faults_of_read h
  rw [fatReadBootSector, mbrPartitionReadSector_ok hf]
  rfl

/-- What mounting finds out of the boot sector. -/
theorem fatInitialize_ok (h : fatInitialize p s = (true, s')) :
    s'.bootSector = BootSector.ofSector (bootBytes p) ∧
      s'.dataSectionLba = (layout s').dataSectionLba ∧ s'.fatType = (fatDetect (layout s')).fatType := by
  obtain ⟨hr, -, rfl⟩ := fatInitialize_success h
  exact ⟨fatReadBootSector_ok hr, rfl, rfl⟩

/-! ## The kernel -/

theorem readBootSector_ok (h : ¬ (Fat.readBootSector k).1 = true)
    (hs : ∀ i < 512, k.disk.sector 0 i = p.bytes 0 i) :
    (Fat.readBootSector k).2.bootSector = Fat.BootSector.ofSector (bootBytes p) := by
  have hb : Buffer.copy (fun _ => 0) 0 (k.disk.sector 0) SECTOR_SIZE = bootBytes p := by
    funext i
    rw [bootBytes, Buffer.copy, Buffer.copy]
    by_cases hi : 0 ≤ i ∧ i < 0 + SECTOR_SIZE
    · rw [if_pos hi, if_pos hi]
      exact hs i (by simpa [SECTOR_SIZE] using hi)
    · rw [if_neg hi, if_neg hi]
  have hf : ¬ k.disk.readFails 0 = true := fun hf => by
    have hr : ¬ (k.disk.read 0 fun _ => 0).1 = true := h
    rw [Disk.read, if_pos hf] at hr
    exact hr rfl
  have hr : k.disk.read 0 (fun _ => 0) = (false, bootBytes p) := by rw [Disk.read, if_neg hf, hb]
  simp only [Fat.readBootSector, hr]
  rfl

/-- What `FAT_init` computes from the boot sector it has read. -/
theorem layout_ok (k : Fat.Driver) :
    let k' := { Fat.setRootDir (Fat.fatDetec (Fat.readFat (Fat.layout (Fat.clearOpenedFiles k)) 0).2)
      with errno := 0 }
    k'.bootSector = k.bootSector ∧ k'.firstDataSector = (Fat.layout k').firstDataSector ∧
      k'.fatType = (Fat.fatDetec (Fat.layout k')).fatType := ⟨rfl, rfl, rfl⟩

theorem fatInit_ok (h : Fat.fatInit k = (true, k')) (hs : ∀ i < 512, k.disk.sector 0 i = p.bytes 0 i) :
    k'.bootSector = Fat.BootSector.ofSector (bootBytes p) ∧
      k'.firstDataSector = (Fat.layout k').firstDataSector ∧
        k'.fatType = (Fat.fatDetec (Fat.layout k')).fatType := by
  obtain ⟨hr, -, rfl⟩ := Fat.fatInit_success h
  obtain ⟨hb, hl⟩ := layout_ok (Fat.readBootSector k).2
  exact ⟨hb.trans (readBootSector_ok hr hs), hl⟩

/-! ## Both -/

/-- The sectors that `FAT_init` counts for the root directory. -/
def rootDirSectors (b : BootSector) : Word := (b.dirEntryCount.setWidth 32 * 32 + 511) / 512

theorem toNat_rootDirSectors (b : BootSector) :
    (rootDirSectors b).toNat = (32 * b.dirEntryCount.toNat + 511) / 512 := by
  have := b.dirEntryCount.isLt
  simp only [rootDirSectors, BitVec.toNat_udiv, BitVec.toNat_add, BitVec.toNat_mul, BitVec.toNat_setWidth,
    show (32 : Word).toNat = 32 from rfl, show (511 : Word).toNat = 511 from rfl,
    show (512 : Word).toNat = 512 from rfl]
  omega

/-- The kernel counts the root directory on every volume. -/
theorem firstDataSector_layout (hb : s.bootSector = b) (hk : k.bootSector = b.toKernel) (M : Mountable b) :
    (Fat.layout k).firstDataSector = (layout s).dataSectionLba +
      (if b.sectorsPerFat = 0 then rootDirSectors b else 0) := by
  have h512 : b.bytesPerSector.setWidth 32 = (512 : Word) := by rw [M.bytesPerSector]; rfl
  have e : ∀ d : Word, (sizeofDirectoryEntry * d + 512 - 1) / 512 = (d * 32 + 511) / 512 := fun d => by
    rw [add_sub_assoc, sizeofDirectoryEntry, mul_comm]
    rfl
  simp only [Fat.layout, layout, hb, hk, BootSector.toKernel, h512, e]
  by_cases h0 : b.sectorsPerFat = 0
  · rw [if_pos h0, if_pos h0, if_pos h0, if_neg (not_not.mpr h0), mul_comm]
    rfl
  · rw [if_neg h0, if_neg h0, if_neg h0, if_pos h0, add_zero, mul_comm]
    rfl

/-- Where the first data sectors agree, so do the sectors of all clusters. -/
theorem agree_iff (hb : s.bootSector = b) (hk : k.bootSector = b.toKernel) :
    Agree k s ↔ k.fatType = s.fatType ∧ k.firstDataSector = s.dataSectionLba := by
  refine ⟨fun A => ⟨A.1, A.2⟩, fun ⟨ht, hd⟩ => ⟨ht, hd, fun c _ => ?_⟩⟩
  rw [Fat.cluster2Lba, fatClusterToLba, hb, hk, hd, add_comm]
  rfl

theorem rootDirSectors_eq_zero : rootDirSectors b = 0 ↔ b.dirEntryCount = 0 := by
  rw [BitVec.toNat_eq, toNat_rootDirSectors, BitVec.toNat_eq]
  show (32 * b.dirEntryCount.toNat + 511) / 512 = 0 ↔ b.dirEntryCount.toNat = 0
  omega

/-- The first data sector, as the bootloader has it, does not wrap. -/
theorem toNat_dataSectionLba (hb : s.bootSector = b) (M : Mountable b) (h0 : b.sectorsPerFat = 0) :
    (layout s).totalSectors.toNat = b.total ∧ (layout s).dataSectionLba.toNat = b.metadata := by
  have hm := M.metadata
  have htotal : (layout s).totalSectors.toNat = b.total := by
    simp only [layout, hb, BootSector.total]
    split
    · rfl
    · exact BitVec.toNat_setWidth_of_le (by decide)
  have hlt := (layout s).totalSectors.isLt
  refine ⟨htotal, ?_⟩
  simp only [BootSector.metadata, BootSector.fatSectors, BootSector.rootSectors, if_pos h0] at hm ⊢
  simp only [layout, hb, if_pos h0, BitVec.toNat_add, BitVec.toNat_mul, BitVec.toNat_setWidth]
  have hc : b.fatCount.toNat % 2 ^ 32 = b.fatCount.toNat := Nat.mod_eq_of_lt (by omega)
  rw [hc, Nat.mul_comm]
  generalize b.fatCount.toNat * b.sectorPerFat32.toNat = fats at hm ⊢
  omega

/-- The type that the kernel finds, and that of the bootloader, where the first data sector is the
same. -/
theorem fatType_layout (hb : s.bootSector = b) (hk : k.bootSector = b.toKernel)
    (hd : (Fat.layout k).firstDataSector = (layout s).dataSectionLba) :
    (Fat.fatDetec (Fat.layout k)).fatType = if b.sectorsPerFat = 0 then 32
      else (fatDetect (layout s)).fatType := by
  have htotal : (Fat.layout k).totalSectors = (layout s).totalSectors := by
    simp only [Fat.layout, layout, hb, hk, BootSector.toKernel, ne_eq, ite_not]
  have hclusters : (Fat.layout k).totalClusters = ((layout s).totalSectors - (layout s).dataSectionLba) /
      b.sectorsPerCluster.setWidth 32 := by
    rw [← htotal, ← hd]
    simp only [Fat.layout, hk]
    rfl
  have hs : (layout s).bootSector = b := hb
  have hk' : (Fat.layout k).bootSector = b.toKernel := hk
  simp only [Fat.fatDetec, fatDetect, hclusters, hs, hk', BootSector.toKernel]
  split <;> rfl

/-- A volume whose boot sector has no `SectorsPerFat` is of 32 bits to the bootloader if it is
large. -/
theorem fatType_eq_32 (hb : s.bootSector = b) (M : Mountable b) (h0 : b.sectorsPerFat = 0) :
    (fatDetect (layout s)).fatType = 32 ↔ 4085 * b.sectorsPerCluster.toNat ≤ b.total - b.metadata := by
  obtain ⟨htotal, hmeta⟩ := toNat_dataSectionLba hb M h0
  obtain ⟨n, hn⟩ := M.sectorsPerCluster
  have hpos : 0 < b.sectorsPerCluster.toNat := hn ▸ Nat.two_pow_pos n
  have hm := M.metadata
  have hs : (layout s).bootSector = b := hb
  have hlt : ((layout s).totalSectors - (layout s).dataSectionLba) / b.sectorsPerCluster.setWidth 32 <
      (0xFF5 : Word) ↔ ¬ 4085 * b.sectorsPerCluster.toNat ≤ b.total - b.metadata := by
    rw [BitVec.lt_def, BitVec.toNat_udiv, BitVec.toNat_sub_of_le (by rw [BitVec.le_def]; omega), htotal,
      hmeta, BitVec.toNat_setWidth_of_le (by decide), not_le]
    exact Nat.div_lt_iff_lt_mul hpos
  simp only [fatDetect, hs, hlt, h0]
  split
  · rename_i h
    exact iff_of_false (by decide) h
  · rename_i h
    exact iff_of_true rfl (not_not.mp h)

/-- When the drivers agree on the layout of a volume. -/
theorem layouts_agree_iff (hk : Fat.fatInit k = (true, k')) (hs : fatInitialize p s = (true, s'))
    (hboot : ∀ i < 512, k.disk.sector 0 i = p.bytes 0 i)
    (hb : b = BootSector.ofSector (bootBytes p)) (M : Mountable b) :
    Agree k' s' ↔ b.sectorsPerFat ≠ 0 ∨
      b.dirEntryCount = 0 ∧ 4085 * b.sectorsPerCluster.toNat ≤ b.total - b.metadata := by
  obtain ⟨hbs, hds, hts⟩ := fatInitialize_ok hs
  obtain ⟨hbk, hdk, htk⟩ := fatInit_ok hk hboot
  rw [← hb] at hbs
  rw [← ofSector_toKernel, ← hb] at hbk
  have hd := firstDataSector_layout hbs hbk M
  rw [agree_iff hbs hbk, hdk, hds, htk, hts]
  by_cases h0 : b.sectorsPerFat = 0
  · rw [if_pos h0] at hd
    have hfirst : (Fat.layout k').firstDataSector = (layout s').dataSectionLba ↔ b.dirEntryCount = 0 := by
      rw [hd, add_eq_left, rootDirSectors_eq_zero]
    rw [hfirst, or_iff_right (not_not.mpr h0)]
    refine ⟨fun ⟨ht, hz⟩ => ⟨hz, ?_⟩, fun ⟨hz, hsize⟩ => ⟨?_, hz⟩⟩
    · rw [fatType_layout hbs hbk (hfirst.mpr hz), if_pos h0] at ht
      exact (fatType_eq_32 hbs M h0).mp ht.symm
    · rw [fatType_layout hbs hbk (hfirst.mpr hz), if_pos h0, (fatType_eq_32 hbs M h0).mpr hsize]
  · rw [if_neg h0, add_zero] at hd
    refine iff_of_true ⟨?_, hd⟩ (.inl h0)
    rw [fatType_layout hbs hbk hd, if_neg h0]

/-! ## Two volumes -/

/-- Sectors of zeros after a boot sector. -/
def bootSectors (b : List Byte) : Word → Buffer := fun l => if l = 0 then Buffer.ofList b else fun _ => 0

/-- The bootloader, before it mounts. -/
def blankData : FatData where
  bootSector := ⟨0, 0, 0, 0, 0, 0, 0, 0, 0, 0⟩
  rootDirectory := ⟨fun _ => 0, 0, false, 0, 0, false, 0, 0, 0⟩
  openedFiles _ := ⟨fun _ => 0, 0, false, 0, 0, false, 0, 0, 0⟩
  fatCache _ := 0
  fatCachePosition := 0
  dataSectionLba := 0
  fatType := 0
  totalSectors := 0
  sectorsPerFat := 0
  faults _ := none

/-- The kernel, before it mounts a volume with this boot sector. -/
def blankKernel (b : List Byte) : Fat.Driver where
  disk := ⟨bootSectors b, fun _ => false, fun _ => false⟩
  bootSector := ⟨0, 0, 0, 0, 0, 0, 0, 0, 0, 0⟩
  fatOffset := 0
  table _ := 0
  totalSectors := 0
  fatSectors := 0
  rootDirSectors := 0
  firstDataSector := 0
  firstFatSector := 0
  dataSectors := 0
  totalClusters := 0
  fatType := 0
  rootDir := Fat.File.zero
  openedFiles _ := Fat.File.zero
  errno := 0

/-- A floppy disk: 2880 sectors, 224 entries in the root directory, two FATs of 9 sectors. -/
def floppy : List Byte :=
  [0, 0, 0, 0, 0, 0, 0, 0, 0, 0, 0, 0x00, 0x02, 1, 1, 0, 2, 0xE0, 0x00, 0x40, 0x0B, 0xF0, 9, 0]

/-- A volume of 2000 sectors, with two FATs of 16 sectors and 32 bits to an entry. -/
def smallFat32 : List Byte :=
  [0, 0, 0, 0, 0, 0, 0, 0, 0, 0, 0, 0x00, 0x02, 1, 32, 0, 2, 0, 0, 0, 0, 0xF8, 0, 0, 0, 0, 0, 0, 0, 0, 0, 0,
    0xD0, 0x07, 0, 0, 16, 0, 0, 0, 0, 0, 0, 0, 2, 0, 0, 0]

theorem fatInit_blankKernel (b : List Byte) : (Fat.fatInit (blankKernel b)).1 = true := rfl

theorem fatInitialize_blankData (b : List Byte) :
    (fatInitialize ⟨bootSectors b, 0⟩ blankData).1 = true := rfl

theorem mountable_floppy : Mountable (BootSector.ofSector (bootBytes ⟨bootSectors floppy, 0⟩)) :=
  ⟨by decide, ⟨0, by decide⟩, by decide, by decide⟩

theorem mountable_smallFat32 : Mountable (BootSector.ofSector (bootBytes ⟨bootSectors smallFat32, 0⟩)) :=
  ⟨by decide, ⟨0, by decide⟩, by decide, by decide⟩

theorem boot_eq (b : List Byte) :
    ∀ i < 512, (blankKernel b).disk.sector 0 i = (⟨bootSectors b, 0⟩ : Partition).bytes 0 i := by
  intro i hi
  rw [Partition.bytes, Nat.div_eq_of_lt hi, Nat.mod_eq_of_lt hi]
  rfl

theorem layouts_agree_floppy : Agree (Fat.fatInit (blankKernel floppy)).2
    (fatInitialize ⟨bootSectors floppy, 0⟩ blankData).2 :=
  (layouts_agree_iff (Prod.ext (fatInit_blankKernel floppy) rfl)
    (Prod.ext (fatInitialize_blankData floppy) rfl) (boot_eq floppy) rfl mountable_floppy).mpr
    (.inl (by decide))

/-- On a small volume of 32 bits, the bootloader finds 12 bits. -/
theorem layouts_not_agree : ¬ ∀ (k k' : Fat.Driver) (p : Partition) (s s' : FatData),
    Fat.fatInit k = (true, k') → fatInitialize p s = (true, s') →
      (∀ i < 512, k.disk.sector 0 i = p.bytes 0 i) →
        Mountable (BootSector.ofSector (bootBytes p)) → Agree k' s' := by
  intro H
  have A := H (blankKernel smallFat32) _ ⟨bootSectors smallFat32, 0⟩ blankData _
    (Prod.ext (fatInit_blankKernel _) rfl) (Prod.ext (fatInitialize_blankData _) rfl) (boot_eq _)
    mountable_smallFat32
  have hk : (Fat.fatInit (blankKernel smallFat32)).2.fatType = 32 := by decide
  have hs : (fatInitialize ⟨bootSectors smallFat32, 0⟩ blankData).2.fatType = 12 := by decide
  exact absurd (hk.symm.trans (A.fatType.trans hs)) (by decide)

end

end AlexOS.Stage2
