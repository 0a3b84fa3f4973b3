import AlexOS.Fat.Volume

/-!
# What mounting works out

`FAT_init` divides by two fields of the boot sector, and adds, multiplies and
subtracts others, without looking at them first. It is safe on a boot sector
(`SafeMount`) exactly if the divisors are not 0, and the sectors before the data
and the entries of the FAT have room in the sectors there are (`AddsUp`,
`safeMount_iff`).
-/

namespace AlexOS.Fat

namespace BootSector

variable (b : BootSector)

def total : Nat := if b.totalSectors ≠ 0 then b.totalSectors.toNat else b.largeSectorCount.toNat

def fatSectors : Nat := if b.sectorPerFat ≠ 0 then b.sectorPerFat.toNat else b.sectorPerFat32.toNat

/-- The sectors of the root directory. -/
def rootSectors : Nat :=
  (32 * b.rootDirEntryCount.toNat + (b.bytesPerSector.toNat - 1)) / b.bytesPerSector.toNat

/-- The sectors before the first cluster. -/
def metadata : Nat := b.reservedSectorCount.toNat + b.nbFat.toNat * b.fatSectors + b.rootSectors

def clusters : Nat := (b.total - b.metadata) / b.sectorPerCluster.toNat

def fatType : Byte := if b.sectorPerFat = 0 then 32 else if b.clusters < 4085 then 12 else 16

/-- What is divided by is not 0. -/
def Divides : Prop := b.bytesPerSector ≠ 0 ∧ b.sectorPerCluster ≠ 0

end BootSector

/-- The bytes of `n` entries of a FAT. -/
def entryBytes (fatType : Byte) (n : Nat) : Nat :=
  if fatType = 12 then (3 * n + 1) / 2 else if fatType = 16 then 2 * n else 4 * n

/-- What is before the data, and the entries of two reserved clusters and all others, have room. -/
structure AddsUp (b : BootSector) : Prop where
  metadata : b.metadata ≤ b.total
  entries : entryBytes b.fatType (b.clusters + 2) ≤ b.fatSectors * b.bytesPerSector.toNat

/-- The figures of a volume are those of its fields, without wrapping around, and its FAT has all entries. -/
structure Figures (s : Driver) : Prop where
  rootDirSectors : s.rootDirSectors.toNat = s.bootSector.rootSectors
  firstDataSector : s.firstDataSector.toNat =
    s.bootSector.reservedSectorCount.toNat + s.bootSector.nbFat.toNat * s.fatSectors.toNat + s.rootDirSectors.toNat
  dataSectors : s.firstDataSector.toNat + s.dataSectors.toNat = s.totalSectors.toNat
  rootSize : s.rootDir.size.toNat = s.rootDirSectors.toNat * s.bootSector.bytesPerSector.toNat
  le_total : s.firstDataSector ≤ s.totalSectors
  entries : entryBytes s.fatType (s.totalClusters.toNat + 2) ≤
    s.fatSectors.toNat * s.bootSector.bytesPerSector.toNat

/-- The boot sector that is on the disk. -/
def bootOf (s : Driver) : BootSector := .ofSector (s.disk.read 0 fun _ => 0).2

/-- Mounting fails to read the boot sector, or divides by no 0, and fails to read the FAT or finds right figures. -/
def SafeMount (s : Driver) : Prop :=
  s.disk.readFails 0 = true ∨ (bootOf s).Divides ∧ ((fatInit s).1 = false ∨ Figures (fatInit s).2)

section

variable {s : Driver} {b : BootSector}

/-! ## The figures -/

/-- `root_dir_sectors`. -/
def rootDirSectorsOf (b : BootSector) : Word :=
  (b.rootDirEntryCount.setWidth 32 * sizeofDirEntry + (b.bytesPerSector.setWidth 32 - 1)) / b.bytesPerSector.setWidth 32

theorem toNat_pos_of_ne {w : Nat} {x : BitVec w} (h : x ≠ 0) : 0 < x.toNat :=
  Nat.pos_of_ne_zero fun e => h (BitVec.eq_of_toNat_eq (by simpa using e))

theorem toNat_rootDirSectorsOf (h : b.bytesPerSector ≠ 0) : (rootDirSectorsOf b).toNat = b.rootSectors := by
  have hpos := toNat_pos_of_ne h
  have hcount := b.rootDirEntryCount.isLt
  have hbytes := b.bytesPerSector.isLt
  have h1 : (b.bytesPerSector.setWidth 32 : Word).toNat = b.bytesPerSector.toNat :=
    BitVec.toNat_setWidth_of_le (by decide)
  have h2 : (b.rootDirEntryCount.setWidth 32 : Word).toNat = b.rootDirEntryCount.toNat :=
    BitVec.toNat_setWidth_of_le (by decide)
  rw [rootDirSectorsOf, BitVec.toNat_udiv, h1, BitVec.toNat_add, BitVec.toNat_mul, BitVec.toNat_sub, h1, h2,
    show sizeofDirEntry.toNat = 32 from rfl, show (1 : Word).toNat = 1 from rfl, BootSector.rootSectors]
  congr 1
  omega

theorem rootSectors_mul_lt (b : BootSector) : b.rootSectors * b.bytesPerSector.toNat < 2 ^ 32 := by
  have hcount := b.rootDirEntryCount.isLt
  have hbytes := b.bytesPerSector.isLt
  have := Nat.div_mul_le_self (32 * b.rootDirEntryCount.toNat + (b.bytesPerSector.toNat - 1)) b.bytesPerSector.toNat
  rw [BootSector.rootSectors]
  omega

theorem total_lt (b : BootSector) : b.total < 2 ^ 32 := by
  have h1 := b.totalSectors.isLt
  have h2 := b.largeSectorCount.isLt
  rw [BootSector.total]
  split <;> omega

/-! ## Mounting -/

/-- The state in which the first sector of the FAT is read. -/
def laidOut (s : Driver) : Driver := layout (clearOpenedFiles { s with bootSector := bootOf s })

theorem fatInit_eq (h : s.disk.readFails 0 = false) : fatInit s =
    if s.disk.readFails ((bootOf s).reservedSectorCount.setWidth 32 + 0) then
      (false, { (readFat (laidOut s) 0).2 with errno := -2 })
    else (true, { setRootDir (fatDetec (readFat (laidOut s) 0).2) with errno := 0 }) := by
  have hboot : readBootSector s = (false, { s with bootSector := bootOf s }) := by
    simp only [readBootSector, bootOf, Disk.read, h]
    rfl
  have hfat : (readFat (laidOut s) 0).1 = s.disk.readFails ((bootOf s).reservedSectorCount.setWidth 32 + 0) := by
    rw [readFat]
    simp only [Disk.read]
    split
    · rename_i hf
      exact hf.symm
    · rename_i hf
      exact (Bool.eq_false_iff.mpr hf).symm
  rw [fatInit, hboot]
  simp only [Bool.false_eq_true, if_false, ← hfat]
  rfl

/-- What a mounted volume keeps of the boot sector. -/
structure MountedFigures (b : BootSector) (s : Driver) : Prop where
  bootSector : s.bootSector = b
  totalSectors : s.totalSectors.toNat = b.total
  fatSectors : s.fatSectors.toNat = b.fatSectors
  rootDirSectors : s.rootDirSectors = rootDirSectorsOf b
  firstDataSector : s.firstDataSector =
    b.reservedSectorCount.setWidth 32 + b.nbFat.setWidth 32 * s.fatSectors + rootDirSectorsOf b
  dataSectors : s.dataSectors = s.totalSectors - s.firstDataSector
  totalClusters : s.totalClusters = s.dataSectors / b.sectorPerCluster.setWidth 32
  fatType : s.fatType = if b.sectorPerFat = 0 then 32 else if s.totalClusters < 4085 then 12 else 16
  rootSize : s.rootDir.size = rootDirSectorsOf b * b.bytesPerSector.setWidth 32

theorem mountedFigures (h : s.disk.readFails 0 = false)
    (hf : s.disk.readFails ((bootOf s).reservedSectorCount.setWidth 32 + 0) = false) :
    (fatInit s).1 = true ∧ MountedFigures (bootOf s) (fatInit s).2 := by
  rw [fatInit_eq h, hf]
  refine ⟨rfl, rfl, ?_, ?_, rfl, rfl, rfl, rfl, rfl, rfl⟩
  · show (if (bootOf s).totalSectors ≠ 0 then (bootOf s).totalSectors.setWidth 32 else
      (bootOf s).largeSectorCount).toNat = _
    rw [BootSector.total]
    split
    · exact BitVec.toNat_setWidth_of_le (by decide)
    · rfl
  · show (if (bootOf s).sectorPerFat ≠ 0 then (bootOf s).sectorPerFat.setWidth 32 else
      (bootOf s).sectorPerFat32).toNat = _
    rw [BootSector.fatSectors]
    split
    · exact BitVec.toNat_setWidth_of_le (by decide)
    · rfl

/-- The figures are right exactly if those of the boot sector add up. -/
theorem MountedFigures.figures_iff (M : MountedFigures b s) (hd : b.Divides) : Figures s ↔ AddsUp b := by
  have hroot := toNat_rootDirSectorsOf hd.1
  have hsize := rootSectors_mul_lt b
  have htotal := total_lt b
  have hreserved : (b.reservedSectorCount.setWidth 32 : Word).toNat = b.reservedSectorCount.toNat :=
    BitVec.toNat_setWidth_of_le (by decide)
  have hnb : (b.nbFat.setWidth 32 : Word).toNat = b.nbFat.toNat := BitVec.toNat_setWidth_of_le (by decide)
  have hspc : (b.sectorPerCluster.setWidth 32 : Word).toNat = b.sectorPerCluster.toNat :=
    BitVec.toNat_setWidth_of_le (by decide)
  have hbytes : (b.bytesPerSector.setWidth 32 : Word).toNat = b.bytesPerSector.toNat :=
    BitVec.toNat_setWidth_of_le (by decide)
  -- the first data sector, and what is after it, where nothing wraps around
  have hfirst : b.metadata ≤ b.total → s.firstDataSector.toNat = b.metadata := by
    intro hle
    rw [BootSector.metadata] at hle ⊢
    rw [M.firstDataSector, BitVec.toNat_add, BitVec.toNat_add, BitVec.toNat_mul, hreserved, hnb, M.fatSectors, hroot]
    generalize b.nbFat.toNat * b.fatSectors = product at hle ⊢
    omega
  have hclusters : s.firstDataSector.toNat = b.metadata → b.metadata ≤ b.total →
      s.totalClusters.toNat = b.clusters ∧ s.fatType = b.fatType := by
    intro he hle
    have hdata : s.dataSectors.toNat = b.total - b.metadata := by
      rw [M.dataSectors, BitVec.toNat_sub_of_le (by rw [BitVec.le_def, he, M.totalSectors]; exact hle),
        M.totalSectors, he]
    have hc : s.totalClusters.toNat = b.clusters := by
      rw [M.totalClusters, BitVec.toNat_udiv, hdata, hspc, BootSector.clusters]
    refine ⟨hc, ?_⟩
    rw [M.fatType, BootSector.fatType]
    simp only [BitVec.lt_def, hc, show (4085 : Word).toNat = 4085 from rfl]
  constructor
  · intro F
    have he : s.firstDataSector.toNat = b.metadata := by
      rw [F.firstDataSector, M.bootSector, M.fatSectors, M.rootDirSectors, hroot, BootSector.metadata]
    have hle : b.metadata ≤ b.total := by
      rw [← he, ← M.totalSectors]
      exact F.le_total
    obtain ⟨hc, ht⟩ := hclusters he hle
    have hentries := F.entries
    rw [hc, ht, M.fatSectors, M.bootSector] at hentries
    exact ⟨hle, hentries⟩
  · intro A
    have he := hfirst A.metadata
    obtain ⟨hc, ht⟩ := hclusters he A.metadata
    have hle : s.firstDataSector.toNat ≤ s.totalSectors.toNat := by
      rw [he, M.totalSectors]
      exact A.metadata
    refine ⟨?_, ?_, ?_, ?_, hle, ?_⟩
    · rw [M.rootDirSectors, hroot, M.bootSector]
    · rw [he, M.bootSector, M.fatSectors, M.rootDirSectors, hroot, BootSector.metadata]
    · rw [M.dataSectors, BitVec.toNat_sub_of_le hle]
      omega
    · rw [M.rootSize, M.rootDirSectors, M.bootSector, BitVec.toNat_mul, hbytes, hroot, Nat.mod_eq_of_lt hsize]
    · rw [hc, ht, M.fatSectors, M.bootSector]
      exact A.entries

/-- Mounting is safe exactly if the boot sector cannot be read, or has no divisor that is 0 and either the FAT cannot
be read or the figures add up. -/
theorem safeMount_iff (s : Driver) : SafeMount s ↔ s.disk.readFails 0 = true ∨
    (bootOf s).Divides ∧ (s.disk.readFails ((bootOf s).reservedSectorCount.setWidth 32) = true ∨
      AddsUp (bootOf s)) := by
  rw [SafeMount]
  by_cases h : s.disk.readFails 0 = true
  · exact ⟨fun _ => .inl h, fun _ => .inl h⟩
  rw [← add_zero ((bootOf s).reservedSectorCount.setWidth 32)]
  apply or_congr_right
  apply and_congr_right
  intro hd
  -- whether the FAT is read
  by_cases hf : s.disk.readFails ((bootOf s).reservedSectorCount.setWidth 32 + 0) = true
  · rw [fatInit_eq (Bool.eq_false_iff.mpr h), if_pos hf]
    exact ⟨fun _ => .inl hf, fun _ => .inl rfl⟩
  · obtain ⟨hret, M⟩ := mountedFigures (Bool.eq_false_iff.mpr h) (Bool.eq_false_iff.mpr hf)
    rw [hret, M.figures_iff hd, or_iff_right hf]
    exact or_iff_right (by decide)

/-- A boot sector of zeros: there are 0 bytes to a sector. -/
theorem not_safeMount : ¬ ∀ s, SafeMount s := by
  intro H
  rcases H someFat with h | ⟨⟨hbytes, -⟩, -⟩
  · exact absurd h (by decide)
  · exact hbytes (by decide)

end

end AlexOS.Fat
