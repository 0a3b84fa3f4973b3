import AlexOS.Fat.Driver
import Mathlib.Logic.Relation

/-!
# Volumes

What the disk says of the clusters: the entries of each copy of the FAT
(`fatEntry`), the clusters that follow one another (`Linked`), and those that
belong to the file that starts at a cluster (`OnChain`). `WellFormed` is a
mounted volume with sectors of 512 bytes and one sector for each cluster.

While the cache holds the first sector, `next_cluster` reads the entries from
it (`successor`), and changes nothing (`nextCluster_ok`). Steps that leave the
cache and the figures of the volume alone are `SameVolume`.
-/

namespace AlexOS.Fat

/-- The bytes of a copy of the FAT. -/
def fatBytes (s : Driver) (copy : Nat) : Buffer := fun i =>
  s.disk.sector (s.firstFatSector + BitVec.ofNat 32 copy * s.fatSectors + BitVec.ofNat 32 (i / 512)) (i % 512)

/-- The entry of a cluster in a copy of the FAT, with end marks of 12 and 16 bits extended. -/
def fatEntry (s : Driver) (copy : Nat) (cluster : Word) : Word :=
  match entryOffset s.fatType cluster with
  | none => 0
  | some fatOffset => decode s.fatType (fatBytes s copy) fatOffset.toNat cluster

/-- An end mark. -/
def IsEnd (fatType : Byte) (entry : Word) : Prop :=
  if fatType = 32 then entry &&& 0x0FFFFFFF ≥ 0x0FFFFFF8 else entry ≥ 0xFFFFFFF8

instance (fatType : Byte) (entry : Word) : Decidable (IsEnd fatType entry) := by
  unfold IsEnd
  infer_instance

/-- The cluster that an entry refers to. -/
def target (fatType : Byte) (entry : Word) : Word :=
  if fatType = 32 then entry &&& 0x0FFFFFFF else entry

/-- Cluster `d` follows `c`. -/
def Linked (s : Driver) (c d : Word) : Prop :=
  ¬ IsEnd s.fatType (fatEntry s 0 c) ∧ target s.fatType (fatEntry s 0 c) ≠ 0 ∧
    d = target s.fatType (fatEntry s 0 c)

/-- Cluster `c` belongs to the chain from `first` on. -/
def OnChain (s : Driver) (first c : Word) : Prop := Relation.ReflTransGen (Linked s) first c

/-- The clusters of the volume. -/
def IsCluster (s : Driver) (c : Word) : Prop := 2 ≤ c.toNat ∧ c.toNat < s.totalClusters.toNat + 2

structure WellFormed (s : Driver) : Prop where
  bytesPerSector : s.bootSector.bytesPerSector = 512
  sectorPerCluster : s.bootSector.sectorPerCluster = 1
  fatType : s.fatType = 12 ∧ s.totalClusters.toNat < 4085 ∨
    s.fatType = 16 ∧ 4085 ≤ s.totalClusters.toNat ∧ s.totalClusters.toNat < 65525 ∨
    s.fatType = 32 ∧ s.totalClusters.toNat < 0x0FFFFFF5
  nbFat : 0 < s.bootSector.nbFat.toNat
  reserved : 0 < s.firstFatSector.toNat
  fatSectors : 0 < s.fatSectors.toNat
  firstDataSector : s.firstDataSector.toNat =
    s.firstFatSector.toNat + s.bootSector.nbFat.toNat * s.fatSectors.toNat + s.rootDirSectors.toNat
  noWrap : s.firstDataSector.toNat + s.totalClusters.toNat < 2 ^ 32
  /-- The entries of all clusters are in the FAT. -/
  fits : ∀ c, IsCluster s c → ∀ fatOffset, entryOffset s.fatType c = some fatOffset →
    fatOffset.toNat + (if s.fatType = 32 then 4 else 2) ≤ 512 * s.fatSectors.toNat
  /-- The copies are the same. -/
  copies : ∀ copy < s.bootSector.nbFat.toNat, ∀ i < 512 * s.fatSectors.toNat,
    fatBytes s copy i = fatBytes s 0 i
  /-- Entries are free, or refer to a cluster, or are marks. -/
  entries : ∀ c, IsCluster s c → fatEntry s 0 c = 0 ∨ IsCluster s (target s.fatType (fatEntry s 0 c)) ∨
    IsEnd s.fatType (fatEntry s 0 c)
  rootHandle : s.rootDir.handle = ROOT_DIR_HANDLE
  fatOffset : s.fatOffset = 0
  /-- The cache holds the first sector. -/
  table : ∀ i < 512, s.table i = s.disk.sector s.firstFatSector i

section

variable {s s' s'' : Driver} {c l : Word} {h : Int} {f : File}

@[simp] theorem file_setFile_self : (s.setFile h f).file h = f := by
  rw [Driver.setFile, Driver.file]
  split
  · rfl
  · exact if_pos rfl

theorem fatBytes_first {i : Nat} (hi : i < 512) : fatBytes s 0 i = s.disk.sector s.firstFatSector i := by
  have h0 : BitVec.ofNat 32 (i / 512) = 0 := by rw [Nat.div_eq_of_lt hi]; rfl
  rw [fatBytes, h0, show BitVec.ofNat 32 0 = 0 from rfl, zero_mul, add_zero, add_zero,
    Nat.mod_eq_of_lt hi]

/-! ## Lookups in the cache -/

/-- The value of an entry in the cache. -/
def successor (s : Driver) (cluster : Word) : Word :=
  match entryOffset s.fatType cluster with
  | none => 0
  | some fatOffset => decode s.fatType s.table (fatOffset % 512).toNat cluster

/-- The first sector is in the cache, and sectors are of 512 bytes. -/
structure Cached (s : Driver) : Prop where
  bytesPerSector : s.bootSector.bytesPerSector = 512
  fatOffset : s.fatOffset = 0

theorem WellFormed.cached (W : WellFormed s) : Cached s := ⟨W.bytesPerSector, W.fatOffset⟩

theorem loadEntry_ok (C : Cached s) (e : Word) : loadEntry s (e % 512) = s := by
  have h1 : ¬ e % 512 < (0 : Byte).setWidth 32 * 512 := by
    rw [BitVec.lt_def]
    exact Nat.not_lt_zero _
  have h2 : ¬ e % 512 ≥ (0 : Byte).setWidth 32 * 512 + 512 := by
    rw [ge_iff_le, BitVec.le_def, BitVec.toNat_umod, Nat.not_le]
    exact Nat.mod_lt _ (by decide)
  simp only [loadEntry, C.fatOffset]
  rw [if_neg (not_or.mpr ⟨h1, h2⟩)]

theorem nextCluster_ok (C : Cached s) (c : Word) : nextCluster s c = (successor s c, s) := by
  rw [nextCluster, successor]
  cases entryOffset s.fatType c with
  | none => rfl
  | some fatOffset =>
    have e : s.bootSector.bytesPerSector.setWidth 32 = (512 : Word) := by rw [C.bytesPerSector]; rfl
    simp only [e, loadEntry_ok C]

theorem advance_ok (C : Cached s) (h : Int) : advance s h =
    s.setFile h { s.file h with currentCluster := successor s (s.file h).currentCluster } := by
  rw [advance, nextCluster_ok C]

/-! ## The figures of the volume -/

/-- The cache, the figures and the faults of the disk are as before. -/
structure SameVolume (s s' : Driver) : Prop where
  bootSector : s'.bootSector = s.bootSector
  fatOffset : s'.fatOffset = s.fatOffset
  table : s'.table = s.table
  fatSectors : s'.fatSectors = s.fatSectors
  rootDirSectors : s'.rootDirSectors = s.rootDirSectors
  firstDataSector : s'.firstDataSector = s.firstDataSector
  firstFatSector : s'.firstFatSector = s.firstFatSector
  totalClusters : s'.totalClusters = s.totalClusters
  fatType : s'.fatType = s.fatType
  readFails : s'.disk.readFails = s.disk.readFails
  writeFails : s'.disk.writeFails = s.disk.writeFails

theorem SameVolume.refl (s : Driver) : SameVolume s s := ⟨rfl, rfl, rfl, rfl, rfl, rfl, rfl, rfl, rfl, rfl, rfl⟩

theorem SameVolume.trans (h₁ : SameVolume s s') (h₂ : SameVolume s' s'') : SameVolume s s'' where
  bootSector := h₂.bootSector.trans h₁.bootSector
  fatOffset := h₂.fatOffset.trans h₁.fatOffset
  table := h₂.table.trans h₁.table
  fatSectors := h₂.fatSectors.trans h₁.fatSectors
  rootDirSectors := h₂.rootDirSectors.trans h₁.rootDirSectors
  firstDataSector := h₂.firstDataSector.trans h₁.firstDataSector
  firstFatSector := h₂.firstFatSector.trans h₁.firstFatSector
  totalClusters := h₂.totalClusters.trans h₁.totalClusters
  fatType := h₂.fatType.trans h₁.fatType
  readFails := h₂.readFails.trans h₁.readFails
  writeFails := h₂.writeFails.trans h₁.writeFails

theorem SameVolume.symm (h : SameVolume s s') : SameVolume s' s where
  bootSector := h.bootSector.symm
  fatOffset := h.fatOffset.symm
  table := h.table.symm
  fatSectors := h.fatSectors.symm
  rootDirSectors := h.rootDirSectors.symm
  firstDataSector := h.firstDataSector.symm
  firstFatSector := h.firstFatSector.symm
  totalClusters := h.totalClusters.symm
  fatType := h.fatType.symm
  readFails := h.readFails.symm
  writeFails := h.writeFails.symm

theorem sameVolume_setFile (s : Driver) (h : Int) (f : File) : SameVolume s (s.setFile h f) := by
  rw [Driver.setFile]
  split <;> exact ⟨rfl, rfl, rfl, rfl, rfl, rfl, rfl, rfl, rfl, rfl, rfl⟩

theorem disk_setFile (s : Driver) (h : Int) (f : File) : (s.setFile h f).disk = s.disk := by
  rw [Driver.setFile]
  split <;> rfl

namespace SameVolume

variable (S : SameVolume s s')

include S

theorem cached (C : Cached s) : Cached s' :=
  ⟨S.bootSector ▸ C.bytesPerSector, S.fatOffset.trans C.fatOffset⟩

theorem cluster2Lba_eq (c : Word) : cluster2Lba s' c = cluster2Lba s c := by
  rw [cluster2Lba, cluster2Lba, S.bootSector, S.firstDataSector]

theorem successor_eq (c : Word) : successor s' c = successor s c := by
  rw [successor, successor, S.fatType, S.table]

end SameVolume

theorem advance_same (C : Cached s) (h : Int) : SameVolume s (advance s h) := by
  rw [advance_ok C]
  exact sameVolume_setFile _ _ _

theorem disk_advance (C : Cached s) (h : Int) : (advance s h).disk = s.disk := by
  rw [advance_ok C]
  exact disk_setFile _ _ _

theorem currentCluster_advance (C : Cached s) (h : Int) :
    ((advance s h).file h).currentCluster = successor s (s.file h).currentCluster := by
  rw [advance_ok C, file_setFile_self]

/-! ## A volume -/

/-- A FAT with 12 bits to an entry: cluster 2 is the file `A`, 4 and 5 are `B`, the others are free. -/
def someDisk : Disk where
  sector l :=
    if l = 1 then Buffer.ofList [0xF8, 0xFF, 0xFF, 0xFF, 0x0F, 0x00, 0x05, 0xF0, 0xFF]
    else if l = 2 then Buffer.ofList (newEntry [0x41] 2 ++ newEntry [0x42] 4)
    else fun _ => 0
  readFails _ := false
  writeFails _ := false

/-- Eight clusters, after one sector of the FAT and one of the root directory. Both files are
open. -/
def someFat : Driver where
  disk := someDisk
  bootSector := ⟨512, 1, 1, 1, 16, 11, 1, 0, 0, 0⟩
  fatOffset := 0
  table := someDisk.sector 1
  totalSectors := 11
  fatSectors := 1
  rootDirSectors := 1
  firstDataSector := 3
  firstFatSector := 1
  dataSectors := 8
  totalClusters := 8
  fatType := 12
  rootDir := ⟨0, 512, 1, 1, fun _ => 0, true, true, -1⟩
  openedFiles i :=
    if i = 0 then ⟨0, 0, 2, 2, fun _ => 0, false, true, 3⟩
    else if i = 1 then ⟨0, 0, 4, 4, fun _ => 0, false, true, 4⟩
    else File.zero
  errno := 0

theorem cluster_someFat (hc : IsCluster someFat c) :
    c = 2 ∨ c = 3 ∨ c = 4 ∨ c = 5 ∨ c = 6 ∨ c = 7 ∨ c = 8 ∨ c = 9 := by
  have h1 : 2 ≤ c.toNat := hc.1
  have h2 : c.toNat < 8 + 2 := hc.2
  simp only [BitVec.toNat_eq]
  show c.toNat = 2 ∨ c.toNat = 3 ∨ c.toNat = 4 ∨ c.toNat = 5 ∨ c.toNat = 6 ∨ c.toNat = 7 ∨
    c.toNat = 8 ∨ c.toNat = 9
  omega

theorem wellFormed_someFat : WellFormed someFat where
  bytesPerSector := rfl
  sectorPerCluster := rfl
  fatType := .inl ⟨rfl, by decide⟩
  nbFat := by decide
  reserved := by decide
  fatSectors := by decide
  firstDataSector := by decide
  noWrap := by decide
  fits := by
    rintro c hc fatOffset e
    rcases cluster_someFat hc with rfl | rfl | rfl | rfl | rfl | rfl | rfl | rfl <;> cases e <;> decide
  copies := by
    intro copy hcopy i _
    have h : copy < 1 := hcopy
    rw [Nat.lt_one_iff.mp h]
  entries := by
    intro c hc
    rcases cluster_someFat hc with rfl | rfl | rfl | rfl | rfl | rfl | rfl | rfl
    case inl => exact .inr (.inr (by decide))
    case inr.inr.inl => exact .inr (.inl ⟨by decide, by decide⟩)
    case inr.inr.inr.inl => exact .inr (.inr (by decide))
    all_goals exact .inl (by decide)
  rootHandle := rfl
  fatOffset := rfl
  table := fun _ _ => rfl

end

end AlexOS.Fat
