import AlexOS.Lib.Stream
import AlexOS.Stage2.Driver

/-!
# The cache of the FAT

`FatCache` holds five sectors of the FAT, from `FatCachePosition` on, or
nothing yet (`Coherent`). A lookup without disk errors keeps that, and finds
the entry of the cluster in the FAT on disk, unless it straddles two sectors
(`fatNextCluster_ok`).
-/

namespace AlexOS.Stage2

/-- The bytes of the first FAT. -/
def fatBytes (p : Partition) (s : FatData) : Buffer := p.bytes (s.bootSector.reservedSectors.setWidth 32)

/-- The entry of a cluster in the first FAT. -/
def fatEntry (p : Partition) (s : FatData) (cluster : Word) : Word :=
  decode s.fatType (fatBytes p s) (fatIndex s.fatType cluster).toNat cluster

/-- The bytes of an entry that are read. -/
def entryWidth (fatType : Byte) : Nat := if fatType = 12 ∨ fatType = 16 then 2 else 4

/-- The cache holds sectors of the FAT. -/
def Coherent (p : Partition) (s : FatData) : Prop :=
  s.fatCachePosition = 0xFFFFFFFF ∨
    ∀ i < 2560, s.fatCache i = fatBytes p s (512 * s.fatCachePosition.toNat + i)

/-- No read of the disk to come fails. -/
def NoFaults (s : FatData) : Prop := ∀ n, s.faults n = none

/-- What a lookup may change: the cache, and the reads to come. -/
structure SameFiles (s t : FatData) : Prop where
  bootSector : t.bootSector = s.bootSector
  rootDirectory : t.rootDirectory = s.rootDirectory
  openedFiles : t.openedFiles = s.openedFiles
  dataSectionLba : t.dataSectionLba = s.dataSectionLba
  fatType : t.fatType = s.fatType
  totalSectors : t.totalSectors = s.totalSectors
  sectorsPerFat : t.sectorsPerFat = s.sectorsPerFat

section

variable {p : Partition} {s : FatData} {b b' : Buffer} {i i' : Nat} {c lba k : Word} {fatType : Byte}

theorem decode_congr (h : ∀ j < entryWidth fatType, b (i + j) = b' (i' + j)) :
    decode fatType b i c = decode fatType b' i' c := by
  have h16 : fatType = 12 ∨ fatType = 16 → b.load16 i = b'.load16 i' := fun ht => by
    rw [entryWidth, if_pos ht] at h
    exact Buffer.load16_congr h
  simp only [decode]
  split
  · rename_i h12
    rw [h16 (.inl h12)]
  split
  · rename_i h12 ht
    rw [h16 (.inr ht)]
  rename_i h12 ht
  rw [entryWidth, if_neg (not_or.mpr ⟨h12, ht⟩)] at h
  exact Buffer.load32_congr h

/-- The bytes from a later sector on. -/
theorem bytes_add_ofNat (n : Nat) : p.bytes (lba + BitVec.ofNat 32 n) i = p.bytes lba (512 * n + i) := by
  have hd : (512 * n + i) / 512 = n + i / 512 := by omega
  have hm : (512 * n + i) % 512 = i % 512 := by omega
  rw [Partition.bytes, Partition.bytes, hd, hm, BitVec.ofNat_add]
  rw [add_right_comm lba, add_assoc (lba + p.partitionOffset)]

theorem bytes_add : p.bytes (lba + k) i = p.bytes lba (512 * k.toNat + i) := by
  rw [← bytes_add_ofNat, BitVec.ofNat_toNat, BitVec.setWidth_eq]

theorem NoFaults.afterRead (hf : NoFaults s) : NoFaults s.afterRead := fun n => hf (n + 1)

/-- The cache is filled from a sector of the FAT on. -/
theorem fatReadFat_ok (hf : NoFaults s) (lbaIndex : Word) :
    (fatReadFat p s lbaIndex).2 = { s.afterRead with
      fatCache := s.fatCache.copy 0 (p.bytes (s.bootSector.reservedSectors.setWidth 32 + lbaIndex)) 2560 } := by
  rw [fatReadFat, mbrPartitionReadSector_ok (hf 0)]
  rfl

/-- The state in which `FAT_NextCluster` looks up an entry of a sector. -/
def loadWindow (p : Partition) (s : FatData) (fatIndexSector : Word) : FatData :=
  if fatIndexSector < s.fatCachePosition ∨ fatIndexSector ≥ s.fatCachePosition + FAT_CACHE_SIZE then
    { (fatReadFat p s fatIndexSector).2 with fatCachePosition := fatIndexSector }
  else s

theorem fatNextCluster_eq (p : Partition) (s : FatData) (c : Word) :
    fatNextCluster p s c =
      let t := loadWindow p s (fatIndex s.fatType c / sectorSize)
      (decode t.fatType t.cacheBytes (fatIndex s.fatType c - t.fatCachePosition * sectorSize).toNat c, t) :=
  rfl

/-- A sector that is not the mark of an empty cache is in the cache then. -/
theorem loadWindow_ok (hf : NoFaults s) (C : Coherent p s) (hk : k.toNat + 5 < 2 ^ 32) :
    let t := loadWindow p s k
    SameFiles s t ∧ NoFaults t ∧ t.fatCachePosition.toNat ≤ k.toNat ∧
      k.toNat < t.fatCachePosition.toNat + 5 ∧
        ∀ i < 2560, t.fatCache i = fatBytes p s (512 * t.fatCachePosition.toNat + i) := by
  simp only [loadWindow]
  split
  · rw [fatReadFat_ok hf]
    refine ⟨⟨rfl, rfl, rfl, rfl, rfl, rfl, rfl⟩, hf.afterRead, le_refl _, Nat.lt_add_of_pos_right (by decide),
      fun i hi => ?_⟩
    rw [fatBytes, ← bytes_add]
    exact if_pos ⟨Nat.zero_le _, by omega⟩
  · rename_i hin
    obtain ⟨hlo, hhi⟩ := not_or.mp hin
    have hlo : s.fatCachePosition.toNat ≤ k.toNat := BitVec.not_lt.mp hlo
    have hhi : k.toNat < (s.fatCachePosition + FAT_CACHE_SIZE).toNat := BitVec.not_le.mp hhi
    rw [BitVec.toNat_add, show FAT_CACHE_SIZE.toNat = 5 from rfl] at hhi
    refine ⟨⟨rfl, rfl, rfl, rfl, rfl, rfl, rfl⟩, hf, hlo, by omega, C.resolve_left fun e => ?_⟩
    rw [e, show (0xFFFFFFFF : Word).toNat = 2 ^ 32 - 1 from rfl] at hlo
    omega

/-- Whatever the cache holds, an entry is in it: it is in one sector, or in the first five. -/
def Whole (fatType : Byte) (c : Word) : Prop :=
  (fatIndex fatType c).toNat % 512 + entryWidth fatType ≤ 512 ∨
    (fatIndex fatType c).toNat + entryWidth fatType ≤ 2560

/-- A lookup leaves the files alone, and the cache coherent. -/
theorem fatNextCluster_keeps (hf : NoFaults s) (C : Coherent p s) (c : Word) :
    SameFiles s (fatNextCluster p s c).2 ∧ NoFaults (fatNextCluster p s c).2 ∧
      Coherent p (fatNextCluster p s c).2 := by
  have hidx := (fatIndex s.fatType c).isLt
  have hk : (fatIndex s.fatType c / sectorSize).toNat = (fatIndex s.fatType c).toNat / 512 :=
    BitVec.toNat_udiv
  obtain ⟨S, hf', -, -, hcache⟩ := loadWindow_ok (k := fatIndex s.fatType c / sectorSize) hf C (by omega)
  have hboot : (fatNextCluster p s c).2.bootSector = s.bootSector := S.bootSector
  refine ⟨S, hf', .inr fun i hi => ?_⟩
  rw [fatBytes, hboot]
  exact hcache i hi

/-- An entry that is all in the cache is looked up in the FAT on disk. -/
theorem fatNextCluster_window (hf : NoFaults s) (C : Coherent p s)
    (hw : (fatIndex s.fatType c).toNat + entryWidth s.fatType ≤
      512 * (loadWindow p s (fatIndex s.fatType c / sectorSize)).fatCachePosition.toNat + 2560) :
    (fatNextCluster p s c).1 = fatEntry p s c := by
  have hidx := (fatIndex s.fatType c).isLt
  have hk : (fatIndex s.fatType c / sectorSize).toNat = (fatIndex s.fatType c).toNat / 512 :=
    BitVec.toNat_udiv
  obtain ⟨S, -, hlo, hhi, hcache⟩ := loadWindow_ok (k := fatIndex s.fatType c / sectorSize) hf C (by omega)
  rw [fatNextCluster_eq]
  generalize loadWindow p s (fatIndex s.fatType c / sectorSize) = t at S hlo hhi hcache hw
  rw [hk] at hlo hhi
  have hmul : (t.fatCachePosition * sectorSize).toNat = t.fatCachePosition.toNat * 512 := by
    rw [BitVec.toNat_mul, show sectorSize.toNat = 512 from rfl]
    omega
  have hoff : (fatIndex s.fatType c - t.fatCachePosition * sectorSize).toNat =
      (fatIndex s.fatType c).toNat - 512 * t.fatCachePosition.toNat := by
    rw [BitVec.toNat_sub_of_le (by rw [BitVec.le_def]; omega), hmul, Nat.mul_comm]
  simp only [hoff, S.fatType, fatEntry]
  apply decode_congr
  intro j hj
  rw [FatData.cacheBytes, if_pos (by omega), hcache _ (by omega)]
  congr 1
  omega

/-- Whatever was in the cache before. -/
theorem fatNextCluster_ok (hf : NoFaults s) (C : Coherent p s) (hw : Whole s.fatType c) :
    (fatNextCluster p s c).1 = fatEntry p s c := by
  have hidx := (fatIndex s.fatType c).isLt
  have hk : (fatIndex s.fatType c / sectorSize).toNat = (fatIndex s.fatType c).toNat / 512 :=
    BitVec.toNat_udiv
  obtain ⟨-, -, hlo, hhi, -⟩ := loadWindow_ok (k := fatIndex s.fatType c / sectorSize) hf C (by omega)
  apply fatNextCluster_window hf C
  rw [Whole] at hw
  omega

end

end AlexOS.Stage2
