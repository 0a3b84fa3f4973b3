import AlexOS.Lib.Stream
import AlexOS.Stage2.Cache

/-!
# Reading a file in the bootloader

The sectors of a file are those of the clusters of its chain, in order
(`fileBytes`). `FAT_Read` takes a cluster from `0x0FF8` on for the end of the
chain, on every type of FAT, when it comes to a sector of it (`Continues`), so
that a file ends at the first such sector after its first (`IsLimit`). Up to
there reads deliver the bytes of the file, however they are split
(`fatRead_delivers`), and they are all of them if no sector that is asked for
is in such a cluster (`reads_exact_iff`).
-/

namespace AlexOS.Stage2

/-- An end mark, of 12 and 16 bits extended. -/
def IsEnd (fatType : Byte) (entry : Word) : Prop :=
  if fatType = 32 then 0x0FFFFFF8 ≤ entry ∧ entry ≤ 0x0FFFFFFF else 0xFFFFFFF8 ≤ entry

instance (fatType : Byte) (entry : Word) : Decidable (IsEnd fatType entry) := by
  unfold IsEnd
  infer_instance

/-- Sectors to a cluster. -/
def FatData.perCluster (s : FatData) : Nat := s.bootSector.sectorsPerCluster.toNat

def clusterCount (s : FatData) : Nat := (s.totalSectors.toNat - s.dataSectionLba.toNat) / s.perCluster

/-- The clusters of the volume. -/
def IsCluster (s : FatData) (c : Word) : Prop := 2 ≤ c.toNat ∧ c.toNat < clusterCount s + 2

instance (s : FatData) (c : Word) : Decidable (IsCluster s c) := inferInstanceAs (Decidable (_ ∧ _))

structure WellFormed (s : FatData) : Prop where
  sectorsPerCluster : 0 < s.perCluster
  metadata : s.dataSectionLba.toNat ≤ s.totalSectors.toNat
  fatType : s.fatType = 12 ∧ clusterCount s < 4085 ∨
    s.fatType = 16 ∧ 4085 ≤ clusterCount s ∧ clusterCount s < 65525 ∨
    s.fatType = 32 ∧ clusterCount s < 0x0FFFFFF5

/-- The chain of a file: clusters, each the successor of the one before it, up to an end mark. -/
structure IsChain (s : FatData) (successor : Word → Word) (chain : List Word) : Prop where
  clusters : ∀ c ∈ chain, IsCluster s c
  linked : chain.IsChain fun c d => successor c = d
  last : ∀ c ∈ chain.getLast?, IsEnd s.fatType (successor c)

/-- While `ok` holds, no read fails and `next` finds successors, and changes no more than the cache. -/
structure Follows (s₀ : FatData) (next : NextCluster) (ok : FatData → Prop) (successor : Word → Word) :
    Prop where
  value : ∀ s c, ok s → IsCluster s₀ c → (next s c).1 = successor c
  sameFiles : ∀ s c, ok s → IsCluster s₀ c → SameFiles s (next s c).2
  keep : ∀ s c, ok s → IsCluster s₀ c → ok (next s c).2
  noFaults : ∀ s, ok s → NoFaults s
  afterRead : ∀ s, ok s → ok s.afterRead
  setFile : ∀ s h fd, ok s → ok (s.setFile h fd)

/-- Where sector `j` of a file is. -/
def sectorLba (s : FatData) (chain : List Word) (j : Nat) : Nat :=
  s.dataSectionLba.toNat + ((chain.getD (j / s.perCluster) 0).toNat - 2) * s.perCluster + j % s.perCluster

/-- The bytes of the clusters of a chain. -/
def fileBytes (p : Partition) (s : FatData) (chain : List Word) : Buffer := fun i =>
  p.bytes (BitVec.ofNat 32 (sectorLba s chain (i / 512))) (i % 512)

/-- `FAT_Read` goes on to sector `j` of a file. -/
def Continues (s : FatData) (chain : List Word) (j : Nat) : Prop :=
  ∃ c, chain[j / s.perCluster]? = some c ∧ c < 0x0FF8

/-- Where the reads of a file end. -/
structure IsLimit (s : FatData) (chain : List Word) (size limit : Nat) : Prop where
  le : limit ≤ size
  below : ∀ j, 0 < j → 512 * j < limit → Continues s chain j
  stop : limit < size → ∃ j, 0 < j ∧ limit = 512 * j ∧ ¬ Continues s chain j

theorem exists_limit (s : FatData) (chain : List Word) (size : Nat) : ∃ limit, IsLimit s chain size limit := by
  classical
  by_cases h : ∃ j, 0 < j ∧ 512 * j < size ∧ ¬ Continues s chain j
  · obtain ⟨h0, hlt, hc⟩ := Nat.find_spec h
    refine ⟨512 * Nat.find h, hlt.le, fun j hj hjlt => ?_, fun _ => ⟨_, h0, rfl, hc⟩⟩
    by_contra hn
    exact Nat.find_min h (show j < Nat.find h by omega) ⟨hj, by omega, hn⟩
  · refine ⟨size, le_refl _, fun j hj hjlt => ?_, fun hlt => absurd hlt (lt_irrefl _)⟩
    by_contra hn
    exact h ⟨j, hj, hjlt, hn⟩

/-- The buffer of a file holds sector `j`, and the cursor is there. -/
structure AtSector (p : Partition) (s₀ : FatData) (chain : List Word) (j : Nat) (fd : FileData) : Prop where
  cluster : chain[j / s₀.perCluster]? = some fd.currentCluster
  sector : fd.currentSectorInCluster.toNat = j % s₀.perCluster
  buffer : ∀ i < 512, fd.buffer i = fileBytes p s₀ chain (512 * j + i)

/-- File `h` is open, on the volume of `s₀`. -/
structure Ready (s₀ : FatData) (ok : FatData → Prop) (h : Int) (s : FatData) : Prop where
  ok : ok s
  bootSector : s.bootSector = s₀.bootSector
  dataSectionLba : s.dataSectionLba = s₀.dataSectionLba
  handle : (s.file h).handle = h
  isDirectory : (s.file h).isDirectory = false

/-- File `h` is read up to byte `i`. -/
structure Cursor (p : Partition) (s₀ : FatData) (ok : FatData → Prop) (h : Int) (chain : List Word)
    (size limit i : Nat) (s : FatData) : Prop extends Ready s₀ ok h s where
  position : (s.file h).position.toNat = i
  le : i ≤ limit
  size : (s.file h).size.toNat = if i < limit then size else limit
  sector : i < limit → AtSector p s₀ chain (i / 512) (s.file h)

section

variable {p : Partition} {s s₀ : FatData} {ok : FatData → Prop} {next : NextCluster}
  {successor : Word → Word} {h : Int} {fd : FileData} {chain : List Word} {size limit i j n : Nat} {c : Word}

@[simp] theorem file_setFile : (s.setFile h fd).file h = fd := by
  rw [FatData.setFile, FatData.file]
  split
  · rfl
  · exact if_pos rfl

theorem sameFigures_setFile (s : FatData) (h : Int) (fd : FileData) :
    (s.setFile h fd).bootSector = s.bootSector ∧ (s.setFile h fd).dataSectionLba = s.dataSectionLba ∧
      (s.setFile h fd).fatType = s.fatType ∧ (s.setFile h fd).fatCache = s.fatCache ∧
        (s.setFile h fd).fatCachePosition = s.fatCachePosition ∧ (s.setFile h fd).faults = s.faults := by
  rw [FatData.setFile]
  split <;> exact ⟨rfl, rfl, rfl, rfl, rfl, rfl⟩

theorem Ready.setFile (F : Follows s₀ next ok successor) (R : Ready s₀ ok h s) (hh : fd.handle = h)
    (hd : fd.isDirectory = false) : Ready s₀ ok h (s.setFile h fd) := by
  obtain ⟨hboot, hlba, -⟩ := sameFigures_setFile s h fd
  exact ⟨F.setFile _ _ _ R.ok, hboot.trans R.bootSector, hlba.trans R.dataSectionLba,
    file_setFile ▸ hh, file_setFile ▸ hd⟩

theorem Ready.afterRead (F : Follows s₀ next ok successor) (R : Ready s₀ ok h s) :
    Ready s₀ ok h s.afterRead :=
  ⟨F.afterRead _ R.ok, R.bootSector, R.dataSectionLba, R.handle, R.isDirectory⟩

theorem toNat_minWord (x y : Word) : (minWord x y).toNat = min x.toNat y.toNat := by
  rw [minWord]
  split
  · rename_i hlt
    exact (Nat.min_eq_left (Nat.le_of_lt hlt)).symm
  · rename_i hlt
    exact (Nat.min_eq_right (BitVec.not_lt.mp hlt)).symm

/-! ## Sectors -/

/-- The sector that is read for the cursor. -/
theorem clusterToLba_ok (hboot : s.bootSector = s₀.bootSector)
    (hdata : s.dataSectionLba = s₀.dataSectionLba) (hc : IsCluster s₀ c)
    (hchain : chain[j / s₀.perCluster]? = some c) {k : Word} (hk : k.toNat = j % s₀.perCluster) :
    fatClusterToLba s c + k = BitVec.ofNat 32 (sectorLba s₀ chain j) := by
  have hspc : (s₀.bootSector.sectorsPerCluster.setWidth 32).toNat = s₀.perCluster :=
    BitVec.toNat_setWidth_of_le (by decide)
  have h2 : (c - 2).toNat = c.toNat - 2 := BitVec.toNat_sub_of_le hc.1
  rw [fatClusterToLba, hboot, hdata, BitVec.toNat_eq, BitVec.toNat_ofNat, sectorLba,
    List.getD_eq_getElem?_getD, hchain, Option.getD_some]
  simp only [BitVec.toNat_add, BitVec.toNat_mul, hspc, h2, hk]
  omega

theorem file_of_sameFiles {t : FatData} (S : SameFiles s t) (h : Int) : t.file h = s.file h := by
  rw [FatData.file, FatData.file, S.rootDirectory, S.openedFiles]

theorem le_of_isEnd {fatType : Byte} (h : IsEnd fatType c) : 0x0FF8 ≤ c := by
  rw [IsEnd] at h
  split at h
  · exact BitVec.le_trans (show (0x0FF8 : Word) ≤ 0x0FFFFFF8 by decide) h.1
  · exact BitVec.le_trans (show (0x0FF8 : Word) ≤ 0xFFFFFFF8 by decide) h

/-- The sector after the last of a cluster. -/
theorem succ_div_mod_last (h : j % n + 1 = n) : (j + 1) / n = j / n + 1 ∧ (j + 1) % n = 0 := by
  have := Nat.div_add_mod j n
  refine (Nat.div_mod_unique (by omega)).mpr ⟨?_, by omega⟩
  rw [Nat.mul_add, Nat.mul_one]
  omega

theorem succ_div_mod_of_lt (h : j % n + 1 < n) : (j + 1) / n = j / n ∧ (j + 1) % n = j % n + 1 := by
  have := Nat.div_add_mod j n
  exact (Nat.div_mod_unique (by omega)).mpr ⟨by omega, h⟩

/-- The cluster of the next sector, and the sector in it. -/
theorem lookup_ok (F : Follows s₀ next ok successor) (C : IsChain s₀ successor chain)
    (R : Ready s₀ ok h s) (A : AtSector p s₀ chain j (s.file h)) (hpos : 0 < s₀.perCluster) :
    let fd := s.file h
    let last := fd.currentSectorInCluster + 1 ≥ s.bootSector.sectorsPerCluster.setWidth 32
    let r : Word × FatData := if last then next s fd.currentCluster else (fd.currentCluster, s)
    Ready s₀ ok h r.2 ∧ r.2.file h = fd ∧
      (if last then 0 else fd.currentSectorInCluster + 1 : Word).toNat = (j + 1) % s₀.perCluster ∧
        (chain[(j + 1) / s₀.perCluster]? = some r.1 ∨
          chain[(j + 1) / s₀.perCluster]? = none ∧ 0x0FF8 ≤ r.1) := by
  have hspc : (s.bootSector.sectorsPerCluster.setWidth 32).toNat = s₀.perCluster := by
    rw [R.bootSector]
    exact BitVec.toNat_setWidth_of_le (by decide)
  have hlt : s₀.perCluster < 256 := s₀.bootSector.sectorsPerCluster.isLt
  have hmod := Nat.mod_lt j hpos
  have hsucc : ((s.file h).currentSectorInCluster + 1).toNat = j % s₀.perCluster + 1 := by
    rw [BitVec.toNat_add, A.sector, show (1 : Word).toNat = 1 from rfl]
    omega
  have hlast : (s.file h).currentSectorInCluster + 1 ≥ s.bootSector.sectorsPerCluster.setWidth 32 ↔
      j % s₀.perCluster + 1 = s₀.perCluster := by
    rw [ge_iff_le, BitVec.le_def, hspc, hsucc]
    omega
  obtain ⟨hj, hc⟩ := List.getElem?_eq_some_iff.mp A.cluster
  have hmem : (s.file h).currentCluster ∈ chain := hc ▸ List.getElem_mem hj
  have hcluster := C.clusters _ hmem
  simp only [hlast]
  by_cases e : j % s₀.perCluster + 1 = s₀.perCluster
  · have S := F.sameFiles _ _ R.ok hcluster
    obtain ⟨hdiv, hzero⟩ := succ_div_mod_last e
    rw [if_pos e, if_pos e, hdiv, hzero, F.value _ _ R.ok hcluster]
    refine ⟨⟨F.keep _ _ R.ok hcluster, S.bootSector.trans R.bootSector,
      S.dataSectionLba.trans R.dataSectionLba, ?_, ?_⟩, file_of_sameFiles S h, rfl, ?_⟩
    · rw [file_of_sameFiles S, R.handle]
    · rw [file_of_sameFiles S, R.isDirectory]
    · by_cases hn : j / s₀.perCluster + 1 < chain.length
      · apply Or.inl
        rw [List.getElem?_eq_getElem hn, ← List.isChain_iff_getElem.mp C.linked _ hn, hc]
      · refine .inr ⟨List.getElem?_eq_none (not_lt.mp hn), le_of_isEnd (C.last _ ?_)⟩
        have hlen : chain.length - 1 = j / s₀.perCluster := by
          generalize j / s₀.perCluster = q at hj hn ⊢
          omega
        rw [List.getLast?_eq_getElem?, hlen]
        exact A.cluster
  · obtain ⟨hdiv, hmod'⟩ := succ_div_mod_of_lt (show j % s₀.perCluster + 1 < s₀.perCluster by omega)
    rw [if_neg e, if_neg e, hdiv, hmod']
    exact ⟨R, rfl, hsucc, .inl A.cluster⟩

/-- At the end of a sector the cursor moves to the next one, or the file ends. -/
theorem nextSector_ok (F : Follows s₀ next ok successor) (C : IsChain s₀ successor chain)
    (R : Ready s₀ ok h s) (hne : h ≠ ROOT_DIRECTORY_HANDLE) (A : AtSector p s₀ chain j (s.file h))
    (hpos : 0 < s₀.perCluster) :
    let r := nextSector next p s h
    Ready s₀ ok h r.2 ∧ (r.2.file h).position = (s.file h).position ∧
      (Continues s₀ chain (j + 1) ∧ r.1 = true ∧ (r.2.file h).size = (s.file h).size ∧
          AtSector p s₀ chain (j + 1) (r.2.file h) ∨
        ¬ Continues s₀ chain (j + 1) ∧ r.1 = false ∧ (r.2.file h).size = (s.file h).position) := by
  obtain ⟨R₁, hfile, hsector, hcluster⟩ := lookup_ok F C R A hpos
  have hroot : ¬ (s.file h).handle = ROOT_DIRECTORY_HANDLE := by rwa [R.handle]
  simp only [nextSector, if_neg hroot]
  generalize (if (s.file h).currentSectorInCluster + 1 ≥ s.bootSector.sectorsPerCluster.setWidth 32 then
    next s (s.file h).currentCluster else ((s.file h).currentCluster, s)) = r at *
  generalize (if (s.file h).currentSectorInCluster + 1 ≥ s.bootSector.sectorsPerCluster.setWidth 32 then
    (0 : Word) else (s.file h).currentSectorInCluster + 1) = sector at *
  have keep : ∀ {t : FatData} {c : Word} {size : Word} {b : Buffer}, Ready s₀ ok h t →
      Ready s₀ ok h (t.setFile h { s.file h with
        currentCluster := c, currentSectorInCluster := sector, size := size, buffer := b }) :=
    fun R' => R'.setFile F R.handle R.isDirectory
  split
  · rename_i hend
    refine ⟨keep R₁, by rw [file_setFile], .inr ⟨fun ⟨c, hc, hlt⟩ => ?_, rfl, by rw [file_setFile]⟩⟩
    rcases hcluster with e | ⟨e, -⟩
    · rw [e] at hc
      cases hc
      exact absurd hlt (BitVec.not_lt.mpr hend)
    · rw [e] at hc
      cases hc
  · rename_i hgo
    have hcluster := hcluster.resolve_right fun ⟨_, hend⟩ => hgo hend
    obtain ⟨hj, hmem⟩ := List.getElem?_eq_some_iff.mp hcluster
    have hlba := clusterToLba_ok R₁.bootSector R₁.dataSectionLba
      (C.clusters _ (hmem ▸ List.getElem_mem hj)) hcluster hsector
    rw [hlba, mbrPartitionReadSector_ok (F.noFaults _ R₁.ok 0)]
    refine ⟨keep (R₁.afterRead F), by rw [file_setFile], .inl ⟨⟨_, hcluster, BitVec.not_le.mp hgo⟩, rfl,
      by rw [file_setFile], ?_⟩⟩
    rw [file_setFile]
    refine ⟨hcluster, hsector, fun i hi => ?_⟩
    have hdiv : (512 * (j + 1) + i) / 512 = j + 1 := by omega
    have hmod : (512 * (j + 1) + i) % 512 = i := by omega
    rw [fileBytes, hdiv, hmod]
    exact if_pos ⟨Nat.zero_le _, by rwa [SECTOR_SIZE, Nat.mul_one, Nat.zero_add]⟩

/-! ## Reads -/

namespace IsLimit

variable (L : IsLimit s₀ chain size limit)

include L

/-- The end is not before the end of a sector, or of the file. -/
theorem le_of_sector {e : Nat} (hi : i < limit) (he : e ≤ 512 * (i / 512 + 1)) (hs : e ≤ size) : e ≤ limit := by
  rcases L.le.lt_or_eq with hlt | rfl
  · obtain ⟨j, -, rfl, -⟩ := L.stop hlt
    omega
  · exact hs

/-- The file does not end where a read goes on. -/
theorem eq_size (h : ∀ j, limit = 512 * j → Continues s₀ chain j) : limit = size := by
  rcases L.le.lt_or_eq with hlt | e
  · obtain ⟨j, -, hj, hn⟩ := L.stop hlt
    exact absurd (h j hj) hn
  · exact e

end IsLimit

/-- A cursor whose file has its size. -/
theorem Cursor.of_ready (R : Ready s₀ ok h s) (hp : (s.file h).position.toNat = i) (hle : i ≤ limit)
    (hs : (s.file h).size.toNat = size) (hlim : i = limit → limit = size)
    (A : i < limit → AtSector p s₀ chain (i / 512) (s.file h)) : Cursor p s₀ ok h chain size limit i s := by
  refine ⟨R, hp, hle, ?_, A⟩
  split
  · exact hs
  · rename_i hn
    rw [hs, ← hlim (by omega)]

/-- The bytes of the buffer from the cursor on. -/
theorem Cursor.slice_eq (U : Cursor p s₀ ok h chain size limit i s) (hi : i < limit) {m : Nat}
    (hm : i % 512 + m ≤ 512) : (s.file h).buffer.slice ((s.file h).position % sectorSize).toNat m =
      (fileBytes p s₀ chain).slice i m := by
  have hp : ((s.file h).position % sectorSize).toNat = i % 512 := by
    rw [BitVec.toNat_umod, U.position]
    rfl
  rw [hp]
  apply Buffer.slice_congr
  intro j hj
  rw [(U.sector hi).buffer _ (by omega)]
  congr 1
  omega

/-- What is left in the sector. -/
theorem toNat_leftInBuffer (pos : Word) : (sectorSize - pos % sectorSize).toNat = 512 - pos.toNat % 512 := by
  have hm : (pos % sectorSize).toNat = pos.toNat % 512 := BitVec.toNat_umod
  rw [BitVec.toNat_sub_of_le, hm]
  · rfl
  · rw [BitVec.le_def, hm]
    exact (Nat.mod_lt _ (by decide)).le

/-- The position after a round. -/
theorem Cursor.toNat_position (U : Cursor p s₀ ok h chain size limit i s) {take : Word}
    (hle : i + take.toNat ≤ size)
    (hsize : size < 2 ^ 32) : ((s.file h).position + take).toNat = i + take.toNat := by
  rw [BitVec.toNat_add, U.position]
  omega

/-- A round that ends within the sector. -/
theorem Cursor.within (F : Follows s₀ next ok successor) (hsize : size < 2 ^ 32) (L : IsLimit s₀ chain size limit)
    (U : Cursor p s₀ ok h chain size limit i s) (hi : i < limit) {take : Word} (ht : i % 512 + take.toNat < 512)
    (hle : i + take.toNat ≤ size) : Cursor p s₀ ok h chain size limit (i + take.toNat)
      (s.setFile h { s.file h with position := (s.file h).position + take }) := by
  have A := U.sector hi
  refine .of_ready (U.toReady.setFile F U.handle U.isDirectory) ?_ (L.le_of_sector hi (by omega) hle) ?_
    (fun e => L.eq_size fun j hj => by omega) fun _ => ?_
  · rw [file_setFile, U.toNat_position hle hsize]
  · rw [file_setFile]
    exact U.size.trans (if_pos hi)
  · rw [file_setFile, show (i + take.toNat) / 512 = i / 512 by omega]
    exact ⟨A.cluster, A.sector, A.buffer⟩

/-- One that ends with the sector: the next one is read, or the file ends there. -/
theorem Cursor.nextSector_ok (F : Follows s₀ next ok successor) (C : IsChain s₀ successor chain)
    (hne : h ≠ ROOT_DIRECTORY_HANDLE) (hpos : 0 < s₀.perCluster) (hsize : size < 2 ^ 32)
    (L : IsLimit s₀ chain size limit) (U : Cursor p s₀ ok h chain size limit i s) (hi : i < limit)
    {take : Word} (ht : i % 512 + take.toNat = 512) (hle : i + take.toNat ≤ size) :
    let r := nextSector next p (s.setFile h { s.file h with position := (s.file h).position + take }) h
    Cursor p s₀ ok h chain size limit (i + take.toNat) r.2 ∧
      if r.1 then i + take.toNat = limit → limit = size else limit = i + take.toNat := by
  intro r
  have A := U.sector hi
  have hposition := U.toNat_position hle hsize
  have hle' : i + take.toNat ≤ limit := L.le_of_sector hi (by omega) hle
  have A₁ : AtSector p s₀ chain (i / 512)
      ((s.setFile h { s.file h with position := (s.file h).position + take }).file h) := by
    rw [file_setFile]
    exact ⟨A.cluster, A.sector, A.buffer⟩
  have R₁ : Ready s₀ ok h (s.setFile h { s.file h with position := (s.file h).position + take }) :=
    U.toReady.setFile F U.handle U.isDirectory
  obtain ⟨R₂, hp, ⟨hc, hret, hs₂, A₂⟩ | ⟨hc, hret, hs₂⟩⟩ :=
    Stage2.nextSector_ok F C R₁ hne A₁ hpos
  all_goals rw [file_setFile] at hp hs₂
  · have hlim : i + take.toNat = limit → limit = size := fun e => L.eq_size fun j hj => by
      rwa [show j = i / 512 + 1 by omega]
    rw [if_pos hret]
    refine ⟨.of_ready R₂ (by rw [hp, hposition]) hle' (by rw [hs₂, U.size.trans (if_pos hi)]) hlim
      fun _ => ?_, hlim⟩
    rwa [show (i + take.toNat) / 512 = i / 512 + 1 by omega]
  · -- the file ends here
    have hlim : limit = i + take.toNat := by
      refine le_antisymm (not_lt.mp fun hlt => hc (L.below _ (Nat.succ_pos _) (by omega))) hle'
    rw [if_neg (by rw [hret]; exact Bool.false_ne_true)]
    refine ⟨⟨R₂, by rw [hp, hposition], hle', ?_, fun hlt => absurd hlt (by omega)⟩, hlim⟩
    rw [if_neg (by omega), hs₂, hposition, hlim]

/-- A round of `FAT_Read`. -/
theorem readLoop_ok (F : Follows s₀ next ok successor) (C : IsChain s₀ successor chain)
    (hne : h ≠ ROOT_DIRECTORY_HANDLE) (hpos : 0 < s₀.perCluster) (hsize : size < 2 ^ 32)
    (L : IsLimit s₀ chain size limit) {b : Word} (hn : b.toNat ≤ n) (hb : i + b.toNat ≤ size)
    (hgo : 0 < b.toNat → i < limit) (U : Cursor p s₀ ok h chain size limit i s) (done : Word) (out : List Byte) :
    let k := min b.toNat (limit - i)
    ∃ s', readLoop next p h n s b done out =
        (done + BitVec.ofNat 32 k, out ++ (fileBytes p s₀ chain).slice i k, s') ∧
      Cursor p s₀ ok h chain size limit (i + k) s' := by
  induction n generalizing s i b done out with
  | zero =>
    have h0 : min b.toNat (limit - i) = 0 := by omega
    rw [h0]
    exact ⟨s, by rw [readLoop, Buffer.slice_zero, List.append_nil, BitVec.add_zero], U⟩
  | succ n ih =>
    by_cases h0 : b > 0
    swap
    · have hz : b.toNat = 0 := Nat.eq_zero_of_not_pos h0
      rw [hz, Nat.zero_min, readLoop, if_neg h0]
      exact ⟨s, by rw [Buffer.slice_zero, List.append_nil, BitVec.add_zero], U⟩
    have hi := hgo h0
    have hb0 : 0 < b.toNat := h0
    -- the bytes of a round are in one sector
    have hleft := toNat_leftInBuffer (s.file h).position
    rw [U.position] at hleft
    have htake : (minWord b (sectorSize - (s.file h).position % sectorSize)).toNat =
        min b.toNat (512 - i % 512) := by rw [toNat_minWord, hleft]
    have hiff : sectorSize - (s.file h).position % sectorSize =
        minWord b (sectorSize - (s.file h).position % sectorSize) ↔ 512 - i % 512 ≤ b.toNat := by
      rw [BitVec.toNat_eq, htake, hleft]
      omega
    simp only [readLoop, if_pos h0, hiff]
    generalize minWord b (sectorSize - (s.file h).position % sectorSize) = take at htake
    rw [U.slice_eq hi (by omega)]
    have hrest : (b - take).toNat = b.toNat - take.toNat :=
      BitVec.toNat_sub_of_le (by rw [BitVec.le_def]; omega)
    have hle : i + take.toNat ≤ limit := L.le_of_sector hi (by omega) (by omega)
    have hsum : ∀ k, done + take + BitVec.ofNat 32 k = done + BitVec.ofNat 32 (take.toNat + k) := fun k => by
      rw [BitVec.ofNat_add, BitVec.ofNat_toNat, BitVec.setWidth_eq, BitVec.add_assoc]
    have go : ∀ t, (0 < (b - take).toNat → i + take.toNat < limit) →
        Cursor p s₀ ok h chain size limit (i + take.toNat) t →
          ∃ s', readLoop next p h n t (b - take) (done + take)
              (out ++ (fileBytes p s₀ chain).slice i take.toNat) =
            (done + BitVec.ofNat 32 (min b.toNat (limit - i)),
              out ++ (fileBytes p s₀ chain).slice i (min b.toNat (limit - i)), s') ∧
            Cursor p s₀ ok h chain size limit (i + min b.toNat (limit - i)) s' := by
      intro t hgo' U'
      obtain ⟨s', e, U''⟩ := ih (by omega) (by omega) hgo' U' _ _
      have hk : take.toNat + min (b - take).toNat (limit - (i + take.toNat)) = min b.toNat (limit - i) := by
        omega
      refine ⟨s', e.trans ?_, ?_⟩
      · rw [hsum, hk, List.append_assoc, Buffer.slice_append, hk]
      · rwa [Nat.add_assoc, hk] at U''
    by_cases hfull : 512 - i % 512 ≤ b.toNat
    swap
    · rw [if_neg hfull]
      exact go _ (by omega) (U.within F hsize L hi (by omega) (by omega))
    rw [if_pos hfull]
    have hsector : i % 512 + take.toNat = 512 := by omega
    obtain ⟨U', hend⟩ := U.nextSector_ok F C hne hpos hsize L hi hsector (by omega)
    split at hend
    · rename_i hret
      rw [if_pos hret]
      refine go _ (fun hr => ?_) U'
      rcases hle.lt_or_eq with hlt | e
      · exact hlt
      · have := hend e
        omega
    · rename_i hret
      have hk : min b.toNat (limit - i) = take.toNat := by omega
      rw [if_neg hret, hk, BitVec.ofNat_toNat, BitVec.setWidth_eq]
      exact ⟨_, rfl, U'⟩

/-- Reads deliver the bytes of the file up to its limit. -/
theorem fatRead_delivers (F : Follows s₀ next ok successor) (C : IsChain s₀ successor chain)
    (hne : h ≠ ROOT_DIRECTORY_HANDLE) (hpos : 0 < s₀.perCluster) (hsize : size < 2 ^ 32)
    (L : IsLimit s₀ chain size limit) : Stream.Delivers (fun s count => fatRead next p s h count)
      (fileBytes p s₀ chain) limit (Cursor p s₀ ok h chain size limit) := by
  intro s i count U
  have hle := U.le
  have hd : ¬ (s.file h).isDirectory ∨ (s.file h).isDirectory ∧ (s.file h).size ≠ 0 :=
    .inl (by rw [U.isDirectory]; exact Bool.false_ne_true)
  have hclamp : (minWord count ((s.file h).size - (s.file h).position)).toNat =
      min count.toNat ((if i < limit then size else limit) - i) := by
    have hsub : (s.file h).position.toNat ≤ (s.file h).size.toNat := by
      rw [U.size, U.position]
      have := L.le
      split <;> omega
    rw [toNat_minWord, BitVec.toNat_sub_of_le hsub, U.size, U.position]
  simp only [fatRead, if_pos hd]
  generalize minWord count ((s.file h).size - (s.file h).position) = b at hclamp
  have hbound : 0 < b.toNat → i < limit := fun h0 => by
    split at hclamp <;> omega
  have hlim := L.le
  have hb : i + b.toNat ≤ size := by split at hclamp <;> omega
  obtain ⟨s', e, U'⟩ := readLoop_ok F C hne hpos hsize L (le_refl _) hb hbound U 0 []
  have hk : min b.toNat (limit - i) = min count.toNat (limit - i) := by
    split at hclamp <;> omega
  rw [hk] at e U'
  rw [e]
  refine ⟨?_, List.nil_append _, U'⟩
  show (0 + BitVec.ofNat 32 (min count.toNat (limit - i)) : Word).toNat = _
  rw [zero_add, BitVec.toNat_ofNat]
  omega

/-! ## Opening -/

theorem scanHandles_nonneg {i : Int} (hi : 0 ≤ i) (hs : scanHandles s n i = some h) : 0 ≤ h := by
  induction n generalizing i with
  | zero => cases hs
  | succ n ih =>
    rw [scanHandles] at hs
    split at hs
    · exact ih (by omega) hs
    · cases hs
      exact hi

/-- A file that is not a directory is opened at its first byte. -/
theorem fatOpenEntry_ok {s' : FatData} {entry : DirectoryEntry} (F : Follows s next ok successor) (hok : ok s)
    (ho : fatOpenEntry p s entry = (some h, s'))
    (hreg : entry.fileAttribute &&& FAT_ATTRIBUTE_DIRECTORY = 0) (C : IsChain s successor chain)
    (hfirst : ∀ c ∈ chain.head?, c = entry.firstCluster)
    (hcover : entry.fileSize.toNat ≤ 512 * s.perCluster * chain.length)
    (L : IsLimit s chain entry.fileSize.toNat limit) :
    h ≠ ROOT_DIRECTORY_HANDLE ∧ Cursor p s ok h chain entry.fileSize.toNat limit 0 s' := by
  rw [fatOpenEntry] at ho
  cases hs : scanHandles s MAX_FILE_HANDLES 0 with
  | none =>
    rw [hs] at ho
    cases ho
  | some handle =>
    have h0 := scanHandles_nonneg (le_refl _) hs
    have hread : mbrPartitionReadSector p s (fatClusterToLba s entry.firstCluster) 1
      (s.openedFiles handle).buffer = _ :=
      mbrPartitionReadSector_ok (F.noFaults s hok 0)
    rw [hs] at ho
    simp only [hread, if_pos] at ho
    cases ho
    obtain ⟨hboot, hlba, -⟩ := sameFigures_setFile s.afterRead h
      ⟨(s.openedFiles h).buffer.copy 0 (p.bytes (fatClusterToLba s entry.firstCluster)) (SECTOR_SIZE * 1),
        h, entry.fileAttribute &&& FAT_ATTRIBUTE_DIRECTORY ≠ 0, 0, entry.fileSize, true,
        entry.firstCluster, entry.firstCluster, 0⟩
    have hregular : decide (entry.fileAttribute &&& FAT_ATTRIBUTE_DIRECTORY ≠ 0) = false :=
      decide_eq_false (not_not.mpr hreg)
    have R : Ready s ok h _ := ⟨F.setFile _ _ _ (F.afterRead _ hok), hboot, hlba, by rw [file_setFile],
      by rw [file_setFile, hregular]⟩
    have hlim : 0 = limit → limit = entry.fileSize.toNat := fun e => by
      rcases L.le.lt_or_eq with hlt | e'
      · obtain ⟨j, hj, hj', -⟩ := L.stop hlt
        omega
      · exact e'
    refine ⟨by rw [ROOT_DIRECTORY_HANDLE]; omega, .of_ready R (by rw [file_setFile]; rfl) (Nat.zero_le _)
      (by rw [file_setFile]) hlim fun h0 => ?_⟩
    -- the file has a first cluster
    have hlen : 0 < chain.length := by
      have := L.le
      exact Nat.pos_of_ne_zero fun e => by rw [e] at hcover; omega
    have hhead : chain[0 / s.perCluster]? = some entry.firstCluster := by
      rw [Nat.zero_div, List.getElem?_eq_getElem hlen, ← hfirst chain[0] (by
        rw [List.head?_eq_getElem?, List.getElem?_eq_getElem hlen]; rfl)]
    have hcluster := C.clusters _ (List.mem_of_getElem? hhead)
    have hlba' := clusterToLba_ok (k := 0) rfl rfl hcluster hhead (by rw [Nat.zero_mod]; rfl)
    rw [show fatClusterToLba s entry.firstCluster + 0 = fatClusterToLba s entry.firstCluster from add_zero _]
      at hlba'
    rw [file_setFile]
    refine ⟨hhead, (Nat.zero_mod _).symm, fun i hi => ?_⟩
    have hmod : (512 * (0 / 512) + i) % 512 = i := by omega
    have hdiv : (512 * (0 / 512) + i) / 512 = 0 := by omega
    rw [fileBytes, hdiv, hmod, ← hlba']
    exact if_pos ⟨Nat.zero_le _, by rwa [SECTOR_SIZE, Nat.mul_one, Nat.zero_add]⟩

/-- The bytes of the reads are the first `n` bytes of `content`, and each read returns the number of its
bytes. -/
def ReadsExactly (rs : List (Word × List Byte)) (content : Buffer) (n : Nat) : Prop :=
  (rs.map Prod.snd).flatten = content.slice 0 n ∧ ∀ r ∈ rs, r.1.toNat = r.2.length

/-- The sectors that come up within `n` bytes do not end the file. -/
theorem IsLimit.le_iff (L : IsLimit s chain size limit) (hn : n ≤ size) :
    n ≤ limit ↔ ∀ j, 0 < j → 512 * j < n → Continues s chain j := by
  refine ⟨fun h j hj hlt => L.below j hj (by omega), fun h => ?_⟩
  by_contra hlt
  obtain ⟨j, hj, rfl, hc⟩ := L.stop (by omega)
  exact hc (h j hj (by omega))

/-- When the reads of a file that was opened return its bytes. -/
theorem reads_exact_iff {s' : FatData} {entry : DirectoryEntry} (W : WellFormed s)
    (F : Follows s next ok successor) (hok : ok s) (ho : fatOpenEntry p s entry = (some h, s'))
    (hreg : entry.fileAttribute &&& FAT_ATTRIBUTE_DIRECTORY = 0) (C : IsChain s successor chain)
    (hfirst : ∀ c ∈ chain.head?, c = entry.firstCluster)
    (hcover : entry.fileSize.toNat ≤ 512 * s.perCluster * chain.length) (counts : List Word) :
    ReadsExactly (Stream.reads (fun s count => fatRead next p s h count) s' counts) (fileBytes p s chain)
        (min (counts.map BitVec.toNat).sum entry.fileSize.toNat) ↔
      ∀ j, 0 < j → 512 * j < min (counts.map BitVec.toNat).sum entry.fileSize.toNat →
        Continues s chain j := by
  obtain ⟨limit, L⟩ := exists_limit s chain entry.fileSize.toNat
  obtain ⟨hne, U⟩ := fatOpenEntry_ok F hok ho hreg C hfirst hcover L
  have D := fatRead_delivers (p := p) F C hne W.sectorsPerCluster entry.fileSize.isLt L
  have hle := L.le
  rw [ReadsExactly, D.flatten_reads U, and_iff_left (D.returned_reads U counts),
    ← L.le_iff (Nat.min_le_right _ _), Nat.sub_zero]
  refine ⟨fun e => ?_, fun hlim => ?_⟩
  · have := congrArg List.length e
    rw [Buffer.length_slice, Buffer.length_slice] at this
    omega
  · congr 1
    omega

/-! ## `FAT_NextCluster` -/

/-- The cache holds what it should for the volume of `s₀`, and no read of the disk fails. -/
structure Cached (p : Partition) (s₀ s : FatData) : Prop where
  bootSector : s.bootSector = s₀.bootSector
  fatType : s.fatType = s₀.fatType
  noFaults : NoFaults s
  coherent : Coherent p s

namespace Cached

theorem afterRead (K : Cached p s₀ s) : Cached p s₀ s.afterRead :=
  ⟨K.bootSector, K.fatType, K.noFaults.afterRead, K.coherent⟩

theorem setFile (K : Cached p s₀ s) (h : Int) (fd : FileData) : Cached p s₀ (s.setFile h fd) := by
  obtain ⟨hboot, -, htype, hcache, hpos, hfaults⟩ := sameFigures_setFile s h fd
  refine ⟨hboot.trans K.bootSector, htype.trans K.fatType, fun n => by rw [hfaults]; exact K.noFaults n, ?_⟩
  rw [Coherent, hpos, hcache, fatBytes, hboot]
  exact K.coherent

theorem lookup (K : Cached p s₀ s) (c : Word) : Cached p s₀ (fatNextCluster p s c).2 := by
  obtain ⟨S, hf, hc⟩ := fatNextCluster_keeps K.noFaults K.coherent c
  exact ⟨S.bootSector.trans K.bootSector, S.fatType.trans K.fatType, hf, hc⟩

end Cached

/-- Entries of 16 and 32 bits are in one sector. -/
theorem fatIndex_sector {fatType : Byte} (ht : fatType = 16 ∨ fatType = 32) (c : Word) :
    (fatIndex fatType c).toNat % 512 + entryWidth fatType ≤ 512 := by
  rcases ht with rfl | rfl
  · have e : fatIndex 16 c = c * 2 := rfl
    rw [e, BitVec.toNat_mul, show (2 : Word).toNat = 2 from rfl, show entryWidth 16 = 2 from rfl]
    omega
  · have e : fatIndex 32 c = c * 4 := rfl
    rw [e, BitVec.toNat_mul, show (4 : Word).toNat = 4 from rfl, show entryWidth 32 = 4 from rfl]
    omega

/-- On volumes of 16 and 32 bits, `FAT_NextCluster` finds the successors in the FAT on disk. -/
theorem follows_fatNextCluster (ht : s₀.fatType = 16 ∨ s₀.fatType = 32) :
    Follows s₀ (fatNextCluster p) (Cached p s₀) (fatEntry p s₀) := by
  have keeps := fun s c (K : Cached p s₀ s) => fatNextCluster_keeps K.noFaults K.coherent c
  refine ⟨fun s c K _ => ?_, fun s c K _ => (keeps s c K).1, fun s c K _ => K.lookup c, fun s K => K.noFaults,
    fun s K => K.afterRead, fun s h fd K => K.setFile h fd⟩
  rw [fatNextCluster_ok K.noFaults K.coherent (.inl (K.fatType ▸ fatIndex_sector ht c)), fatEntry, fatEntry, fatBytes,
    fatBytes, K.bootSector, K.fatType]

/-! ## A volume of 16 bits -/

/-- A FAT of 16 bits, in sectors 1 to 17. Clusters 2 and 3 are a file, and so are `0xFF7` and
`0xFF8`. -/
def bigPartition : Partition where
  sector l :=
    if l = 1 then Buffer.ofList [0xF8, 0xFF, 0xFF, 0xFF, 3, 0, 0xFF, 0xFF]
    else if l = 16 then Buffer.ofList (List.replicate 494 0 ++ [0xF8, 0x0F, 0xFF, 0xFF])
    else fun _ => l.setWidth 8
  partitionOffset := 0

/-- 4100 clusters, after 19 sectors. -/
def bigData : FatData where
  bootSector := ⟨512, 1, 1, 1, 16, 4119, 17, 0, 0, 0⟩
  rootDirectory := ⟨fun _ => 0, -1, true, 0, 512, true, 18, 18, 0⟩
  openedFiles _ := ⟨fun _ => 0, 0, false, 0, 0, false, 0, 0, 0⟩
  fatCache _ := 0
  fatCachePosition := 0xFFFFFFFF
  dataSectionLba := 19
  fatType := 16
  totalSectors := 4119
  sectorsPerFat := 17
  faults _ := none

theorem wellFormed_bigData : WellFormed bigData :=
  ⟨by decide, by decide, .inr (.inl ⟨rfl, by decide, by decide⟩)⟩

theorem cached_bigData : Cached bigPartition bigData bigData := ⟨rfl, rfl, fun _ => rfl, .inl rfl⟩

/-- A chain of two clusters. -/
theorem isChain_pair {c d : Word} (hc : IsCluster bigData c) (hd : IsCluster bigData d)
    (h : fatEntry bigPartition bigData c = d) (hend : IsEnd 16 (fatEntry bigPartition bigData d)) :
    IsChain bigData (fatEntry bigPartition bigData) [c, d] := by
  refine ⟨fun x hx => ?_, by simpa using h, fun x hx => ?_⟩
  · rcases List.mem_pair.mp hx with rfl | rfl
    · exact hc
    · exact hd
  · cases hx
    exact hend

theorem opened_bigData (entry : DirectoryEntry) : fatOpenEntry bigPartition bigData entry =
    (some 0, (fatOpenEntry bigPartition bigData entry).2) := rfl

/-- Two reads of the file in clusters 2 and 3. -/
theorem reads_exact_bigData : ReadsExactly (Stream.reads
    (fun s count => fatRead (fatNextCluster bigPartition) bigPartition s 0 count)
      (fatOpenEntry bigPartition bigData ⟨[], 0, 0, 2, 600⟩).2 [100, 1000])
    (fileBytes bigPartition bigData [2, 3]) 600 := by
  have C : IsChain bigData (fatEntry bigPartition bigData) [2, 3] :=
    isChain_pair (by decide) (by decide) (by decide) (by decide)
  refine (reads_exact_iff wellFormed_bigData (follows_fatNextCluster (.inl rfl)) cached_bigData
    (opened_bigData ⟨[], 0, 0, 2, 600⟩) rfl C (fun c hc => ?_) (by decide) [100, 1000]).mpr
      fun j hj hlt => ?_
  · cases hc
    decide
  · have hj1 : j = 1 := by
      have : 512 * j < 600 := hlt
      omega
    rw [hj1]
    exact ⟨3, rfl, by decide⟩

/-- A file of two sectors is cut off before cluster `0xFF8`. -/
theorem reads_not_exact : ¬ ∀ (p : Partition) (s s' : FatData) (ok : FatData → Prop) (next : NextCluster)
    (successor : Word → Word) (h : Int) (chain : List Word) (entry : DirectoryEntry) (counts : List Word),
    WellFormed s → Follows s next ok successor → ok s → fatOpenEntry p s entry = (some h, s') →
      entry.fileAttribute &&& FAT_ATTRIBUTE_DIRECTORY = 0 → IsChain s successor chain →
        (∀ c ∈ chain.head?, c = entry.firstCluster) →
          entry.fileSize.toNat ≤ 512 * s.perCluster * chain.length →
            ReadsExactly (Stream.reads (fun s count => fatRead next p s h count) s' counts)
              (fileBytes p s chain) (min (counts.map BitVec.toNat).sum entry.fileSize.toNat) := by
  intro H
  have C : IsChain bigData (fatEntry bigPartition bigData) [0xFF7, 0xFF8] :=
    isChain_pair (by decide +kernel) (by decide +kernel) (by decide +kernel) (by decide +kernel)
  obtain ⟨hbytes, -⟩ := H bigPartition bigData _ _ _ _ 0 _ ⟨[], 0, 0, 0xFF7, 1024⟩ [1024] wellFormed_bigData
    (follows_fatNextCluster (.inl rfl)) cached_bigData (opened_bigData _) rfl C
      (fun c hc => by cases hc; decide) (by decide)
  have hlen := congrArg List.length hbytes
  have h512 : ((Stream.reads (fun s count => fatRead (fatNextCluster bigPartition) bigPartition s 0 count)
      (fatOpenEntry bigPartition bigData ⟨[], 0, 0, 0xFF7, 1024⟩).2 [1024]).map Prod.snd).flatten.length =
      512 := by decide +kernel
  rw [h512, Buffer.length_slice] at hlen
  exact absurd hlen (by decide)

end

end AlexOS.Stage2
