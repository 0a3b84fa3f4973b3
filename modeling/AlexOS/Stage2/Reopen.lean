import AlexOS.Lib.LinkedList
import AlexOS.Stage2.Directory
import AlexOS.Stage2.Layout

/-!
# Opening files again in the bootloader

`FAT_Close` of the root directory sets its position back to 0, but its buffer
keeps the sector that was read last, and the next search takes that one for
the first (`leftEntry`). Two runs on a mounted volume that have opened the same
directory go on alike (`Pair`), so that paths are opened as before if, and only
if, searches for their first components find the same with that sector
(`reopen_iff`).
-/

namespace AlexOS.Stage2

def DirectoryEntry.isDirectory (e : DirectoryEntry) : Bool := e.fileAttribute &&& FAT_ATTRIBUTE_DIRECTORY ≠ 0

/-- Sectors to a cluster, as `FAT_Read` goes through them. -/
def FatData.clusterSectors (s : FatData) : Nat := max 1 s.perCluster

/-- `D` has the clusters of all directories, and `FAT_NextCluster` finds their entries whatever is in the cache. -/
structure Uncut (p : Partition) (s₀ : FatData) (D : Set Word) : Prop where
  root : ∀ i, entryCount s₀ = 0 ∨ i < entryCount s₀ → (rootEntry p s₀ i).isDirectory = true →
    (rootEntry p s₀ i).firstCluster ∈ D
  entries : ∀ c ∈ D, ∀ sector < s₀.clusterSectors, ∀ i < 16,
    (entryAt (p.bytes (fatClusterToLba s₀ c + BitVec.ofNat 32 sector)) (32 * i)).isDirectory = true →
      (entryAt (p.bytes (fatClusterToLba s₀ c + BitVec.ofNat 32 sector)) (32 * i)).firstCluster ∈ D
  next : ∀ c ∈ D, fatEntry p s₀ c < 0x0FF8 → fatEntry p s₀ c ∈ D
  whole : ∀ c ∈ D, Whole s₀.fatType c

/-- A directory, `n` entries after its start, in a sector of the `j`-th cluster after `first`. -/
structure DirAt (p : Partition) (s₀ : FatData) (first : Word) (j sector n : Nat) (fd : FileData) : Prop where
  position : fd.position = BitVec.ofNat 32 (32 * n)
  place : n / 16 = s₀.clusterSectors * j + sector
  cluster : fd.currentCluster = (fatEntry p s₀)^[j] first
  sectorInCluster : fd.currentSectorInCluster = BitVec.ofNat 32 sector
  sector_lt : sector < s₀.clusterSectors
  below : ∀ i, 0 < i → i ≤ j → (fatEntry p s₀)^[i] first < 0x0FF8
  buffer : ∀ i < 512, fd.buffer i = p.bytes (fatClusterToLba s₀ fd.currentCluster + fd.currentSectorInCluster) i

section

variable {p : Partition} {s s₀ t : FatData} {fd fd' : FileData} {D : Set Word} {first c : Word} {j n sector : Nat}

theorem DirAt.mem (A : DirAt p s₀ first j sector n fd) (U : Uncut p s₀ D) (h : first ∈ D) :
    fd.currentCluster ∈ D := by
  rw [A.cluster]
  have key : ∀ i ≤ j, (fatEntry p s₀)^[i] first ∈ D := by
    intro i
    induction i with
    | zero => exact fun _ => h
    | succ i ih =>
      intro hi
      have hb := A.below (i + 1) (Nat.succ_pos i) hi
      rw [Function.iterate_succ_apply'] at hb ⊢
      exact U.next _ (ih (by omega)) hb
  exact key j (le_refl j)

theorem clusterSectors_le (s : FatData) : s.clusterSectors ≤ 255 := by
  have h : s.perCluster < 2 ^ 8 := BitVec.isLt _
  rw [FatData.clusterSectors]
  omega

/-- Before the first cluster that ends a directory there are no more than there are numbers below. -/
theorem DirAt.le (A : DirAt p s₀ first j sector n fd) (h : ¬ (fatEntry p s₀)^[j + 1] first < 0x0FF8) :
    j ≤ 0x0FF8 := by
  have hin : ∀ i, 0 < i → i ≤ j →
    (fatEntry p s₀)^[i] first ∈ (Finset.range 0x0FF8).image (BitVec.ofNat 32) := by
    intro i h0 hi
    have hlt : ((fatEntry p s₀)^[i] first).toNat < 0x0FF8 := A.below i h0 hi
    refine Finset.mem_image.mpr ⟨_, Finset.mem_range.mpr hlt, ?_⟩
    rw [BitVec.ofNat_toNat, BitVec.setWidth_eq]
  have hcard := Finset.card_image_le (s := Finset.range 0x0FF8) (f := BitVec.ofNat 32)
  rw [Finset.card_range] at hcard
  refine (iterate_le_card hin fun hm => h ?_).trans hcard
  obtain ⟨x, hx, e⟩ := Finset.mem_image.mp hm
  rw [← e]
  have hx := Finset.mem_range.mp hx
  show (BitVec.ofNat 32 x).toNat < 0x0FF8
  rw [BitVec.toNat_ofNat]
  omega

/-- What a search of a directory relies on. -/
structure OpenDir (p : Partition) (s₀ : FatData) (D : Set Word) (fd : FileData) : Prop where
  handle : fd.handle = 0
  aligned : fd.position.toNat % 32 = 0
  place : HasEntry fd → ∃ first ∈ D, ∃ j sector n, DirAt p s₀ first j sector n fd

/-- At the end of a directory, there is no entry. -/
theorem DirAt.not_hasEntry (A : DirAt p s₀ first j sector n fd) (hj : j ≤ 0x0FF8) (hn : n % 16 = 15)
    (hpos : fd'.position = fd.position + 32) (hsize : fd'.size = fd'.position) : ¬ HasEntry fd' := by
  have h255 := clusterSectors_le s₀
  have hplace := A.place
  have hlt := A.sector_lt
  have hmul : s₀.clusterSectors * j ≤ 255 * 0x0FF8 := Nat.mul_le_mul h255 hj
  have hp : fd'.position.toNat = 32 * n + 32 := by
    rw [hpos, A.position, BitVec.toNat_add, BitVec.toNat_ofNat, show (32 : Word).toNat = 32 from rfl]
    omega
  rw [HasEntry, hsize, sub_self]
  rintro (⟨-, h0⟩ | hle)
  · rw [h0] at hp
    exact absurd hp (by rw [show (0 : Word).toNat = 0 from rfl]; omega)
  · exact absurd hle (by decide)

theorem entryRead_kept (p : Partition) (s₀ : FatData) (c : Word) (fd : FileData) :
    (entryRead p s₀ c fd).handle = fd.handle ∧ (entryRead p s₀ c fd).position = fd.position + 32 ∧
      (entryRead p s₀ c fd).isDirectory = fd.isDirectory := by
  rw [entryRead]
  split
  · simp only [stepFile]
    split <;> split <;> exact ⟨rfl, rfl, rfl⟩
  · exact ⟨rfl, rfl, rfl⟩

/-- The next entry of the same sector. -/
theorem DirAt.within (A : DirAt p s₀ first j sector n fd) (hn : n % 16 ≠ 15) :
    DirAt p s₀ first j sector (n + 1) (entryRead p s₀ c fd) := by
  have hpos : ¬ fd.position.toNat % 512 = 480 := by
    rw [A.position, BitVec.toNat_ofNat]
    omega
  have hdiv : (n + 1) / 16 = n / 16 := by omega
  rw [entryRead, if_neg hpos]
  refine ⟨?_, hdiv.trans A.place, A.cluster, A.sectorInCluster, A.sector_lt, A.below, A.buffer⟩
  rw [A.position, Nat.mul_add, BitVec.ofNat_add]
  rfl

theorem DirAt.toNat_nextSector (A : DirAt p s₀ first j sector n fd) :
    (fd.currentSectorInCluster + 1).toNat = sector + 1 := by
  have hlt := A.sector_lt
  have h255 := clusterSectors_le s₀
  rw [A.sectorInCluster, BitVec.toNat_add, BitVec.toNat_ofNat, show (1 : Word).toNat = 1 from rfl]
  omega

/-- The sector is the last of its cluster. -/
theorem DirAt.isLast_iff (A : DirAt p s₀ first j sector n fd) :
    fd.currentSectorInCluster + 1 ≥ (s₀.bootSector.sectorsPerCluster.setWidth 32 : Word) ↔
      sector + 1 = s₀.clusterSectors := by
  have hlt := A.sector_lt
  have hspc : (s₀.bootSector.sectorsPerCluster.setWidth 32 : Word).toNat = s₀.perCluster :=
    BitVec.toNat_setWidth_of_le (by decide)
  rw [ge_iff_le, BitVec.le_def, A.toNat_nextSector, hspc]
  rw [FatData.clusterSectors] at hlt ⊢
  omega

/-- The next sector, unless the directory ends. -/
theorem DirAt.across (A : DirAt p s₀ first j sector n fd) (hn : n % 16 = 15)
    (hc : c = fatEntry p s₀ fd.currentCluster) (he : HasEntry (entryRead p s₀ c fd)) : ∃ j sector,
      DirAt p s₀ first j sector (n + 1) (entryRead p s₀ c fd) := by
  have hpos : fd.position.toNat % 512 = 480 := by
    rw [A.position, BitVec.toNat_ofNat]
    omega
  have hplace := A.place
  have hlt := A.sector_lt
  have h255 := clusterSectors_le s₀
  have hdiv : (n + 1) / 16 = n / 16 + 1 := by omega
  have hnext : fd.position + 32 = BitVec.ofNat 32 (32 * (n + 1)) := by
    rw [A.position, Nat.mul_add, BitVec.ofNat_add]
    rfl
  have hsector := A.toNat_nextSector
  have hlast := A.isLast_iff
  have hf : fatEntry p s₀ fd.currentCluster = (fatEntry p s₀)^[j + 1] first := by
    rw [A.cluster, Function.iterate_succ_apply']
  rw [entryRead, if_pos hpos] at he ⊢
  by_cases hl : sector + 1 = s₀.clusterSectors
  · -- the first sector of the next cluster
    simp only [stepFile, if_pos (hlast.mpr hl)] at he ⊢
    by_cases hend : c ≥ 0x0FF8
    · rw [if_pos hend] at he
      have hj := A.le (by rw [← hf, ← hc]; exact BitVec.not_lt.mpr hend)
      exact absurd he (A.not_hasEntry hj hn rfl rfl)
    · rw [if_neg hend]
      refine ⟨j + 1, 0, hnext, ?_, hc.trans hf, rfl, by omega, fun i h0 hi => ?_, fun i hi => ?_⟩
      · rw [Nat.mul_add]
        omega
      · rcases Nat.lt_or_eq_of_le hi with hlt | rfl
        · exact A.below i h0 (by omega)
        · rw [← hf, ← hc]
          exact BitVec.not_le.mp hend
      · exact if_pos ⟨Nat.zero_le i, by omega⟩
  · -- the next sector of the cluster
    simp only [stepFile, if_neg (mt hlast.mp hl)] at he ⊢
    by_cases hend : fd.currentCluster ≥ 0x0FF8
    · rw [if_pos hend] at he
      have hj : j = 0 := by
        by_contra h0
        have hb := A.below j (Nat.pos_of_ne_zero h0) (le_refl j)
        rw [← A.cluster] at hb
        exact absurd hend (BitVec.not_le.mpr hb)
      exact absurd he (A.not_hasEntry (by omega) hn rfl rfl)
    · rw [if_neg hend]
      refine ⟨j, sector + 1, hnext, by omega, A.cluster, ?_, by omega, A.below, fun i hi => ?_⟩
      · exact BitVec.eq_of_toNat_eq (by rw [hsector, BitVec.toNat_ofNat]; omega)
      · exact if_pos ⟨Nat.zero_le i, by omega⟩

theorem OpenDir.whole (O : OpenDir p s₀ D fd) (U : Uncut p s₀ D) (he : HasEntry fd) :
    Whole s₀.fatType fd.currentCluster := by
  obtain ⟨first, hf, j, sector, n, A⟩ := O.place he
  exact U.whole _ (A.mem U hf)

theorem OpenDir.step (O : OpenDir p s₀ D fd) (he : HasEntry fd) (hc : c = fatEntry p s₀ fd.currentCluster) :
    OpenDir p s₀ D (entryRead p s₀ c fd) := by
  obtain ⟨hh, hp, -⟩ := entryRead_kept p s₀ c fd
  refine ⟨hh.trans O.handle, ?_, fun he' => ?_⟩
  · have := O.aligned
    rw [hp, BitVec.toNat_add, show (32 : Word).toNat = 32 from rfl]
    omega
  · obtain ⟨first, hf, j, sector, n, A⟩ := O.place he
    by_cases hn : n % 16 = 15
    · obtain ⟨j', sector', A'⟩ := A.across hn hc he'
      exact ⟨first, hf, j', sector', n + 1, A'⟩
    · exact ⟨first, hf, j, sector, n + 1, A.within hn⟩

/-- A directory in a directory. -/
theorem OpenDir.entry_mem (O : OpenDir p s₀ D fd) (U : Uncut p s₀ D) (he : HasEntry fd)
    (hd : (entryAt fd.buffer (fd.position.toNat % 512)).isDirectory = true) :
    (entryAt fd.buffer (fd.position.toNat % 512)).firstCluster ∈ D := by
  obtain ⟨first, hf, j, sector, n, A⟩ := O.place he
  have e : entryAt fd.buffer (fd.position.toNat % 512) =
      entryAt (p.bytes (fatClusterToLba s₀ fd.currentCluster + BitVec.ofNat 32 sector)) (32 * (n % 16)) := by
    have hpos : fd.position.toNat % 512 = 32 * (n % 16) := by
      rw [A.position, BitVec.toNat_ofNat]
      omega
    rw [hpos]
    apply entryAt_congr
    intro i hi
    rw [A.buffer _ (by omega), A.sectorInCluster]
  rw [e] at hd ⊢
  exact U.entries _ (A.mem U hf) sector A.sector_lt _ (Nat.mod_lt n (by decide)) hd

/-! ## Two runs -/

/-- The same file, but for what is after a sector in the buffer. -/
structure SameFile (fd fd' : FileData) : Prop where
  fields : fd' = { fd with buffer := fd'.buffer }
  buffer : ∀ i < 512, fd'.buffer i = fd.buffer i

theorem SameFile.hasEntry_iff (S : SameFile fd fd') : HasEntry fd' ↔ HasEntry fd := by
  rw [S.fields]
  exact Iff.rfl

theorem SameFile.entryRead (S : SameFile fd fd') (c : Word) :
    SameFile (entryRead p s₀ c fd) (entryRead p s₀ c fd') := by
  obtain ⟨b, hb⟩ : ∃ b, fd' = { fd with buffer := b } := ⟨_, S.fields⟩
  have hbuffer := S.buffer
  rw [hb] at hbuffer ⊢
  have hcopy : ∀ src : Buffer, ∀ i < 512, (b.copy 0 src 512) i = (fd.buffer.copy 0 src 512) i := by
    intro src i hi
    rw [Buffer.copy, Buffer.copy, if_pos ⟨Nat.zero_le i, by omega⟩, if_pos ⟨Nat.zero_le i, by omega⟩]
  simp only [Stage2.entryRead, stepFile]
  split
  · -- whether the cluster is the next one, and whether it ends the directory
    split <;> split
    · exact ⟨rfl, hbuffer⟩
    · exact ⟨rfl, hcopy _⟩
    · exact ⟨rfl, hbuffer⟩
    · exact ⟨rfl, hcopy _⟩
  · exact ⟨rfl, hbuffer⟩

/-- Two runs on the volume of `s₀`, with the same file open. -/
structure Pair (p : Partition) (s₀ : FatData) (D : Set Word) (s t : FatData) : Prop where
  left : OnVolume p s₀ s
  right : OnVolume p s₀ t
  same : SameFile (s.file 0) (t.file 0)
  dir : OpenDir p s₀ D (s.file 0)

theorem Pair.right_dir (P : Pair p s₀ D s t) :
    (t.file 0).handle = 0 ∧ (t.file 0).position = (s.file 0).position ∧
      (t.file 0).currentCluster = (s.file 0).currentCluster := by
  rw [P.same.fields]
  exact ⟨P.dir.handle, rfl, rfl⟩

/-- An entry is read in both. -/
theorem Pair.step (P : Pair p s₀ D s t) (U : Uncut p s₀ D) (he : HasEntry (s.file 0)) :
    ∃ e s' t', fatReadEntry p s 0 = (some e, s') ∧ fatReadEntry p t 0 = (some e, t') ∧ Pair p s₀ D s' t' ∧
      (e.isDirectory = true → e.firstCluster ∈ D) := by
  obtain ⟨hh, hpos, hcluster⟩ := P.right_dir
  have hw := P.dir.whole U he
  have hentry : entryAt (t.file 0).buffer ((t.file 0).position.toNat % 512) =
      entryAt (s.file 0).buffer ((s.file 0).position.toNat % 512) := by
    have hal := P.dir.aligned
    rw [hpos]
    exact entryAt_congr fun j hj => P.same.buffer _ (by omega)
  obtain ⟨Vs, -, c, hc, hs⟩ := afterEntry_file P.left P.dir.handle
  obtain ⟨Vt, -, c', hc', ht⟩ := afterEntry_file P.right hh
  have hc := hc hw
  have hc' := hc' (hcluster ▸ hw)
  refine ⟨_, _, _, fatReadEntry_some P.dir.aligned he, ?_, ⟨Vs, Vt, ?_, ?_⟩, P.dir.entry_mem U he⟩
  · rw [fatReadEntry_some (hpos ▸ P.dir.aligned) (P.same.hasEntry_iff.mpr he), hentry]
  · rw [hs, ht, hc', hcluster, ← hc]
    exact P.same.entryRead c
  · rw [hs]
    exact P.dir.step he hc

/-- There is none in either. -/
theorem Pair.last (P : Pair p s₀ D s t) (he : ¬ HasEntry (s.file 0)) :
    ∃ s' t', fatReadEntry p s 0 = (none, s') ∧ fatReadEntry p t 0 = (none, t') ∧ OnVolume p s₀ s' ∧
      OnVolume p s₀ t' := by
  obtain ⟨-, hpos, -⟩ := P.right_dir
  exact ⟨_, _, fatReadEntry_none P.dir.aligned he,
    fatReadEntry_none (hpos ▸ P.dir.aligned) (mt P.same.hasEntry_iff.mp he), P.left.setFile _ _,
    P.right.setFile _ _⟩

/-- A search in both. -/
theorem Pair.findLoop {fuel : Nat} {name : List Byte} {o : Option DirectoryEntry} {s' : FatData} (P : Pair p s₀ D s t)
    (U : Uncut p s₀ D) (h : findLoop p 0 name fuel s = some (o, s')) :
    ∃ t', findLoop p 0 name fuel t = some (o, t') ∧ OnVolume p s₀ s' ∧ OnVolume p s₀ t' ∧
      ∀ e ∈ o, e.isDirectory = true → e.firstCluster ∈ D := by
  induction fuel generalizing s t with
  | zero => cases h
  | succ fuel ih =>
    rw [Stage2.findLoop] at h ⊢
    by_cases he : HasEntry (s.file 0)
    · obtain ⟨e, s₁, t₁, hs, ht, P₁, hd⟩ := P.step U he
      rw [hs] at h
      rw [ht]
      dsimp only at h ⊢
      split at h
      · rename_i hname
        cases h
        rw [if_pos hname]
        refine ⟨t₁, rfl, P₁.left, P₁.right, fun e' h' => ?_⟩
        cases h'
        exact hd
      · rename_i hname
        rw [if_neg hname]
        exact ih P₁ h
    · obtain ⟨s₁, t₁, hs, ht, Vs, Vt⟩ := P.last he
      rw [hs] at h
      rw [ht]
      cases h
      exact ⟨t₁, rfl, Vs, Vt, fun e h' => by cases h'⟩

/-! ## Opening -/

/-- The file that an entry is opened as. -/
def openedFile (p : Partition) (s₀ : FatData) (e : DirectoryEntry) (b : Buffer) : FileData where
  buffer := b.copy 0 (p.bytes (fatClusterToLba s₀ e.firstCluster)) 512
  handle := 0
  isDirectory := e.isDirectory
  position := 0
  size := e.fileSize
  opened := true
  firstCluster := e.firstCluster
  currentCluster := e.firstCluster
  currentSectorInCluster := 0

theorem fatOpenEntry_free (V : OnVolume p s₀ s) (hfree : (s.openedFiles 0).opened = false) (e : DirectoryEntry) :
    ∃ t b, fatOpenEntry p s e = (some 0, t) ∧ OnVolume p s₀ t ∧ t.rootDirectory = s.rootDirectory ∧
      t.file 0 = openedFile p s₀ e b := by
  have hscan : scanHandles s MAX_FILE_HANDLES 0 = some 0 := by
    rw [MAX_FILE_HANDLES, scanHandles, if_neg (Bool.eq_false_iff.mp hfree)]
  have hread : mbrPartitionReadSector p s (fatClusterToLba s₀ e.firstCluster) 1 (s.openedFiles 0).buffer = _ :=
    mbrPartitionReadSector_ok (V.noFaults 0)
  rw [fatOpenEntry, hscan]
  simp only [V.clusterToLba, hread, if_true]
  exact ⟨_, (s.openedFiles 0).buffer, rfl, V.afterRead.setFile _ _, rfl, file_setFile⟩

theorem dirAt_openedFile (e : DirectoryEntry) (b : Buffer) :
    DirAt p s₀ e.firstCluster 0 0 0 (openedFile p s₀ e b) := by
  refine ⟨rfl, rfl, rfl, rfl, ?_, fun i h0 hi => by omega, fun i hi => ?_⟩
  · exact Nat.lt_of_lt_of_le Nat.zero_lt_one (Nat.le_max_left 1 _)
  · show (b.copy 0 (p.bytes (fatClusterToLba s₀ e.firstCluster)) 512) i =
      p.bytes (fatClusterToLba s₀ e.firstCluster + 0) i
    rw [add_zero]
    exact if_pos ⟨Nat.zero_le i, by omega⟩

theorem openDir_openedFile {e : DirectoryEntry} {b : Buffer} (h : e.firstCluster ∈ D) :
    OpenDir p s₀ D (openedFile p s₀ e b) :=
  ⟨rfl, rfl, fun _ => ⟨e.firstCluster, h, 0, 0, 0, dirAt_openedFile e b⟩⟩

/-- The first cluster, the size and the directory flag of the file that was opened, and its position. -/
def outcome (r : Option Int × FatData) : Option ((Word × Word × Bool) × Word) :=
  r.1.map fun h => (((r.2.file h).firstCluster, (r.2.file h).size, (r.2.file h).isDirectory), (r.2.file h).position)

/-- What of an entry an opened file depends on. -/
def DirectoryEntry.key (e : DirectoryEntry) : Word × Word × Bool := (e.firstCluster, e.fileSize, e.isDirectory)

theorem sameFile_openedFile {e e' : DirectoryEntry} (b b' : Buffer) (h : e'.key = e.key) :
    SameFile (openedFile p s₀ e b) (openedFile p s₀ e' b') := by
  obtain ⟨hc, hs, hd⟩ : e'.firstCluster = e.firstCluster ∧ e'.fileSize = e.fileSize ∧
    e'.isDirectory = e.isDirectory := by
    rw [DirectoryEntry.key, DirectoryEntry.key, Prod.mk.injEq, Prod.mk.injEq] at h
    exact h
  refine ⟨?_, fun i hi => ?_⟩
  · rw [openedFile, openedFile, hc, hs, hd]
  · rw [openedFile, openedFile, hc]
    show (b'.copy 0 _ 512) i = (b.copy 0 _ 512) i
    rw [Buffer.copy, Buffer.copy, if_pos ⟨Nat.zero_le i, by omega⟩, if_pos ⟨Nat.zero_le i, by omega⟩]

theorem isDirectory_iff {e : DirectoryEntry} :
    e.isDirectory = true ↔ ¬ e.fileAttribute &&& FAT_ATTRIBUTE_DIRECTORY = 0 := by
  rw [DirectoryEntry.isDirectory, decide_eq_true_iff]

/-- Only the last component is marked so. -/
theorem components_dropLast (component path : List Byte) :
    ∀ x ∈ (components component path).dropLast, x.2 = false := by
  induction path generalizing component with
  | nil =>
    rw [components]
    split <;> exact fun x hx => absurd hx List.not_mem_nil
  | cons chr path ih =>
    rw [components]
    split
    · intro x hx
      cases hc : components [] path with
      | nil =>
        rw [hc] at hx
        cases hx
      | cons y ys =>
        rw [hc, List.dropLast_cons_cons] at hx
        rcases List.mem_cons.mp hx with rfl | hx
        · rfl
        · exact ih [] x (hc ▸ hx)
    · exact ih _

theorem OnVolume.close (V : OnVolume p s₀ s) (h : Int) : OnVolume p s₀ (fatClose s h) := by
  rw [fatClose]
  split <;> exact V.setFile _ _

theorem opened_fatClose (s : FatData) : ((fatClose s 0).openedFiles 0).opened = false := rfl

section

variable {fuel fuel' : Nat} {N : List Byte} {o : Option DirectoryEntry} {path : List (List Byte × Bool)}
  {name : Buffer} {h : Int} {r : Option Int × FatData} {k m : Nat}

/-- The name that a component is searched by. -/
def searchName (name : Buffer) (x : List Byte × Bool) : List Byte :=
  fatName (stringOf (setName name x.1 x.2) (x.1.length + 1))

/-- A round of the loop of `FAT_Open` after the search, and the rounds to come. -/
def afterSearch (fuel : Nat) (p : Partition) (path : List (List Byte × Bool)) (name : Buffer) (isLast : Bool)
    (s : FatData) :
    Option DirectoryEntry → Option (Option Int × FatData)
  | none => some (none, s)
  | some e =>
    if isLast = false ∧ e.fileAttribute &&& FAT_ATTRIBUTE_DIRECTORY = 0 then some (none, s)
    else
      match fatOpenEntry p s e with
      | (some h, s) => openLoop fuel p path name s h
      | (none, s) => if path = [] then some (none, s) else none

theorem openLoop_cons {x : List Byte × Bool} : openLoop fuel p (x :: path) name s h =
    (findLoop p h (searchName name x) fuel s).bind fun q =>
      afterSearch fuel p path (setName name x.1 x.2) x.2 (fatClose q.2 h) q.1 := by
  obtain ⟨component, isLast⟩ := x
  rw [openLoop]
  simp only [fatFindFile, searchName]
  cases findLoop p h (fatName (stringOf (setName name component isLast) (component.length + 1))) fuel s with
  | none => rfl
  | some q =>
    obtain ⟨o, s'⟩ := q
    cases o <;> rfl

/-- The entry that `FAT_Open` opens: before a slash it is of a directory. -/
def openable (isLast : Bool) (o : Option DirectoryEntry) : Option DirectoryEntry :=
  o.filter fun e => isLast || e.isDirectory

theorem openable_eq_some_iff {isLast : Bool} {e : DirectoryEntry} :
    openable isLast o = some e ↔ o = some e ∧
      ¬ (isLast = false ∧ e.fileAttribute &&& FAT_ATTRIBUTE_DIRECTORY = 0) := by
  rw [openable, Option.filter_eq_some_iff, Bool.or_eq_true, isDirectory_iff]
  cases isLast <;> simp

theorem afterSearch_openable {isLast : Bool} :
    afterSearch fuel p path name isLast s (openable isLast o) = afterSearch fuel p path name isLast s o := by
  cases ho : openable isLast o with
  | some e => rw [(openable_eq_some_iff.mp ho).1]
  | none =>
    cases o with
    | none => rfl
    | some e =>
      have hn : isLast = false ∧ e.fileAttribute &&& FAT_ATTRIBUTE_DIRECTORY = 0 := by
        by_contra hn
        rw [openable_eq_some_iff.mpr ⟨rfl, hn⟩] at ho
        cases ho
      simp only [afterSearch, if_pos hn]

/-! ## More rounds -/

theorem findLoop_mono {r : Option DirectoryEntry × FatData} (hle : fuel ≤ fuel')
    (hr : findLoop p h N fuel s = some r) :
    findLoop p h N fuel' s = some r := by
  induction fuel generalizing fuel' s with
  | zero => cases hr
  | succ fuel ih =>
    obtain ⟨n, rfl⟩ : ∃ n, fuel' = n + 1 := ⟨fuel' - 1, by omega⟩
    rw [findLoop] at hr ⊢
    cases he : (fatReadEntry p s h).1 with
    | none => rwa [he] at hr
    | some e =>
      rw [he] at hr
      dsimp only at hr ⊢
      split at hr
      · rename_i hname
        rwa [if_pos hname]
      · rename_i hname
        rw [if_neg hname]
        exact ih (by omega) hr

theorem afterSearch_mono {isLast : Bool}
    (hrest : ∀ s h, openLoop fuel p path name s h = some r → openLoop fuel' p path name s h = some r)
    (hr : afterSearch fuel p path name isLast s o = some r) : afterSearch fuel' p path name isLast s o = some r := by
  cases o with
  | none => exact hr
  | some e =>
    simp only [afterSearch] at hr ⊢
    split at hr
    · rename_i hd
      rwa [if_pos hd]
    · rename_i hd
      rw [if_neg hd]
      split at hr
      · exact hrest _ _ hr
      · exact hr

theorem openLoop_mono (hle : fuel ≤ fuel') (hr : openLoop fuel p path name s h = some r) :
    openLoop fuel' p path name s h = some r := by
  induction path generalizing name s h with
  | nil => exact hr
  | cons x path ih =>
    rw [openLoop_cons] at hr ⊢
    obtain ⟨⟨o, s'⟩, hf, hr⟩ := Option.bind_eq_some_iff.mp hr
    rw [findLoop_mono hle hf, Option.bind_some]
    exact afterSearch_mono (fun _ _ => ih) hr

/-! ## After the first component -/

theorem SameFile.outcome_eq (S : SameFile (s.file 0) (t.file 0)) : outcome (some 0, t) = outcome (some 0, s) := by
  simp only [outcome, Option.map_some]
  rw [S.fields]

/-- A component before others is of a directory. -/
theorem eq_false_of_dropLast {x : List Byte × Bool} (hlast : ∀ y ∈ (x :: path).dropLast, y.2 = false)
    (hp : path ≠ []) :
    x.2 = false ∧ ∀ y ∈ path.dropLast, y.2 = false := by
  rw [List.dropLast_cons_of_ne_nil hp] at hlast
  exact List.forall_mem_cons.mp hlast

/-- After searches that found the same, both runs open it, and look up the rest of the path from there. -/
theorem afterSearch_same {x : List Byte × Bool} {o' : Option DirectoryEntry} (Vs : OnVolume p s₀ s)
    (Vt : OnVolume p s₀ t) (hs : (s.openedFiles 0).opened = false) (ht : (t.openedFiles 0).opened = false)
    (hkey : o'.map DirectoryEntry.key = o.map DirectoryEntry.key)
    (hd : path ≠ [] → ∀ e ∈ o, e.isDirectory = true → e.firstCluster ∈ D)
    (hlast : ∀ y ∈ (x :: path).dropLast, y.2 = false)
    (hrest : path ≠ [] → ∀ s t, Pair p s₀ D s t → openLoop fuel p path name s 0 = some r →
      ∃ r', openLoop fuel p path name t 0 = some r' ∧ outcome r' = outcome r)
    (hr : afterSearch fuel p path name x.2 s o = some r) :
    ∃ r', afterSearch fuel p path name x.2 t o' = some r' ∧ outcome r' = outcome r := by
  cases o with
  | none =>
    rw [Option.map_none, Option.map_eq_none_iff] at hkey
    rw [hkey]
    cases hr
    exact ⟨_, rfl, rfl⟩
  | some e =>
    obtain ⟨e', rfl, he'⟩ := Option.map_eq_some_iff.mp hkey
    have hdir : e'.isDirectory = e.isDirectory := congrArg (fun k => k.2.2) he'
    have hcond : e'.fileAttribute &&& FAT_ATTRIBUTE_DIRECTORY = 0 ↔
      e.fileAttribute &&& FAT_ATTRIBUTE_DIRECTORY = 0 := by
      rw [← not_iff_not, ← isDirectory_iff, ← isDirectory_iff, hdir]
    simp only [afterSearch, hcond] at hr ⊢
    split at hr
    · rename_i hn
      cases hr
      rw [if_pos hn]
      exact ⟨_, rfl, rfl⟩
    · rename_i hn
      obtain ⟨s₁, b, hs₁, Vs₁, -, hfs⟩ := fatOpenEntry_free Vs hs e
      obtain ⟨t₁, b', ht₁, Vt₁, -, hft⟩ := fatOpenEntry_free Vt ht e'
      rw [hs₁] at hr
      rw [if_neg hn, ht₁]
      have S : SameFile (s₁.file 0) (t₁.file 0) := by
        rw [hfs, hft]
        exact sameFile_openedFile b b' he'
      by_cases hp : path = []
      · subst hp
        cases hr
        exact ⟨_, rfl, S.outcome_eq⟩
      · have hfalse := (eq_false_of_dropLast hlast hp).1
        have he := isDirectory_iff.mpr fun h0 => hn ⟨hfalse, h0⟩
        have O : OpenDir p s₀ D (s₁.file 0) := hfs ▸ openDir_openedFile (hd hp e rfl he)
        exact hrest hp s₁ t₁ ⟨Vs₁, Vt₁, S, O⟩ hr

/-- The rest of a path, from the same directory. -/
theorem Pair.openLoop (P : Pair p s₀ D s t) (U : Uncut p s₀ D) (hlast : ∀ x ∈ path.dropLast, x.2 = false)
    (hr : openLoop fuel p path name s 0 = some r) :
    ∃ r', openLoop fuel p path name t 0 = some r' ∧ outcome r' = outcome r := by
  induction path generalizing name s t with
  | nil =>
    cases hr
    exact ⟨_, rfl, P.same.outcome_eq⟩
  | cons x path ih =>
    rw [openLoop_cons] at hr ⊢
    obtain ⟨⟨o, s'⟩, hf, hr⟩ := Option.bind_eq_some_iff.mp hr
    obtain ⟨t', ht, Vs, Vt, hd⟩ := P.findLoop U hf
    rw [ht, Option.bind_some]
    exact afterSearch_same (Vs.close 0) (Vt.close 0) (opened_fatClose s') (opened_fatClose t') rfl (fun _ => hd) hlast
      (fun hp s t P' => ih P' (eq_false_of_dropLast hlast hp).2) hr

/-! ## The first component -/

/-- No file is open, and the buffer of the root directory holds sector `k`. -/
structure Idle (p : Partition) (s₀ : FatData) (k : Nat) (s : FatData) : Prop where
  volume : OnVolume p s₀ s
  root : RootAt p s₀ k 0 s
  free : (s.openedFiles 0).opened = false

/-- The sector in the buffer after `m` entries, if it was `k` before. -/
def sectorAfter (k m : Nat) : Nat := if m < 16 then k else m / 16

/-- The root directory is closed after a search. -/
theorem RootAt.close (R : RootAt p s₀ k m s) (V : OnVolume p s₀ s) (hfree : (s.openedFiles 0).opened = false) :
    Idle p s₀ (sectorAfter k m) (fatClose s ROOT_DIRECTORY_HANDLE) := by
  refine ⟨V.close _, ⟨R.handle, R.isDirectory, rfl, R.size, R.firstCluster, ?_, fun i hi => ?_⟩, hfree⟩
  · exact R.firstCluster.trans (add_zero _).symm
  · rw [if_pos (by decide)]
    exact R.buffer i hi

theorem RootAt.outcome_eq {k' : Nat} (R : RootAt p s₀ k 0 s) (R' : RootAt p s₀ k' 0 t) :
    outcome (some ROOT_DIRECTORY_HANDLE, t) = outcome (some ROOT_DIRECTORY_HANDLE, s) := by
  have hs : s.file ROOT_DIRECTORY_HANDLE = s.rootDirectory := if_pos rfl
  have ht : t.file ROOT_DIRECTORY_HANDLE = t.rootDirectory := if_pos rfl
  have hsize : t.rootDirectory.size = s.rootDirectory.size := BitVec.eq_of_toNat_eq (R'.size.trans R.size.symm)
  simp only [outcome, Option.map_some, hs, ht, R.firstCluster, R'.firstCluster, R.isDirectory, R'.isDirectory,
    R.position, R'.position, hsize]

/-- A search of the root directory, and the state after it is closed. -/
theorem Idle.search (I : Idle p s₀ k s) (hs : findLoop p ROOT_DIRECTORY_HANDLE N fuel s = some (o, t)) :
    ∃ m, Search (leftEntry p s₀ k) (entryCount s₀) N o m ∧
      Idle p s₀ (sectorAfter k m) (fatClose t ROOT_DIRECTORY_HANDLE) := by
  obtain ⟨m, hm, R, V, hf⟩ := findLoop_root I.root I.volume (by omega) (fun j hj => by omega) hs
  exact ⟨m, hm, R.close V (by rw [hf, I.free])⟩

theorem Idle.search_returns (I : Idle p s₀ k s) (hs : Search (leftEntry p s₀ k) (entryCount s₀) N o m) :
    ∃ t, findLoop p ROOT_DIRECTORY_HANDLE N (m + 1) s = some (o, t) := by
  obtain ⟨⟨o', t⟩, h⟩ := findLoop_returns hs I.root I.volume (fun j hj => by omega) (Nat.zero_add m)
  obtain ⟨m', hm', -⟩ := I.search h
  rw [(hs.unique hm').1]
  exact ⟨t, h⟩

/-! ## The path before -/

/-- A file that is read entry by entry. -/
def ByEntry (fd : FileData) : Prop := fd.handle = 0 ∧ fd.position.toNat % 32 = 0

theorem findLoop_keeps (V : OnVolume p s₀ s) (A : ByEntry (s.file 0)) (hr : findLoop p 0 N fuel s = some (o, t)) :
    OnVolume p s₀ t ∧ t.rootDirectory = s.rootDirectory := by
  induction fuel generalizing s with
  | zero => cases hr
  | succ fuel ih =>
    obtain ⟨hh, hal⟩ := A
    rw [findLoop] at hr
    by_cases he : HasEntry (s.file 0)
    · obtain ⟨V', hroot, c, -, hfile⟩ := afterEntry_file V hh
      obtain ⟨hk, hp, -⟩ := entryRead_kept p s₀ c (s.file 0)
      have A' : ByEntry ((afterEntry p s 0).file 0) := by
        rw [hfile, ByEntry, hk, hp, BitVec.toNat_add, show (32 : Word).toNat = 32 from rfl]
        exact ⟨hh, by omega⟩
      rw [fatReadEntry_some hal he] at hr
      dsimp only at hr
      split at hr
      · cases hr
        exact ⟨V', hroot⟩
      · obtain ⟨Vt, ht⟩ := ih V' A' hr
        exact ⟨Vt, ht.trans hroot⟩
    · rw [fatReadEntry_none hal he] at hr
      dsimp only at hr
      cases hr
      exact ⟨V.setFile _ _, rfl⟩

/-- The state after `FAT_Close` of what `FAT_Open` returned. -/
def closed (r : Option Int × FatData) : FatData :=
  match r.1 with
  | some h => fatClose r.2 h
  | none => r.2

theorem RootAt.congr (R : RootAt p s₀ k m s) (h : t.rootDirectory = s.rootDirectory) : RootAt p s₀ k m t := by
  obtain ⟨h1, h2, h3, h4, h5, h6, h7⟩ := R
  rw [← h] at h1 h2 h3 h4 h5 h6 h7
  exact ⟨h1, h2, h3, h4, h5, h6, h7⟩

theorem Idle.of_afterSearch {isLast : Bool} (I : Idle p s₀ k s)
    (hrest : ∀ t, RootAt p s₀ k 0 t → OnVolume p s₀ t → ByEntry (t.file 0) →
      openLoop fuel p path name t 0 = some r → Idle p s₀ k (closed r))
    (hr : afterSearch fuel p path name isLast s o = some r) : Idle p s₀ k (closed r) := by
  cases o with
  | none =>
    cases hr
    exact I
  | some e =>
    simp only [afterSearch] at hr
    split at hr
    · cases hr
      exact I
    · obtain ⟨t, b, ht, V, hroot, hfile⟩ := fatOpenEntry_free I.volume I.free e
      rw [ht] at hr
      exact hrest t (I.root.congr hroot) V (hfile ▸ ⟨rfl, rfl⟩) hr

/-- The rest of a path, from a file on, leaves the root directory as it is. -/
theorem openLoop_keeps (R : RootAt p s₀ k 0 s) (V : OnVolume p s₀ s) (A : ByEntry (s.file 0))
    (hr : openLoop fuel p path name s 0 = some r) : Idle p s₀ k (closed r) := by
  induction path generalizing name s with
  | nil =>
    cases hr
    exact ⟨V.close 0, R.congr rfl, opened_fatClose s⟩
  | cons x path ih =>
    rw [openLoop_cons] at hr
    obtain ⟨⟨o, s'⟩, hf, hr⟩ := Option.bind_eq_some_iff.mp hr
    obtain ⟨V', hroot⟩ := findLoop_keeps V A hf
    have I : Idle p s₀ k (fatClose s' 0) := ⟨V'.close 0, R.congr hroot, opened_fatClose s'⟩
    exact I.of_afterSearch (fun t R V A => ih R V A) hr

/-- The name that the first component of a path is searched by, and whether no slash follows it. -/
def firstName (name : Buffer) (path : List Byte) : Option (List Byte × Bool) :=
  (components [] (stripPath path)).head?.map fun x => (searchName name x, x.2)

/-- The sector of the root directory in the buffer, after a path was opened and closed. -/
def Leaves (p : Partition) (s₀ : FatData) (name : Buffer) (path : List Byte) (k : Nat) : Prop :=
  match firstName name path with
  | none => k = 0
  | some N => ∃ o m, Search (rootEntry p s₀) (entryCount s₀) N.1 o m ∧ k = m / 16

/-- A search finds the same in the root directory, and with sector `k` at its start. -/
def Agrees (p : Partition) (s₀ : FatData) (k : Nat) (N : List Byte × Bool) : Prop :=
  ∀ x, (∃ o m, Search (rootEntry p s₀) (entryCount s₀) N.1 o m ∧
    (openable N.2 o).map DirectoryEntry.key = x) ↔
    ∃ o m, Search (leftEntry p s₀ k) (entryCount s₀) N.1 o m ∧ (openable N.2 o).map DirectoryEntry.key = x

theorem leftEntry_zero : leftEntry p s₀ 0 = rootEntry p s₀ := by
  funext i
  rw [leftEntry]
  congr 1
  split <;> omega

/-- The state that a path is opened and closed to. -/
theorem Idle.closed_of_open {path : List Byte} (I : Idle p s₀ 0 s) (hr : fatOpen fuel p name s path = some r) :
    ∃ k, Leaves p s₀ name path k ∧ Idle p s₀ k (closed r) := by
  rw [fatOpen] at hr
  have hfirst : firstName name path = (components [] (stripPath path)).head?.map fun x =>
    (searchName name x, x.2) := rfl
  cases hc : components [] (stripPath path) with
  | nil =>
    rw [hc] at hr hfirst
    cases hr
    refine ⟨0, ?_, I.root.close I.volume I.free⟩
    simp only [Leaves, hfirst, List.head?_nil, Option.map_none]
  | cons x rest =>
    rw [hc] at hr hfirst
    rw [openLoop_cons] at hr
    obtain ⟨⟨o, s'⟩, hf, hr⟩ := Option.bind_eq_some_iff.mp hr
    obtain ⟨m, hm, I'⟩ := I.search hf
    rw [leftEntry_zero] at hm
    have hk : sectorAfter 0 m = m / 16 := by
      rw [sectorAfter]
      split <;> omega
    rw [hk] at I'
    refine ⟨m / 16, ?_, I'.of_afterSearch (fun t R V A => openLoop_keeps R V A) hr⟩
    simp only [Leaves, hfirst, List.head?_cons, Option.map_some]
    exact ⟨o, m, hm, rfl⟩

/-- Paths of at most one component. -/
def Single (path : List Byte) : Prop := (components [] (stripPath path)).length ≤ 1

/-- The first component of a path is a path. -/
theorem components_first {component path : List Byte} {x : List Byte × Bool} {rest : List (List Byte × Bool)}
    (h : components component path = x :: rest) : ∃ path', components component path' = [x] := by
  induction path generalizing component with
  | nil =>
    refine ⟨[], ?_⟩
    rw [components] at h ⊢
    split at h
    · cases h
    · rename_i hne
      rw [if_neg hne, (List.cons.inj h).1]
  | cons chr path ih =>
    rw [components] at h
    split at h
    · rw [← (List.cons.inj h).1]
      exact ⟨[0x2F], rfl⟩
    · rename_i hchr
      obtain ⟨path', h'⟩ := ih h
      exact ⟨chr :: path', by rw [components, if_neg hchr, h']⟩

theorem exists_single {path : List Byte} {N : List Byte × Bool} (h : N ∈ firstName name path) :
    ∃ q, Single q ∧ N ∈ firstName name q := by
  rw [firstName] at h
  cases hc : components [] (stripPath path) with
  | nil =>
    rw [hc] at h
    cases h
  | cons x rest =>
    rw [hc] at h
    cases h
    obtain ⟨q, hq⟩ := components_first hc
    have hq' : components [] (stripPath (0x2F :: q)) = [x] := hq
    refine ⟨0x2F :: q, ?_, ?_⟩
    · rw [Single, hq']
      exact le_refl 1
    · rw [firstName, hq']
      rfl

/-- `FAT_Open` gives the same result for a path in two states. -/
def SameResult (p : Partition) (name : Buffer) (s t : FatData) (path : List Byte) : Prop :=
  ∀ x, (∃ fuel r, fatOpen fuel p name s path = some r ∧ outcome r = x) ↔
    ∃ fuel r, fatOpen fuel p name t path = some r ∧ outcome r = x

/-- What a search finds in one state decides what `FAT_Open` returns in the other. -/
theorem Idle.open_same {k' : Nat} {path : List Byte} (I : Idle p s₀ k s) (J : Idle p s₀ k' t)
    (hagree : ∀ N ∈ firstName name path, ∀ o m, Search (leftEntry p s₀ k) (entryCount s₀) N.1 o m →
      ∃ o' m', Search (leftEntry p s₀ k') (entryCount s₀) N.1 o' m' ∧
        (openable N.2 o').map DirectoryEntry.key = (openable N.2 o).map DirectoryEntry.key)
    (hU : ¬ Single path → Uncut p s₀ D ∧ ∀ N ∈ firstName name path, ∀ o m e,
      Search (leftEntry p s₀ k) (entryCount s₀) N.1 o m → openable N.2 o = some e → e.isDirectory = true →
        e.firstCluster ∈ D)
    (hr : fatOpen fuel p name s path = some r) :
    ∃ fuel r', fatOpen fuel p name t path = some r' ∧ outcome r' = outcome r := by
  rw [fatOpen] at hr
  have hfirst : firstName name path = (components [] (stripPath path)).head?.map fun x =>
    (searchName name x, x.2) := rfl
  have hlast := components_dropLast [] (stripPath path)
  cases hc : components [] (stripPath path) with
  | nil =>
    rw [hc] at hr
    cases hr
    refine ⟨fuel, (some ROOT_DIRECTORY_HANDLE, t), by rw [fatOpen, hc]; rfl, ?_⟩
    exact I.root.outcome_eq J.root
  | cons x rest =>
    rw [hc] at hr hfirst hlast
    rw [openLoop_cons] at hr
    obtain ⟨⟨o, s₁⟩, hf, hr⟩ := Option.bind_eq_some_iff.mp hr
    obtain ⟨m, hm, I'⟩ := I.search hf
    have hN : (searchName name x, x.2) ∈ firstName name path := hfirst
    obtain ⟨o', m', hm', hkey⟩ := hagree _ hN o m hm
    obtain ⟨t₁, ht⟩ := J.search_returns hm'
    obtain ⟨n', -, J'⟩ := J.search ht
    have hmulti : rest ≠ [] → ¬ Single path := fun hp h => by
      rw [Single, hc, List.length_cons] at h
      exact hp (List.eq_nil_of_length_eq_zero (by omega))
    rw [← afterSearch_openable] at hr
    obtain ⟨r', hr', hout⟩ := afterSearch_same (D := D) I'.volume J'.volume I'.free J'.free hkey
      (fun hp e he => (hU (hmulti hp)).2 _ hN o m e hm he)
      hlast (fun hp s t P => P.openLoop (hU (hmulti hp)).1 (eq_false_of_dropLast hlast hp).2) hr
    rw [afterSearch_openable] at hr'
    refine ⟨max fuel (m' + 1), r', ?_, hout⟩
    rw [fatOpen, hc, openLoop_cons, findLoop_mono (Nat.le_max_right fuel _) ht, Option.bind_some]
    exact afterSearch_mono (fun _ _ => openLoop_mono (Nat.le_max_left _ _)) hr'

/-- What `FAT_Open` of a single component returns. -/
theorem Idle.open_single {path : List Byte} {x : List Byte × Bool} (I : Idle p s₀ k s)
    (name : Buffer) (hc : components [] (stripPath path) = [x]) (y : Option (Word × Word × Bool)) :
    (∃ fuel r, fatOpen fuel p name s path = some r ∧ outcome r = y.map fun key => (key, 0)) ↔
      ∃ o m, Search (leftEntry p s₀ k) (entryCount s₀) (searchName name x) o m ∧
        (openable x.2 o).map DirectoryEntry.key = y := by
  have hafter : ∀ fuel s o, OnVolume p s₀ s → (s.openedFiles 0).opened = false →
      ∃ r, afterSearch fuel p [] (setName name x.1 x.2) x.2 s o = some r ∧
        outcome r = ((openable x.2 o).map DirectoryEntry.key).map fun key => (key, 0) := by
    intro fuel s o V hfree
    rw [← afterSearch_openable]
    cases ho : openable x.2 o with
    | none => exact ⟨_, rfl, rfl⟩
    | some e =>
      obtain ⟨t, b, ht, -, -, hfile⟩ := fatOpenEntry_free V hfree e
      refine ⟨(some 0, t), ?_, ?_⟩
      · simp only [afterSearch, if_neg (openable_eq_some_iff.mp ho).2, ht]
        rfl
      · simp only [outcome, Option.map_some, hfile]
        rfl
  have hinj : Function.Injective fun key : Word × Word × Bool => (key, (0 : Word)) := fun _ _ h => (Prod.mk.inj h).1
  constructor
  · rintro ⟨fuel, r, hr, hout⟩
    rw [fatOpen, hc, openLoop_cons] at hr
    obtain ⟨⟨o, t⟩, hf, hr⟩ := Option.bind_eq_some_iff.mp hr
    obtain ⟨m, hm, I'⟩ := I.search hf
    obtain ⟨r', hr', hout'⟩ := hafter fuel _ o I'.volume I'.free
    rw [Option.some.inj (hr'.symm.trans hr), hout] at hout'
    exact ⟨o, m, hm, (Option.map_injective hinj hout').symm⟩
  · rintro ⟨o, m, hm, rfl⟩
    obtain ⟨t, hf⟩ := I.search_returns hm
    obtain ⟨m', -, I'⟩ := I.search hf
    obtain ⟨r, hr, hout⟩ := hafter (m + 1) _ o I'.volume I'.free
    refine ⟨m + 1, r, ?_, hout⟩
    rw [fatOpen, hc, openLoop_cons, hf, Option.bind_some]
    exact hr

/-- The state after mounting. -/
theorem idle_of_mounted {s' : FatData} (h : fatInitialize p s' = (true, s₀)) (hf : NoFaults s₀) :
    Idle p s₀ 0 s₀ := by
  obtain ⟨-, hread, rfl⟩ := fatInitialize_success h
  have hfault := faults_of_read hread
  refine ⟨⟨⟨rfl, rfl, hf, .inl rfl⟩, rfl⟩,
    ⟨rfl, rfl, rfl, ?_, rfl, (add_zero _).symm, fun i hi => ?_⟩, rfl⟩
  · show (sizeofDirectoryEntry * (fatReadBootSector p s').2.bootSector.dirEntryCount.setWidth 32).toNat =
      32 * (fatReadBootSector p s').2.bootSector.dirEntryCount.toNat
    have hlt := (fatReadBootSector p s').2.bootSector.dirEntryCount.isLt
    rw [BitVec.toNat_mul, BitVec.toNat_setWidth, show sizeofDirectoryEntry.toNat = 32 from rfl]
    omega
  · show (mbrPartitionReadSector p (setRootDirectory (layout (fatReadBootSector p s').2)) _ 1 _).2.1 i = _
    rw [mbrPartitionReadSector_ok hfault, if_pos (by decide), Nat.mul_zero, Nat.zero_add]
    exact if_pos ⟨Nat.zero_le i, by rw [SECTOR_SIZE]; omega⟩

/-- A directory that a search of the root directory finds. -/
theorem Uncut.search_mem {e : DirectoryEntry} (U : Uncut p s₀ D)
    (hs : Search (rootEntry p s₀) (entryCount s₀) N (some e) m)
    (hd : e.isDirectory = true) : e.firstCluster ∈ D := by
  cases hs with
  | found hi => exact U.root _ hi hd

/-- Searches that find the same give the same results. -/
theorem Idle.sameResult {path : List Byte} (I : Idle p s₀ 0 s) (J : Idle p s₀ k t)
    (hU : Single path ∨ ∃ D, Uncut p s₀ D) (hagree : ∀ N ∈ firstName name path, Agrees p s₀ k N) :
    SameResult p name s t path := by
  obtain ⟨D, hD⟩ : ∃ D, ¬ Single path → Uncut p s₀ D := by
    rcases hU with hs | ⟨D, U⟩
    · exact ⟨∅, fun h => absurd hs h⟩
    · exact ⟨D, fun _ => U⟩
  intro x
  constructor
  · rintro ⟨fuel, r, hr, rfl⟩
    refine I.open_same (D := D) J (fun N hN o m hs => ?_) (fun hq => ⟨hD hq, fun N hN o m e hs ho hd => ?_⟩) hr
    · rw [leftEntry_zero] at hs
      exact (hagree N hN _).mp ⟨o, m, hs, rfl⟩
    · rw [leftEntry_zero, (openable_eq_some_iff.mp ho).1] at hs
      exact (hD hq).search_mem hs hd
  · rintro ⟨fuel, r, hr, rfl⟩
    refine J.open_same (D := D) I (fun N hN o m hs => ?_) (fun hq => ⟨hD hq, fun N hN o m e hs ho hd => ?_⟩) hr
    · rw [leftEntry_zero]
      exact (hagree N hN _).mpr ⟨o, m, hs, rfl⟩
    · obtain ⟨o', m', hs', hkey⟩ := (hagree N hN _).mpr ⟨o, m, hs, rfl⟩
      rw [ho, Option.map_some] at hkey
      obtain ⟨e', ho', he'⟩ := Option.map_eq_some_iff.mp hkey
      obtain ⟨hc, hk⟩ := Prod.mk.inj he'
      rw [(openable_eq_some_iff.mp ho').1] at hs'
      rw [← hc]
      exact (hD hq).search_mem hs' ((congrArg Prod.snd hk).trans hd)

/-- On volumes of 16 and 32 bits, no entry is cut. -/
theorem uncut_univ (ht : s₀.fatType = 16 ∨ s₀.fatType = 32) : Uncut p s₀ Set.univ :=
  ⟨fun _ _ _ => trivial, fun _ _ _ _ _ _ _ => trivial, fun _ _ _ => trivial, fun c _ => .inl (fatIndex_sector ht c)⟩

/-- For a single component, only searches that find the same give the same results. -/
theorem Idle.sameResult_iff {path : List Byte} (I : Idle p s₀ 0 s) (J : Idle p s₀ k t) (hq : Single path) :
    SameResult p name s t path ↔ ∀ N ∈ firstName name path, Agrees p s₀ k N := by
  refine ⟨fun hsame N hN x => ?_, I.sameResult J (.inl hq)⟩
  rw [firstName] at hN
  cases hc : components [] (stripPath path) with
  | nil =>
    rw [hc] at hN
    cases hN
  | cons y rest =>
    rw [Single, hc, List.length_cons] at hq
    obtain rfl := List.eq_nil_of_length_eq_zero (show rest.length = 0 by omega)
    rw [hc] at hN
    cases hN
    have hs := I.open_single name hc x
    rw [leftEntry_zero] at hs
    rw [← hs, ← J.open_single name hc x]
    exact hsame _

/-- What paths give after one was opened and closed: all the same as before, if and only if searches for their first
components find the same with the sector that was left in the buffer. -/
theorem reopen_iff {s' : FatData} {name₀ : Buffer} {path : List Byte} (h : fatInitialize p s' = (true, s₀))
    (hf : NoFaults s₀) (hr : fatOpen fuel p name₀ s₀ path = some r) :
    ∃ k, Leaves p s₀ name₀ path k ∧
      (∀ name q, Single q → (SameResult p name s₀ (closed r) q ↔
        ∀ N ∈ firstName name q, Agrees p s₀ k N)) ∧
        ((∃ D, Uncut p s₀ D) →
          (∀ name q, (∀ N ∈ firstName name q, Agrees p s₀ k N) → SameResult p name s₀ (closed r) q) ∧
            ((∀ name q, SameResult p name s₀ (closed r) q) ↔
              ∀ name q, ∀ N ∈ firstName name q, Agrees p s₀ k N)) := by
  have I := idle_of_mounted h hf
  obtain ⟨k, hk, J⟩ := I.closed_of_open hr
  refine ⟨k, hk, fun name q hq => I.sameResult_iff J hq, fun hU => ⟨fun name q => I.sameResult J (.inr hU),
    fun hsame name q N hN => ?_, fun hagree name q => I.sameResult J (.inr hU) (hagree name q)⟩⟩
  obtain ⟨q', hq', hN'⟩ := exists_single hN
  exact (I.sameResult_iff J hq').mp (hsame name q') N hN'

/-- Files `A` and `B` in the root directory of a floppy disk, in its first and its second sector. -/
def twoFiles : Partition where
  sector l :=
    if l = 0 then Buffer.ofList floppy
    else if l = 19 then Buffer.ofList (0x41 :: List.replicate 10 0x20)
    else if l = 20 then Buffer.ofList (0x42 :: List.replicate 10 0x20)
    else fun _ => 0
  partitionOffset := 0

def twoFilesData : FatData := (fatInitialize twoFiles blankData).2

theorem fatInitialize_twoFiles : fatInitialize twoFiles blankData = (true, twoFilesData) := rfl

/-- No directory is on it. -/
theorem uncut_twoFiles : Uncut twoFiles twoFilesData ∅ := by
  have key : ∀ i < 224, ¬ (rootEntry twoFiles twoFilesData i).isDirectory = true := by decide +kernel
  have hcount : entryCount twoFilesData = 224 := rfl
  refine ⟨fun i hi hd => ?_, fun c hc => hc.elim, fun c hc => hc.elim, fun c hc => hc.elim⟩
  rw [hcount] at hi
  exact absurd hd (key i (by omega))

/-- After `A`, the buffer is as before. -/
theorem reopen_twoFiles : ∃ r, fatOpen 1 twoFiles (fun _ => 0) twoFilesData [0x61] = some r ∧
    ∀ name q, SameResult twoFiles name twoFilesData (closed r) q := by
  have hr : (fatOpen 1 twoFiles (fun _ => 0) twoFilesData [0x61]).isSome := by decide
  obtain ⟨r, hr⟩ := Option.isSome_iff_exists.mp hr
  obtain ⟨k, hk, h⟩ := reopen_iff fatInitialize_twoFiles (fun _ => rfl) hr
  have hfirst : firstName (fun _ => 0) [0x61] = some (0x41 :: List.replicate 10 0x20, true) := by decide
  simp only [Leaves, hfirst] at hk
  obtain ⟨o, m, hs, rfl⟩ := hk
  have hfound : Search (rootEntry twoFiles twoFilesData) (entryCount twoFilesData) (0x41 :: List.replicate 10 0x20)
      (some (rootEntry twoFiles twoFilesData 0)) 1 :=
    .found (.inr (by decide)) (fun j hj => absurd hj (Nat.not_lt_zero j)) (by decide)
  rw [← (hfound.unique hs).2] at h
  refine ⟨r, hr, (h.2 ⟨∅, uncut_twoFiles⟩).2.mpr fun name q N _ x => ?_⟩
  rw [show 1 / 16 = 0 from rfl, leftEntry_zero]

theorem fatOpen_unique {path : List Byte} {r' : Option Int × FatData} (hr : fatOpen fuel p name s path = some r)
    (hr' : fatOpen fuel' p name s path = some r') : r = r' :=
  Option.some.inj ((openLoop_mono (Nat.le_max_left fuel fuel') hr).symm.trans
    (openLoop_mono (Nat.le_max_right fuel fuel') hr'))

/-- After `B`, file `A` is not found. -/
theorem reopen_not_same : ¬ ∀ (p : Partition) (s s₀ : FatData) (name₀ name : Buffer) (fuel : Nat)
    (path q : List Byte) (r : Option Int × FatData), fatInitialize p s = (true, s₀) → NoFaults s₀ →
      fatOpen fuel p name₀ s₀ path = some r → SameResult p name s₀ (closed r) q := by
  intro H
  have hb : (fatOpen 17 twoFiles (fun _ => 0) twoFilesData [0x62]).isSome := by decide
  have hbefore : (fatOpen 1 twoFiles (fun _ => 0) twoFilesData [0x61]).map outcome = some
    (some ((0, 0, false), 0)) := by
    decide
  have hafter : ((fatOpen 17 twoFiles (fun _ => 0) twoFilesData [0x62]).bind fun r =>
      fatOpen 225 twoFiles (fun _ => 0) (closed r) [0x61]).map outcome = some none := by decide +kernel
  obtain ⟨r, hr⟩ := Option.isSome_iff_exists.mp hb
  rw [hr, Option.bind_some] at hafter
  obtain ⟨ra, ha, houta⟩ := Option.map_eq_some_iff.mp hbefore
  obtain ⟨rn, hn, houtn⟩ := Option.map_eq_some_iff.mp hafter
  obtain ⟨fuel, r', hr', hout⟩ := (H twoFiles blankData twoFilesData (fun _ => 0) (fun _ => 0) 17 [0x62] [0x61] r
    fatInitialize_twoFiles (fun _ => rfl) hr _).mp ⟨1, ra, ha, houta⟩
  rw [← fatOpen_unique hn hr', houtn] at hout
  cases hout

end

end

end AlexOS.Stage2
