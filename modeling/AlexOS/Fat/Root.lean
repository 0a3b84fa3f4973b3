import AlexOS.Fat.Mount
import AlexOS.Fat.Scan

/-!
# The root directory before the clusters

Where the root directory is not a chain, `FAT_init` gives it a number before
that of the first cluster, by division and wrapping around. `FAT_read` takes it
for a cluster: it has no sector from 0xFFFFFFF8 on, stands for one sector only,
and is followed by what `next_cluster` finds in the FAT. The entries come in
order, and nothing after them, exactly if that leads through the sectors of the
directory (`rootReadable_iff`).
-/

namespace AlexOS.Fat

/-- A FAT with 12 or 16 bits to an entry, sectors of 512 bytes, a power of two of them to a cluster, and a root
directory of whole sectors, on a disk that can be read. -/
structure RootVolume (s : Driver) : Prop where
  bytesPerSector : (bootOf s).bytesPerSector = 512
  sectorPerCluster : ∃ k, (bootOf s).sectorPerCluster.toNat = 2 ^ k
  rootDirEntryCount : 16 ∣ (bootOf s).rootDirEntryCount.toNat
  sectorPerFat : (bootOf s).sectorPerFat ≠ 0
  readFails : ∀ l, s.disk.readFails l = false

/-- A sector of the root directory, after the reserved sectors and the FATs. -/
def rootSector (s : Driver) (j : Nat) : Buffer :=
  let b := bootOf s
  s.disk.sector (BitVec.ofNat 32 (b.reservedSectorCount.toNat + b.nbFat.toNat * b.sectorPerFat.toNat + j))

def rootEntry (s : Driver) (i : Nat) : DirEntry := (rootSector s (i / 16)).slice (32 * (i % 16)) 32

/-- The state after some entries are read from the root. -/
def afterEntries (i : Nat) (s : Driver) : Driver := (fun s => (fatRead s ROOT_DIR_HANDLE sizeofDirEntry).2.2)^[i] s

/-- The entries are read in order, and then nothing. -/
def RootReadable (s : Driver) : Prop := ∀ i,
  let r := fatRead (afterEntries i (fatInit s).2) ROOT_DIR_HANDLE sizeofDirEntry
  (r.1, r.2.1) = if i < (bootOf s).rootDirEntryCount.toNat then (sizeofDirEntry, rootEntry s i) else (0, [])

/-- The cluster that the root directory starts at, and those that `next_cluster` finds after it. -/
def rootCluster (s : Driver) (j : Nat) : Word :=
  (successor s)^[j] (lba2Cluster s (s.firstDataSector - s.rootDirSectors))

/-- Each sector of the root directory has a number that is no end mark, and that leads to its bytes, and the number
after them is an end mark. -/
structure RootChained (s : Driver) : Prop where
  below : ∀ j < (bootOf s).rootDirEntryCount.toNat / 16, rootCluster (fatInit s).2 j < 0xFFFFFFF8
  sectors : ∀ j < (bootOf s).rootDirEntryCount.toNat / 16, ∀ x < 512,
    clusterBytes (fatInit s).2 (rootCluster (fatInit s).2 j) x = rootSector s j x
  last : rootCluster (fatInit s).2 ((bootOf s).rootDirEntryCount.toNat / 16) ≥ 0xFFFFFFF8

/-- The root directory of a volume is at entry `i`. -/
structure RootAt (s : Driver) (i : Nat) (t : Driver) : Prop where
  volume : SameVolume s t
  disk : t.disk = s.disk
  isDir : (t.file ROOT_DIR_HANDLE).isDir = true
  offset : sectorOffset t ROOT_DIR_HANDLE = 32 * (i % 16)
  currentCluster : (t.file ROOT_DIR_HANDLE).currentCluster = rootCluster s (i / 16)

section

variable {s t : Driver} {i j n : Nat} {count : Byte}

/-! ## From entry to entry -/

namespace RootAt

theorem fatRead_eq (R : RootAt s i t) (hcur : rootCluster s (i / 16) < 0xFFFFFFF8) :
    fatRead t ROOT_DIR_HANDLE sizeofDirEntry = (sizeofDirEntry, getBytes ROOT_DIR_HANDLE 32 t) :=
  fatRead_entry (R.currentCluster ▸ hcur) (if_pos R.isDir) (by rw [R.offset]; omega)

theorem next (C : Cached s) (R : RootAt s i t) (hcur : rootCluster s (i / 16) < 0xFFFFFFF8) :
    RootAt s (i + 1) (fatRead t ROOT_DIR_HANDLE sizeofDirEntry).2.2 := by
  obtain ⟨S, hdisk, hcluster⟩ := getBytes_cached (R.volume.cached C) ROOT_DIR_HANDLE 32
  rw [R.fatRead_eq hcur]
  refine ⟨R.volume.trans S, hdisk.trans R.disk, (getBytes_reads _ _ t).isDir.trans R.isDir, ?_, hcluster.trans ?_⟩
  · rw [sectorOffset_getBytes, R.offset]
    omega
  · rw [R.offset, R.volume.successor_eq, R.currentCluster]
    split
    · rw [show (i + 1) / 16 = i / 16 + 1 by omega]
      exact (Function.iterate_succ_apply' _ _ _).symm
    · rw [show (i + 1) / 16 = i / 16 by omega]

/-- What is read of an entry. -/
theorem bytes (hr : ∀ l, s.disk.readFails l = false) (R : RootAt s i t) :
    (getBytes ROOT_DIR_HANDLE 32 t).1 = (clusterBytes s (rootCluster s (i / 16))).slice (32 * (i % 16)) 32 := by
  have hbytes : (getBytes ROOT_DIR_HANDLE 32 t).1 =
    (sectorBuffer t ROOT_DIR_HANDLE).slice (sectorOffset t ROOT_DIR_HANDLE) 32 := rfl
  rw [hbytes, R.offset, sectorBuffer, R.disk, R.volume.cluster2Lba_eq, R.currentCluster]
  exact slice_read (hr _) _ (by omega)

/-- At an end mark nothing is read. -/
theorem stop (R : RootAt s i t) (hend : rootCluster s (i / 16) ≥ 0xFFFFFFF8) :
    fatRead t ROOT_DIR_HANDLE sizeofDirEntry = (0, [], t) := by
  rw [fatRead_loop]
  exact readLoop_end (R.currentCluster ▸ hend) _

end RootAt

/-- The root is at each entry up to the first end mark. -/
theorem rootAt_afterEntries (C : Cached s) (R : RootAt s 0 s) (h : ∀ j, 16 * j < i → rootCluster s j < 0xFFFFFFF8) :
    RootAt s i (afterEntries i s) := by
  induction i with
  | zero => exact R
  | succ i ih =>
    rw [afterEntries, Function.iterate_succ_apply']
    exact (ih fun j hj => h j (by omega)).next C (h (i / 16) (by omega))

/-- And at the end mark it stays. -/
theorem afterEntries_add (R : RootAt s i (afterEntries i s)) (hend : rootCluster s (i / 16) ≥ 0xFFFFFFF8) (n : Nat) :
    afterEntries (i + n) s = afterEntries i s := by
  induction n with
  | zero => rfl
  | succ n ih =>
    rw [← Nat.add_assoc, afterEntries, Function.iterate_succ_apply']
    show (fatRead (afterEntries (i + n) s) _ _).2.2 = _
    rw [ih, R.stop hend]

/-! ## The mounted root -/

namespace RootVolume

variable (V : RootVolume s)

include V

theorem fatInit_ok : (fatInit s).1 = true ∧ MountedFigures (bootOf s) (fatInit s).2 :=
  mountedFigures (V.readFails _) (V.readFails _)

theorem cached : Cached (fatInit s).2 := by
  refine ⟨by rw [V.fatInit_ok.2.bootSector, V.bytesPerSector], ?_⟩
  rw [fatInit_eq (V.readFails _), V.readFails]
  rfl

theorem disk : (fatInit s).2.disk = s.disk := by
  rw [fatInit_eq (V.readFails _), V.readFails]
  rfl

theorem rootAt : RootAt (fatInit s).2 0 (fatInit s).2 := by
  obtain ⟨-, M⟩ := V.fatInit_ok
  have htype : (fatInit s).2.fatType ≠ 32 := by
    rw [M.fatType, if_neg V.sectorPerFat]
    split <;> decide
  have hinit : (fatInit s).2 = { setRootDir (fatDetec (readFat (laidOut s) 0).2) with errno := 0 } := by
    rw [fatInit_eq (V.readFails _), V.readFails]
    rfl
  refine ⟨.refl _, rfl, by rw [hinit]; rfl, by rw [hinit]; rfl, ?_⟩
  rw [hinit] at htype ⊢
  exact if_neg htype

theorem noFaults (l : Word) : (fatInit s).2.disk.readFails l = false := by
  rw [V.disk, V.readFails]

theorem entryCount : 16 * ((bootOf s).rootDirEntryCount.toNat / 16) = (bootOf s).rootDirEntryCount.toNat :=
  Nat.mul_div_cancel' V.rootDirEntryCount

/-- The number of the root directory leads back to its first sector if it has whole clusters. -/
theorem cluster2Lba_rootCluster : cluster2Lba (fatInit s).2 (rootCluster (fatInit s).2 0) =
    (fatInit s).2.firstDataSector - (fatInit s).2.rootDirSectors ↔
      (bootOf s).sectorPerCluster.toNat ∣ (fatInit s).2.rootDirSectors.toNat := by
  obtain ⟨k, hk⟩ := V.sectorPerCluster
  have hdvd : (bootOf s).sectorPerCluster.toNat ∣ 2 ^ 32 := by
    rw [hk]
    refine Nat.pow_dvd_pow 2 (Nat.le_of_lt_succ ((Nat.pow_lt_pow_iff_right (by decide : 1 < 2)).mp ?_))
    rw [← hk]
    exact (bootOf s).sectorPerCluster.isLt.trans (by decide)
  have hspc : ((bootOf s).sectorPerCluster.setWidth 32 : Word).toNat = (bootOf s).sectorPerCluster.toNat :=
    BitVec.toNat_setWidth_of_le (by decide)
  rw [rootCluster, Function.iterate_zero, id_eq, cluster2Lba, lba2Cluster, V.fatInit_ok.2.bootSector]
  generalize (fatInit s).2.firstDataSector = first
  generalize (fatInit s).2.rootDirSectors = count
  generalize ((bootOf s).sectorPerCluster.setWidth 32 : Word) = spc at hspc
  rw [sub_sub_cancel_left, add_sub_cancel_right, sub_eq_neg_add, add_left_inj, ← BitVec.toNat_inj, BitVec.toNat_mul,
    BitVec.toNat_udiv, hspc, Nat.mod_eq_of_lt ((Nat.div_mul_le_self _ _).trans_lt (-count).isLt)]
  have hneg : (bootOf s).sectorPerCluster.toNat ∣ (-count).toNat ↔
    (bootOf s).sectorPerCluster.toNat ∣ count.toNat := by
    have hlt := count.isLt
    rw [BitVec.toNat_neg, (Nat.dvd_mod_iff hdvd), Nat.dvd_sub_iff_right hlt.le hdvd]
  rw [← hneg]
  exact ⟨Dvd.intro_left _, Nat.div_mul_cancel⟩

end RootVolume

/-- Two sectors are the same if their entries are. -/
theorem bytes_of_slices {b b' : Buffer} (h : ∀ m < 16, b.slice (32 * m) 32 = b'.slice (32 * m) 32) {x : Nat}
    (hx : x < 512) :
    b x = b' x := by
  have hbyte := congrArg (fun e : List Byte => e.getD (x % 32) 0) (h (x / 32) (by omega))
  simp only [Buffer.getD_slice (Nat.mod_lt x (by decide : 0 < 32)), Nat.div_add_mod] at hbyte
  exact hbyte

/-- What is read tells a sector from an end mark. -/
theorem RootReadable.chained (V : RootVolume s) (H : RootReadable s) : RootChained s := by
  have hcount := V.entryCount
  have hbelow : ∀ j < (bootOf s).rootDirEntryCount.toNat / 16, rootCluster (fatInit s).2 j < 0xFFFFFFF8 := by
    intro j
    induction j using Nat.strong_induction_on with
    | _ j ih =>
      intro hj
      have R := rootAt_afterEntries (i := 16 * j) V.cached V.rootAt fun j' hj' => ih j' (by omega) (by omega)
      by_contra hend
      have hread := H (16 * j)
      rw [if_pos (by omega),
        R.stop (by rw [Nat.mul_div_cancel_left j (by decide)]; exact BitVec.not_lt.mp hend)] at hread
      cases congrArg Prod.fst hread
  refine ⟨hbelow, fun j hj x hx => ?_, ?_⟩
  · refine bytes_of_slices (fun m hm => ?_) hx
    have R := rootAt_afterEntries (i := 16 * j + m) V.cached V.rootAt fun j' hj' => hbelow j' (by omega)
    have hi : (16 * j + m) / 16 = j ∧ (16 * j + m) % 16 = m := by omega
    have hread := H (16 * j + m)
    rw [if_pos (by omega), R.fatRead_eq (by rw [hi.1]; exact hbelow j hj)] at hread
    have hbytes : (getBytes ROOT_DIR_HANDLE 32 (afterEntries (16 * j + m) (fatInit s).2)).1 =
      rootEntry s (16 * j + m) := congrArg Prod.snd hread
    rw [R.bytes V.noFaults, rootEntry, hi.1, hi.2] at hbytes
    exact hbytes
  · have R := rootAt_afterEntries
      (i := (bootOf s).rootDirEntryCount.toNat) V.cached V.rootAt fun j hj => hbelow j (by omega)
    by_contra hend
    have hread := H (bootOf s).rootDirEntryCount.toNat
    rw [if_neg (lt_irrefl _), R.fatRead_eq (BitVec.not_le.mp hend)] at hread
    cases congrArg Prod.fst hread

theorem RootChained.readable (V : RootVolume s) (K : RootChained s) : RootReadable s := by
  have hcount := V.entryCount
  intro i
  dsimp only
  by_cases hi : i < (bootOf s).rootDirEntryCount.toNat
  · have R := rootAt_afterEntries (i := i) V.cached V.rootAt fun j hj => K.below j (by omega)
    rw [if_pos hi, R.fatRead_eq (K.below _ (by omega))]
    congr 1
    rw [R.bytes V.noFaults]
    exact Buffer.slice_congr fun x hx => K.sectors _ (by omega) _ (by omega)
  · have R := rootAt_afterEntries
      (i := (bootOf s).rootDirEntryCount.toNat) V.cached V.rootAt fun j hj => K.below j (by omega)
    rw [if_neg hi, ← Nat.add_sub_cancel' (Nat.le_of_not_lt hi), afterEntries_add R K.last, R.stop K.last]

/-- The root directory is readable exactly if it is chained. -/
theorem rootReadable_iff (V : RootVolume s) : RootReadable s ↔ RootChained s :=
  ⟨fun H => H.chained V, fun K => K.readable V⟩

/-! ## Directories of one sector and of three -/

/-- A disk with so many entries in the root directory, one sector to a cluster, and a FAT that starts with marks. -/
def rootDisk (count : Byte) : Disk where
  sector l :=
    if l = 0 then Buffer.ofList [0, 0, 0, 0, 0, 0, 0, 0, 0, 0, 0, 0x00, 0x02, 1, 1, 0, 1, count, 0, 13, 0, 0, 1, 0]
    else if l = 1 then Buffer.ofList [0xF8, 0xFF, 0xFF]
    else fun _ => 0x41
  readFails _ := false
  writeFails _ := false

def rootFat (count : Byte) : Driver := { someFat with disk := rootDisk count }

theorem rootVolume_rootFat (h : count = 16 ∨ count = 48) : RootVolume (rootFat count) where
  bytesPerSector := by rcases h with rfl | rfl <;> decide
  sectorPerCluster := ⟨0, by rcases h with rfl | rfl <;> decide⟩
  rootDirEntryCount := by rcases h with rfl | rfl <;> decide
  sectorPerFat := by rcases h with rfl | rfl <;> decide
  readFails _ := rfl

/-- The number of a directory of one sector is 1, and its entry in the FAT is a mark. -/
theorem rootReadable_oneSector : RootReadable (rootFat 16) :=
  (rootReadable_iff (rootVolume_rootFat (.inl rfl))).mpr
    { below := by decide
      sectors := by
        intro j hj x hx
        obtain rfl : j = 0 := Nat.lt_one_iff.mp (show j < 1 from hj)
        rw [clusterBytes, show cluster2Lba (fatInit (rootFat 16)).2 (rootCluster (fatInit (rootFat 16)).2 0) = 2 by
          decide]
        rfl
      last := by decide }

/-- That of a directory of three sectors is a mark itself. -/
theorem not_rootReadable : ¬ ∀ s : Driver, RootVolume s → RootReadable s := by
  intro H
  have hread := congrArg Prod.fst (H (rootFat 48) (rootVolume_rootFat (.inr rfl)) 0)
  exact absurd hread (by decide)

end

end AlexOS.Fat
