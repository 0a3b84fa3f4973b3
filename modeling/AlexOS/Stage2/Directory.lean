import AlexOS.Stage2.Read

/-!
# Reading directories in the bootloader

`FAT_ReadEntry` takes 32 bytes that are in one sector (`fatReadEntry_some`). A
search of the root directory goes through its entries in order, the first 16 of
them from the sector that is in the buffer at the start (`RootAt`), and ends
with the first that has the name, or with the last (`Search`,
`findLoop_returns`).
-/

namespace AlexOS.Stage2

/-- An entry, at an offset of a buffer. -/
def entryAt (b : Buffer) (i : Nat) : DirectoryEntry := .ofBuffer (Buffer.ofList (b.slice i 32))

/-- There are 32 bytes more to read. -/
def HasEntry (fd : FileData) : Prop := fd.isDirectory = true ∧ fd.size = 0 ∨ 32 ≤ (fd.size - fd.position).toNat

instance (fd : FileData) : Decidable (HasEntry fd) := inferInstanceAs (Decidable (_ ∨ _))

/-- The state after 32 bytes were read. -/
def afterEntry (p : Partition) (s : FatData) (h : Int) : FatData :=
  let fd := s.file h
  let s := s.setFile h { fd with position := fd.position + 32 }
  if fd.position.toNat % 512 = 480 then (nextSector (fatNextCluster p) p s h).2 else s

/-- The root directory, entry by entry, and how many there are: 0 if there is no limit. -/
def rootEntry (p : Partition) (s₀ : FatData) (i : Nat) : DirectoryEntry :=
  entryAt (p.bytes s₀.rootDirectory.firstCluster) (32 * i)

def entryCount (s₀ : FatData) : Nat := s₀.bootSector.dirEntryCount.toNat

/-- The entries that a search comes to, if the buffer holds sector `k` at its start. -/
def leftEntry (p : Partition) (s₀ : FatData) (k i : Nat) : DirectoryEntry :=
  rootEntry p s₀ (if i < 16 then 16 * k + i else i)

/-- An open file at the end of a sector, if `c` is the next cluster. -/
def stepFile (p : Partition) (s₀ : FatData) (c : Word) (fd : FileData) : FileData :=
  let sector := fd.currentSectorInCluster + 1
  let isLast := sector ≥ s₀.bootSector.sectorsPerCluster.setWidth 32
  let c := if isLast then c else fd.currentCluster
  let sector := if isLast then 0 else sector
  let fd := { fd with currentCluster := c, currentSectorInCluster := sector }
  if c ≥ 0x0FF8 then { fd with size := fd.position }
  else { fd with buffer := fd.buffer.copy 0 (p.bytes (fatClusterToLba s₀ c + sector)) 512 }

/-- An open file after 32 bytes were read. -/
def entryRead (p : Partition) (s₀ : FatData) (c : Word) (fd : FileData) : FileData :=
  let fd' := { fd with position := fd.position + 32 }
  if fd.position.toNat % 512 = 480 then stepFile p s₀ c fd' else fd'

/-- A search of a directory, up to entry `n` unless `n` is 0: what it finds, and how many entries it reads. -/
inductive Search (e : Nat → DirectoryEntry) (n : Nat) (name : List Byte) : Option DirectoryEntry → Nat → Prop
  | found {i : Nat} (hi : n = 0 ∨ i < n) (hbefore : ∀ j < i, name ≠ (e j).fileName) (h : name = (e i).fileName) :
      Search e n name (some (e i)) (i + 1)
  | missing (hn : n ≠ 0) (h : ∀ j < n, name ≠ (e j).fileName) : Search e n name none n

/-- The volume of `s₀`, with what a search relies on. -/
structure OnVolume (p : Partition) (s₀ s : FatData) : Prop extends Cached p s₀ s where
  dataSectionLba : s.dataSectionLba = s₀.dataSectionLba

/-- The root directory, `m` entries after its start, where the buffer held sector `k`. -/
structure RootAt (p : Partition) (s₀ : FatData) (k m : Nat) (s : FatData) : Prop where
  handle : s.rootDirectory.handle = ROOT_DIRECTORY_HANDLE
  isDirectory : s.rootDirectory.isDirectory = true
  position : s.rootDirectory.position = BitVec.ofNat 32 (32 * m)
  size : s.rootDirectory.size.toNat = 32 * entryCount s₀
  firstCluster : s.rootDirectory.firstCluster = s₀.rootDirectory.firstCluster
  currentCluster : s.rootDirectory.currentCluster = s₀.rootDirectory.firstCluster + BitVec.ofNat 32 (m / 16)
  buffer : ∀ i < 512, s.rootDirectory.buffer i =
    p.bytes s₀.rootDirectory.firstCluster (512 * (if m < 16 then k else m / 16) + i)

section

variable {p : Partition} {s s₀ t : FatData} {h : Int} {fd : FileData} {k m : Nat}

/-! ## One entry -/

theorem setFile_self (s : FatData) (h : Int) : s.setFile h (s.file h) = s := by
  rw [FatData.setFile, FatData.file]
  split
  · rfl
  · have e : (fun i => if i = h then s.openedFiles h else s.openedFiles i) = s.openedFiles := by
      funext i
      split
      · rename_i hi
        rw [hi]
      · rfl
    rw [e]

theorem readLoop_zero (next : NextCluster) (n : Nat) (done : Word) (out : List Byte) :
    readLoop next p h n s 0 done out = (done, out, s) := by
  cases n <;> rfl

theorem minWord_eq_left {x y : Word} (h : x.toNat ≤ y.toNat) : minWord x y = x :=
  BitVec.eq_of_toNat_eq (by rw [toNat_minWord, Nat.min_eq_left h])

/-- At most 32 bytes, from the start of an entry on: they are in one sector. -/
theorem readLoop_entry {next : NextCluster} {b : Word} (hpos : (s.file h).position.toNat % 32 = 0) (hb : b.toNat ≤ 32)
    (h0 : b ≠ 0) :
    readLoop next p h b.toNat s b 0 [] =
      (b, (s.file h).buffer.slice ((s.file h).position.toNat % 512) b.toNat,
        let s' := s.setFile h { s.file h with position := (s.file h).position + b }
        if (s.file h).position.toNat % 512 + b.toNat = 512 then (nextSector next p s' h).2 else s') := by
  have hleft := toNat_leftInBuffer (s.file h).position
  have hm : ((s.file h).position % sectorSize).toNat = (s.file h).position.toNat % 512 := BitVec.toNat_umod
  have hmin : minWord b (sectorSize - (s.file h).position % sectorSize) = b := minWord_eq_left (by omega)
  have hne : b.toNat ≠ 0 := fun e => h0 (BitVec.eq_of_toNat_eq e)
  have hpositive : b > 0 := BitVec.lt_def.mpr (Nat.pos_of_ne_zero hne)
  obtain ⟨n, hn⟩ : ∃ n, b.toNat = n + 1 := Nat.exists_eq_succ_of_ne_zero hne
  have hend : sectorSize - (s.file h).position % sectorSize = b ↔
    (s.file h).position.toNat % 512 + b.toNat = 512 := by
    rw [BitVec.toNat_eq, hleft]
    omega
  rw [hn, readLoop, if_pos hpositive]
  simp only [hmin, hm, hend, sub_self, zero_add, readLoop_zero, List.nil_append, ← hn, ite_self]
  split <;> rfl

theorem fatReadEntry_some (hpos : (s.file h).position.toNat % 32 = 0) (he : HasEntry (s.file h)) :
    fatReadEntry p s h =
      (some (entryAt (s.file h).buffer ((s.file h).position.toNat % 512)), afterEntry p s h) := by
  have hcount : fatRead (fatNextCluster p) p s h sizeofDirectoryEntry =
      readLoop (fatNextCluster p) p h (32 : Word).toNat s 32 0 [] := by
    rw [fatRead]
    split
    · rename_i hsize
      have he : 32 ≤ ((s.file h).size - (s.file h).position).toNat := by
        refine he.resolve_left fun hd => ?_
        rcases hsize with hn | ⟨-, hn⟩
        · exact hn hd.1
        · exact hn hd.2
      rw [minWord_eq_left (x := sizeofDirectoryEntry) he]
      rfl
    · rfl
  have hend : (s.file h).position.toNat % 512 + 32 = 512 ↔ (s.file h).position.toNat % 512 = 480 := by omega
  rw [fatReadEntry, hcount, readLoop_entry hpos (le_refl 32) (by decide)]
  simp only [afterEntry, show (32 : Word).toNat = 32 from rfl, hend]
  rfl

theorem fatReadEntry_none (hpos : (s.file h).position.toNat % 32 = 0) (he : ¬ HasEntry (s.file h)) :
    fatReadEntry p s h = (none, s.setFile h { s.file h with position := (s.file h).size }) := by
  obtain ⟨hd, hlt⟩ := not_or.mp he
  have hcount : fatRead (fatNextCluster p) p s h sizeofDirectoryEntry =
      readLoop (fatNextCluster p) p h ((s.file h).size - (s.file h).position).toNat s
        ((s.file h).size - (s.file h).position) 0 [] := by
    have hmin : minWord sizeofDirectoryEntry ((s.file h).size - (s.file h).position) =
        (s.file h).size - (s.file h).position := by
      rw [minWord, if_neg]
      exact fun hc => hlt (Nat.le_of_lt hc)
    rw [fatRead, if_pos]
    · rw [hmin]
    · cases hdir : (s.file h).isDirectory with
      | false => exact .inl (by decide)
      | true => exact .inr ⟨rfl, fun hz => hd ⟨hdir, hz⟩⟩
  have hne : (s.file h).size - (s.file h).position ≠ sizeofDirectoryEntry := fun e => hlt (by rw [e]; decide)
  rw [fatReadEntry, hcount]
  by_cases h0 : (s.file h).size - (s.file h).position = 0
  · rw [h0, readLoop_zero, sub_eq_zero.mp h0, setFile_self]
    rfl
  · have hcond : ¬ (s.file h).position.toNat % 512 + ((s.file h).size - (s.file h).position).toNat = 512 := by
      have : ((s.file h).size - (s.file h).position).toNat ≠ 0 := fun e => h0 (BitVec.eq_of_toNat_eq e)
      omega
    rw [readLoop_entry hpos (Nat.le_of_not_le hlt) h0]
    simp only [if_neg hne, if_neg hcond, add_sub_cancel]

/-! ## The root directory -/

theorem entryAt_congr {b b' : Buffer} {i i' : Nat} (h : ∀ j < 32, b' (i' + j) = b (i + j)) :
    entryAt b' i' = entryAt b i := by
  rw [entryAt, entryAt, Buffer.slice_congr h]

theorem OnVolume.afterRead (V : OnVolume p s₀ s) : OnVolume p s₀ s.afterRead :=
  ⟨V.toCached.afterRead, V.dataSectionLba⟩

theorem OnVolume.setFile (V : OnVolume p s₀ s) (h : Int) (fd : FileData) : OnVolume p s₀ (s.setFile h fd) :=
  ⟨V.toCached.setFile h fd, (sameFigures_setFile s h fd).2.1.trans V.dataSectionLba⟩

/-- The next sector of the root directory. -/
theorem nextSector_root (V : OnVolume p s₀ s) (hh : s.rootDirectory.handle = ROOT_DIRECTORY_HANDLE) :
    (nextSector (fatNextCluster p) p s ROOT_DIRECTORY_HANDLE).2 =
      s.afterRead.setFile ROOT_DIRECTORY_HANDLE { s.rootDirectory with
        currentCluster := s.rootDirectory.currentCluster + 1
        buffer := s.rootDirectory.buffer.copy 0 (p.bytes (s.rootDirectory.currentCluster + 1)) 512 } := by
  have hroot : s.file ROOT_DIRECTORY_HANDLE = s.rootDirectory := if_pos rfl
  simp only [nextSector, hroot, hh, if_true, mbrPartitionReadSector_ok (V.noFaults 0)]
  rfl

namespace RootAt

theorem toNat_position (R : RootAt p s₀ k m s) : s.rootDirectory.position.toNat = 32 * m % 2 ^ 32 := by
  rw [R.position, BitVec.toNat_ofNat]

theorem entry_eq (R : RootAt p s₀ k m s) :
    entryAt s.rootDirectory.buffer (s.rootDirectory.position.toNat % 512) = leftEntry p s₀ k m := by
  have hpos := R.toNat_position
  apply entryAt_congr
  intro j hj
  rw [R.buffer _ (by omega)]
  congr 1
  split <;> omega

theorem hasEntry_iff (R : RootAt p s₀ k m s) (hm : entryCount s₀ = 0 ∨ m ≤ entryCount s₀) :
    HasEntry s.rootDirectory ↔ entryCount s₀ = 0 ∨ m < entryCount s₀ := by
  have hpos := R.toNat_position
  have hsize := R.size
  have hcount : entryCount s₀ < 2 ^ 16 := BitVec.isLt _
  have hz : s.rootDirectory.size = 0 ↔ entryCount s₀ = 0 := by
    rw [BitVec.toNat_eq, hsize, show (0 : Word).toNat = 0 from rfl]
    omega
  rw [HasEntry, R.isDirectory, hz, BitVec.toNat_sub, hsize, hpos, eq_self_iff_true, true_and]
  omega

/-- The next entry is read. -/
theorem step (R : RootAt p s₀ k m s) (V : OnVolume p s₀ s) (hm : entryCount s₀ = 0 ∨ m < entryCount s₀) :
    ∃ t, fatReadEntry p s ROOT_DIRECTORY_HANDLE = (some (leftEntry p s₀ k m), t) ∧ OnVolume p s₀ t ∧
      RootAt p s₀ k (m + 1) t ∧ t.openedFiles = s.openedFiles := by
  have hroot : s.file ROOT_DIRECTORY_HANDLE = s.rootDirectory := if_pos rfl
  have hpos := R.toNat_position
  have he := (R.hasEntry_iff (hm.imp_right Nat.le_of_lt)).mpr hm
  rw [fatReadEntry_some (by rw [hroot, hpos]; omega) (by rwa [hroot]), hroot, R.entry_eq]
  refine ⟨_, rfl, ?_⟩
  have hnext : s.rootDirectory.position + 32 = BitVec.ofNat 32 (32 * (m + 1)) := by
    rw [R.position, Nat.mul_add, BitVec.ofNat_add]
    rfl
  simp only [afterEntry, hroot]
  by_cases hend : s.rootDirectory.position.toNat % 512 = 480
  · have hs := nextSector_root (s := s.setFile ROOT_DIRECTORY_HANDLE { s.rootDirectory with
      position := s.rootDirectory.position + 32 }) (V.setFile _ _) R.handle
    rw [if_pos hend, hs]
    have hsector : s.rootDirectory.currentCluster + 1 =
        s₀.rootDirectory.firstCluster + BitVec.ofNat 32 ((m + 1) / 16) := by
      rw [R.currentCluster, show (m + 1) / 16 = m / 16 + 1 by omega, BitVec.ofNat_add, add_assoc]
      rfl
    refine ⟨(V.setFile _ _).afterRead.setFile _ _, ⟨R.handle, R.isDirectory, hnext, R.size, R.firstCluster, hsector,
      fun i hi => ?_⟩, rfl⟩
    rw [if_neg (show ¬ m + 1 < 16 by omega), ← bytes_add_ofNat, ← hsector]
    exact if_pos ⟨Nat.zero_le i, by omega⟩
  · rw [if_neg hend]
    refine ⟨V.setFile _ _, ⟨R.handle, R.isDirectory, hnext, R.size, R.firstCluster, ?_, fun i hi => ?_⟩, rfl⟩
    · rw [show (m + 1) / 16 = m / 16 by omega]
      exact R.currentCluster
    · have hlt : m + 1 < 16 ↔ m < 16 := by omega
      rw [show (m + 1) / 16 = m / 16 by omega]
      simp only [hlt]
      exact R.buffer i hi

/-- After the last entry. -/
theorem last (R : RootAt p s₀ k m s) (hn : entryCount s₀ ≠ 0) (hm : m = entryCount s₀) :
    fatReadEntry p s ROOT_DIRECTORY_HANDLE = (none, s) := by
  have hroot : s.file ROOT_DIRECTORY_HANDLE = s.rootDirectory := if_pos rfl
  have hpos := R.toNat_position
  have hsize := R.size
  have hcount : entryCount s₀ < 2 ^ 16 := BitVec.isLt _
  have he : ¬ HasEntry (s.file ROOT_DIRECTORY_HANDLE) := by
    rw [hroot, R.hasEntry_iff (.inr hm.le)]
    omega
  have hend : s.rootDirectory.size = s.rootDirectory.position := BitVec.eq_of_toNat_eq (by omega)
  rw [fatReadEntry_none (by rw [hroot, hpos]; omega) he, hroot, hend]
  exact congrArg (Prod.mk none) (setFile_self s ROOT_DIRECTORY_HANDLE)

end RootAt

section

variable {name : List Byte} {o o' : Option DirectoryEntry} {m' d fuel : Nat} {e : Nat → DirectoryEntry} {n : Nat}

/-- An entry that is found is one of those. -/
theorem Search.exists_eq {x : DirectoryEntry} (h : Search e n name (some x) m) :
    ∃ i, (n = 0 ∨ i < n) ∧ x = e i := by
  cases h with
  | found hi _ _ => exact ⟨_, hi, rfl⟩

theorem Search.unique (h : Search e n name o m) (h' : Search e n name o' m') : o = o' ∧ m = m' := by
  cases h with
  | @found i hi hbefore hm =>
    cases h' with
    | @found j hj hbefore' hm' =>
      have hij : i = j := by
        rcases Nat.lt_trichotomy i j with hlt | he | hlt
        · exact absurd hm (hbefore' i hlt)
        · exact he
        · exact absurd hm' (hbefore j hlt)
      rw [hij]
      exact ⟨rfl, rfl⟩
    | missing hn hm' => exact absurd hm (hm' i (hi.resolve_left hn))
  | missing hn hm =>
    cases h' with
    | @found j hj hbefore' hm' => exact absurd hm' (hm j (hj.resolve_left hn))
    | missing => exact ⟨rfl, rfl⟩

/-- What a search of the root directory finds, and where it ends. -/
theorem findLoop_root (R : RootAt p s₀ k m s) (V : OnVolume p s₀ s)
    (hm : entryCount s₀ = 0 ∨ m ≤ entryCount s₀)
    (hbefore : ∀ j < m, name ≠ (leftEntry p s₀ k j).fileName)
    (h : findLoop p ROOT_DIRECTORY_HANDLE name fuel s = some (o, t)) :
    ∃ m', Search (leftEntry p s₀ k) (entryCount s₀) name o m' ∧ RootAt p s₀ k m' t ∧ OnVolume p s₀ t ∧
      t.openedFiles = s.openedFiles := by
  induction fuel generalizing m s with
  | zero => cases h
  | succ fuel ih =>
    rw [findLoop] at h
    by_cases he : entryCount s₀ = 0 ∨ m < entryCount s₀
    · obtain ⟨s', hr, V', R', hfiles⟩ := R.step V he
      rw [hr] at h
      dsimp only at h
      split at h
      · rename_i hname
        cases h
        exact ⟨m + 1, .found he hbefore hname, R', V', hfiles⟩
      · rename_i hname
        obtain ⟨m', hs, Rt, Vt, hf⟩ := ih R' V' (by omega) (Nat.forall_lt_succ_right.mpr ⟨hbefore, hname⟩) h
        exact ⟨m', hs, Rt, Vt, hf.trans hfiles⟩
    · obtain ⟨hn, hlt⟩ := not_or.mp he
      have hmn : m = entryCount s₀ := by omega
      rw [R.last hn hmn] at h
      cases h
      rw [hmn] at hbefore R
      exact ⟨_, .missing hn hbefore, R, V, rfl⟩

/-- A search that ends does so in as many rounds, or one more. -/
theorem findLoop_returns (hs : Search (leftEntry p s₀ k) (entryCount s₀) name o m') (R : RootAt p s₀ k m s)
    (V : OnVolume p s₀ s) (hbefore : ∀ j < m, name ≠ (leftEntry p s₀ k j).fileName) (hd : m + d = m') :
    ∃ r, findLoop p ROOT_DIRECTORY_HANDLE name (d + 1) s = some r := by
  induction d generalizing m s with
  | zero =>
    cases hs with
    | found hi _ h => exact absurd h (hbefore _ (by omega))
    | missing hn h =>
      rw [findLoop, R.last hn hd]
      exact ⟨_, rfl⟩
  | succ d ih =>
    rw [findLoop]
    by_cases he : entryCount s₀ = 0 ∨ m < entryCount s₀
    · obtain ⟨s', hr, V', R', -⟩ := R.step V he
      rw [hr]
      dsimp only
      split
      · exact ⟨_, rfl⟩
      · rename_i hname
        exact ih R' V' (Nat.forall_lt_succ_right.mpr ⟨hbefore, hname⟩) (by omega)
    · obtain ⟨hn, hlt⟩ := not_or.mp he
      cases hs with
      | found hi => omega
      | missing => omega

end

/-! ## Other directories -/

theorem OnVolume.lookup (V : OnVolume p s₀ s) (c : Word) : OnVolume p s₀ (fatNextCluster p s c).2 :=
  ⟨V.toCached.lookup c, (fatNextCluster_keeps V.noFaults V.coherent c).1.dataSectionLba.trans V.dataSectionLba⟩

theorem OnVolume.clusterToLba (V : OnVolume p s₀ s) (c : Word) : fatClusterToLba s c = fatClusterToLba s₀ c := by
  rw [fatClusterToLba, fatClusterToLba, V.dataSectionLba, V.bootSector]

theorem OnVolume.value (V : OnVolume p s₀ s) {c : Word} (hw : Whole s₀.fatType c) :
    (fatNextCluster p s c).1 = fatEntry p s₀ c := by
  rw [fatNextCluster_ok V.noFaults V.coherent (V.fatType ▸ hw), fatEntry, fatEntry, fatBytes, fatBytes, V.bootSector,
    V.fatType]

/-- What reading an open file does to it, and to the rest. -/
structure FileRead (p : Partition) (s₀ s s' : FatData) (f : Word → FileData → FileData) : Prop where
  volume : OnVolume p s₀ s'
  root : s'.rootDirectory = s.rootDirectory
  file : ∃ c, (Whole s₀.fatType (s.file 0).currentCluster → c = fatEntry p s₀ (s.file 0).currentCluster) ∧
    s'.file 0 = f c (s.file 0)

theorem nextSector_file (V : OnVolume p s₀ s) (hh : (s.file 0).handle = 0) :
    FileRead p s₀ s (nextSector (fatNextCluster p) p s 0).2 (stepFile p s₀) := by
  have hroot : ¬ (s.file 0).handle = ROOT_DIRECTORY_HANDLE := by
    rw [hh]
    decide
  -- the cluster, and the state after it was looked up
  obtain ⟨r, hr, V', hr', hc⟩ : ∃ r : Word × FatData,
      (if (s.file 0).currentSectorInCluster + 1 ≥ s₀.bootSector.sectorsPerCluster.setWidth 32 then
        fatNextCluster p s (s.file 0).currentCluster else ((s.file 0).currentCluster, s)) = r ∧
      OnVolume p s₀ r.2 ∧ r.2.rootDirectory = s.rootDirectory ∧
      r.1 = if (s.file 0).currentSectorInCluster + 1 ≥ s₀.bootSector.sectorsPerCluster.setWidth 32 then
        (fatNextCluster p s (s.file 0).currentCluster).1 else (s.file 0).currentCluster := by
    refine ⟨_, rfl, ?_⟩
    split
    · exact ⟨V.lookup _, (fatNextCluster_keeps V.noFaults V.coherent _).1.rootDirectory, rfl⟩
    · exact ⟨V, rfl, rfl⟩
  simp only [nextSector, if_neg hroot, V.bootSector, hr, V'.clusterToLba, mbrPartitionReadSector_ok (V'.noFaults 0)]
  split
  · rename_i hend
    dsimp only
    refine ⟨V'.setFile _ _, hr', _, V.value, ?_⟩
    rw [file_setFile, stepFile]
    simp only [← hc, if_pos hend]
  · rename_i hend
    dsimp only
    refine ⟨V'.afterRead.setFile _ _, hr', _, V.value, ?_⟩
    rw [file_setFile, stepFile]
    simp only [← hc, if_neg hend]
    rfl

theorem afterEntry_file (V : OnVolume p s₀ s) (hh : (s.file 0).handle = 0) :
    FileRead p s₀ s (afterEntry p s 0) (entryRead p s₀) := by
  simp only [afterEntry]
  split
  · rename_i hend
    have R := nextSector_file (s := s.setFile 0 { s.file 0 with position := (s.file 0).position + 32 })
      (V.setFile _ _) (by rw [file_setFile, hh])
    obtain ⟨c, hc, hfile⟩ := R.file
    rw [file_setFile] at hc hfile
    exact ⟨R.volume, R.root, c, hc, by rw [hfile, entryRead, if_pos hend]⟩
  · rename_i hend
    exact ⟨V.setFile _ _, rfl, _, fun _ => rfl, by rw [file_setFile, entryRead, if_neg hend]⟩

end

end AlexOS.Stage2
