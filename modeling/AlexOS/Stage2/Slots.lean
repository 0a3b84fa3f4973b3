import AlexOS.Stage2.Reopen

/-!
# Handles of the bootloader

`FAT_Open` closes each directory before it opens the next file, so that it
leaves the handles as they were but for the one it returns, on every exit and
whatever reads of the disk fail (`openLoop_slots`). What it does not look at is
whether a directory on the way could be opened: it goes on with a null pointer
then. So it is safe exactly if the searches that it comes to end, and each
directory that it goes on from finds a handle and its first sector
(`opensSafely_iff`).
-/

namespace AlexOS.Stage2

/-- The handles that are open. -/
def openedSlots (s : FatData) : Finset Nat :=
  (Finset.range MAX_FILE_HANDLES).filter fun i => (s.openedFiles i).opened = true

/-- `FAT_Open` returns nothing or an open file, which has one handle more. -/
def OpensSafely (p : Partition) (name : Buffer) (s : FatData) (path : List Byte) : Prop :=
  ∃ fuel r, fatOpen fuel p name s path = some r ∧ (∀ h ∈ r.1, (r.2.file h).opened = true) ∧
    (openedSlots r.2).card = (openedSlots s).card + if r.1 = none ∨ r.1 = some ROOT_DIRECTORY_HANDLE then 0 else 1

/-- The state after some entries of a file were read. -/
def entriesRead (p : Partition) (h : Int) (k : Nat) (s : FatData) : FatData := (fun s => (fatReadEntry p s h).2)^[k] s

/-- What is read after them. -/
def nextEntry (p : Partition) (h : Int) (k : Nat) (s : FatData) : Option DirectoryEntry :=
  (fatReadEntry p (entriesRead p h k s) h).1

/-- The first entry that has the name, or cannot be read. -/
structure FirstStop (p : Partition) (h : Int) (N : List Byte) (s : FatData) (k : Nat) : Prop where
  stops : ∀ e ∈ nextEntry p h k s, N = e.fileName
  before : ∀ j < k, ∃ e ∈ nextEntry p h j s, N ≠ e.fileName

/-- Each search that the path comes to stops, and where the path goes on from a directory, a handle is free and the
read of its first sector does not fail. -/
def Passable (p : Partition) : List (List Byte × Bool) → Buffer → FatData → Int → Prop
  | [], _, _, _ => True
  | x :: path, name, s, h => ∃ k, FirstStop p h (searchName name x) s k ∧
      (path ≠ [] → ∀ e, openable x.2 (nextEntry p h k s) = some e →
        let s := fatClose (entriesRead p h (k + 1) s) h
        ∃ handle, scanHandles s MAX_FILE_HANDLES 0 = some handle ∧ s.faults 0 = none ∧
          Passable p path (setName name x.1 x.2) (fatOpenEntry p s e).2 handle)

/-- What is read and looked up opens and closes no file. -/
structure SameOpened (s t : FatData) : Prop where
  root : t.rootDirectory.opened = s.rootDirectory.opened
  files : ∀ i, (t.openedFiles i).opened = (s.openedFiles i).opened

section

variable {p : Partition} {s t : FatData} {fd : FileData} {h handle : Int} {fuel i k n : Nat} {N : List Byte}
  {o : Option DirectoryEntry} {S : Finset Nat} {path : List (List Byte × Bool)} {name : Buffer}

/-! ## Reads -/

namespace SameOpened

theorem refl (s : FatData) : SameOpened s s := ⟨rfl, fun _ => rfl⟩

theorem trans {u : FatData} (h₁ : SameOpened s t) (h₂ : SameOpened t u) : SameOpened s u :=
  ⟨h₂.root.trans h₁.root, fun i => (h₂.files i).trans (h₁.files i)⟩

theorem setFile (hfd : fd.opened = (s.file h).opened) : SameOpened s (s.setFile h fd) := by
  rw [FatData.file] at hfd
  rw [FatData.setFile]
  split
  · rename_i e
    rw [if_pos e] at hfd
    exact ⟨hfd, fun _ => rfl⟩
  · rename_i e
    rw [if_neg e] at hfd
    refine ⟨rfl, fun i => ?_⟩
    dsimp only
    split
    · rename_i hi
      rw [hfd, hi]
    · rfl

theorem afterRead (s : FatData) : SameOpened s s.afterRead := ⟨rfl, fun _ => rfl⟩

theorem file (e : SameOpened s t) (h : Int) : (t.file h).opened = (s.file h).opened := by
  rw [FatData.file, FatData.file]
  split
  · exact e.root
  · exact e.files h

theorem slots (e : SameOpened s t) : openedSlots t = openedSlots s :=
  Finset.filter_congr fun i _ => by rw [e.files]

end SameOpened

theorem fatNextCluster_opened (p : Partition) (s : FatData) (c : Word) : SameOpened s (fatNextCluster p s c).2 := by
  rw [fatNextCluster_eq]
  dsimp only
  rw [loadWindow]
  split
  · rw [fatReadFat]
    dsimp only
    rw [mbrPartitionReadSector_state]
    exact ⟨rfl, fun _ => rfl⟩
  · exact .refl s

theorem nextSector_opened (p : Partition) (s : FatData) (h : Int) :
    SameOpened s (nextSector (fatNextCluster p) p s h).2 := by
  have hread : ∀ t lba (b : Buffer) fd, SameOpened s t → fd.opened = (s.file h).opened →
      SameOpened s ((mbrPartitionReadSector p t lba 1 b).2.2.setFile h fd) := by
    intro t lba b fd e hfd
    rw [mbrPartitionReadSector_state]
    have e' := e.trans (.afterRead t)
    exact e'.trans (.setFile (hfd.trans (e'.file h).symm))
  have hnext : SameOpened s
      (if (s.file h).currentSectorInCluster + 1 ≥ s.bootSector.sectorsPerCluster.setWidth 32 then
        fatNextCluster p s (s.file h).currentCluster else ((s.file h).currentCluster, s)).2 := by
    split
    · exact fatNextCluster_opened p s _
    · exact .refl s
  simp only [nextSector]
  generalize (if (s.file h).currentSectorInCluster + 1 ≥ s.bootSector.sectorsPerCluster.setWidth 32 then
      fatNextCluster p s (s.file h).currentCluster else ((s.file h).currentCluster, s)) = r at hnext ⊢
  split
  · exact hread s _ _ _ (.refl s) rfl
  split
  · exact hnext.trans (.setFile (hnext.file h).symm)
  · exact hread _ _ _ _ hnext rfl

theorem readLoop_opened (n : Nat) (s : FatData) (byteCount done : Word) (out : List Byte) :
    SameOpened s (readLoop (fatNextCluster p) p h n s byteCount done out).2.2 := by
  induction n generalizing s byteCount done out with
  | zero => exact .refl s
  | succ n ih =>
    simp only [readLoop]
    split
    swap
    · exact .refl s
    have e : ∀ pos, SameOpened s (s.setFile h { s.file h with position := pos }) := fun pos => .setFile rfl
    split
    · -- the sector is used up
      split
      · exact ((e _).trans (nextSector_opened p _ h)).trans (ih _ _ _ _)
      · exact (e _).trans (nextSector_opened p _ h)
    · exact (e _).trans (ih _ _ _ _)

theorem entriesRead_opened (k : Nat) (s : FatData) : SameOpened s (entriesRead p h k s) := by
  induction k with
  | zero => exact .refl s
  | succ k ih =>
    rw [entriesRead, Function.iterate_succ_apply']
    exact ih.trans (readLoop_opened _ _ _ _ _)

/-! ## Searches -/

theorem FirstStop.unique {j : Nat} (F : FirstStop p h N s k) (G : FirstStop p h N s j) : j = k := by
  rcases Nat.lt_trichotomy j k with hlt | e | hlt
  · obtain ⟨e, he, hne⟩ := F.before j hlt
    exact absurd (G.stops e he) hne
  · exact e
  · obtain ⟨e, he, hne⟩ := G.before k hlt
    exact absurd (F.stops e he) hne

/-- An entry with another name is passed by. -/
theorem firstStop_succ_iff {e : DirectoryEntry} (he : nextEntry p h 0 s = some e) (hne : N ≠ e.fileName) :
    FirstStop p h N s (k + 1) ↔ FirstStop p h N (fatReadEntry p s h).2 k := by
  constructor
  · exact fun F => ⟨F.stops, fun j hj => F.before (j + 1) (Nat.succ_lt_succ hj)⟩
  · refine fun F => ⟨F.stops, fun j hj => ?_⟩
    cases j with
    | zero => exact ⟨e, he, hne⟩
    | succ j => exact F.before j (Nat.lt_of_succ_lt_succ hj)

/-- A search ends at the first entry that stops it. -/
theorem findLoop_eq_some_iff : findLoop p h N fuel s = some (o, t) ↔
    ∃ k < fuel, FirstStop p h N s k ∧ o = nextEntry p h k s ∧ t = entriesRead p h (k + 1) s := by
  induction fuel generalizing s with
  | zero =>
    constructor
    · rintro ⟨⟩
    · rintro ⟨k, hk, -⟩
      exact absurd hk (Nat.not_lt_zero k)
  | succ fuel ih =>
    by_cases hstop : ∀ e ∈ nextEntry p h 0 s, N = e.fileName
    · have hfirst : FirstStop p h N s 0 := ⟨hstop, fun j hj => absurd hj (Nat.not_lt_zero j)⟩
      have hloop : findLoop p h N (fuel + 1) s = some (nextEntry p h 0 s, entriesRead p h 1 s) := by
        rw [findLoop]
        cases he : (fatReadEntry p s h).1 with
        | none => exact congrArg some (Prod.ext_iff.mpr ⟨he.symm, rfl⟩)
        | some e =>
          dsimp only
          rw [if_pos (hstop e he)]
          exact congrArg some (Prod.ext_iff.mpr ⟨he.symm, rfl⟩)
      rw [hloop, Option.some_inj, Prod.mk.injEq]
      constructor
      · rintro ⟨rfl, rfl⟩
        exact ⟨0, Nat.succ_pos fuel, hfirst, rfl, rfl⟩
      · rintro ⟨k, -, F, rfl, rfl⟩
        rw [hfirst.unique F]
        exact ⟨rfl, rfl⟩
    · obtain ⟨e, he, hne⟩ : ∃ e, e ∈ nextEntry p h 0 s ∧ N ≠ e.fileName := by
        simpa only [not_forall, exists_prop] using hstop
      have hloop : findLoop p h N (fuel + 1) s = findLoop p h N fuel (fatReadEntry p s h).2 := by
        rw [findLoop, show (fatReadEntry p s h).1 = some e from he]
        exact if_neg hne
      rw [hloop, ih]
      constructor
      · rintro ⟨k, hk, F, ho, ht⟩
        exact ⟨k + 1, Nat.succ_lt_succ hk, (firstStop_succ_iff he hne).mpr F, ho, ht⟩
      · rintro ⟨k, hk, F, ho, ht⟩
        cases k with
        | zero => exact absurd F.stops hstop
        | succ k => exact ⟨k, Nat.lt_of_succ_lt_succ hk, (firstStop_succ_iff he hne).mp F, ho, ht⟩

/-! ## Handles -/

theorem mem_openedSlots : i ∈ openedSlots s ↔ i < MAX_FILE_HANDLES ∧ (s.openedFiles i).opened = true := by
  rw [openedSlots, Finset.mem_filter, Finset.mem_range]

theorem natCast_ne_root (i : Nat) : (i : Int) ≠ ROOT_DIRECTORY_HANDLE := by
  rw [ROOT_DIRECTORY_HANDLE]
  omega

/-- The first handle that is free, if there is one. -/
theorem scanHandles_spec {j : Int} (hs : scanHandles s n j = some handle) :
    j ≤ handle ∧ handle < j + n ∧ (s.openedFiles handle).opened = false := by
  induction n generalizing j with
  | zero => cases hs
  | succ n ih =>
    rw [scanHandles] at hs
    split at hs
    · obtain ⟨h1, h2, h3⟩ := ih hs
      exact ⟨by omega, by omega, h3⟩
    · rename_i hfree
      cases hs
      exact ⟨le_refl _, by omega, Bool.eq_false_iff.mpr hfree⟩

/-- The file of a run of `FAT_Open` that started with the handles `S` open. -/
inductive Holds (S : Finset Nat) (s : FatData) : Int → Prop
  | root (opened : s.rootDirectory.opened = true) (slots : openedSlots s = S) : Holds S s ROOT_DIRECTORY_HANDLE
  | file (i : Nat) (lt : i < MAX_FILE_HANDLES) (free : i ∉ S) (slots : openedSlots s = insert i S) : Holds S s i

namespace Holds

theorem congr (H : Holds S s h) (e : SameOpened s t) : Holds S t h := by
  cases H with
  | root hopened hslots => exact .root (e.root.trans hopened) (e.slots.trans hslots)
  | file i hlt hfree hslots => exact .file i hlt hfree (e.slots.trans hslots)

theorem opened (H : Holds S s h) : (s.file h).opened = true := by
  cases H with
  | root hopened hslots => exact hopened
  | file i hlt hfree hslots =>
    have hmem : i ∈ openedSlots s := hslots ▸ Finset.mem_insert_self i S
    rw [FatData.file, if_neg (natCast_ne_root i)]
    exact (mem_openedSlots.mp hmem).2

theorem card (H : Holds S s h) : (openedSlots s).card = S.card + if h = ROOT_DIRECTORY_HANDLE then 0 else 1 := by
  cases H with
  | root hopened hslots => rw [hslots, if_pos rfl, Nat.add_zero]
  | file i hlt hfree hslots =>
    rw [hslots, Finset.card_insert_of_notMem hfree, if_neg (natCast_ne_root i)]

end Holds

/-- A file in a slot, and the others as they were. -/
theorem openedSlots_setFile (hi : i < MAX_FILE_HANDLES) (fd : FileData) :
    openedSlots (s.setFile i fd) = if fd.opened then insert i (openedSlots s) else (openedSlots s).erase i := by
  rw [FatData.setFile, if_neg (natCast_ne_root i)]
  ext j
  rw [mem_openedSlots]
  dsimp only
  by_cases hji : j = i
  · subst hji
    cases hopen : fd.opened <;> simp [hi, hopen]
  · have hcast : ¬ (j : Int) = i := fun e => hji (Int.ofNat_inj.mp e)
    rw [if_neg hcast, ← mem_openedSlots]
    cases hopen : fd.opened <;> simp [hji]

/-- A file is closed, and the handles are those of the start. -/
theorem Holds.close (H : Holds S s h) : openedSlots (fatClose s h) = S := by
  cases H with
  | root hopened hslots =>
    rw [fatClose, if_pos rfl]
    exact hslots
  | file i hlt hfree hslots =>
    rw [fatClose, if_neg (natCast_ne_root i), openedSlots_setFile hlt, hslots]
    exact Finset.erase_insert hfree

/-- An entry is opened if a handle is free and the read does not fail, and takes that handle. -/
theorem fatOpenEntry_some_iff {e : DirectoryEntry} : (fatOpenEntry p s e).1 = some handle ↔
    scanHandles s MAX_FILE_HANDLES 0 = some handle ∧ s.faults 0 = none := by
  rw [fatOpenEntry]
  cases scanHandles s MAX_FILE_HANDLES 0 with
  | none => simp
  | some i =>
    dsimp only
    rw [mbrPartitionReadSector]
    cases s.faults 0 <;> simp

theorem fatOpenEntry_slots {e : DirectoryEntry} (hs : openedSlots s = S) :
    match (fatOpenEntry p s e).1 with
    | none => openedSlots (fatOpenEntry p s e).2 = S
    | some handle => Holds S (fatOpenEntry p s e).2 handle := by
  rw [fatOpenEntry]
  cases hscan : scanHandles s MAX_FILE_HANDLES 0 with
  | none => exact hs
  | some handle =>
    obtain ⟨h0, hlt, hfree⟩ := scanHandles_spec hscan
    obtain ⟨i, rfl⟩ := Int.eq_ofNat_of_zero_le h0
    have hi : i < MAX_FILE_HANDLES := by omega
    have hfree' : i ∉ S := by
      rw [← hs, mem_openedSlots, hfree]
      simp
    have hslots : ∀ fd, openedSlots (s.afterRead.setFile i fd) = if fd.opened then insert i S else S.erase i :=
      fun fd => by
      rw [openedSlots_setFile hi, show openedSlots s.afterRead = S from hs]
    dsimp only
    rw [mbrPartitionReadSector]
    cases s.faults 0 with
    | some b =>
      refine (hslots _).trans ?_
      dsimp only
      rw [hfree, if_neg Bool.false_ne_true, Finset.erase_eq_of_notMem hfree']
    | none => exact .file i hi hfree' (hslots _)

/-! ## The run -/

/-- What `FAT_Open` leaves: nothing more than before is open, but the file that it returns. -/
def LeavesOpen (S : Finset Nat) (r : Option Int × FatData) : Prop :=
  match r.1 with
  | none => openedSlots r.2 = S
  | some h => Holds S r.2 h

/-- Whatever `FAT_Open` returns, no other handle is open than before. -/
theorem openLoop_slots {r : Option Int × FatData} (H : Holds S s h) (hr : openLoop fuel p path name s h = some r) :
    LeavesOpen S r := by
  induction path generalizing name s h with
  | nil =>
    cases hr
    exact H
  | cons x path ih =>
    rw [openLoop_cons] at hr
    obtain ⟨⟨o, t⟩, hf, hr⟩ := Option.bind_eq_some_iff.mp hr
    obtain ⟨k, -, -, -, rfl⟩ := findLoop_eq_some_iff.mp hf
    have hclosed : openedSlots (fatClose (entriesRead p h (k + 1) s) h) = S :=
      (H.congr (entriesRead_opened (k + 1) s)).close
    cases o with
    | none =>
      cases hr
      exact hclosed
    | some e =>
      simp only [afterSearch] at hr
      split at hr
      · cases hr
        exact hclosed
      have hopen := fatOpenEntry_slots (p := p) (e := e) hclosed
      split at hr
      · rename_i handle t ht
        rw [ht] at hopen
        exact ih hopen hr
      · rename_i t ht
        rw [ht] at hopen
        split at hr
        · cases hr
          exact hopen
        · cases hr

/-- After a search the loop returns, unless the path goes on from an entry that could not be opened. -/
theorem afterSearch_returns_iff {isLast : Bool} : (∃ fuel r, afterSearch fuel p path name isLast s o = some r) ↔
    ∀ e, openable isLast o = some e → path ≠ [] → ∃ handle, (fatOpenEntry p s e).1 = some handle ∧
      ∃ fuel r, openLoop fuel p path name (fatOpenEntry p s e).2 handle = some r := by
  simp only [← afterSearch_openable (o := o)]
  cases ho : openable isLast o with
  | none => exact iff_of_true ⟨0, _, rfl⟩ fun e he => by cases he
  | some e =>
    have hgo := (openable_eq_some_iff.mp ho).2
    simp only [afterSearch, if_neg hgo, Option.some_inj]
    obtain ⟨r, hr⟩ : ∃ r, fatOpenEntry p s e = r := ⟨_, rfl⟩
    obtain ⟨handle, t⟩ := r
    constructor
    · rintro ⟨fuel, q, hq⟩ e' rfl hp
      rw [hr] at hq ⊢
      cases handle with
      | none =>
        dsimp only at hq
        rw [if_neg hp] at hq
        cases hq
      | some handle => exact ⟨handle, rfl, fuel, q, hq⟩
    · intro H
      by_cases hp : path = []
      · subst hp
        rw [hr]
        cases handle with
        | none => exact ⟨0, _, rfl⟩
        | some handle => exact ⟨0, _, rfl⟩
      · obtain ⟨handle', hh, fuel, q, hq⟩ := H e rfl hp
        rw [hr] at hh hq ⊢
        obtain rfl : handle = some handle' := hh
        exact ⟨fuel, q, hq⟩

/-- `FAT_Open` returns exactly if the path can be passed. -/
theorem openLoop_returns_iff : (∃ fuel r, openLoop fuel p path name s h = some r) ↔ Passable p path name s h := by
  induction path generalizing name s h with
  | nil => exact iff_of_true ⟨0, _, rfl⟩ trivial
  | cons x path ih =>
    simp only [openLoop_cons, Passable]
    constructor
    · rintro ⟨fuel, r, hr⟩
      obtain ⟨⟨o, t⟩, hf, hr⟩ := Option.bind_eq_some_iff.mp hr
      obtain ⟨k, -, F, rfl, rfl⟩ := findLoop_eq_some_iff.mp hf
      refine ⟨k, F, fun hp e he => ?_⟩
      obtain ⟨handle, hopen, hrest⟩ := afterSearch_returns_iff.mp ⟨fuel, r, hr⟩ e he hp
      obtain ⟨hscan, hfault⟩ := fatOpenEntry_some_iff.mp hopen
      exact ⟨handle, hscan, hfault, ih.mp hrest⟩
    · rintro ⟨k, F, hnext⟩
      obtain ⟨fuel, r, hr⟩ := afterSearch_returns_iff.mpr fun e he hp => by
        obtain ⟨handle, hscan, hfault, hrest⟩ := hnext hp e he
        exact ⟨handle, fatOpenEntry_some_iff.mpr ⟨hscan, hfault⟩, ih.mpr hrest⟩
      have hf := findLoop_eq_some_iff.mpr ⟨k, Nat.lt_succ_self k, F, rfl, rfl⟩
      refine ⟨max fuel (k + 1), r, ?_⟩
      rw [findLoop_mono (Nat.le_max_right _ _) hf, Option.bind_some]
      exact afterSearch_mono (fun _ _ => openLoop_mono (Nat.le_max_left _ _)) hr

/-- Directory `BIN` in the root directory of a floppy disk, in clusters 2 and 3, with the file `CAT` in the second. -/
def fileInDirectory : Partition where
  sector l :=
    if l = 0 then Buffer.ofList floppy
    else if l = 1 then Buffer.ofList [0xF0, 0xFF, 0xFF, 0x03, 0xF0, 0xFF]
    else if l = 19 then Buffer.ofList ([0x42, 0x49, 0x4E] ++ List.replicate 8 0x20 ++ [FAT_ATTRIBUTE_DIRECTORY] ++
      List.replicate 14 0 ++ [2])
    else if l = 34 then Buffer.ofList ([0x43, 0x41, 0x54] ++ List.replicate 8 0x20)
    else fun _ => 0
  partitionOffset := 0

def fileInDirectoryData : FatData := (fatInitialize fileInDirectory blankData).2

theorem fatInitialize_fileInDirectory : fatInitialize fileInDirectory blankData = (true, fileInDirectoryData) := rfl

/-- The path `bin/cat`. -/
def binCat : List Byte := [0x62, 0x69, 0x6E, 0x2F, 0x63, 0x61, 0x74]

/-- Directory `A` in the root directory of a floppy disk, with no handle free. -/
def oneDirectory : Partition where
  sector l :=
    if l = 0 then Buffer.ofList floppy
    else if l = 19 then Buffer.ofList (0x41 :: List.replicate 10 0x20 ++ [FAT_ATTRIBUTE_DIRECTORY])
    else fun _ => 0
  partitionOffset := 0

def noneFree : FatData :=
  let s := (fatInitialize oneDirectory blankData).2
  { s with openedFiles := fun i => { s.openedFiles i with opened := true } }

end

end AlexOS.Stage2
