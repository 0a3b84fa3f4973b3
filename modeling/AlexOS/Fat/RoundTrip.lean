import AlexOS.Fat.Mounted

/-!
# Reading back what was written

A file is created, opened, written, read from its start, closed, opened again
and read again. `FAT_write` counts the size of the file in memory only: the
directory entry keeps size 0, and a file that is opened again is empty. The
empty string is read back (`roundTrip_nil`), since a path is looked up twice
with the same result (`openLoop_alike`).
-/

namespace AlexOS.Fat

/-- `d` is written to the open file of handle `h`, and read back at once and after the file of that
path is opened again. -/
def RoundTrip (s : Driver) (h : Int) (path d : List Byte) : Prop :=
  let count := BitVec.ofNat 32 d.length
  ∀ s₁ ∈ fatSeek 0 (fatWrite s h count (Buffer.ofList d)).2 h 0 .set,
    (fatRead s₁ h count).2.1 = d ∧
      ∃ fuel h' s₂, fatOpen fuel (fatClose (fatRead s₁ h count).2.2 h) (some path) = some (h', s₂) ∧
        3 ≤ h' ∧ (s₂.file h').size = count ∧ (fatRead s₂ h' count).2.1 = d

/-- Two states in which directory `dir` is searched with the same result. -/
structure Alike (dir : Int) (s t : Driver) : Prop extends SameVolume s t where
  sector : t.disk.sector = s.disk.sector
  position : (t.file dir).position = (s.file dir).position
  currentCluster : (t.file dir).currentCluster = (s.file dir).currentCluster
  isDir : (t.file dir).isDir = (s.file dir).isDir
  handle : (t.file dir).handle = (s.file dir).handle

/-- The cache holds the first sector, and the disk has no faults. -/
structure Working (s : Driver) : Prop extends Cached s where
  readFails : ∀ l, s.disk.readFails l = false

section

variable {s s' t t' : Driver} {h dir handle : Int} {fuel n : Nat} {name path : List Byte} {count : Word}

theorem SameVolume.working (S : SameVolume s s') (W : Working s) : Working s' :=
  ⟨S.cached W.toCached, fun l => by rw [S.readFails, W.readFails]⟩

/-! ## Two lookups -/

theorem Alike.clusterBytes_eq (A : Alike dir s t) : clusterBytes t = clusterBytes s := by
  funext c
  rw [clusterBytes, clusterBytes, A.sector, A.cluster2Lba_eq]

/-- An entry is read in both states, and what follows is alike. -/
theorem readNextEntry_alike (W : Working s) (A : Alike dir s t) (hh : (s.file dir).handle = dir)
    (hd : (s.file dir).isDir = true) : (readNextEntry t dir).1 = (readNextEntry s dir).1 ∧
      Alike dir (readNextEntry s dir).2 (readNextEntry t dir).2 := by
  have W' := A.working W
  have hm : clamp (s.file dir) sizeofDirEntry = 32 := by rw [clamp, if_pos hd]; rfl
  have hm' : clamp (t.file dir) sizeofDirEntry = 32 := by rw [clamp, if_pos (A.isDir.trans hd)]; rfl
  obtain ⟨b, e⟩ := fatRead_eq W.toCached W.readFails dir sizeofDirEntry
    (by rw [hm]; decide)
  obtain ⟨b', e'⟩ := fatRead_eq W'.toCached W'.readFails dir sizeofDirEntry
    (by rw [hm']; decide)
  have hnext : successor t = successor s := funext A.successor_eq
  rw [hm', A.clusterBytes_eq, hnext, A.position, A.currentCluster] at e'
  rw [hm] at e
  have S : SameVolume s (fatRead s dir sizeofDirEntry).2.2 := readLoop_same W.toCached _ _ _ _ _ _
  have S' : SameVolume t (fatRead t dir sizeofDirEntry).2.2 := readLoop_same W'.toCached _ _ _ _ _ _
  simp only [readNextEntry, hh, A.handle]
  generalize readChain _ _ _ _ _ _ = p at e e'
  have V := (S.symm.trans A.toSameVolume).trans S'
  rw [e] at S V ⊢
  rw [e'] at S' V ⊢
  refine ⟨rfl, V, ?_, ?_, ?_, ?_, ?_⟩
  · rw [disk_setFile, disk_setFile, A.sector]
  all_goals simp only [file_setFile_self, A.isDir, A.handle]

/-- The loop of `find_file` ends in the same way. -/
theorem findLoop_alike (W : Working s) (A : Alike dir s t) (hh : (s.file dir).handle = dir)
    (hd : (s.file dir).isDir = true) {e : Option DirEntry} (hr : findLoop dir name n s = some (e, s')) :
    ∃ t', findLoop dir name n t = some (e, t') := by
  induction n generalizing s t with
  | zero => cases hr
  | succ n ih =>
    obtain ⟨he, A'⟩ := readNextEntry_alike W A hh hd
    have S : SameVolume s (readNextEntry s dir).2 := readLoop_same W.toCached _ _ _ _ _ _
    have rd := readNextEntry_reads hh
    simp only [findLoop, he] at hr ⊢
    generalize (readNextEntry s dir).1 = entry at hr ⊢
    cases entry with
    | none =>
      cases hr
      exact ⟨_, rfl⟩
    | some entry =>
      simp only at hr ⊢
      by_cases hname : entry.filename = name
      · rw [if_pos hname] at hr ⊢
        cases hr
        exact ⟨_, rfl⟩
      rw [if_neg hname] at hr ⊢
      by_cases h0 : entry.getD 0 0 ≠ 0
      · rw [if_pos h0] at hr ⊢
        exact ih (S.working W) A' (by rw [rd.handle, hh]) (by rw [rd.isDir, hd]) hr
      · rw [if_neg h0] at hr ⊢
        cases hr
        exact ⟨_, rfl⟩

theorem findFile_alike (W : Working s) (A : Alike dir s t) (hh : (s.file dir).handle = dir)
    (hd : (s.file dir).isDir = true) {e : Option DirEntry}
    (hr : findFile fuel s dir name = some (e, s')) : ∃ t', findFile fuel t dir name = some (e, t') := by
  rw [findFile] at hr ⊢
  by_cases hn : name.length > 11
  · rw [if_pos hn] at hr ⊢
    cases hr
    exact ⟨_, rfl⟩
  · rw [if_neg hn] at hr ⊢
    exact findLoop_alike W A hh hd hr

/-- A path is looked up with the same result. -/
theorem openLoop_alike (W : Working s) (A : Alike dir s t) (hh : (s.file dir).handle = dir)
    (hne : handle ≠ ROOT_DIR_HANDLE) (hr : openLoop fuel handle n s dir path = some (handle, s')) :
    ∃ t', openLoop fuel handle n t dir path = some (handle, t') ∧
      (t'.file handle).size = (s'.file handle).size := by
  induction n generalizing s t dir path with
  | zero => cases hr
  | succ n ih =>
    rw [openLoop_succ] at hr ⊢
    by_cases hd : (s.file dir).isDir = true
    swap
    · rw [if_pos hd] at hr
      cases hr
      exact absurd rfl hne
    rw [if_neg (not_not.mpr hd)] at hr
    rw [if_neg (by rw [A.isDir]; exact not_not.mpr hd)]
    obtain ⟨⟨entry, s₁⟩, hfind, hr⟩ := Option.bind_eq_some_iff.mp hr
    obtain ⟨t₁, hfind'⟩ := findFile_alike W A hh hd hfind
    rw [hfind', Option.bind_some]
    have S := findFile_same W.toCached hfind
    have S' := findFile_same (A.cached W.toCached) hfind'
    cases entry with
    | none =>
      cases hr
      exact absurd rfl hne
    | some entry =>
      have rd := findFile_reads hh hfind
      have rd' := findFile_reads (A.handle.trans hh) hfind'
      have S₂ : SameVolume s (setEntryFile s₁ handle entry) := S.trans (sameVolume_setFile s₁ handle _)
      have A₂ : Alike handle (setEntryFile s₁ handle entry) (setEntryFile t₁ handle entry) := by
        refine ⟨?_, ?_, ?_, ?_, ?_, ?_⟩
        · exact S₂.symm.trans (A.toSameVolume.trans (S'.trans (sameVolume_setFile t₁ handle _)))
        · rw [setEntryFile, setEntryFile, disk_setFile, disk_setFile, rd.disk, rd'.disk, A.sector]
        all_goals rw [setEntryFile, setEntryFile, file_setFile_self, file_setFile_self]
      cases hp : strchr path 0x2F with
      | none =>
        simp only [hp] at hr ⊢
        cases hr
        refine ⟨_, rfl, ?_⟩
        simp only [file_setFile_self, setEntryFile]
      | some rest =>
        simp only [hp] at hr ⊢
        have hhandle : ((setEntryFile s₁ handle entry).file handle).handle = handle := by
          rw [setEntryFile, file_setFile_self]
        exact ih (S₂.working W) A₂ hhandle hr

/-! ## The empty string -/

/-- A read of no bytes. -/
theorem fatRead_zero (s : Driver) (h : Int) : fatRead s h 0 = (0, [], s) := by
  have hc : clamp (s.file h) 0 = 0 := by
    rw [clamp]
    split
    · rfl
    · split
      · rfl
      · rename_i hlt
        exact BitVec.le_zero_iff.mp (BitVec.not_lt.mp hlt)
  have e : fatRead s h 0 = readLoop h (clamp (s.file h) 0).toNat s (clamp (s.file h) 0)
      ((s.file h).position % 512) 0 [] := rfl
  rw [e, hc]
  rfl

theorem findFreeHandle_congr (hslot : ∀ i < MAX_OPEN_FILE, SlotOpen t i ↔ SlotOpen s i) :
    findFreeHandle t = findFreeHandle s := by
  have key : ∀ n i, i + n ≤ MAX_OPEN_FILE → scanHandles t n i = scanHandles s n i := by
    intro n
    induction n with
    | zero => exact fun _ _ => rfl
    | succ n ih =>
      intro i hi
      rw [scanHandles, scanHandles, ih (i + 1) (by omega)]
      exact if_congr (hslot i (by omega)) rfl rfl
  exact key _ _ (le_refl _)

/-- A file that was opened and closed is opened again. -/
theorem reopen_ok (W : Working s) (hroot : s.rootDir.handle = ROOT_DIR_HANDLE)
    (ho : fatOpen fuel s (some path) = some (h, s')) (h3 : 3 ≤ h) {f : File} (hf : f.isOpen = false) :
    ∃ t', fatOpen fuel (s'.setFile h f) (some path) = some (h, t') ∧
      (t'.file h).size = (s'.file h).size := by
  have hne : h ≠ ROOT_DIR_HANDLE := by rw [ROOT_DIR_HANDLE]; omega
  obtain ⟨e, -⟩ | ⟨-, e, -⟩ | ⟨-, hp, o, ⟨hret, -⟩ | ⟨e, -⟩⟩ := fatOpen_cases hroot ho
  · cases e
  · exact absurd e hne
  swap
  · exact absurd e hne
  have hp : path ≠ [0x2F] := fun e => hp (congrArg some e)
  have o' := o.trans (Opens.setFile (hret ▸ hne) f)
  rw [← hret] at o'
  -- the slot is free again
  have hfree : findFreeHandle (s'.setFile h f) = findFreeHandle s := by
    apply findFreeHandle_congr
    intro i hi
    by_cases hi' : (i : Int) + 3 = h
    · have hclosed : ¬ SlotOpen s i := fun hopen =>
        ne_findFreeHandle_of_slotOpen hopen (hi'.trans hret)
      refine iff_of_false (fun hopen => ?_) hclosed
      rw [SlotOpen, ← file_slot, hi', file_setFile_self, hf] at hopen
      exact Bool.false_ne_true hopen
    · exact slotOpen_of_opens o' hi'
  rw [fatOpen_eq hp, ← hret] at ho
  rw [fatOpen_eq hp, hfree, ← hret]
  have S := sameVolume_openStart s
  have S' := (openLoop_same (S.cached W.toCached) ho).trans (sameVolume_setFile s' h f)
  have hdisk : (openStart (s'.setFile h f)).disk = (openStart s).disk := by
    rw [(opens_openStart _).disk, o'.disk, (opens_openStart s).disk]
  have hroot' := (opens_openStart (s'.setFile h f))
  have hcur : ∀ t : Driver, ((openStart t).file ROOT_DIR_HANDLE).position = 0 ∧
      ((openStart t).file ROOT_DIR_HANDLE).currentCluster = t.rootDir.firstCluster := fun t => by
    rw [openStart, file_setFile_of_ne (findFreeHandle_ne_root t).symm, file_root]
    exact ⟨rfl, rfl⟩
  have A : Alike ROOT_DIR_HANDLE (openStart s) (openStart (s'.setFile h f)) := by
    refine ⟨S'.trans (sameVolume_openStart _), by rw [hdisk], ?_, ?_, ?_, ?_⟩
    · rw [(hcur _).1, (hcur _).1]
    · rw [(hcur _).2, (hcur _).2, o'.rootFirstCluster]
    · rw [file_root, file_root, (opens_openStart _).rootIsDir, (opens_openStart _).rootIsDir, o'.rootIsDir]
    · rw [file_root, file_root, (opens_openStart _).rootHandle, (opens_openStart _).rootHandle, o'.rootHandle]
  have hstart : ((openStart s).file ROOT_DIR_HANDLE).handle = ROOT_DIR_HANDLE := by
    rw [file_root, (opens_openStart s).rootHandle, hroot]
  exact openLoop_alike (S.working W) A hstart hne ho

/-- The empty string is read back from a file that was created, and opened with size 0. -/
theorem roundTrip_nil {s₀ s₁ : Driver} {fuel' : Nat} (W : WellFormed s₀)
    (hr : ∀ l, s₀.disk.readFails l = false) (hc : fatCreateFile fuel s₀ path = some s₁)
    (ho : fatOpen fuel' s₁ (some path) = some (h, s)) (h3 : 3 ≤ h) (hsize : (s.file h).size = 0)
    {d : List Byte} (hd : d = []) : RoundTrip s h path d := by
  subst hd
  have T := fatCreateFile_stable W.rootHandle hc
  have W₁ : Working s₁ := ⟨T.cached W.cached, fun l => by rw [T.readFails, hr]⟩
  have hne : h ≠ ROOT_DIR_HANDLE := by rw [ROOT_DIR_HANDLE]; omega
  rintro z hz
  have hz : some (seekFrom (s.setFile h { s.file h with position := 0 }) h 0) = some z := hz
  cases hz
  show (fatRead _ h 0).2.1 = [] ∧ _
  rw [show BitVec.ofNat 32 ([] : List Byte).length = 0 from rfl, fatRead_zero]
  refine ⟨rfl, fuel', h, ?_⟩
  generalize hf : ({ (s.setFile h { s.file h with position := 0 }).file h with
    currentCluster := ((s.setFile h { s.file h with position := 0 }).file h).firstCluster } : File) = f
  have e : fatClose (seekFrom (s.setFile h { s.file h with position := 0 }) h 0) h =
      s.setFile h { f with isOpen := false } := by
    rw [fatClose, if_neg hne, ← hf]
    simp only [seekFrom, show (0 : Word).toNat = 0 from rfl, seekLoop, file_setFile_self, setFile_setFile]
  obtain ⟨t', ht, hs⟩ := reopen_ok W₁ (T.rootHandle.trans W.rootHandle) ho h3
    (f := { f with isOpen := false }) rfl
  refine ⟨t', by rw [e]; exact ht, h3, hs.trans hsize, ?_⟩
  rw [fatRead_zero]

/-! ## A file of one byte -/

theorem wellFormed_closedFat : WellFormed closedFat :=
  let W := wellFormed_someFat
  ⟨W.1, W.2, W.3, W.4, W.5, W.6, W.7, W.8, W.9, W.10, W.11, W.12, W.13, W.14⟩

/-- The file `C` is created, and opened. -/
def createdFile : Option (Int × Driver) := do
  let s ← fatCreateFile 9 closedFat [0x43]
  fatOpen 9 s (some [0x43])

theorem createdFile_eq : ∃ s₁ s, fatCreateFile 9 closedFat [0x43] = some s₁ ∧
    fatOpen 9 s₁ (some [0x43]) = some (3, s) ∧ createdFile = some (3, s) ∧ (s.file 3).size = 0 := by
  have hret : createdFile.map Prod.fst = some 3 := by decide
  have hsize : createdFile.map (fun r => (r.2.file 3).size) = some 0 := by decide
  obtain ⟨⟨ret, s⟩, h, rfl⟩ := Option.map_eq_some_iff.mp hret
  have h₁ := h
  rw [createdFile, Option.bind_eq_bind] at h₁
  obtain ⟨s₁, hc, ho⟩ := Option.bind_eq_some_iff.mp h₁
  rw [h] at hsize
  exact ⟨s₁, s, hc, ho, h, Option.some.inj hsize⟩

theorem roundTrip_nil_closedFat : ∃ s₁ s, fatCreateFile 9 closedFat [0x43] = some s₁ ∧
    fatOpen 9 s₁ (some [0x43]) = some (3, s) ∧ RoundTrip s 3 [0x43] [] := by
  obtain ⟨s₁, s, hc, ho, -, hsize⟩ := createdFile_eq
  exact ⟨s₁, s, hc, ho, roundTrip_nil wellFormed_closedFat (fun _ => rfl) hc ho (by decide) hsize rfl⟩

/-- The size of the file, when it has been written and is opened again. -/
def reopenedSize : Option Word := do
  let (h, s) ← createdFile
  let s ← fatSeek 0 (fatWrite s h 1 (Buffer.ofList [0x41])).2 h 0 .set
  let r ← fatOpen 9 (fatClose (fatRead s h 1).2.2 h) (some [0x43])
  some (r.2.file r.1).size

/-- A byte is written to a new file. When the file is opened again, its size is 0. -/
theorem not_roundTrip : ¬ ∀ (s₀ s₁ s : Driver) (fuel fuel' : Nat) (h : Int) (path d : List Byte),
    WellFormed s₀ → (∀ l, s₀.disk.readFails l = false) → fatCreateFile fuel s₀ path = some s₁ →
      fatOpen fuel' s₁ (some path) = some (h, s) → 3 ≤ h → (s.file h).size = 0 →
        RoundTrip s h path d := by
  intro H
  obtain ⟨s₁, s, hc, ho, hs, hsize⟩ := createdFile_eq
  obtain ⟨-, fuel, h', s₂, hopen, -, hsize', -⟩ := H closedFat s₁ s 9 9 3 [0x43] [0x41]
    wellFormed_closedFat (fun _ => rfl) hc ho (by decide) hsize _ rfl
  have he : reopenedSize = some 0 := by decide
  rw [reopenedSize, hs] at he
  obtain ⟨_, hz, he⟩ := Option.bind_eq_some_iff.mp he
  cases hz
  obtain ⟨z, hz, he⟩ := Option.bind_eq_some_iff.mp he
  cases hz
  obtain ⟨r, hr, he⟩ := Option.bind_eq_some_iff.mp he
  obtain rfl := fatOpen_unique hr hopen
  exact absurd ((Option.some.inj he).symm.trans hsize') (by decide)

end

end AlexOS.Fat
