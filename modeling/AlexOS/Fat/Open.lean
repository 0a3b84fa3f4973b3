import AlexOS.Fat.Read

/-!
# Opening files

`FAT_open` goes through the components of the path, and finds the file exactly
if each of them is found in the directory before it (`Finds`). It reads through
the root directory and through the slot of the new handle, and leaves the other
files alone (`Opens`, `openLoop_cases`).
-/

namespace AlexOS.Fat

/-- The first component of a path. -/
def component (path : List Byte) : List Byte :=
  match strchr path 0x2F with
  | some rest => path.take ((path.length - rest.length) % 2 ^ 16)
  | none => path

/-- Each component of the path is found, from directory `dir` on. -/
inductive Finds (fuel : Nat) (handle : Int) : Driver → Int → List Byte → Prop
  | last {s s' : Driver} {dir : Int} {path : List Byte} {entry : DirEntry}
      (hd : (s.file dir).isDir = true) (hp : strchr path 0x2F = none)
      (hf : findFile fuel s dir (component path) = some (some entry, s')) : Finds fuel handle s dir path
  | next {s s' : Driver} {dir : Int} {path rest : List Byte} {entry : DirEntry}
      (hd : (s.file dir).isDir = true) (hp : strchr path 0x2F = some rest)
      (hf : findFile fuel s dir (component path) = some (some entry, s'))
      (h : Finds fuel handle (setEntryFile s' handle entry) handle (rest.drop 1)) :
      Finds fuel handle s dir path

/-- What a call of `FAT_open` does, apart from the slot of the handle. -/
structure Opens (handle : Int) (s s' : Driver) : Prop where
  disk : s'.disk = s.disk
  other : ∀ k, k ≠ handle → k ≠ ROOT_DIR_HANDLE → s'.file k = s.file k
  rootFirstCluster : s'.rootDir.firstCluster = s.rootDir.firstCluster
  rootIsDir : s'.rootDir.isDir = s.rootDir.isDir
  rootHandle : s'.rootDir.handle = s.rootDir.handle

section

variable {s s' t t' : Driver} {h dir handle : Int} {fuel n : Nat} {name path : List Byte} {e : Byte}

theorem file_root (s : Driver) : s.file ROOT_DIR_HANDLE = s.rootDir := if_pos rfl

theorem Reads.errno (r : Reads h s s') : Reads h s { s' with errno := e } :=
  ⟨r.disk, r.other, r.firstCluster, r.size, r.isDir, r.isOpen, r.handle⟩

/-! ## The search of a directory -/

theorem readNextEntry_reads (hh : (s.file dir).handle = dir) : Reads dir s (readNextEntry s dir).2 := by
  simp only [readNextEntry, hh]
  exact fatRead_reads s dir sizeofDirEntry

theorem findLoop_reads {r : Option DirEntry × Driver} (hh : (s.file dir).handle = dir)
    (hr : findLoop dir name n s = some r) : Reads dir s r.2 := by
  induction n generalizing s with
  | zero => cases hr
  | succ n ih =>
    have rd := readNextEntry_reads hh
    simp only [findLoop] at hr
    split at hr
    · cases hr
      exact rd.errno
    · split at hr
      · cases hr
        exact rd
      · split at hr
        · exact rd.trans (ih (by rw [rd.handle, hh]) hr)
        · cases hr
          exact rd.errno

theorem findFile_reads {r : Option DirEntry × Driver} (hh : (s.file dir).handle = dir)
    (hr : findFile fuel s dir name = some r) : Reads dir s r.2 := by
  rw [findFile] at hr
  split at hr
  · cases hr
    exact (Reads.refl dir s).errno
  · exact findLoop_reads hh hr

/-! ## The path -/

namespace Opens

theorem refl (handle : Int) (s : Driver) : Opens handle s s := ⟨rfl, fun _ _ _ => rfl, rfl, rfl, rfl⟩

theorem trans (o₁ : Opens handle s s') (o₂ : Opens handle s' t) : Opens handle s t where
  disk := o₂.disk.trans o₁.disk
  other k hk hr := (o₂.other k hk hr).trans (o₁.other k hk hr)
  rootFirstCluster := o₂.rootFirstCluster.trans o₁.rootFirstCluster
  rootIsDir := o₂.rootIsDir.trans o₁.rootIsDir
  rootHandle := o₂.rootHandle.trans o₁.rootHandle

theorem errno (o : Opens handle s s') : Opens handle s { s' with errno := e } :=
  ⟨o.disk, o.other, o.rootFirstCluster, o.rootIsDir, o.rootHandle⟩

theorem of_reads (r : Reads dir s s') (hd : dir = ROOT_DIR_HANDLE ∨ dir = handle) : Opens handle s s' := by
  have hroot : s'.rootDir.firstCluster = s.rootDir.firstCluster ∧ s'.rootDir.isDir = s.rootDir.isDir ∧
      s'.rootDir.handle = s.rootDir.handle := by
    rw [← file_root s, ← file_root s']
    by_cases hr : ROOT_DIR_HANDLE = dir
    · rw [hr]
      exact ⟨r.firstCluster, r.isDir, r.handle⟩
    · rw [r.other _ hr]
      exact ⟨rfl, rfl, rfl⟩
  refine ⟨r.disk, fun k hk hr => r.other k fun e => ?_, hroot.1, hroot.2.1, hroot.2.2⟩
  rcases hd with e' | e'
  · exact hr (e.trans e')
  · exact hk (e.trans e')

theorem setFile (hh : handle ≠ ROOT_DIR_HANDLE) (f : File) : Opens handle s (s.setFile handle f) := by
  have hr : (s.setFile handle f).rootDir = s.rootDir := by
    rw [Driver.setFile, if_neg hh]
  exact ⟨disk_setFile _ _ _, fun k hk _ => file_setFile_of_ne hk, by rw [hr], by rw [hr], by rw [hr]⟩

end Opens

/-- A round of the loop of `FAT_open`. -/
theorem openLoop_succ : openLoop fuel handle (n + 1) s dir path =
    if ¬ (s.file dir).isDir then some (-1, { s with errno := -1 }) else
      (findFile fuel s dir (component path)).bind fun r =>
        match r.1, strchr path 0x2F with
        | none, _ => some (-1, { r.2 with errno := -1 })
        | some entry, some rest =>
          openLoop fuel handle n (setEntryFile r.2 handle entry) handle (rest.drop 1)
        | some entry, none => some (handle, (setEntryFile r.2 handle entry).setFile handle
            { (setEntryFile r.2 handle entry).file handle with isOpen := true }) := by
  rw [openLoop, component]
  cases strchr path 0x2F with
  | none =>
    simp only [Option.bind_eq_bind]
    congr 2
    funext r
    cases r.1 <;> rfl
  | some rest =>
    simp only [Option.bind_eq_bind]
    congr 2
    funext r
    cases r.1 <;> rfl

/-- How the loop of `FAT_open` ends. -/
theorem openLoop_cases (hh : handle ≠ ROOT_DIR_HANDLE) (hdir : dir = ROOT_DIR_HANDLE ∨ dir = handle)
    (hd : (s.file dir).handle = dir) {ret : Int} (hr : openLoop fuel handle n s dir path = some (ret, s')) :
    Opens handle s s' ∧
      (ret = handle ∧ Finds fuel handle s dir path ∧ (s'.file handle).isOpen = true ∨
        ret = ROOT_DIR_HANDLE ∧ ¬ Finds fuel handle s dir path ∧
          (s'.file handle).isOpen = (s.file handle).isOpen) := by
  induction n generalizing s dir path with
  | zero => cases hr
  | succ n ih =>
    rw [openLoop_succ] at hr
    by_cases hisdir : (s.file dir).isDir = true
    swap
    · rw [if_pos hisdir] at hr
      cases hr
      refine ⟨(Opens.refl _ _).errno, .inr ⟨rfl, fun hf => ?_, rfl⟩⟩
      cases hf <;> contradiction
    rw [if_neg (not_not.mpr hisdir)] at hr
    obtain ⟨⟨entry, s₁⟩, hfind, hr⟩ := Option.bind_eq_some_iff.mp hr
    have rd := findFile_reads hd hfind
    have o₁ := Opens.of_reads rd hdir
    have hopen := rd.isOpen_eq handle
    cases entry with
    | none =>
      cases hr
      refine ⟨o₁.errno, .inr ⟨rfl, fun hf => ?_, hopen⟩⟩
      cases hf with
      | last _ _ hf => exact absurd (hfind.symm.trans hf) (by simp)
      | next _ _ hf => exact absurd (hfind.symm.trans hf) (by simp)
    | some entry =>
      have o₂ : Opens handle s (setEntryFile s₁ handle entry) := o₁.trans (Opens.setFile hh _)
      cases hp : strchr path 0x2F with
      | none =>
        simp only [hp] at hr
        cases hr
        refine ⟨o₂.trans (Opens.setFile hh _), .inl ⟨rfl, .last hisdir hp hfind, ?_⟩⟩
        rw [file_setFile_self]
      | some rest =>
        simp only [hp] at hr
        have hhandle : ((setEntryFile s₁ handle entry).file handle).handle = handle := by
          rw [setEntryFile, file_setFile_self]
        obtain ⟨o₃, hcases⟩ := ih (.inr rfl) hhandle hr
        refine ⟨o₂.trans o₃, hcases.imp ?_ ?_⟩
        · rintro ⟨e, hf, ho⟩
          exact ⟨e, .next hisdir hp hfind hf, ho⟩
        · rintro ⟨e, hf, ho⟩
          refine ⟨e, fun hf' => ?_, ?_⟩
          · cases hf' with
            | last _ hp' => exact absurd (hp.symm.trans hp') (by simp)
            | next _ hp' hf' hrest =>
              obtain rfl : rest = _ := Option.some.inj (hp.symm.trans hp')
              have e := Option.some.inj (hfind.symm.trans hf')
              obtain ⟨rfl, rfl⟩ := Prod.mk.inj e |>.imp Option.some.inj id
              exact hf hrest
          · rw [ho, setEntryFile, file_setFile_self]
            exact hopen

/-! ## More rounds -/

theorem findLoop_mono {r : Option DirEntry × Driver} (hr : findLoop dir name n s = some r) (k : Nat) :
    findLoop dir name (n + k) s = some r := by
  induction n generalizing s with
  | zero => cases hr
  | succ n ih =>
    rw [Nat.succ_add]
    simp only [findLoop] at hr ⊢
    generalize (readNextEntry s dir).1 = entry at hr ⊢
    cases entry with
    | none => exact hr
    | some entry =>
      simp only at hr ⊢
      by_cases hname : entry.filename = name
      · rwa [if_pos hname] at hr ⊢
      rw [if_neg hname] at hr ⊢
      by_cases h0 : entry.getD 0 0 ≠ 0
      · rw [if_pos h0] at hr ⊢
        exact ih hr
      · rwa [if_neg h0] at hr ⊢

theorem findFile_mono {r : Option DirEntry × Driver} (hr : findFile fuel s dir name = some r) (k : Nat) :
    findFile (fuel + k) s dir name = some r := by
  rw [findFile] at hr ⊢
  by_cases hn : name.length > 11
  · rwa [if_pos hn] at hr ⊢
  · rw [if_neg hn] at hr ⊢
    exact findLoop_mono hr k

theorem openLoop_mono {r : Int × Driver} (hr : openLoop fuel handle n s dir path = some r) (k : Nat) :
    openLoop (fuel + k) handle n s dir path = some r := by
  induction n generalizing s dir path with
  | zero => cases hr
  | succ n ih =>
    rw [openLoop_succ] at hr ⊢
    by_cases hd : ¬ (s.file dir).isDir = true
    · rwa [if_pos hd] at hr ⊢
    rw [if_neg hd] at hr ⊢
    obtain ⟨⟨entry, s₁⟩, hfind, hr⟩ := Option.bind_eq_some_iff.mp hr
    rw [findFile_mono hfind k, Option.bind_some]
    cases entry with
    | none => exact hr
    | some entry =>
      cases hp : strchr path 0x2F with
      | none => simpa only [hp] using hr
      | some rest =>
        simp only [hp] at hr ⊢
        exact ih hr

end

end AlexOS.Fat
