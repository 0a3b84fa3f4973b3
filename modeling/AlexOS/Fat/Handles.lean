import AlexOS.Fat.Open

/-!
# The table of open files

Runs of `FAT_open` and `FAT_close` from a table without open files. The slots
that are open are those of the live handles (`HandleRun.slots`). A call of
`FAT_open` treats the table as it should exactly if the path is `NULL` or `/`,
or if a slot is free and the path leads to a file (`handles_iff`): the test for
a full table is never true, so that the slot before the table is used, and the
value returned for a file that is not found is the handle of the root directory.
-/

namespace AlexOS.Fat

/-- Slot `i` of the table is open. -/
def SlotOpen (s : Driver) (i : Nat) : Prop := (s.openedFiles i).isOpen = true

/-- All slots are open. -/
def Full (s : Driver) : Prop := ∀ i < MAX_OPEN_FILE, SlotOpen s i

/-- The state in which `FAT_open` goes through the path. -/
def openStart (s : Driver) : Driver :=
  (rewindRoot s).setFile (findFreeHandle s) { (rewindRoot s).file (findFreeHandle s) with
    handle := findFreeHandle s }

/-- The path leads to a file. -/
def Names (fuel : Nat) (s : Driver) : Option (List Byte) → Prop
  | none => False
  | some path => path = [0x2F] ∨
      Finds fuel (findFreeHandle s) (openStart s) ROOT_DIR_HANDLE (stripSlash path)

/-- What a successful call of `FAT_open` may return. -/
def IsHandle (v : Int) : Prop := v = ROOT_DIR_HANDLE ∨ 3 ≤ v ∧ v < 3 + MAX_OPEN_FILE

/-- What is asked of a call of `FAT_open`, where `live` are the open handles. -/
structure Proper (fuel : Nat) (s : Driver) (live : List Int) (path : Option (List Byte)) (ret : Int)
    (s' : Driver) : Prop where
  success : Names fuel s path →
    ret = ROOT_DIR_HANDLE ∨ 3 ≤ ret ∧ ret < 3 + MAX_OPEN_FILE ∧ ret ∉ live
  full : Full s → path ≠ some [0x2F] → ¬ Names fuel s path ∧ s'.openedFiles = s.openedFiles
  failure : ¬ Names fuel s path → ¬ IsHandle ret

/-- The root handle is that of the root directory, and no slot is open. -/
structure NoneOpen (s : Driver) : Prop where
  rootHandle : s.rootDir.handle = ROOT_DIR_HANDLE
  slots : ∀ i < MAX_OPEN_FILE, ¬ SlotOpen s i

/-- Runs of the two calls, and the handles that are open: those returned for a file, and not
closed since. -/
inductive HandleRun (s₀ : Driver) : Driver → List Int → Prop
  | init : HandleRun s₀ s₀ []
  | openFile {fuel : Nat} {s s' : Driver} {live : List Int} {path : Option (List Byte)} {ret : Int}
      (r : HandleRun s₀ s live) (h : fatOpen fuel s path = some (ret, s'))
      (hn : Names fuel s path) : HandleRun s₀ s' (ret :: live)
  | openFails {fuel : Nat} {s s' : Driver} {live : List Int} {path : Option (List Byte)} {ret : Int}
      (r : HandleRun s₀ s live) (h : fatOpen fuel s path = some (ret, s'))
      (hn : ¬ Names fuel s path) : HandleRun s₀ s' live
  | close {s : Driver} {live : List Int} {handle : Int} (r : HandleRun s₀ s live)
      (h : handle ∈ live) : HandleRun s₀ (fatClose s handle) (live.filter (· ≠ handle))

section

variable {s s' s₀ : Driver} {fuel n i : Nat} {live : List Int} {path : Option (List Byte)} {ret handle : Int}

/-- The slot of a handle. -/
theorem file_slot (s : Driver) (i : Nat) : s.file (i + 3) = s.openedFiles i := by
  have h : ¬ ((i : Int) + 3 = ROOT_DIR_HANDLE) := by rw [ROOT_DIR_HANDLE]; omega
  rw [Driver.file, if_neg h, Int.add_sub_cancel]

/-! ## The search for a slot -/

theorem scanHandles_cases (s : Driver) (n i : Nat) :
    (scanHandles s n i = 0 ∧ ∀ j, i ≤ j → j < i + n → SlotOpen s j) ∨
      ∃ j, i ≤ j ∧ j < i + n ∧ scanHandles s n i = j + 3 ∧ ¬ SlotOpen s j := by
  induction n generalizing i with
  | zero => exact .inl ⟨rfl, fun j h1 h2 => by omega⟩
  | succ n ih =>
    by_cases ho : (s.openedFiles i).isOpen = true
    · rw [scanHandles, if_pos ho]
      rcases ih (i + 1) with ⟨e, h⟩ | ⟨j, h1, h2, e, hj⟩
      · refine .inl ⟨e, fun j h1 h2 => ?_⟩
        rcases Nat.eq_or_lt_of_le h1 with rfl | hlt
        · exact ho
        · exact h j hlt (by omega)
      · exact .inr ⟨j, by omega, by omega, e, hj⟩
    · rw [scanHandles, if_neg ho]
      exact .inr ⟨i, le_refl _, by omega, rfl, ho⟩

/-- No slot is free, or the handle is that of a slot that is. -/
theorem findFreeHandle_cases (s : Driver) : (findFreeHandle s = 0 ∧ Full s) ∨
    ∃ j < MAX_OPEN_FILE, findFreeHandle s = j + 3 ∧ ¬ SlotOpen s j := by
  rcases scanHandles_cases s MAX_OPEN_FILE 0 with ⟨e, h⟩ | ⟨j, -, h2, e, hj⟩
  · exact .inl ⟨e, fun i hi => h i (Nat.zero_le _) (by omega)⟩
  · exact .inr ⟨j, by omega, e, hj⟩

theorem findFreeHandle_ne_root (s : Driver) : findFreeHandle s ≠ ROOT_DIR_HANDLE := by
  rcases findFreeHandle_cases s with ⟨e, -⟩ | ⟨j, -, e, -⟩ <;> rw [e, ROOT_DIR_HANDLE] <;> omega

/-! ## The calls -/

/-- The test for a full table is never true. -/
theorem fatOpen_eq {p : List Byte} (hp : p ≠ [0x2F]) : fatOpen fuel s (some p) =
    openLoop fuel (findFreeHandle s) ((stripSlash p).length + 1) (openStart s) ROOT_DIR_HANDLE
      (stripSlash p) := by
  have hfree : findFreeHandle (rewindRoot s) = findFreeHandle s := rfl
  have hfull : ¬ (findFreeHandle s = 0 ∧ findFreeHandle s - 3 ≥ MAX_OPEN_FILE) := by
    rintro ⟨e, h⟩
    rw [e] at h
    exact absurd h (by decide)
  simp only [fatOpen, hfree]
  rw [if_neg hp, if_neg hfull]
  rfl

theorem fatOpen_mono {r : Int × Driver} (hr : fatOpen fuel s path = some r) (k : Nat) :
    fatOpen (fuel + k) s path = some r := by
  cases path with
  | none => exact hr
  | some p =>
    by_cases hp : p = [0x2F]
    · subst hp
      exact hr
    · rw [fatOpen_eq hp] at hr ⊢
      exact openLoop_mono hr k

/-- Calls that return, return the same. -/
theorem fatOpen_unique {fuel' : Nat} {r r' : Int × Driver} (hr : fatOpen fuel s path = some r)
    (hr' : fatOpen fuel' s path = some r') : r = r' := by
  have e := fatOpen_mono hr fuel'
  rw [Nat.add_comm, fatOpen_mono hr' fuel] at e
  exact (Option.some.inj e).symm

theorem opens_openStart (s : Driver) : Opens (findFreeHandle s) s (openStart s) := by
  have o : Opens (findFreeHandle s) s (rewindRoot s) := by
    refine ⟨rfl, fun k _ hk => ?_, rfl, rfl, rfl⟩
    rw [Driver.file, Driver.file, if_neg hk, if_neg hk]
    rfl
  exact o.trans (Opens.setFile (findFreeHandle_ne_root s) _)

theorem sameVolume_openStart (s : Driver) : SameVolume s (openStart s) := by
  have S : SameVolume s (rewindRoot s) := ⟨rfl, rfl, rfl, rfl, rfl, rfl, rfl, rfl, rfl, rfl, rfl⟩
  exact S.trans (sameVolume_setFile _ _ _)

theorem isOpen_openStart (s : Driver) :
    ((openStart s).file (findFreeHandle s)).isOpen = (s.file (findFreeHandle s)).isOpen := by
  rw [openStart, file_setFile_self]
  show ((rewindRoot s).file _).isOpen = _
  rw [Driver.file, Driver.file, if_neg (findFreeHandle_ne_root s), if_neg (findFreeHandle_ne_root s)]
  rfl

/-- What `FAT_open` does: `NULL` and `/` are not looked up, and the path leads to a file, whose
slot is open then, or it does not, and no slot is. -/
theorem fatOpen_cases (hroot : s.rootDir.handle = ROOT_DIR_HANDLE)
    (h : fatOpen fuel s path = some (ret, s')) :
    (path = none ∧ ret = 0 ∧ s'.openedFiles = s.openedFiles ∧ s'.rootDir = s.rootDir) ∨
    (path = some [0x2F] ∧ ret = ROOT_DIR_HANDLE ∧ s'.openedFiles = s.openedFiles ∧
      s'.rootDir.handle = ROOT_DIR_HANDLE) ∨
    (path ≠ none ∧ path ≠ some [0x2F] ∧ Opens (findFreeHandle s) s s' ∧
      (ret = findFreeHandle s ∧ Names fuel s path ∧ (s'.file (findFreeHandle s)).isOpen = true ∨
        ret = ROOT_DIR_HANDLE ∧ ¬ Names fuel s path ∧
          (s'.file (findFreeHandle s)).isOpen = (s.file (findFreeHandle s)).isOpen)) := by
  cases path with
  | none =>
    cases h
    exact .inl ⟨rfl, rfl, rfl, rfl⟩
  | some p =>
    by_cases hp : p = [0x2F]
    · subst hp
      cases h
      exact .inr (.inl ⟨rfl, hroot, rfl, hroot⟩)
    · rw [fatOpen_eq hp] at h
      have o := opens_openStart s
      have hstart : ((openStart s).file ROOT_DIR_HANDLE).handle = ROOT_DIR_HANDLE := by
        rw [file_root, o.rootHandle, hroot]
      obtain ⟨o', hcases⟩ := openLoop_cases (findFreeHandle_ne_root s) (.inl rfl) hstart h
      refine .inr (.inr ⟨by simp, fun e => hp (Option.some.inj e), o.trans o', hcases.imp ?_ ?_⟩)
      · rintro ⟨e, hf, ho⟩
        exact ⟨e, .inr hf, ho⟩
      · rintro ⟨e, hf, ho⟩
        exact ⟨e, fun hn => hn.elim hp hf, ho.trans (isOpen_openStart s)⟩

/-! ## Runs -/

/-- The root handle is kept, and the open slots of the table are those of the live handles. -/
structure Slots (s : Driver) (live : List Int) : Prop where
  rootHandle : s.rootDir.handle = ROOT_DIR_HANDLE
  slots : ∀ i < MAX_OPEN_FILE, SlotOpen s i ↔ (i : Int) + 3 ∈ live

theorem slotOpen_of_opens (o : Opens handle s s') (hne : (i : Int) + 3 ≠ handle) :
    SlotOpen s' i ↔ SlotOpen s i := by
  have hr : (i : Int) + 3 ≠ ROOT_DIR_HANDLE := by rw [ROOT_DIR_HANDLE]; omega
  have := o.other _ hne hr
  rw [file_slot, file_slot] at this
  rw [SlotOpen, SlotOpen, this]

/-- The handle of a call that opens a slot is in the table, or no slot is free. -/
theorem ne_findFreeHandle_of_slotOpen (ho : SlotOpen s i) :
    (i : Int) + 3 ≠ findFreeHandle s := by
  intro e
  rcases findFreeHandle_cases s with ⟨e', -⟩ | ⟨j, -, e', hj⟩
  · omega
  · obtain rfl : i = j := by omega
    exact hj ho

theorem Slots.open_ok (S : Slots s live) (h : fatOpen fuel s path = some (ret, s')) :
    (Names fuel s path → Slots s' (ret :: live)) ∧ (¬ Names fuel s path → Slots s' live) := by
  have hroot3 : ∀ i : Nat, (i : Int) + 3 ≠ ROOT_DIR_HANDLE := fun i => by rw [ROOT_DIR_HANDLE]; omega
  rcases fatOpen_cases S.rootHandle h with ⟨rfl, -, hs, hr⟩ | ⟨rfl, rfl, hs, hr⟩ | ⟨-, -, o, hcases⟩
  · refine ⟨fun hn => hn.elim, fun _ => ⟨by rw [hr, S.rootHandle], fun i hi => ?_⟩⟩
    rw [SlotOpen, hs]
    exact S.slots i hi
  · refine ⟨fun _ => ⟨hr, fun i hi => ?_⟩, fun hn => absurd (.inl rfl) hn⟩
    rw [SlotOpen, hs, List.mem_cons, or_iff_right (hroot3 i)]
    exact S.slots i hi
  · have hroot := o.rootHandle.trans S.rootHandle
    rcases hcases with ⟨rfl, hn, ho⟩ | ⟨rfl, hn, ho⟩
    · refine ⟨fun _ => ⟨hroot, fun i hi => ?_⟩, fun h => absurd hn h⟩
      rw [List.mem_cons]
      by_cases he : (i : Int) + 3 = findFreeHandle s
      · refine ⟨fun _ => .inl he, fun _ => ?_⟩
        rwa [SlotOpen, ← file_slot, he]
      · rw [or_iff_right he, slotOpen_of_opens o he, S.slots i hi]
    · refine ⟨fun h => absurd h hn, fun _ => ⟨hroot, fun i hi => ?_⟩⟩
      by_cases he : (i : Int) + 3 = findFreeHandle s
      · rw [← S.slots i hi, SlotOpen, SlotOpen, ← file_slot, ← file_slot, he, ho]
      · rw [slotOpen_of_opens o he, S.slots i hi]

theorem Slots.close_ok (S : Slots s live) (handle : Int) :
    Slots (fatClose s handle) (live.filter (· ≠ handle)) := by
  have hmem : ∀ i : Nat, (i : Int) + 3 ∈ live.filter (· ≠ handle) ↔
      (i : Int) + 3 ∈ live ∧ (i : Int) + 3 ≠ handle := fun i => by
    rw [List.mem_filter, decide_eq_true_iff]
  rw [fatClose]
  by_cases hh : handle = ROOT_DIR_HANDLE
  · rw [if_pos hh]
    refine ⟨S.rootHandle, fun i hi => ?_⟩
    have hne : (i : Int) + 3 ≠ handle := by rw [hh, ROOT_DIR_HANDLE]; omega
    rw [hmem, and_iff_left hne, S.slots i hi]
  · rw [if_neg hh]
    have o := Opens.setFile (s := s) hh { s.file handle with isOpen := false }
    refine ⟨o.rootHandle.trans S.rootHandle, fun i hi => ?_⟩
    rw [hmem]
    by_cases he : (i : Int) + 3 = handle
    · rw [SlotOpen, ← file_slot, he, file_setFile_self]
      simp
    · rw [and_iff_left he, slotOpen_of_opens o he, S.slots i hi]

theorem HandleRun.slots (N : NoneOpen s₀) (r : HandleRun s₀ s live) : Slots s live := by
  induction r with
  | init => exact ⟨N.rootHandle, fun i hi => iff_of_false (N.slots i hi) (by simp)⟩
  | openFile _ h hn ih => exact (ih.open_ok h).1 hn
  | openFails _ h hn ih => exact (ih.open_ok h).2 hn
  | close _ _ ih => exact ih.close_ok _

/-- In every state of a run, a call of `FAT_open` treats the table as it should exactly if it looks
nothing up, or has a free slot and finds the file. -/
theorem handles_iff (N : NoneOpen s₀) (r : HandleRun s₀ s live)
    (h : fatOpen fuel s path = some (ret, s')) :
    Proper fuel s live path ret s' ↔
      path = none ∨ path = some [0x2F] ∨ ¬ Full s ∧ Names fuel s path := by
  have S := r.slots N
  rcases fatOpen_cases S.rootHandle h with ⟨rfl, rfl, hs, -⟩ | ⟨rfl, rfl, -, -⟩ | ⟨hp, hp', -, hcases⟩
  · refine ⟨fun _ => .inl rfl, fun _ => ⟨fun hn => hn.elim, fun _ _ => ⟨fun hn => hn, hs⟩, ?_⟩⟩
    rintro - (e | ⟨h3, -⟩)
    · exact absurd e (by decide)
    · exact absurd h3 (by decide)
  · exact ⟨fun _ => .inr (.inl rfl), fun _ => ⟨fun _ => .inl rfl, fun _ hp => absurd rfl hp,
      fun hn => absurd (.inl rfl) hn⟩⟩
  rw [or_iff_right hp, or_iff_right hp']
  rcases hcases with ⟨rfl, hn, -⟩ | ⟨rfl, hn, -⟩
  · rcases findFreeHandle_cases s with ⟨e, hfull⟩ | ⟨j, hj, e, hfree⟩
    · exact ⟨fun P => absurd hn (P.full hfull hp').1, fun h => absurd hfull h.1⟩
    · have hnot : ¬ Full s := fun hfull => hfree (hfull j hj)
      refine ⟨fun _ => ⟨hnot, hn⟩, fun _ => ⟨fun _ => .inr ?_, fun hfull => absurd hfull hnot,
        fun h => absurd hn h⟩⟩
      rw [e]
      exact ⟨by omega, by omega, fun hm => hfree ((S.slots j hj).mpr hm)⟩
  · exact ⟨fun P => absurd (.inl rfl) (P.failure hn), fun h => absurd h.2 hn⟩

/-- The volume, before a file is opened. -/
def closedFat : Driver := { someFat with openedFiles := fun _ => File.zero }

theorem noneOpen_closedFat : NoneOpen closedFat := ⟨rfl, fun _ _ => Bool.false_ne_true⟩

/-- The value returned tells whether the path leads to a file. -/
theorem names_iff (hroot : s.rootDir.handle = ROOT_DIR_HANDLE) (hp : path ≠ none)
    (hp' : path ≠ some [0x2F]) (h : fatOpen fuel s path = some (ret, s')) :
    Names fuel s path ↔ ret ≠ ROOT_DIR_HANDLE := by
  rcases fatOpen_cases hroot h with ⟨e, -⟩ | ⟨e, -⟩ | ⟨-, -, -, ⟨e, hn, -⟩ | ⟨e, hn, -⟩⟩
  · exact absurd e hp
  · exact absurd e hp'
  · exact iff_of_true hn (e ▸ findFreeHandle_ne_root s)
  · exact iff_of_false hn (not_not.mpr e)

/-- B is opened. -/
def withB (s : Driver) : Driver := ((fatOpen 2 s (some [0x42])).getD (0, s)).2

/-- B is opened twice, and the first handle is closed. -/
def reusable : Driver := fatClose (withB (withB closedFat)) 3

theorem fatOpen_withB {s : Driver} (he : (fatOpen 2 s (some [0x42])).map Prod.fst = some ret) :
    fatOpen 2 s (some [0x42]) = some (ret, withB s) := by
  obtain ⟨⟨ret', s'⟩, h, rfl⟩ := Option.map_eq_some_iff.mp he
  rw [withB, h]
  rfl

theorem run_withB {s : Driver} (r : HandleRun closedFat s live)
    (he : (fatOpen 2 s (some [0x42])).map Prod.fst = some ret) (hret : ret ≠ ROOT_DIR_HANDLE) :
    HandleRun closedFat (withB s) (ret :: live) := by
  have h := fatOpen_withB he
  exact r.openFile h ((names_iff (r.slots noneOpen_closedFat).rootHandle (by simp) (by simp) h).mpr hret)

theorem run_reusable : HandleRun closedFat reusable [4] := by
  have r₁ := run_withB .init (show (fatOpen 2 closedFat _).map Prod.fst = some 3 by decide) (by decide)
  have r₂ := run_withB r₁ (show (fatOpen 2 (withB closedFat) _).map Prod.fst = some 4 by decide) (by decide)
  exact r₂.close (by decide)

/-- The handle that was closed is given again, with the other one still open. -/
theorem handles_reusable : ∃ s', fatOpen 2 reusable (some [0x42]) = some (3, s') ∧
    Proper 2 reusable [4] (some [0x42]) 3 s' := by
  have h := fatOpen_withB (show (fatOpen 2 reusable _).map Prod.fst = some 3 by decide)
  have S := run_reusable.slots noneOpen_closedFat
  have hn := (names_iff S.rootHandle (by simp) (by simp) h).mpr (by decide)
  have hfull : ¬ Full reusable := fun hf => absurd ((S.slots 0 (by decide)).mp (hf 0 (by decide))) (by decide)
  exact ⟨_, h, (handles_iff noneOpen_closedFat run_reusable h).mpr (.inr (.inr ⟨hfull, hn⟩))⟩

/-- A file that does not exist is opened: the value returned is the handle of the root directory. -/
theorem handles_not_proper : ¬ ∀ (fuel : Nat) (s₀ s s' : Driver) (live : List Int)
    (path : Option (List Byte)) (ret : Int), NoneOpen s₀ → HandleRun s₀ s live →
      fatOpen fuel s path = some (ret, s') → Proper fuel s live path ret s' := by
  intro H
  have he : (fatOpen 3 closedFat (some [0x43])).map Prod.fst = some (-1) := by decide
  obtain ⟨⟨ret, s'⟩, h, hret⟩ := Option.map_eq_some_iff.mp he
  obtain rfl : ret = -1 := hret
  have P := H 3 closedFat closedFat s' [] _ _ noneOpen_closedFat .init h
  have hn : ¬ Names 3 closedFat (some [0x43]) := fun hn =>
    (names_iff noneOpen_closedFat.rootHandle (by simp) (by simp) h).mp hn rfl
  exact P.failure hn (.inl rfl)

end

end AlexOS.Fat
