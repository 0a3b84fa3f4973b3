import AlexOS.Fat.Handles

/-!
# What the shell leaves open

`term` of `main.c`, for the commands that open files, with `open`, `close`,
`read`, `write` and `list` of `vfs.c`: `ls` and `write` open a file and do not
close it, nor does `cat` an empty one, and `touch` opens the new file, after
`FAT_create_file` has opened its directory. So through any run of commands the
open slots of the table are those of the handles that the commands leave
(`shell_run`), and no command gives one back: after fifty the table is full.

The commands are given their arguments; what they print, and the heap, are left
out.
-/

namespace AlexOS.Shell

open Fat

/-- `FAT_tellpos`. -/
def tellpos (s : Driver) (handle : Int) : Word :=
  if handle = ROOT_DIR_HANDLE then 0
  else if (s.openedFiles (handle - 3)).isDir then 0
  else (s.openedFiles (handle - 3)).position

/-- `open`. -/
def openPath (fuel : Nat) (s : Driver) (path : List Byte) (create : Bool) : Option (Int × Driver) := do
  let r ← fatOpen fuel s (some path)
  if r.1 < 0 ∧ r.2.errno = 0xFF ∧ create then do
    let s ← fatCreateFile fuel r.2 path
    fatOpen fuel s (some path)
  else some r

/-- `read` of a file. -/
def read (s : Driver) (handle : Int) (size : Word) : Driver := if handle ≥ 3 then (fatRead s handle size).2.2 else s

/-- `write` to a file. -/
def write (s : Driver) (handle : Int) (size : Word) (data : Buffer) : Driver :=
  if handle ≥ 3 then (fatWrite s handle size data).2 else s

def close (s : Driver) (handle : Int) : Driver := if handle ≥ 3 then fatClose s handle else s

inductive Command
  | ls (path : List Byte)
  | cat (path : List Byte)
  | touch (path : List Byte)
  | write (filename data : List Byte)

/-- The rest of `cat`, after the file is opened. -/
def catFile (fuel : Nat) (s : Driver) (handle : Int) : Option Driver := do
  let s ← fatSeek fuel s handle 0 .end
  let size := tellpos s handle
  if size = 0 then some s else do
    let s ← fatSeek fuel s handle 0 .set
    some (close (read s handle size) handle)

/-- The body of the loop of `term`. -/
def exec (fuel : Nat) (s : Driver) : Command → Option Driver
  | .ls path => do
    let r ← openPath fuel s path false
    let l ← fatList fuel r.2 r.1
    some l.2
  | .cat path => do
    let r ← openPath fuel s path false
    if r.1 = -1 then some r.2 else catFile fuel r.2 r.1
  | .touch path => do
    let r ← openPath fuel s path true
    some r.2
  | .write filename data => do
    let r ← openPath fuel s filename false
    if r.1 < 0 then some r.2
    else some (write r.2 r.1 (BitVec.ofNat 32 data.length) (Buffer.ofList data))

/-! ## What is left open -/

/-- The handle of the file that a call of `FAT_open` opens. -/
def handlesOf (r : Option (Int × Driver)) : List Int :=
  match r with
  | some (handle, _) => if handle = ROOT_DIR_HANDLE then [] else [handle]
  | none => []

/-- The handles that `open` leaves, the last one first. -/
def leftByOpen (fuel : Nat) (s : Driver) (path : List Byte) (create : Bool) : List Int :=
  match fatOpen fuel s (some path) with
  | none => []
  | some r =>
    if r.1 < 0 ∧ r.2.errno = 0xFF ∧ create then
      handlesOf ((fatCreateFile fuel r.2 path).bind fun s => fatOpen fuel s (some path)) ++
        handlesOf (fatOpen fuel { r.2 with errno := 0 } (some (parseFilenameCreateFile path).1))
    else handlesOf (some r)

/-- The file that was opened is empty. -/
def endsAtStart (fuel : Nat) (r : Int × Driver) : Bool :=
  match fatSeek fuel r.2 r.1 0 .end with
  | some s => tellpos s r.1 = 0
  | none => false

/-- The handles that a command leaves. -/
def leftBy (fuel : Nat) (s : Driver) : Command → List Int
  | .ls path => leftByOpen fuel s path false
  | .cat path => ((fatOpen fuel s (some path)).filter fun r => r.1 ≠ -1 ∧ endsAtStart fuel r).elim [] fun r => [r.1]
  | .touch path => leftByOpen fuel s path true
  | .write filename _ => leftByOpen fuel s filename false

/-- The slots that a command needs. -/
def Command.needs : Command → Nat
  | .touch _ => 2
  | _ => 1

/-- Runs of commands, each with the slots it needs, and the handles that they left. -/
inductive Run (s₀ : Driver) : Driver → List Int → Prop
  | start : Run s₀ s₀ []
  | step {fuel : Nat} {s t : Driver} {left : List Int} {cmd : Command} (r : Run s₀ s left)
      (room : left.length + cmd.needs ≤ MAX_OPEN_FILE) (h : exec fuel s cmd = some t) :
      Run s₀ t (leftBy fuel s cmd ++ left)

/-- The open slots are those of some different handles. -/
structure Leaves (s : Driver) (left : List Int) : Prop extends Slots s left where
  nodup : left.Nodup
  range : ∀ h ∈ left, ∃ i : Nat, i < MAX_OPEN_FILE ∧ h = i + 3

/-- No slot is opened or closed. -/
structure SameSlots (s t : Driver) : Prop where
  isOpen : ∀ k, (t.file k).isOpen = (s.file k).isOpen
  rootHandle : t.rootDir.handle = s.rootDir.handle

section

variable {s t t' : Driver} {h : Int} {fuel n i : Nat} {left : List Int} {path : List Byte} {count offset : Word}
  {input : Buffer} {cmd : Command} {e : Byte}

/-! ## Calls that keep the table -/

namespace SameSlots

theorem refl (s : Driver) : SameSlots s s := ⟨fun _ => rfl, rfl⟩

theorem trans (a : SameSlots s t) (b : SameSlots t t') : SameSlots s t' :=
  ⟨fun k => (b.isOpen k).trans (a.isOpen k), b.rootHandle.trans a.rootHandle⟩

theorem of_reads (r : Reads h s t) : SameSlots s t := by
  refine ⟨r.isOpen_eq, ?_⟩
  rw [← file_root, ← file_root]
  by_cases hr : ROOT_DIR_HANDLE = h
  · rw [hr, r.handle]
  · rw [r.other _ hr]

/-- The disk is written, and a file moved on. -/
theorem moved (s : Driver) (h : Int) (d : Disk) (p c size : Word) (b : Buffer) : SameSlots s
    ({ s with disk := d }.setFile h
      { s.file h with position := p, currentCluster := c, size := size, buffer := b }) := by
  refine ⟨fun k => ?_, ?_⟩
  · by_cases hk : k = h
    · rw [hk, file_setFile_self]
    · rw [file_setFile_of_ne hk]
      rfl
  · rw [← file_root, ← file_root]
    by_cases hr : ROOT_DIR_HANDLE = h
    · rw [hr, file_setFile_self]
    · rw [file_setFile_of_ne hr]
      rfl

end SameSlots

theorem sameSlots_readFat (s : Driver) (offset : Byte) : SameSlots s (readFat s offset).2 := ⟨fun _ => rfl, rfl⟩

theorem sameSlots_nextCluster (s : Driver) (c : Word) : SameSlots s (nextCluster s c).2 :=
  .of_reads (nextCluster_reads ROOT_DIR_HANDLE s c)

theorem sameSlots_scanClusters (n : Nat) (s : Driver) (i : Word) : SameSlots s (scanClusters n s i).2 := by
  induction n generalizing s i with
  | zero => exact .refl s
  | succ n ih =>
    rw [scanClusters]
    have a : SameSlots s (if i > s.fatOffset.setWidth 32 * 512 + 512 then
      (readFat s ((i - i % 512).setWidth 8)).2 else s) := by
      split
      · exact sameSlots_readFat s _
      · exact .refl s
    generalize (if i > s.fatOffset.setWidth 32 * 512 + 512 then (readFat s ((i - i % 512).setWidth 8)).2 else s) = s₁
      at a ⊢
    have b := a.trans (sameSlots_nextCluster s₁ i)
    split
    · exact b
    · exact b.trans (ih _ _)

theorem sameSlots_findFreeCluster (s : Driver) : SameSlots s (findFreeCluster s).2 := by
  rw [findFreeCluster]
  split
  · exact (sameSlots_readFat s 0).trans (sameSlots_scanClusters _ _ _)
  · exact sameSlots_scanClusters _ _ _

theorem sameSlots_updateFat (s : Driver) (c v : Word) : SameSlots s (updateFat s c v).2 := by
  rw [updateFat]
  split
  · exact .refl s
  · exact (SameSlots.of_reads (loadEntry_reads ROOT_DIR_HANDLE s _)).trans ⟨fun _ => rfl, rfl⟩

theorem sameSlots_advance (s : Driver) (h : Int) : SameSlots s (advance s h) := .of_reads (advance_reads s h)

theorem sameSlots_nextForWrite (s : Driver) (h : Int) : SameSlots s (nextForWrite s h) := by
  rw [nextForWrite]
  dsimp only
  have a := sameSlots_advance s h
  split
  · have b := a.trans (sameSlots_findFreeCluster _)
    generalize findFreeCluster (advance s h) = r at b ⊢
    have c := b.trans (SameSlots.moved r.2 h r.2.disk (r.2.file h).position r.1 (r.2.file h).size (r.2.file h).buffer)
    exact (c.trans (sameSlots_updateFat _ _ _)).trans (sameSlots_updateFat _ _ _)
  · exact a

theorem sameSlots_writeLoop (n : Nat) (s : Driver) (count : Word) (input : Buffer) (writed : Word) :
    SameSlots s (writeLoop h n s count input writed).2 := by
  induction n generalizing s count input writed with
  | zero => exact .refl s
  | succ n ih =>
    rw [writeLoop]
    dsimp only
    generalize (if 512 < count then 512 else count) = writeSize
    generalize (if count < 512 then _ else _) = buffer
    split
    · split
      · exact SameSlots.moved s h s.disk _ _ _ buffer
      · exact ((SameSlots.moved s h _ _ _ _ buffer).trans (sameSlots_nextForWrite _ h)).trans (ih _ _ _ _)
    · exact .refl s

theorem sameSlots_nextForAppend (s : Driver) (h : Int) : SameSlots s (nextForAppend s h) := by
  rw [nextForAppend]
  dsimp only
  have a := sameSlots_advance s h
  split
  · have b := a.trans (sameSlots_findFreeCluster _)
    generalize findFreeCluster (advance s h) = r at b ⊢
    have c := b.trans (SameSlots.moved r.2 h r.2.disk (r.2.file h).position r.1 (r.2.file h).size (r.2.file h).buffer)
    exact (c.trans (sameSlots_updateFat _ _ _)).trans (sameSlots_updateFat _ _ _)
  · exact a

theorem sameSlots_appendLoop (n : Nat) (s : Driver) (count offset : Word) (input : Buffer) (writed : Word) :
    SameSlots s (appendLoop h n s count offset input writed).2 := by
  induction n generalizing s count offset input writed with
  | zero => exact .refl s
  | succ n ih =>
    rw [appendLoop]
    dsimp only
    generalize (if count < 512 - offset then count else 512 - offset) = toWrite
    generalize Buffer.copy _ offset.toNat input toWrite.toNat = buffer
    have a := SameSlots.moved s h (s.disk.write (cluster2Lba s (s.file h).currentCluster) buffer).2
      ((s.file h).position + toWrite) (s.file h).currentCluster ((s.file h).size + toWrite) buffer
    split
    · split
      · exact (a.trans (sameSlots_nextForAppend _ h)).trans (ih _ _ _ _ _)
      · exact a.trans (ih _ _ _ _ _)
    · exact .refl s

theorem sameSlots_seekLoop (n : Nat) (s : Driver) (offset : Word) : SameSlots s (seekLoop h n s offset) := by
  induction n generalizing s offset with
  | zero => exact .refl s
  | succ n ih =>
    rw [seekLoop]
    split
    · exact (sameSlots_advance s h).trans (ih _ _)
    · exact .refl s

theorem sameSlots_seekFrom (s : Driver) (h : Int) (offset : Word) : SameSlots s (seekFrom s h offset) := by
  rw [seekFrom]
  exact (SameSlots.moved s h s.disk _ _ _ _).trans (sameSlots_seekLoop _ _ _)

theorem sameSlots_seekEnd {r : Bool × Driver} (hr : seekEnd h n s = some r) : SameSlots s r.2 := by
  induction n generalizing s with
  | zero => cases hr
  | succ n ih =>
    rw [seekEnd] at hr
    dsimp only at hr
    split at hr
    · split at hr
      · cases hr
        exact .moved s h s.disk _ _ _ _
      · exact (SameSlots.moved s h s.disk _ _ _ _).trans (ih hr)
    · cases hr
      exact .refl s

theorem sameSlots_fatSeek {seek : Seek} (ht : fatSeek fuel s h offset seek = some t) : SameSlots s t := by
  cases seek with
  | set =>
    cases ht
    exact (SameSlots.moved s h s.disk _ _ _ _).trans (sameSlots_seekFrom _ h _)
  | cur =>
    cases ht
    exact (SameSlots.moved s h s.disk _ _ _ _).trans (sameSlots_seekFrom _ h _)
  | «end» =>
    obtain ⟨r, hr, ht⟩ := Option.bind_eq_some_iff.mp ht
    have a : SameSlots s r.2 := (SameSlots.moved s h s.disk _ _ _ _).trans (sameSlots_seekEnd hr)
    split at ht
    · cases ht
      exact a
    · cases ht
      exact a.trans (sameSlots_seekFrom _ h _)

theorem sameSlots_listLoop {out : List DirEntry} {r : List DirEntry × Driver} (hr : listLoop h n s out = some r) :
    SameSlots s r.2 := by
  induction n generalizing s out with
  | zero => cases hr
  | succ n ih =>
    have a : SameSlots s (readNextEntry s h).2 := .of_reads (fatRead_reads s _ sizeofDirEntry)
    rw [listLoop] at hr
    dsimp only at hr
    split at hr
    · cases hr
      exact a.trans ⟨fun _ => rfl, rfl⟩
    · split at hr
      · cases hr
        exact a
      · split at hr <;> exact a.trans (ih hr)

theorem sameSlots_fatList {r : List DirEntry × Driver} (hr : fatList fuel s h = some r) : SameSlots s r.2 := by
  have hbind : (fatSeek fuel s h 0 .set).bind (fun s => listLoop h fuel s []) = some r := hr
  obtain ⟨s', hs, hl⟩ := Option.bind_eq_some_iff.mp hbind
  exact (sameSlots_fatSeek hs).trans (sameSlots_listLoop hl)

theorem sameSlots_fatAppend {r : Word × Driver} (hr : fatAppend fuel s h count input = some r) : SameSlots s r.2 := by
  obtain ⟨s', hs, hr⟩ := Option.bind_eq_some_iff.mp hr
  cases hr
  exact (sameSlots_fatSeek hs).trans (sameSlots_appendLoop _ _ _ _ _ _)

/-! ## The table after a call -/

/-- The handles of the table. -/
def handles : List Int := (List.range MAX_OPEN_FILE).map fun i : Nat => (i : Int) + 3

theorem mem_handles : h ∈ handles ↔ ∃ i : Nat, i < MAX_OPEN_FILE ∧ h = i + 3 := by
  simp only [handles, List.mem_map, List.mem_range, eq_comm]

theorem nodup_handles : handles.Nodup :=
  List.nodup_range.map fun i j e => by
    omega

theorem length_handles : handles.length = MAX_OPEN_FILE := by rw [handles, List.length_map, List.length_range]

theorem length_handlesOf (r : Option (Int × Driver)) : (handlesOf r).length ≤ 1 := by
  cases r with
  | none => exact Nat.zero_le 1
  | some r =>
    rw [handlesOf]
    split <;> simp

namespace Leaves

theorem start (N : NoneOpen s) : Leaves s [] :=
  ⟨⟨N.rootHandle, fun i hi => iff_of_false (N.slots i hi) (by simp)⟩, by simp, by simp⟩

theorem subperm (L : Leaves s left) : left.Subperm handles :=
  List.subperm_of_subset L.nodup fun _ hh => mem_handles.mpr (L.range _ hh)

theorem length_le (L : Leaves s left) : left.length ≤ MAX_OPEN_FILE := length_handles ▸ L.subperm.length_le

/-- The table is full where the handles are as many as the slots. -/
theorem full_iff (L : Leaves s left) : Full s ↔ left.length = MAX_OPEN_FILE := by
  constructor
  · intro hf
    have hsub : handles ⊆ left := by
      intro h hh
      obtain ⟨i, hi, rfl⟩ := mem_handles.mp hh
      exact (L.slots i hi).mp (hf i hi)
    have hle := (List.subperm_of_subset nodup_handles hsub).length_le
    rw [length_handles] at hle
    exact le_antisymm L.length_le hle
  · intro hl i hi
    have hperm := L.subperm.perm_of_length_le (by rw [length_handles, hl])
    exact (L.slots i hi).mpr (hperm.mem_iff.mpr (mem_handles.mpr ⟨i, hi, rfl⟩))

theorem congr (L : Leaves s left) (a : SameSlots s t) : Leaves t left := by
  refine ⟨⟨a.rootHandle.trans L.rootHandle, fun i hi => ?_⟩, L.nodup, L.range⟩
  rw [← L.slots i hi, SlotOpen, SlotOpen, ← file_slot, ← file_slot, a.isOpen]

theorem fatOpen_ok (L : Leaves s left) (hroom : left.length < MAX_OPEN_FILE) {r : Int × Driver}
    (hr : fatOpen fuel s (some path) = some r) : Leaves r.2 (handlesOf (some r) ++ left) := by
  obtain ⟨ret, t⟩ := r
  obtain ⟨hnames, hnot⟩ := L.open_ok hr
  rcases fatOpen_cases L.rootHandle hr with
    ⟨e, -⟩ | ⟨-, rfl, hs, hroot⟩ | ⟨-, -, -, ⟨rfl, hn, -⟩ | ⟨rfl, hn, -⟩⟩
  · cases e
  · refine ⟨⟨hroot, fun i hi => ?_⟩, L.nodup, L.range⟩
    rw [SlotOpen, hs]
    exact L.slots i hi
  · rw [handlesOf, if_neg (findFreeHandle_ne_root s), List.singleton_append]
    -- a slot is free, so that the handle found is not live
    rcases findFreeHandle_cases s with ⟨-, hf⟩ | ⟨j, hj, e, hfree⟩
    · exact absurd (L.full_iff.mp hf) hroom.ne
    · refine ⟨hnames hn, List.nodup_cons.mpr ⟨fun hm => ?_, L.nodup⟩, ?_⟩
      · rw [e] at hm
        exact hfree ((L.slots j hj).mpr hm)
      · simp only [List.mem_cons, forall_eq_or_imp]
        exact ⟨⟨j, hj, e⟩, L.range⟩
  · exact ⟨hnot hn, L.nodup, L.range⟩

/-- The handle that a call returned is that of the root directory, or one of the table. -/
theorem ret_cases {r : Int × Driver} (L : Leaves t (handlesOf (some r) ++ left)) :
    r.1 = ROOT_DIR_HANDLE ∨ 3 ≤ r.1 := by
  by_cases hr : r.1 = ROOT_DIR_HANDLE
  · exact .inl hr
  · rw [handlesOf, if_neg hr] at L
    obtain ⟨i, -, e⟩ := L.range r.1 (by simp)
    exact .inr (by omega)

theorem fatCreateFile_ok (L : Leaves s left) (hroom : left.length < MAX_OPEN_FILE)
    (ht : fatCreateFile fuel s path = some t) :
    Leaves t (handlesOf (fatOpen fuel { s with errno := 0 } (some (parseFilenameCreateFile path).1)) ++ left) := by
  obtain ⟨r, hopen, ht⟩ := Option.bind_eq_some_iff.mp ht
  obtain ⟨s', hseek, ht⟩ := Option.bind_eq_some_iff.mp ht
  obtain ⟨r', happend, ht⟩ := Option.bind_eq_some_iff.mp ht
  cases ht
  have a₀ : SameSlots s { s with errno := 0 } := ⟨fun _ => rfl, rfl⟩
  have L' := (L.congr a₀).fatOpen_ok hroom hopen
  rw [hopen]
  have a := (sameSlots_fatSeek hseek).trans (sameSlots_findFreeCluster s')
  exact L'.congr ((a.trans (sameSlots_updateFat _ _ _)).trans (sameSlots_fatAppend happend))

theorem openPath_ok (L : Leaves s left) {create : Bool} {r : Int × Driver} (hr : openPath fuel s path create = some r)
    (hroom : left.length + (if create then 2 else 1) ≤ MAX_OPEN_FILE) :
    Leaves r.2 (leftByOpen fuel s path create ++ left) := by
  obtain ⟨r₁, hopen, hr⟩ := Option.bind_eq_some_iff.mp hr
  have L₁ := L.fatOpen_ok (by split at hroom <;> omega) hopen
  rw [leftByOpen, hopen]
  dsimp only
  by_cases hc : r₁.1 < 0 ∧ r₁.2.errno = 0xFF ∧ create = true
  · rw [if_pos hc] at hr ⊢
    obtain ⟨s', hcreate, hr⟩ := Option.bind_eq_some_iff.mp hr
    rw [if_pos hc.2.2] at hroom
    -- the first call found nothing
    have hroot : r₁.1 = ROOT_DIR_HANDLE := L₁.ret_cases.resolve_right (by have := hc.1; omega)
    rw [handlesOf, if_pos hroot, List.nil_append] at L₁
    have L₂ := Leaves.fatCreateFile_ok L₁ (by omega) hcreate
    have hlen {l : List Int} (hl : l.length ≤ 1) : (l ++ left).length < MAX_OPEN_FILE := by
      rw [List.length_append]
      omega
    have L₃ := L₂.fatOpen_ok (hlen (length_handlesOf _)) hr
    rwa [hcreate, Option.bind_some, hr, List.append_assoc]
  · rw [if_neg hc] at hr ⊢
    cases hr
    exact L₁

theorem close_ok (L : Leaves s (h :: left)) : Leaves (close s h) left := by
  obtain ⟨hn, hnd⟩ := List.nodup_cons.mp L.nodup
  obtain ⟨i, -, e⟩ := L.range h (by simp)
  rw [close, if_pos (by omega)]
  have hfilter : (h :: left).filter (· ≠ h) = left := by
    rw [List.filter_cons_of_neg (by simp), List.filter_eq_self]
    intro k hk
    simp only [ne_eq, decide_eq_true_eq]
    exact fun ek => hn (ek ▸ hk)
  have S := L.toSlots.close_ok h
  rw [hfilter] at S
  exact ⟨S, hnd, fun k hk => L.range k (List.mem_cons_of_mem h hk)⟩

end Leaves

/-! ## Runs of commands -/

theorem openPath_false : openPath fuel s path false = fatOpen fuel s (some path) := by
  rw [openPath]
  cases fatOpen fuel s (some path) <;> simp

theorem leftByOpen_false {r : Int × Driver} (hr : fatOpen fuel s (some path) = some r) :
    leftByOpen fuel s path false = handlesOf (some r) := by simp [leftByOpen, hr]

theorem Leaves.catFile_ok {r : Int × Driver} (L : Leaves r.2 (r.1 :: left)) (ht : catFile fuel r.2 r.1 = some t) :
    Leaves t ((if endsAtStart fuel r then [r.1] else []) ++ left) := by
  obtain ⟨s₁, hseek, ht⟩ := Option.bind_eq_some_iff.mp ht
  have L₁ := L.congr (sameSlots_fatSeek hseek)
  simp only [endsAtStart, hseek, decide_eq_true_eq]
  dsimp only at ht
  by_cases h0 : tellpos s₁ r.1 = 0
  · rw [if_pos h0] at ht ⊢
    cases ht
    exact L₁
  · rw [if_neg h0] at ht ⊢
    obtain ⟨s₂, hseek₂, ht⟩ := Option.bind_eq_some_iff.mp ht
    cases ht
    have L₂ := L₁.congr (sameSlots_fatSeek hseek₂)
    obtain ⟨i, -, e⟩ := L.range r.1 (by simp)
    rw [read, if_pos (by omega)]
    exact (L₂.congr (.of_reads (fatRead_reads _ _ _))).close_ok

theorem Leaves.exec_ok (L : Leaves s left) (ht : exec fuel s cmd = some t)
    (hroom : left.length + cmd.needs ≤ MAX_OPEN_FILE) : Leaves t (leftBy fuel s cmd ++ left) := by
  cases cmd with
  | ls path =>
    obtain ⟨r, hopen, ht⟩ := Option.bind_eq_some_iff.mp ht
    obtain ⟨l, hlist, ht⟩ := Option.bind_eq_some_iff.mp ht
    cases ht
    exact (L.openPath_ok hopen hroom).congr (sameSlots_fatList hlist)
  | cat path =>
    obtain ⟨r, hopen, ht⟩ := Option.bind_eq_some_iff.mp ht
    have L₁ := L.openPath_ok hopen hroom
    rw [openPath_false] at hopen
    rw [leftByOpen_false hopen, handlesOf, ROOT_DIR_HANDLE] at L₁
    simp only [leftBy, hopen, Option.filter]
    by_cases hr : r.1 = -1
    · rw [if_pos hr] at ht L₁
      cases ht
      simpa [hr] using L₁
    · rw [if_neg hr] at ht L₁
      have L₂ := Leaves.catFile_ok L₁ ht
      by_cases he : endsAtStart fuel r = true <;> simpa [hr, he] using L₂
  | touch path =>
    obtain ⟨r, hopen, ht⟩ := Option.bind_eq_some_iff.mp ht
    cases ht
    exact L.openPath_ok hopen hroom
  | write filename data =>
    obtain ⟨r, hopen, ht⟩ := Option.bind_eq_some_iff.mp ht
    have L₁ := L.openPath_ok hopen hroom
    split at ht
    · cases ht
      exact L₁
    · cases ht
      rw [write]
      split
      · exact L₁.congr (sameSlots_writeLoop _ _ _ _ _)
      · exact L₁

theorem Run.leaves {s₀ : Driver} (N : NoneOpen s₀) (r : Run s₀ s left) : Leaves s left := by
  induction r with
  | start => exact .start N
  | step _ room h ih => exact ih.exec_ok h room

/-- A file that is found is given a handle of the table exactly if the table is not full. -/
theorem fatOpen_handle {r : Int × Driver} (hroot : s.rootDir.handle = ROOT_DIR_HANDLE)
    (hr : fatOpen fuel s (some path) = some r) (hne : r.1 ≠ ROOT_DIR_HANDLE) : 3 ≤ r.1 ↔ ¬ Full s := by
  have e : r.1 = findFreeHandle s := by
    rcases fatOpen_cases hroot hr with ⟨e, -⟩ | ⟨-, e, -⟩ | ⟨-, -, -, ⟨e, -⟩ | ⟨e, -⟩⟩
    · cases e
    · exact absurd e hne
    · exact e
    · exact absurd e hne
  rw [e]
  rcases findFreeHandle_cases s with ⟨e', hf⟩ | ⟨j, hj, e', hfree⟩
  · exact iff_of_false (by omega) (not_not.mpr hf)
  · exact iff_of_true (by omega) fun hf => hfree (hf j hj)

/-- In every run, the open slots are those of the handles that the commands left, and a file that is found is given a
handle of the table exactly if fewer than fifty were left. -/
theorem shell_run {s₀ : Driver} (N : NoneOpen s₀) (r : Run s₀ s left) :
    (∀ i < MAX_OPEN_FILE, SlotOpen s i ↔ (i : Int) + 3 ∈ left) ∧ left.Nodup ∧
      (∀ h ∈ left, 3 ≤ h ∧ h < 3 + MAX_OPEN_FILE) ∧
      ∀ (fuel : Nat) (path : List Byte) (f : Int × Driver), openPath fuel s path false = some f →
        f.1 ≠ ROOT_DIR_HANDLE → (3 ≤ f.1 ↔ left.length < MAX_OPEN_FILE) := by
  have L := r.leaves N
  refine ⟨L.slots, L.nodup, fun h hh => ?_, fun fuel path f hopen hne => ?_⟩
  · obtain ⟨i, hi, rfl⟩ := L.range h hh
    omega
  · rw [openPath_false] at hopen
    rw [fatOpen_handle L.rootHandle hopen hne, L.full_iff]
    have := L.length_le
    omega

/-- After `ls` of a file, its slot stays open. -/
theorem shell_run_ls : ∃ s, Run closedFat s [3] ∧ SlotOpen s 0 := by
  have hrun : (exec 4 closedFat (.ls [0x42])).isSome := by decide
  have hleft : leftBy 4 closedFat (.ls [0x42]) = [3] := by decide
  obtain ⟨s, hs⟩ := Option.isSome_iff_exists.mp hrun
  have r := Run.step .start (by decide) hs
  rw [hleft, List.singleton_append] at r
  exact ⟨s, r, ((shell_run noneOpen_closedFat r).1 0 (by decide)).mpr (by decide)⟩

end

end AlexOS.Shell
