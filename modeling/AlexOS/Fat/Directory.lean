import AlexOS.Lib.Listing
import AlexOS.Fat.Handles
import AlexOS.Fat.Lookup
import AlexOS.Fat.Scan

/-!
# Directories on the disk

The tree of directories, as it is on the disk: the entries of a directory are
those of the clusters of its chain, up to the mark (`dirEntry`), and a path
leads from directory to directory by the first entry with the name of each
component (`Resolves`). Whatever is opened, read, sought, listed and closed
after `FAT_init`, `FAT_open` opens a file exactly if its path leads to an entry
of the tree, and the slot describes the file of that entry; `FAT_list` prints
the entries of a directory exactly if they end (`session_ok`).
-/

namespace AlexOS.Fat

/-! ## The tree -/

/-- An entry of the directory that starts at a cluster, up to the end of its chain. -/
def dirEntry (s : Driver) (first : Word) (i : Nat) : Option DirEntry :=
  let c := (successor s)^[i / 16] first
  if c < 0xFFFFFFF8 then some ((clusterBytes s c).slice (32 * (i % 16)) 32) else none

/-- The mark after the entries. -/
def IsMark (e : DirEntry) : Prop := e.getD 0 0 = 0

/-- The bytes that `find_file` looks for. -/
def fatName (name : List Byte) : List Byte := bytesOf (normalToFatName name fun _ => 0) 11

def DirEntry.IsDirectory (e : DirEntry) : Prop := e.attributes &&& DIRECTORY ≠ 0

/-- The first entry with the name. -/
def Named (s : Driver) (first : Word) (name : List Byte) (e : DirEntry) : Prop :=
  name.length ≤ 11 ∧ ∃ i, Listing.First (dirEntry s first) IsMark (fun e => e.filename = fatName name) i e

/-- A path leads from the directory at a cluster to an entry. -/
inductive Resolves (s : Driver) : Word → List Byte → DirEntry → Prop
  | last {first : Word} {path : List Byte} {e : DirEntry} (hp : strchr path 0x2F = none)
      (hn : Named s first (component path) e) : Resolves s first path e
  | next {first : Word} {path rest : List Byte} {d e : DirEntry} (hp : strchr path 0x2F = some rest)
      (hn : Named s first (component path) d) (hd : d.IsDirectory) (h : Resolves s d.firstCluster (rest.drop 1) e) :
      Resolves s first path e

/-- The directory that starts at a cluster has `n` entries. -/
def Entries (s : Driver) (first : Word) (n : Nat) : Prop := Listing.Ends (dirEntry s first) IsMark n

/-- The entries that are printed. -/
def visible (es : List DirEntry) : List DirEntry := es.filter fun e => e.attributes &&& VOLUME_ID = 0

/-! ## Sessions -/

/-- The volume of a disk that can be read is mounted. -/
structure Mounts (s s₀ : Driver) : Prop where
  init : fatInit s = (true, s₀)
  bytesPerSector : s₀.bootSector.bytesPerSector = 512
  readFails : ∀ l, s.disk.readFails l = false

/-- The handles that the calls are made with. -/
def Usable (s : Driver) (h : Int) : Prop :=
  h = ROOT_DIR_HANDLE ∨ ∃ i : Nat, i < MAX_OPEN_FILE ∧ h = i + 3 ∧ SlotOpen s i

/-- Calls that write nothing, in any order, from a mounted volume on. -/
inductive Session (s₀ : Driver) : Driver → Prop
  | mounted : Session s₀ s₀
  | opens {fuel : Nat} {s t : Driver} {path : Option (List Byte)} {r : Int} (S : Session s₀ s)
      (hfree : ¬ Full s) (h : fatOpen fuel s path = some (r, t)) : Session s₀ t
  | reads {s : Driver} {h : Int} (S : Session s₀ s) (hh : Usable s h)
      (count : Word) : Session s₀ (fatRead s h count).2.2
  | seeks {fuel : Nat} {s t : Driver} {h : Int} {offset : Word} {seek : Seek} (S : Session s₀ s) (hh : Usable s h)
      (ht : fatSeek fuel s h offset seek = some t) : Session s₀ t
  | lists {fuel : Nat} {s t : Driver} {h : Int} {out : List DirEntry} (S : Session s₀ s) (hh : Usable s h)
      (ht : fatList fuel s h = some (out, t)) : Session s₀ t
  | closes {s : Driver} {h : Int} (S : Session s₀ s) (hh : Usable s h) : Session s₀ (fatClose s h)

/-- The file is that of an entry, at its start. -/
structure Describes (s : Driver) (h : Int) (e : DirEntry) : Prop where
  isOpen : (s.file h).isOpen = true
  firstCluster : (s.file h).firstCluster = e.firstCluster
  currentCluster : (s.file h).currentCluster = e.firstCluster
  position : (s.file h).position = 0
  size : (s.file h).size = e.size
  isDir : (s.file h).isDir = true ↔ e.IsDirectory

/-- What opening a path comes to: the file of the entry that it leads to, or the handle of the root directory. -/
structure OpensTree (s₀ s : Driver) (path : List Byte) : Prop where
  found : ∀ e, Resolves s₀ s₀.rootDir.firstCluster (stripSlash path) e →
    ∃ fuel t, fatOpen fuel s (some path) = some (findFreeHandle s, t) ∧ Describes t (findFreeHandle s) e
  returns : ∀ fuel r t, fatOpen fuel s (some path) = some (r, t) →
    (∃ e, Resolves s₀ s₀.rootDir.firstCluster (stripSlash path) e ∧ r = findFreeHandle s ∧
      Describes t r e) ∨
      (¬ ∃ e, Resolves s₀ s₀.rootDir.firstCluster (stripSlash path) e) ∧ r = ROOT_DIR_HANDLE

/-- What is left of a state by calls that move cursors. -/
structure Cursors (s t : Driver) : Prop where
  volume : SameVolume s t
  disk : t.disk = s.disk
  firstCluster : ∀ k, (t.file k).firstCluster = (s.file k).firstCluster
  isDir : ∀ k, (t.file k).isDir = (s.file k).isDir
  isOpen : ∀ k, (t.file k).isOpen = (s.file k).isOpen
  handle : ∀ k, (t.file k).handle = (s.file k).handle

/-- What is left of the mounted volume. -/
structure KeptVolume (s₀ s : Driver) : Prop where
  volume : SameVolume s₀ s
  disk : s.disk = s₀.disk
  rootFirst : s.rootDir.firstCluster = s₀.rootDir.firstCluster
  rootIsDir : s.rootDir.isDir = true
  rootHandle : s.rootDir.handle = ROOT_DIR_HANDLE
  handle : ∀ h, Usable s h → (s.file h).handle = h

/-- A file is a directory at entry `i`. -/
structure At (s : Driver) (h : Int) (first : Word) (i : Nat) (t : Driver) : Prop where
  volume : SameVolume s t
  disk : t.disk = s.disk
  handle : (t.file h).handle = h
  isDir : (t.file h).isDir = true
  offset : sectorOffset t h = 32 * (i % 16)
  currentCluster : (t.file h).currentCluster = (successor s)^[i / 16] first

section

variable {s s₀ s' t t' : Driver} {h dir handle : Int} {fuel i k n m : Nat} {first count offset nbRead : Word}
  {e : DirEntry} {name path : List Byte} {out out' : List DirEntry} {err : Byte}

/-! ## Cursors -/

namespace Cursors

theorem refl (s : Driver) : Cursors s s := ⟨.refl s, rfl, fun _ => rfl, fun _ => rfl, fun _ => rfl, fun _ => rfl⟩

theorem trans (c : Cursors s t) (c' : Cursors t t') : Cursors s t' where
  volume := c.volume.trans c'.volume
  disk := c'.disk.trans c.disk
  firstCluster k := (c'.firstCluster k).trans (c.firstCluster k)
  isDir k := (c'.isDir k).trans (c.isDir k)
  isOpen k := (c'.isOpen k).trans (c.isOpen k)
  handle k := (c'.handle k).trans (c.handle k)

theorem errno (c : Cursors s t) : Cursors s { t with errno := err } := by
  obtain ⟨S, hd, h1, h2, h3, h4⟩ := c
  exact ⟨S.trans ⟨rfl, rfl, rfl, rfl, rfl, rfl, rfl, rfl, rfl, rfl, rfl⟩, hd, h1, h2, h3, h4⟩

theorem setFile (s : Driver) (h : Int) (p c size : Word) (b : Buffer) : Cursors s
    (s.setFile h { s.file h with position := p, currentCluster := c, size := size, buffer := b }) := by
  have key : ∀ k, k = h ∨ (s.setFile h { s.file h with
      position := p, currentCluster := c, size := size, buffer := b }).file k = s.file k := fun k => by
    by_cases hk : k = h
    · exact .inl hk
    · exact .inr (file_setFile_of_ne hk)
  refine ⟨sameVolume_setFile _ _ _, disk_setFile _ _ _, fun k => ?_, fun k => ?_, fun k => ?_, fun k => ?_⟩ <;>
  · obtain rfl | hk := key k
    · simp
    · rw [hk]

theorem cached (c : Cursors s t) (C : Cached s) : Cached t := c.volume.cached C

end Cursors

theorem cursors_advance (C : Cached s) (h : Int) : Cursors s (advance s h) := by
  rw [advance_ok C]
  exact .setFile s h _ _ _ _

theorem cursors_readLoop (C : Cached s) (n : Nat) (out : List Byte) :
    Cursors s (readLoop h n s count offset nbRead out).2.2 := by
  induction n generalizing s count offset nbRead out with
  | zero => exact .refl s
  | succ n ih =>
    rw [readLoop]
    dsimp only
    split
    · generalize (if count + offset < 512 then count + offset else 512) = nbToRead
      have c := Cursors.setFile s h ((s.file h).position + (nbToRead - offset)) (s.file h).currentCluster
        (s.file h).size (s.disk.read (cluster2Lba s (s.file h).currentCluster) (s.file h).buffer).2
      split
      · have c' := c.trans (cursors_advance (c.cached C) h)
        exact c'.trans (ih (c'.cached C) _)
      · exact c.trans (ih (c.cached C) _)
    · exact .refl s

theorem cursors_fatRead (C : Cached s) (h : Int) (count : Word) : Cursors s (fatRead s h count).2.2 :=
  cursors_readLoop C _ _

theorem cursors_readNextEntry (C : Cached s) (dir : Int) : Cursors s (readNextEntry s dir).2 :=
  cursors_fatRead C _ _

theorem cursors_findLoop (C : Cached s) {r : Option DirEntry × Driver} (hr : findLoop dir name n s = some r) :
    Cursors s r.2 := by
  induction n generalizing s with
  | zero => cases hr
  | succ n ih =>
    have c := cursors_readNextEntry C dir
    rw [findLoop] at hr
    dsimp only at hr
    split at hr
    · cases hr
      exact c.errno
    · split at hr
      · cases hr
        exact c
      · split at hr
        · exact c.trans (ih (c.cached C) hr)
        · cases hr
          exact c.errno

theorem cursors_findFile (C : Cached s) {r : Option DirEntry × Driver} (hr : findFile fuel s dir name = some r) :
    Cursors s r.2 := by
  rw [findFile] at hr
  split at hr
  · cases hr
    exact (Cursors.refl s).errno
  · exact cursors_findLoop C hr

theorem cursors_listLoop (C : Cached s) {r : List DirEntry × Driver} (hr : listLoop dir n s out = some r) :
    Cursors s r.2 := by
  induction n generalizing s out with
  | zero => cases hr
  | succ n ih =>
    have c := cursors_readNextEntry C dir
    rw [listLoop] at hr
    dsimp only at hr
    split at hr
    · cases hr
      exact c.errno
    · split at hr
      · cases hr
        exact c
      · split at hr <;> exact c.trans (ih (c.cached C) hr)

theorem cursors_seekLoop (C : Cached s) (n : Nat) (offset : Word) : Cursors s (seekLoop h n s offset) := by
  induction n generalizing s offset with
  | zero => exact .refl s
  | succ n ih =>
    rw [seekLoop]
    split
    · have c := cursors_advance C h
      exact c.trans (ih (c.cached C) _)
    · exact .refl s

theorem cursors_seekFrom (C : Cached s) (h : Int) (offset : Word) : Cursors s (seekFrom s h offset) := by
  have c := Cursors.setFile s h (s.file h).position (s.file h).firstCluster (s.file h).size (s.file h).buffer
  exact c.trans (cursors_seekLoop (c.cached C) _ _)

theorem cursors_seekEnd {r : Bool × Driver} (hr : seekEnd h n s = some r) : Cursors s r.2 := by
  induction n generalizing s with
  | zero => cases hr
  | succ n ih =>
    rw [seekEnd] at hr
    dsimp only at hr
    split at hr
    · split at hr
      · cases hr
        exact .setFile s h _ _ _ _
      · exact (Cursors.setFile s h _ _ _ _).trans (ih hr)
    · cases hr
      exact .refl s

theorem cursors_fatSeek (C : Cached s) {seek : Seek} (ht : fatSeek fuel s h offset seek = some t) : Cursors s t := by
  cases seek with
  | set =>
    cases ht
    have c := Cursors.setFile s h offset (s.file h).currentCluster (s.file h).size (s.file h).buffer
    exact c.trans (cursors_seekFrom (c.cached C) h _)
  | cur =>
    cases ht
    have c := Cursors.setFile s h ((s.file h).position + offset) (s.file h).currentCluster (s.file h).size
      (s.file h).buffer
    exact c.trans (cursors_seekFrom (c.cached C) h _)
  | «end» =>
    have c := Cursors.setFile s h (s.file h).position (s.file h).firstCluster (s.file h).size (s.file h).buffer
    obtain ⟨r, hr, ht⟩ := Option.bind_eq_some_iff.mp ht
    have c' := c.trans (cursors_seekEnd hr)
    split at ht
    · cases ht
      exact c'
    · cases ht
      exact c'.trans (cursors_seekFrom (c'.cached C) h _)

theorem cursors_fatList (C : Cached s) (ht : fatList fuel s h = some (out, t)) : Cursors s t := by
  have hbind : (fatSeek fuel s h 0 .set).bind (fun s => listLoop h fuel s []) = some (out, t) := ht
  obtain ⟨s', hs, ht⟩ := Option.bind_eq_some_iff.mp hbind
  have c := cursors_fatSeek C hs
  exact c.trans (cursors_listLoop (c.cached C) ht)

theorem listLoop_mono {r : List DirEntry × Driver} (hr : listLoop dir n s out = some r) (k : Nat) :
    listLoop dir (n + k) s out = some r := by
  induction n generalizing s out with
  | zero => cases hr
  | succ n ih =>
    rw [Nat.succ_add]
    simp only [listLoop] at hr ⊢
    generalize (readNextEntry s dir).1 = entry at hr ⊢
    cases entry with
    | none => exact hr
    | some entry =>
      simp only at hr ⊢
      split
      · rename_i h0
        rwa [if_pos h0] at hr
      rename_i h0
      rw [if_neg h0] at hr
      split
      · rename_i hid
        rw [if_pos hid] at hr
        exact ih hr
      · rename_i hid
        rw [if_neg hid] at hr
        exact ih hr

/-! ## From entry to entry -/

namespace At

/-- The next entry is read from the sector of its cluster. -/
theorem read (A : At s h first i t) (C : Cached s) (hr : ∀ l, s.disk.readFails l = false)
    (he : dirEntry s first i = some e) : ∃ t', readNextEntry t h = (some e, t') ∧ At s h first (i + 1) t' := by
  have hlive : (successor s)^[i / 16] first < 0xFFFFFFF8 := by
    by_contra hend
    rw [dirEntry, if_neg hend] at he
    cases he
  have hbytes : (clusterBytes s ((successor s)^[i / 16] first)).slice (32 * (i % 16)) 32 = e := by
    rw [dirEntry, if_pos hlive] at he
    exact Option.some.inj he
  have hread := readNextEntry_some A.handle (A.currentCluster ▸ hlive) (if_pos A.isDir) (by rw [A.offset]; omega)
  have hsector : (getBytes h 32 t).1 = (sectorBuffer t h).slice (sectorOffset t h) 32 := rfl
  refine ⟨(getBytes h 32 t).2, ?_, ?_⟩
  · rw [hread, hsector, A.offset, sectorBuffer, A.disk, A.volume.cluster2Lba_eq, A.currentCluster,
      slice_read (hr _) _ (by omega)]
    exact congrArg (fun e => (some e, _)) hbytes
  · obtain ⟨S, hdisk, hcluster⟩ := getBytes_cached (A.volume.cached C) h 32
    refine ⟨A.volume.trans S, hdisk.trans A.disk, (handle_getBytes h h 32 t).trans A.handle,
      (getBytes_reads h 32 t).isDir.trans A.isDir, ?_, hcluster.trans ?_⟩
    · rw [sectorOffset_getBytes, A.offset]
      omega
    · rw [A.offset, A.volume.successor_eq, A.currentCluster]
      split
      · rw [show (i + 1) / 16 = i / 16 + 1 by omega]
        exact (Function.iterate_succ_apply' _ _ _).symm
      · rw [show (i + 1) / 16 = i / 16 by omega]

/-- Nothing is read from the end of the chain on. -/
theorem stop (A : At s h first i t) (he : dirEntry s first i = none) : (readNextEntry t h).1 = none := by
  refine readNextEntry_none A.handle (.inl ?_)
  rw [A.currentCluster]
  by_contra hlive
  rw [dirEntry, if_pos (BitVec.not_le.mp hlive)] at he
  cases he

/-! ## The loops -/

/-- The loop of `find_file` goes on to the first entry with the name. -/
theorem findLoop_first (A : At s h first i t) (C : Cached s) (hr : ∀ l, s.disk.readFails l = false)
    (F : Listing.First (dirEntry s first) IsMark (fun e => e.filename = name) (i + k) e) :
    ∃ t', findLoop h name (k + 1) t = some (some e, t') := by
  induction k generalizing i t with
  | zero =>
    obtain ⟨t', hread, -⟩ := A.read C hr F.here
    refine ⟨t', ?_⟩
    rw [findLoop, hread]
    exact if_pos F.holds
  | succ k ih =>
    obtain ⟨a, ha, hmark, hname⟩ := F.before i (by omega)
    obtain ⟨t₁, hread, A₁⟩ := A.read C hr ha
    obtain ⟨t', ht'⟩ := ih A₁ (by rwa [show i + 1 + k = i + (k + 1) by omega])
    refine ⟨t', ?_⟩
    rw [findLoop, hread]
    exact (if_neg hname).trans ((if_pos hmark).trans ht')

/-- What it finds is the first one. -/
theorem first_of_findLoop (A : At s h first i t) (C : Cached s) (hr : ∀ l, s.disk.readFails l = false)
    (hbefore : ∀ j < i, ∃ e, dirEntry s first j = some e ∧ ¬ IsMark e ∧ ¬ e.filename = name)
    (hf : findLoop h name n t = some (some e, t')) :
    ∃ i, Listing.First (dirEntry s first) IsMark (fun e => e.filename = name) i e := by
  induction n generalizing i t with
  | zero => cases hf
  | succ n ih =>
    cases ha : dirEntry s first i with
    | none =>
      rw [findLoop, A.stop ha] at hf
      cases hf
    | some a =>
      obtain ⟨t₁, hread, A₁⟩ := A.read C hr ha
      rw [findLoop, hread] at hf
      dsimp only at hf
      split at hf
      · rename_i hname
        cases hf
        exact ⟨i, hbefore, ha, hname⟩
      rename_i hname
      split at hf
      · rename_i hmark
        refine ih A₁ (fun j hj => ?_) hf
        rcases Nat.eq_or_lt_of_le (Nat.le_of_lt_succ hj) with rfl | hlt
        · exact ⟨a, ha, hmark, hname⟩
        · exact hbefore j hlt
      · cases hf

/-- The loop of `FAT_list` goes on to the mark. -/
theorem listLoop_ends (A : At s h first i t) (C : Cached s) (hr : ∀ l, s.disk.readFails l = false)
    (E : Entries s first (i + k)) :
    ∃ t', listLoop h (k + 1) t (visible (Listing.upTo (dirEntry s first) i)) =
      some (visible (Listing.upTo (dirEntry s first) (i + k)), t') := by
  induction k generalizing i t with
  | zero =>
    cases ha : dirEntry s first i with
    | none =>
      refine ⟨{ (readNextEntry t h).2 with errno := -2 }, ?_⟩
      rw [listLoop, A.stop ha]
      rfl
    | some a =>
      obtain ⟨t', hread, -⟩ := A.read C hr ha
      refine ⟨t', ?_⟩
      rw [listLoop, hread]
      exact if_pos (E.last a ha)
  | succ k ih =>
    obtain ⟨a, ha, hmark⟩ := E.before i (by omega)
    obtain ⟨t₁, hread, A₁⟩ := A.read C hr ha
    have hk : i + 1 + k = i + (k + 1) := by omega
    obtain ⟨t', ht'⟩ := ih A₁ (by rwa [hk])
    rw [hk] at ht'
    refine ⟨t', ?_⟩
    rw [listLoop, hread]
    dsimp only
    rw [if_neg (show ¬ a.getD 0 0 = 0 from hmark)]
    have hsucc : Listing.upTo (dirEntry s first) (i + 1) = Listing.upTo (dirEntry s first) i ++ [a] := by
      rw [Listing.upTo_succ, ha]
      rfl
    rw [hsucc, visible, List.filter_append, ← visible] at ht'
    rw [List.filter_cons] at ht'
    simp only [decide_eq_true_eq, List.filter_nil] at ht'
    by_cases hid : a.attributes &&& VOLUME_ID = 0
    · rw [if_pos hid] at ht'
      exact (if_neg (not_not.mpr hid)).trans ht'
    · rw [if_neg hid, List.append_nil] at ht'
      exact (if_pos hid).trans ht'

/-- It is only done there. -/
theorem ends_of_listLoop (A : At s h first i t) (C : Cached s) (hr : ∀ l, s.disk.readFails l = false)
    (hbefore : ∀ j < i, ∃ e, dirEntry s first j = some e ∧ ¬ IsMark e)
    (hl : listLoop h n t out = some (out', t')) : ∃ n, Entries s first n := by
  induction n generalizing i t out with
  | zero => cases hl
  | succ n ih =>
    cases ha : dirEntry s first i with
    | none => exact ⟨i, hbefore, fun e he => by rw [ha] at he; cases he⟩
    | some a =>
      obtain ⟨t₁, hread, A₁⟩ := A.read C hr ha
      rw [listLoop, hread] at hl
      dsimp only at hl
      split at hl
      · rename_i hmark
        exact ⟨i, hbefore, fun e he => Option.some.inj (ha.symm.trans he) ▸ hmark⟩
      rename_i hmark
      have hbefore' : ∀ j < i + 1, ∃ e, dirEntry s first j = some e ∧ ¬ IsMark e := fun j hj => by
        rcases Nat.eq_or_lt_of_le (Nat.le_of_lt_succ hj) with rfl | hlt
        · exact ⟨a, ha, hmark⟩
        · exact hbefore j hlt
      split at hl <;> exact ih A₁ hbefore' hl

end At

/-! ## Opening -/

theorem Named.unique {d : DirEntry} (N : Named s first name e) (N' : Named s first name d) : e = d := by
  obtain ⟨-, i, F⟩ := N
  obtain ⟨-, j, F'⟩ := N'
  exact (F.unique F').2

theorem named_of_findFile (A : At s h first 0 t) (C : Cached s) (hr : ∀ l, s.disk.readFails l = false)
    (hf : findFile fuel t h name = some (some e, t')) : Named s first name e := by
  rw [findFile] at hf
  split at hf
  · cases hf
  · rename_i hlen
    exact ⟨Nat.le_of_not_lt hlen, A.first_of_findLoop C hr (fun j hj => absurd hj (Nat.not_lt_zero j)) hf⟩

theorem findFile_of_named (A : At s h first 0 t) (C : Cached s) (hr : ∀ l, s.disk.readFails l = false)
    (N : Named s first name e) : ∃ fuel t', findFile fuel t h name = some (some e, t') := by
  obtain ⟨hlen, i, F⟩ := N
  obtain ⟨t', ht'⟩ := A.findLoop_first C hr (by rwa [Nat.zero_add])
  refine ⟨i + 1, t', ?_⟩
  rw [findFile, if_neg (Nat.not_lt.mpr hlen)]
  exact ht'

/-- The slot of a directory, when its entry is found. -/
theorem at_setEntryFile (c : Cursors t t') (S : SameVolume s t) (hd : t.disk = s.disk) (he : e.IsDirectory) :
    At s handle e.firstCluster 0 (setEntryFile t' handle e) := by
  refine ⟨(S.trans c.volume).trans (sameVolume_setFile _ _ _), ?_, ?_, ?_, ?_, ?_⟩
  · rw [setEntryFile, disk_setFile, c.disk, hd]
  · rw [setEntryFile, file_setFile_self]
  · rw [setEntryFile, file_setFile_self]
    exact decide_eq_true he
  · rw [sectorOffset, setEntryFile, file_setFile_self]
    rfl
  · rw [setEntryFile, file_setFile_self]
    rfl

theorem isDir_setEntryFile : ((setEntryFile t handle e).file handle).isDir = true ↔ e.IsDirectory := by
  rw [setEntryFile, file_setFile_self]
  exact decide_eq_true_iff

/-- A path that the loop of `FAT_open` finds leads to an entry. -/
theorem resolves_of_finds (C : Cached s) (hr : ∀ l, s.disk.readFails l = false) (A : At s dir first 0 t)
    (hf : Finds fuel handle t dir path) : ∃ e, Resolves s first path e := by
  induction hf generalizing first with
  | last _ hp hf => exact ⟨_, .last hp (named_of_findFile A C hr hf)⟩
  | next _ hp hf hnext ih =>
    have c := cursors_findFile (A.volume.cached C) hf
    have hd : DirEntry.IsDirectory _ := isDir_setEntryFile.mp (by cases hnext <;> assumption)
    obtain ⟨e, he⟩ := ih (at_setEntryFile c A.volume A.disk hd)
    exact ⟨e, .next hp (named_of_findFile A C hr hf) hd he⟩

theorem length_strchr {str rest : List Byte} {c : Byte} (h : strchr str c = some rest) :
    0 < rest.length ∧ rest.length ≤ str.length := by
  rw [strchr] at h
  split at h
  · cases h
  · rename_i hne
    cases h
    exact ⟨List.length_pos_of_ne_nil hne, (List.dropWhile_sublist _).length_le⟩

/-- The slot describes the entry that the path leads to. -/
theorem openLoop_of_resolves (C : Cached s) (hr : ∀ l, s.disk.readFails l = false) (hres : Resolves s first path e)
    (A : At s dir first 0 t) (hn : path.length < n) :
    ∃ fuel t', openLoop fuel handle n t dir path = some (handle, t') ∧ Describes t' handle e := by
  induction hres generalizing t dir n with
  | @last first path e hp hN =>
    obtain ⟨n, rfl⟩ := Nat.exists_eq_add_one.mpr (Nat.zero_lt_of_lt hn)
    obtain ⟨fuel, t', hf⟩ := findFile_of_named A C hr hN
    refine ⟨fuel, (setEntryFile t' handle e).setFile handle
      { (setEntryFile t' handle e).file handle with isOpen := true }, ?_, ?_⟩
    · rw [openLoop_succ, if_neg (not_not.mpr A.isDir), hf, hp]
      rfl
    · refine ⟨?_, ?_, ?_, ?_, ?_, ?_⟩ <;> simp [setEntryFile, DirEntry.IsDirectory]
  | @next first path rest d e hp hN hd _ ih =>
    obtain ⟨n, rfl⟩ := Nat.exists_eq_add_one.mpr (Nat.zero_lt_of_lt hn)
    obtain ⟨fuel, t₁, hf⟩ := findFile_of_named A C hr hN
    have hrest := length_strchr hp
    have hleft : (rest.drop 1).length < n := by
      rw [List.length_drop]
      omega
    have A₁ : At s handle d.firstCluster 0 (setEntryFile t₁ handle d) :=
      at_setEntryFile (cursors_findFile (A.volume.cached C) hf) A.volume A.disk hd
    obtain ⟨fuel', t', hopen, D⟩ := ih A₁ hleft
    refine ⟨fuel + fuel', t', ?_, D⟩
    rw [openLoop_succ, if_neg (not_not.mpr A.isDir), findFile_mono hf, hp]
    rw [Nat.add_comm]
    exact openLoop_mono hopen fuel

theorem openLoop_keeps (C : Cached s) (hh : (s.file handle).handle = handle) {r : Int × Driver}
    (hr : openLoop fuel handle n s dir path = some r) : SameVolume s r.2 ∧ (r.2.file handle).handle = handle := by
  induction n generalizing s dir path with
  | zero => cases hr
  | succ n ih =>
    rw [openLoop_succ] at hr
    by_cases hd : (s.file dir).isDir = true
    swap
    · rw [if_pos hd] at hr
      cases hr
      exact ⟨((Cursors.refl s).errno).volume, hh⟩
    rw [if_neg (not_not.mpr hd)] at hr
    obtain ⟨⟨entry, s₁⟩, hf, hr⟩ := Option.bind_eq_some_iff.mp hr
    have c := cursors_findFile C hf
    cases entry with
    | none =>
      cases hr
      exact ⟨c.errno.volume, (c.handle handle).trans hh⟩
    | some entry =>
      have S := c.volume.trans (sameVolume_setFile s₁ handle { s₁.file handle with
        firstCluster := entry.firstCluster
        currentCluster := entry.firstCluster
        isDir := entry.attributes &&& DIRECTORY ≠ 0
        size := entry.size
        position := 0
        handle := handle })
      have hhandle : ((setEntryFile s₁ handle entry).file handle).handle = handle := by
        rw [setEntryFile, file_setFile_self]
      cases hp : strchr path 0x2F with
      | none =>
        simp only [hp] at hr
        cases hr
        exact ⟨S.trans (sameVolume_setFile _ _ _), by rw [file_setFile_self]; exact hhandle⟩
      | some rest =>
        simp only [hp] at hr
        obtain ⟨S', hhandle'⟩ := ih (S.cached C) hhandle hr
        exact ⟨S.trans S', hhandle'⟩

theorem cursors_rewindRoot (s : Driver) : Cursors s (rewindRoot s) := by
  have c := Cursors.setFile s ROOT_DIR_HANDLE 0 (s.file ROOT_DIR_HANDLE).firstCluster (s.file ROOT_DIR_HANDLE).size
    (s.file ROOT_DIR_HANDLE).buffer
  exact c

/-! ## Sessions -/

theorem Mounts.cached (M : Mounts s s₀) : Cached s₀ := (fatInit_firstSector M.init M.bytesPerSector).toCached

theorem Mounts.reads (M : Mounts s s₀) (l : Word) : s₀.disk.readFails l = false := by
  rw [(fatInit_keeps M.init).1, M.readFails]

/-- The root directory after `FAT_init`. -/
theorem rootDir_fatInit (hm : fatInit s = (true, s₀)) :
    s₀.rootDir.isDir = true ∧ s₀.rootDir.handle = ROOT_DIR_HANDLE ∧
      ∀ i < MAX_OPEN_FILE, ¬ SlotOpen s₀ i := by
  obtain ⟨-, -, rfl⟩ := fatInit_success hm
  refine ⟨rfl, rfl, fun i hi => ?_⟩
  have hslot : (0 : Int) ≤ i ∧ (i : Int) < MAX_OPEN_FILE := ⟨Int.natCast_nonneg i, Int.ofNat_lt.mpr hi⟩
  show ¬ (if (0 : Int) ≤ i ∧ (i : Int) < MAX_OPEN_FILE then File.zero else _).isOpen = true
  rw [if_pos hslot]
  decide

namespace KeptVolume

theorem mounted (hm : fatInit s = (true, s₀)) : KeptVolume s₀ s₀ := by
  obtain ⟨hdir, hroot, hslots⟩ := rootDir_fatInit hm
  refine ⟨.refl s₀, rfl, rfl, hdir, hroot, fun h hh => ?_⟩
  obtain rfl | ⟨i, hi, -, ho⟩ := hh
  · rw [file_root, hroot]
  · exact absurd ho (hslots i hi)

/-- Cursors may be moved. -/
theorem cursors (K : KeptVolume s₀ s) (c : Cursors s t) : KeptVolume s₀ t where
  volume := K.volume.trans c.volume
  disk := c.disk.trans K.disk
  rootFirst := by
    rw [← file_root, c.firstCluster, file_root, K.rootFirst]
  rootIsDir := by
    rw [← file_root, c.isDir, file_root, K.rootIsDir]
  rootHandle := by
    rw [← file_root, c.handle, file_root, K.rootHandle]
  handle h hh := by
    rw [c.handle]
    refine K.handle h (hh.imp_right fun hslot => ?_)
    obtain ⟨i, hi, hih, ho⟩ := hslot
    exact ⟨i, hi, hih, by rwa [SlotOpen, ← file_slot, ← c.isOpen, file_slot]⟩

theorem cached (K : KeptVolume s₀ s) (C : Cached s₀) : Cached s := K.volume.cached C

/-- The slot of a call of `FAT_open` has its handle. -/
theorem opens (K : KeptVolume s₀ s) (C : Cached s₀) {path : Option (List Byte)} {r : Int}
    (hopen : fatOpen fuel s path = some (r, t)) : KeptVolume s₀ t := by
  cases path with
  | none =>
    cases hopen
    exact K.cursors (Cursors.refl s).errno
  | some path =>
    by_cases hp : path = [0x2F]
    · subst hp
      cases hopen
      exact K.cursors (cursors_rewindRoot s)
    rw [fatOpen_eq hp] at hopen
    have hhandle : ((openStart s).file (findFreeHandle s)).handle = findFreeHandle s := by
      rw [openStart, file_setFile_self]
    have S := sameVolume_openStart s
    have hroot : ((openStart s).file ROOT_DIR_HANDLE).handle = ROOT_DIR_HANDLE := by
      rw [file_root, (opens_openStart s).rootHandle, K.rootHandle]
    obtain ⟨S', hhandle'⟩ := openLoop_keeps (S.cached (K.cached C)) hhandle hopen
    have o := (opens_openStart s).trans (openLoop_cases (findFreeHandle_ne_root s) (.inl rfl) hroot hopen).1
    refine ⟨K.volume.trans (S.trans S'), o.disk.trans K.disk, o.rootFirstCluster.trans K.rootFirst,
      o.rootIsDir.trans K.rootIsDir, o.rootHandle.trans K.rootHandle, fun h hh => ?_⟩
    by_cases hne : h = findFreeHandle s
    · rw [hne, hhandle']
    by_cases hr : h = ROOT_DIR_HANDLE
    · rw [hr, file_root, o.rootHandle, K.rootHandle]
    rw [o.other h hne hr]
    refine K.handle h (hh.imp_right fun hslot => ?_)
    obtain ⟨i, hi, rfl, ho⟩ := hslot
    exact ⟨i, hi, rfl, (slotOpen_of_opens o hne).mp ho⟩

theorem closes (K : KeptVolume s₀ s) (h : Int) : KeptVolume s₀ (fatClose s h) := by
  rw [fatClose]
  split
  · exact K
  rename_i hne
  have o : Opens h s (s.setFile h { s.file h with isOpen := false }) := Opens.setFile hne _
  refine ⟨K.volume.trans (sameVolume_setFile _ _ _), o.disk.trans K.disk, o.rootFirstCluster.trans K.rootFirst,
    o.rootIsDir.trans K.rootIsDir, o.rootHandle.trans K.rootHandle, fun k hk => ?_⟩
  by_cases hr : k = ROOT_DIR_HANDLE
  · rw [hr, file_root, o.rootHandle, K.rootHandle]
  obtain ⟨i, hi, rfl, ho⟩ := hk.resolve_left hr
  have hkh : (i : Int) + 3 ≠ h := by
    intro e
    rw [SlotOpen, ← file_slot, e, file_setFile_self] at ho
    cases ho
  rw [o.other _ hkh hr]
  exact K.handle _ (.inr ⟨i, hi, rfl, (slotOpen_of_opens o hkh).mp ho⟩)

end KeptVolume

/-- What was mounted is kept through a session. -/
theorem Session.kept (M : Mounts s s₀) (S : Session s₀ t) : KeptVolume s₀ t := by
  have C := M.cached
  induction S with
  | mounted => exact .mounted M.init
  | opens _ _ h ih => exact ih.opens C h
  | reads _ _ count ih => exact ih.cursors (cursors_fatRead (ih.cached C) _ count)
  | seeks _ _ ht ih => exact ih.cursors (cursors_fatSeek (ih.cached C) ht)
  | lists _ _ ht ih => exact ih.cursors (cursors_fatList (ih.cached C) ht)
  | closes _ _ ih => exact ih.closes _

/-! ## What is found and printed -/

namespace KeptVolume

variable (K : KeptVolume s₀ s)

include K

theorem at_openStart : At s₀ ROOT_DIR_HANDLE s₀.rootDir.firstCluster 0 (openStart s) := by
  have o := opens_openStart s
  have hroot : (openStart s).file ROOT_DIR_HANDLE = (rewindRoot s).rootDir := by
    rw [openStart, file_setFile_of_ne (findFreeHandle_ne_root s).symm, file_root]
  refine ⟨K.volume.trans (sameVolume_openStart s), o.disk.trans K.disk, ?_, ?_, ?_, ?_⟩
  · rw [hroot]
    exact K.rootHandle
  · rw [hroot]
    exact K.rootIsDir
  · rw [sectorOffset, hroot]
    rfl
  · rw [hroot]
    exact K.rootFirst

variable (C : Cached s₀) (hr : ∀ l, s₀.disk.readFails l = false)

include C hr

theorem opensTree (hp : path ≠ [0x2F]) : OpensTree s₀ s path := by
  have A := K.at_openStart
  have hfound : ∀ e, Resolves s₀ s₀.rootDir.firstCluster (stripSlash path) e →
      ∃ fuel t, fatOpen fuel s (some path) = some (findFreeHandle s, t) ∧ Describes t (findFreeHandle s) e := by
    intro e hres
    obtain ⟨fuel, t, hopen, D⟩ := openLoop_of_resolves C hr hres A (Nat.lt_succ_self _)
    exact ⟨fuel, t, (fatOpen_eq hp).trans hopen, D⟩
  refine ⟨hfound, fun fuel r t hopen => ?_⟩
  obtain ⟨-, hcases⟩ := openLoop_cases (findFreeHandle_ne_root s) (.inl rfl) A.handle
    ((fatOpen_eq hp).symm.trans hopen)
  rcases hcases with ⟨rfl, hf, -⟩ | ⟨rfl, -, -⟩
  · obtain ⟨e, hres⟩ := resolves_of_finds C hr A hf
    obtain ⟨fuel', t', hopen', D⟩ := hfound e hres
    obtain ⟨-, rfl⟩ := Prod.mk.inj (fatOpen_unique hopen hopen')
    exact .inl ⟨e, hres, rfl, D⟩
  · refine .inr ⟨fun hex => ?_, rfl⟩
    obtain ⟨e, hres⟩ := hex
    obtain ⟨fuel', t', hopen', -⟩ := hfound e hres
    exact findFreeHandle_ne_root s (Prod.mk.inj (fatOpen_unique hopen hopen')).1.symm

theorem lists_iff (hh : Usable s h) (hd : (s.file h).isDir = true) :
    (∃ fuel t, fatList fuel s h = some (out, t)) ↔ ∃ n, Entries s₀ (s.file h).firstCluster n ∧
      out = visible (Listing.upTo (dirEntry s₀ (s.file h).firstCluster) n) := by
  have hlist : ∀ fuel, fatList fuel s h = listLoop h fuel (rewound s h) [] := fun fuel => by
    have hseek : fatSeek fuel s h 0 .set = some (rewound s h) := by
      rw [fatSeek, seekFrom, file_setFile_self, setFile_setFile]
      rfl
    rw [fatList, hseek]
    rfl
  have A : At s₀ h (s.file h).firstCluster 0 (rewound s h) := by
    refine ⟨K.volume.trans (sameVolume_setFile _ _ _), ?_, ?_, ?_, ?_, ?_⟩
    · rw [rewound, disk_setFile, K.disk]
    · rw [rewound, file_setFile_self]
      exact K.handle h hh
    · rw [rewound, file_setFile_self]
      exact hd
    · rw [sectorOffset, rewound, file_setFile_self]
      rfl
    · rw [rewound, file_setFile_self]
      rfl
  have hends : ∀ n, Entries s₀ (s.file h).firstCluster n → ∃ t', fatList (n + 1) s h =
      some (visible (Listing.upTo (dirEntry s₀ (s.file h).firstCluster) n), t') := fun n E => by
    obtain ⟨t', ht'⟩ := A.listLoop_ends C hr (by rwa [Nat.zero_add])
    rw [Nat.zero_add] at ht'
    exact ⟨t', (hlist _).trans ht'⟩
  constructor
  · rintro ⟨fuel, t, hl⟩
    obtain ⟨n, E⟩ := A.ends_of_listLoop C hr (fun j hj => absurd hj (Nat.not_lt_zero j)) ((hlist _).symm.trans hl)
    obtain ⟨t', ht'⟩ := hends n E
    rw [hlist] at hl ht'
    have hsame := listLoop_mono hl (n + 1)
    rw [Nat.add_comm, listLoop_mono ht' fuel, Option.some.injEq] at hsame
    exact ⟨n, E, (Prod.mk.inj hsame).1.symm⟩
  · rintro ⟨n, E, rfl⟩
    exact ⟨n + 1, hends n E⟩

end KeptVolume

/-- The root directory has the directory `D`, at cluster 2, which has the file `F`, of five bytes. -/
def treeDisk : Disk where
  sector l :=
    if l = 0 then Buffer.ofList [0, 0, 0, 0, 0, 0, 0, 0, 0, 0, 0, 0x00, 0x02, 1, 1, 0, 1, 16, 0, 13, 0, 0, 1, 0]
    else if l = 1 then Buffer.ofList [0xF8, 0xFF, 0xFF, 0xFF, 0xFF, 0xFF]
    else if l = 2 then Buffer.ofList ([0x44] ++ List.replicate 10 0x20 ++ [0x10] ++ List.replicate 14 0 ++ [2])
    else if l = 3 then
      Buffer.ofList ([0x46] ++ List.replicate 10 0x20 ++ [0x00] ++ List.replicate 14 0 ++ [3, 0, 5])
    else fun _ => 0
  readFails _ := false
  writeFails _ := false

def unmountedTree : Driver := { someFat with disk := treeDisk }

def mountedTree : Driver := (fatInit unmountedTree).2

theorem mounts_tree : Mounts unmountedTree mountedTree where
  init := Prod.ext (by decide) rfl
  bytesPerSector := by decide
  readFails _ := rfl

end

end AlexOS.Fat
