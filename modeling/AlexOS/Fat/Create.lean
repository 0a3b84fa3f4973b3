import AlexOS.Fat.CreateSteps

/-!
# Creating files

A file is created if an entry is added to the directory, with a cluster of its
own that is marked in the FAT. `FAT_create_file` returns 1 in any case, and the
mark never comes into the FAT. So it does what it should on no volume and for
no name (`creates_never`).
-/

namespace AlexOS.Fat

/-- The root directory, or the directory that starts at a cluster. -/
inductive Directory
  | root
  | sub (first : Word)

/-- Sector `l` belongs to the clusters from `first` on. -/
def InChain (s : Driver) (first l : Word) : Prop :=
  ∃ c, OnChain s first c ∧ ∃ j < s.bootSector.sectorPerCluster.toNat, l = cluster2Lba s c + BitVec.ofNat 32 j

/-- Sector `l` belongs to the directory. -/
def Directory.Holds (s : Driver) (l : Word) : Directory → Prop
  | .root =>
    if s.fatType = 32 then InChain s s.bootSector.rootDirCluster l
    else ∃ j < s.rootDirSectors.toNat, l = s.firstDataSector - s.rootDirSectors + BitVec.ofNat 32 j
  | .sub first => InChain s first l

/-- A place for an entry: a sector of the directory, and a number in it. -/
def Directory.Slot (s : Driver) (d : Directory) (k : Word × Nat) : Prop := d.Holds s k.1 ∧ k.2 < 16

/-- The directories that there are, by their paths. -/
inductive NamesDir (s : Driver) : List Byte → Directory → Prop
  | root : NamesDir s [] .root
  | slash : NamesDir s [0x2F] .root
  | sub {path : List Byte} {fuel : Nat} {h : Int} {t : Driver}
      (hopen : fatOpen fuel { s with errno := 0 } (some path) = some (h, t)) (hh : h ≠ ROOT_DIR_HANDLE)
      (hd : (t.file h).isDir = true) (hc : IsCluster s (t.file h).firstCluster) :
      NamesDir s path (.sub (t.file h).firstCluster)

/-- No entry of the directory has the name. -/
def Absent (s : Driver) (dir : List Byte) (n : ShortName) : Prop :=
  ∀ d, NamesDir s dir d → ∀ k, d.Slot s k → (entryAt s k).filename ≠ n.kernelName

/-- A file opens, and is the one with this first cluster, size and kind. -/
def OpensTo (s : Driver) (path : List Byte) (f : Word × Word × Bool) : Prop :=
  ∃ fuel h t, fatOpen fuel s (some path) = some (h, t) ∧ h ≠ ROOT_DIR_HANDLE ∧
    ((t.file h).firstCluster, (t.file h).size, (t.file h).isDir) = f

/-- Exactly one entry is added to the directory, at place `k`, of size 0 and with a free cluster that is marked. -/
structure Added (s s' : Driver) (d : Directory) (path : List Byte) (n : ShortName) (k : Word × Nat) : Prop where
  slot : d.Slot s' k
  filename : (entryAt s' k).filename = n.kernelName
  size : (entryAt s' k).size = 0
  cluster : IsCluster s (entryAt s' k).firstCluster
  free : fatEntry s 0 (entryAt s' k).firstCluster = 0
  marked : IsEnd s.fatType (fatEntry s' 0 (entryAt s' k).firstCluster)
  only : ∀ k', d.Slot s' k' → (entryAt s' k').filename = n.kernelName → k' = k
  others : ∀ k', d.Slot s k' → k' ≠ k → entryAt s' k' = entryAt s k'
  opens : ∃ f, OpensTo s' path f
  still : ∀ p f, OpensTo s p f → OpensTo s' p f

/-- What `FAT_create_file` returns, and the state after it. -/
def createFile (fuel : Nat) (s : Driver) (path : List Byte) : Option (Byte × Driver) :=
  (fatCreateFile fuel s path).map fun s' => (1, s')

/-- The file is created in the directory, or 0 returned and the disk unchanged. -/
def Creates (s : Driver) (dir : List Byte) (n : ShortName) : Prop :=
  ∃ fuel ret s', createFile fuel s (dir ++ 0x2F :: n.text) = some (ret, s') ∧
    ((∃ d k, NamesDir s dir d ∧ Added s s' d (dir ++ 0x2F :: n.text) n k) ∨ ret = 0 ∧ s'.disk = s.disk)

section

variable {s s' t : Driver} {c l : Word} {h : Int} {fuel m : Nat} {path dir : List Byte} {n : ShortName}
  {d : Directory} {k : Word × Nat} {e : DirEntry}

/-! ## The entry and its cluster -/

/-- Where the entry stands in the directory, its cluster is not marked. -/
theorem Written.not_added (W : Written s s' c l m (newEntry n.text c)) (V : Formatted s) (hl : ¬ InFirstFat s l)
    (hslot : d.Slot s' (l, m)) : ¬ Added s s' d path n k := by
  intro A
  obtain rfl : (l, m) = k := A.only _ hslot (by rw [W.entry, filename_newEntry])
  have hc := A.cluster
  have hfree := A.free
  have hmark := A.marked
  rw [W.entry, firstCluster_newEntry] at hc hfree hmark
  rw [W.fatEntry_eq V hc hl fun j hj => writtenSector_ne V.toFatArea hc hj, hfree] at hmark
  exact not_isEnd_zero _ hmark

theorem slot_root_iff (W : Written s s' c l m e) (h32 : s.fatType ≠ 32) :
    Directory.root.Slot s' k ↔ Directory.root.Slot s k := by
  have h32' : s'.fatType ≠ 32 := W.volume.fatType ▸ h32
  unfold Directory.Slot Directory.Holds
  dsimp only
  rw [if_neg h32, if_neg h32', W.volume.rootDirSectors, W.volume.firstDataSector]

theorem Formatted.root_not_inFirstFat (V : Formatted s) (h32 : s.fatType ≠ 32) (h : Directory.root.Holds s l) :
    ¬ InFirstFat s l := by
  unfold Directory.Holds at h
  dsimp only at h
  rw [if_neg h32] at h
  obtain ⟨j, hj, rfl⟩ := h
  have hdata := V.firstDataSector
  have hsub : (s.firstDataSector - s.rootDirSectors).toNat = s.firstDataSector.toNat - s.rootDirSectors.toNat :=
    BitVec.toNat_sub_of_le (by rw [BitVec.le_def]; omega)
  apply V.not_inFirstFat
  rw [BitVec.toNat_add, hsub, BitVec.toNat_ofNat]
  omega

/-- Where the entry stands elsewhere, the root directory has no new one, or the FAT no new mark. -/
theorem Written.not_added_root (W : Written s s' c l m (newEntry n.text c)) (V : Formatted s)
    (hc : c = 0 ∨ IsCluster s c) (h32 : s.fatType ≠ 32) (hl : ¬ Directory.root.Holds s l)
    (hplace : ¬ InFirstFat s l ∨ ∀ b ∈ n.text, b < 0xF8)
    (habsent : ∀ k, Directory.root.Slot s k → (entryAt s k).filename ≠ n.kernelName) :
    ¬ Added s s' .root path n k := by
  intro A
  have hslot := (slot_root_iff W h32).mp A.slot
  have hroot := V.root_not_inFirstFat h32 hslot.1
  by_cases hw : InFirstFat s (writtenSector s c)
  · -- no sector of the root directory has changed
    have hsame : entryAt s' k = entryAt s k := Buffer.slice_congr fun j _ =>
      W.rest _ _ (fun h => hl (h.1 ▸ hslot.1)) fun h => hroot (h ▸ hw)
    exact habsent k hslot (hsame ▸ A.filename)
  · by_cases hfat : InFirstFat s l
    · exact W.not_isEnd V hc h32 hw (hplace.resolve_left (not_not.mpr hfat)) A.cluster A.free A.marked
    · have hmark := A.marked
      rw [W.fatEntry_eq V A.cluster hfat fun j hj h => hw (h ▸ ⟨_, V.entry_lt A.cluster hj, rfl⟩),
        A.free] at hmark
      exact not_isEnd_zero _ hmark

/-! ## The directory that is opened -/

theorem Written.inChain (W : Written s s' c l m e) (V : Formatted s) (first : Word) :
    InChain s' first (cluster2Lba s first) := by
  refine ⟨first, .refl, 0, ?_, ?_⟩
  · rw [W.volume.bootSector]
    exact V.sectorPerCluster
  · rw [W.volume.cluster2Lba_eq]
    exact (BitVec.add_zero _).symm

theorem Formatted.cluster_not_inFirstFat (V : Formatted s) (hc : IsCluster s c) :
    ¬ InFirstFat s (cluster2Lba s c) := by
  obtain ⟨h2, hlt⟩ := hc
  have hlast := V.lastSector
  have hdata := V.firstDataSector
  have hle : (c.toNat - 2) * s.bootSector.sectorPerCluster.toNat ≤
      s.totalClusters.toNat * s.bootSector.sectorPerCluster.toNat := Nat.mul_le_mul_right _ (by omega)
  have hmul : ((c - 2) * s.bootSector.sectorPerCluster.setWidth 32).toNat =
      (c.toNat - 2) * s.bootSector.sectorPerCluster.toNat := by
    rw [BitVec.toNat_mul, BitVec.toNat_sub_of_le (by rw [BitVec.le_def]; exact h2),
      BitVec.toNat_setWidth_of_le (by decide),
      show (2 : Word).toNat = 2 from rfl, Nat.mod_eq_of_lt (by omega)]
  apply V.not_inFirstFat
  rw [cluster2Lba, BitVec.toNat_add, hmul]
  omega

/-- What is opened is the directory of the path, if there is one. -/
theorem NamesDir.opened (D : NamesDir s dir d) (V : Formatted s)
    (hopen : fatOpen fuel { s with errno := 0 } (some dir) = some (h, t)) : (t.file h).isDir = true ∧
      (d = .root ∧ (t.file h).firstCluster = s.rootDir.firstCluster ∨
        d = .sub (t.file h).firstCluster ∧ IsCluster s (t.file h).firstCluster) := by
  have S₀ : SameVolume s { s with errno := 0 } := ⟨rfl, rfl, rfl, rfl, rfl, rfl, rfl, rfl, rfl, rfl, rfl⟩
  obtain ⟨-, -, hfirst, hdir⟩ := fatOpen_same (S₀.cached V.first.toCached) V.rootHandle hopen
  have hroot : h = ROOT_DIR_HANDLE → (t.file h).isDir = true ∧
      (Directory.root = .root ∧ (t.file h).firstCluster = s.rootDir.firstCluster) := by
    rintro rfl
    rw [file_root]
    exact ⟨hdir.trans V.rootIsDir, rfl, hfirst⟩
  cases D with
  | root =>
    obtain ⟨h1, h2⟩ := hroot (V.nameless _ _ _ hopen)
    exact ⟨h1, .inl h2⟩
  | slash =>
    have hret : h = ROOT_DIR_HANDLE := by
      have e : h = (rewindRoot { s with errno := 0 }).rootDir.handle := by
        cases hopen
        rfl
      rw [e]
      exact V.rootHandle
    obtain ⟨h1, h2⟩ := hroot hret
    exact ⟨h1, .inl h2⟩
  | sub hopen' hh hd hc =>
    obtain ⟨rfl, rfl⟩ := Prod.mk.inj (fatOpen_unique hopen hopen')
    exact ⟨hd, .inr ⟨rfl, hc⟩⟩

/-- No file is ever created as it should be: 1 is returned in any case, and the entry never has a cluster that is
marked. (The first sector of the root directory is taken for another one where the directory is not whole clusters.
Where that is one of the FAT, it could be marked by chance by bytes of the name from 0xF8 on.) -/
theorem creates_never (V : Formatted s) (hn : 0x2F ∉ n.text) (habsent : Absent s dir n)
    (hplace : ¬ InFirstFat s (cluster2Lba s s.rootDir.firstCluster) ∨ ∀ b ∈ n.text, b < 0xF8) :
    ¬ Creates s dir n := by
  rintro ⟨fuel, ret, s₁, hcreate, hdone⟩
  obtain ⟨s', hr, hret⟩ := Option.map_eq_some_iff.mp hcreate
  obtain ⟨rfl, rfl⟩ := Prod.mk.inj hret
  rcases hdone with ⟨d, k, D, A⟩ | ⟨h0, -⟩
  swap
  · exact absurd h0 (by decide)
  obtain ⟨h, t, hopen, hwritten⟩ := fatCreateFile_written V hn hr
  obtain ⟨hdir, hcases⟩ := D.opened V hopen
  obtain ⟨c, m, hc, W⟩ := hwritten hdir
  rcases hcases with ⟨rfl, hfirst⟩ | ⟨rfl, hcluster⟩
  swap
  · have hslot : (Directory.sub (t.file h).firstCluster).Holds s' (cluster2Lba s (t.file h).firstCluster) :=
      W.inChain V _
    exact W.not_added V (V.cluster_not_inFirstFat hcluster) ⟨hslot, W.lt⟩ A
  rw [hfirst] at W
  by_cases h32 : s.fatType = 32
  · have h32' : s'.fatType = 32 := W.volume.fatType.trans h32
    have hroot := V.rootCluster
    rw [if_pos h32] at hroot
    have hslot : Directory.root.Holds s' (cluster2Lba s s.rootDir.firstCluster) := by
      unfold Directory.Holds
      dsimp only
      rw [if_pos h32', W.volume.bootSector, hroot]
      exact W.inChain V _
    exact W.not_added V (hroot ▸ V.cluster_not_inFirstFat (V.rootDirCluster h32)) ⟨hslot, W.lt⟩ A
  · by_cases hl : Directory.root.Holds s (cluster2Lba s s.rootDir.firstCluster)
    · exact W.not_added V (V.root_not_inFirstFat h32 hl) ((slot_root_iff W h32).mpr ⟨hl, W.lt⟩) A
    · exact W.not_added_root V hc h32 hl hplace (habsent _ D) A

/-- `C`. -/
def nameC : ShortName where
  base := [0x43]
  ext := []
  base_pos := by decide
  base_le := by decide
  ext_le := by decide
  base_chars := oneOne.ext_chars
  ext_chars := by decide

theorem formatted_closedFat : Formatted closedFat where
  toFatArea := { fatArea_someFat with }
  first := ⟨⟨rfl, rfl⟩, rfl, fun _ _ => rfl⟩
  faultless := ⟨fun _ => rfl, fun _ => rfl⟩
  nbFat := by decide
  sectorPerCluster := by decide
  firstDataSector := by decide
  lastSector := by decide
  rootHandle := rfl
  rootIsDir := rfl
  rootCluster := by decide
  rootDirCluster h := absurd h (by decide)
  nameless fuel ret t h := by
    have he : (fatOpen 3 { closedFat with errno := 0 } (some [])).map Prod.fst = some (-1) := by decide
    obtain ⟨r, hr, hret⟩ := Option.map_eq_some_iff.mp he
    exact (congrArg Prod.fst (fatOpen_unique h hr)).trans hret

/-- `C` is created in the root directory. -/
theorem not_creates_closedFat : ¬ Creates closedFat [] nameC := by
  refine creates_never formatted_closedFat (by decide) (fun d D k hk => ?_) (.inl ?_)
  · have hnone : ∀ m < 16, (entryAt closedFat (2, m)).filename ≠ nameC.kernelName := by decide
    cases D with
    | root =>
      obtain ⟨l, m⟩ := k
      obtain ⟨⟨j, hj, hl⟩, hm⟩ := hk
      obtain rfl : j = 0 := Nat.lt_one_iff.mp hj
      obtain rfl : l = 2 := hl
      exact hnone m hm
    | sub hopen hh _ _ => exact absurd (formatted_closedFat.nameless _ _ _ hopen) hh
  · rintro ⟨j, hj, h⟩
    obtain rfl : j = 0 := Nat.lt_one_iff.mp hj
    exact absurd h (by decide)

/-- There is no directory `X` for the file. -/
theorem not_creates : ¬ ∀ (s : Driver) (dir : List Byte) (n : ShortName), Formatted s → 0x2F ∉ n.text →
    Absent s dir n →
    Creates s dir n := by
  intro H
  have he : (fatOpen 3 { closedFat with errno := 0 } (some [0x58])).map Prod.fst = some (-1) := by decide
  obtain ⟨⟨h, t⟩, hopen, hret⟩ := Option.map_eq_some_iff.mp he
  obtain rfl : h = -1 := hret
  have hnone : ∀ d, ¬ NamesDir closedFat [0x58] d := by
    intro d D
    cases D with
    | sub hopen' hh _ _ => exact hh (Prod.mk.inj (fatOpen_unique hopen' hopen)).1
  obtain ⟨fuel, ret, s', hcreate, hdone⟩ :=
    H closedFat [0x58] nameC formatted_closedFat (by decide) fun d D => absurd D (hnone d)
  obtain ⟨s'', -, hret⟩ := Option.map_eq_some_iff.mp hcreate
  obtain ⟨rfl, rfl⟩ := Prod.mk.inj hret
  rcases hdone with ⟨d, -, D, -⟩ | ⟨h0, -⟩
  · exact hnone d D
  · exact absurd h0 (by decide)

end

end AlexOS.Fat
