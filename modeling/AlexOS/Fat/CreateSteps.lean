import AlexOS.Fat.Append
import AlexOS.Fat.Free
import AlexOS.Fat.NewEntry
import AlexOS.Fat.Update
import AlexOS.Lib.Stream

/-!
# What `FAT_create_file` writes

`FAT_create_file` writes two sectors: the cached sector of the FAT, with the
mark of the new cluster, and the entry, in the first sector of the directory
that was opened (`fatCreateFile_written`). The first goes to the wrong place,
so the entry of the cluster in the FAT stays (`Written.fatEntry_eq`), and the
second marks nothing either where the directory is taken to be in the FAT
(`Written.not_isEnd`).
-/

namespace AlexOS.Fat

/-- A mounted volume of sectors of 512 bytes, on a disk without faults: the first FAT is in its place before the root
directory and the clusters, and no file has an empty name. -/
structure Formatted (s : Driver) : Prop extends FatArea s where
  first : FirstSector s
  faultless : Faultless s.disk
  nbFat : 0 < s.bootSector.nbFat.toNat
  sectorPerCluster : 0 < s.bootSector.sectorPerCluster.toNat
  firstDataSector : s.firstDataSector.toNat =
    s.firstFatSector.toNat + s.bootSector.nbFat.toNat * s.fatSectors.toNat + s.rootDirSectors.toNat
  lastSector : s.firstDataSector.toNat + s.totalClusters.toNat * s.bootSector.sectorPerCluster.toNat < 2 ^ 32
  rootHandle : s.rootDir.handle = ROOT_DIR_HANDLE
  rootIsDir : s.rootDir.isDir = true
  rootCluster : s.rootDir.firstCluster =
    if s.fatType = 32 then s.bootSector.rootDirCluster else lba2Cluster s (s.firstDataSector - s.rootDirSectors)
  rootDirCluster : s.fatType = 32 → IsCluster s s.bootSector.rootDirCluster
  nameless : ∀ fuel ret t, fatOpen fuel { s with errno := 0 } (some []) = some (ret, t) → ret = ROOT_DIR_HANDLE

/-- Entry number `k.2` of sector `k.1`. -/
def entryAt (s : Driver) (k : Word × Nat) : DirEntry := (s.disk.sector k.1).slice (32 * k.2) 32

/-- Sector `l` is one of the first FAT. -/
def InFirstFat (s : Driver) (l : Word) : Prop := ∃ j < s.fatSectors.toNat, l = fatSector s 0 j

/-- The sector of the FAT and an entry are written, the entry as number `m` of sector `l`. -/
structure Written (s s' : Driver) (c l : Word) (m : Nat) (e : DirEntry) : Prop where
  volume : SameVolume { s with table := s'.table } s'
  lt : m < 16
  entry : entryAt s' (l, m) = e
  rest : ∀ l' x, ¬ (l' = l ∧ 32 * m ≤ x ∧ x < 32 * m + 32) → l' ≠ writtenSector s c →
    s'.disk.sector l' x = s.disk.sector l' x

section

variable {s s' s₁ t : Driver} {c c' l : Word} {h ret : Int} {fuel m : Nat} {path dir : List Byte} {n : ShortName}
  {input : Buffer} {e : DirEntry}

/-! ## The steps of the call -/

theorem parseFilename_eq (hn : 0x2F ∉ n.text) : parseFilenameCreateFile (dir ++ 0x2F :: n.text) = (dir, n.text) := by
  have hmem : (0x2F : Byte) ∈ dir ++ 0x2F :: n.text := List.mem_append_right _ List.mem_cons_self
  have hidx : (dir ++ 0x2F :: n.text).reverse.idxOf 0x2F = n.text.length := by
    rw [List.reverse_append, List.reverse_cons, List.append_assoc,
      List.idxOf_append_of_notMem (by rwa [List.mem_reverse]), List.length_reverse]
    rfl
  have hlast : (dir ++ 0x2F :: n.text).length - 1 - n.text.length = dir.length := by
    rw [List.length_append, List.length_cons]
    omega
  simp only [parseFilenameCreateFile, if_pos hmem, hidx, hlast]
  rw [List.take_left, List.drop_append, List.drop_of_length_le (Nat.le_succ _)]
  simp

theorem fatOpen_same (C : Cached s) (hroot : s.rootDir.handle = ROOT_DIR_HANDLE)
    (hr : fatOpen fuel s (some path) = some (ret, t)) : SameVolume s t ∧ t.disk = s.disk ∧
      t.rootDir.firstCluster = s.rootDir.firstCluster ∧ t.rootDir.isDir = s.rootDir.isDir := by
  by_cases hp : path = [0x2F]
  · subst hp
    cases hr
    exact ⟨⟨rfl, rfl, rfl, rfl, rfl, rfl, rfl, rfl, rfl, rfl, rfl⟩, rfl, rfl, rfl⟩
  · have S := sameVolume_openStart s
    have o := opens_openStart s
    rw [fatOpen_eq hp] at hr
    have hstart : ((openStart s).file ROOT_DIR_HANDLE).handle = ROOT_DIR_HANDLE := by
      rw [file_root, o.rootHandle, hroot]
    obtain ⟨o', -⟩ := openLoop_cases (findFreeHandle_ne_root s) (.inl rfl) hstart hr
    have o := o.trans o'
    exact ⟨S.trans (openLoop_same (S.cached C) hr), o.disk, o.rootFirstCluster, o.rootIsDir⟩

theorem fatSeek_start (s : Driver) (h : Int) (fuel : Nat) : fatSeek fuel s h 0 .set =
    some (s.setFile h { s.file h with position := 0, currentCluster := (s.file h).firstCluster }) := by
  show some (seekFrom (s.setFile h { s.file h with position := 0 }) h 0) = _
  show some (Driver.setFile (s.setFile h { s.file h with position := 0 }) h _) = _
  rw [setFile_setFile, file_setFile_self]

/-- A directory that is at its start, at its end. -/
theorem fatSeek_end_entry (hd : (s.file h).isDir = true) (hp : (s.file h).position = 0)
    (hs : fatSeek fuel s h 0 .end = some s₁) : SameVolume s s₁ ∧ s₁.disk = s.disk ∧
      ∃ m < 16, (s₁.file h).position = BitVec.ofNat 32 (32 * m) := by
  cases fuel with
  | zero => cases hs
  | succ fuel =>
    by_cases hlive : (s.file h).firstCluster < 0xFFFFFFF8
    swap
    · rw [fatSeek_of_mark hlive] at hs
      cases hs
      exact ⟨sameVolume_setFile _ _ _, disk_setFile _ _ _, 0, by decide, by rw [file_atStart]; exact hp⟩
    rcases delimiter_cases (s.file h).isDir (firstSector s h) with ⟨i, hi⟩ | hno
    · rw [fatSeek_found hlive hi] at hs
      cases hs
      obtain ⟨m, rfl⟩ : 32 ∣ i := by
        have := hi.place
        rwa [hd] at this
      have hlt := hi.inside
      refine ⟨sameVolume_setFile _ _ _, disk_setFile _ _ _, m, by omega, ?_⟩
      rw [file_setFile_self, hp]
      exact BitVec.zero_add _
    · rw [fatSeek_never hlive hno] at hs
      cases hs

/-- An entry is appended to the first sector. -/
theorem fatAppend_entry (N : Faultless s.disk) (hd : (s.file h).isDir = true) (hp : (s.file h).position = 0)
    {r : Word × Driver} (hr : fatAppend fuel s h sizeofDirEntry input = some r) : SameVolume s r.2 ∧
      ∃ m < 16, ∀ l x, r.2.disk.sector l x =
        if l = cluster2Lba s (s.file h).firstCluster ∧ 32 * m ≤ x ∧ x < 32 * m + 32 then input (x - 32 * m)
        else s.disk.sector l x := by
  obtain ⟨s₁, hs, -⟩ := Option.bind_eq_some_iff.mp hr
  obtain ⟨S, hdisk, m, hm, hpos⟩ := fatSeek_end_entry hd hp hs
  have ho : ((s₁.file h).position % 512).toNat = 32 * m := by
    rw [hpos, BitVec.toNat_umod, BitVec.toNat_ofNat, show (512 : Word).toNat = 512 from rfl]
    omega
  -- one round writes all of it
  have hcount : (32 : Word).toNat = 32 := rfl
  have hr' := hr
  rw [fatAppend_eq hs, Option.some.injEq, show sizeofDirEntry = 32 from rfl] at hr'
  generalize (s₁.file h).position % 512 = offset at ho hr'
  have htw : toWrite 32 offset = 32 := BitVec.eq_of_toNat_eq (by
    rw [toNat_toWrite 32 (by omega), hcount]
    omega)
  have hround : appendLoop h (32 : Word).toNat s₁ 32 offset input 0 =
      (0 + 32, afterAppend s₁ h 32 offset input) := by
    rw [show (32 : Word).toNat = 31 + 1 from rfl, appendLoop_round (by decide), htw, if_neg (by decide), sub_self,
      appendLoop_zero]
  have hcur := fatSeek_end_current hs
  rw [hround] at hr'
  subst hr'
  have w : Wrote (fun _ => True) s₁ (afterAppend s₁ h 32 offset input) := afterAppend_wrote trivial 32 offset input
  refine ⟨S.trans w.toSameVolume, m, hm, fun l x => ?_⟩
  rw [sector_afterAppend (S.faultless N) (by omega), hcur, S.cluster2Lba_eq, ho, htw, hcount, hdisk]

/-- The cluster is one of the volume, or 0. -/
theorem findFreeCluster_range (V : Formatted s) (S : SameVolume s t) (hdisk : t.disk = s.disk) :
    ((findFreeCluster t).1 = 0 ∨ IsCluster s (findFreeCluster t).1) ∧ (findFreeCluster t).2 = t := by
  have F := S.firstSector hdisk V.first
  have hsearch : Searchable t := {
    bytesPerSector := F.bytesPerSector
    fat16 := fun h => by
      rw [S.totalClusters]
      exact V.fat16 (S.fatType ▸ h)
    fat32 := fun h => by
      rw [S.totalClusters]
      exact V.fat32 (S.fatType ▸ h)
    detected := by
      unfold Detected
      rw [S.fatType, S.totalClusters]
      exact V.detected
    readable := F.readable
    table := fun i hi => by
      rw [F.table i hi, F.fatOffset]
      exact congrArg (fun l => t.disk.sector l i) (BitVec.add_zero _).symm }
  refine ⟨?_, findFreeCluster_ok F⟩
  rcases findFreeCluster_cases hsearch with hc | ⟨h0, -⟩
  · have hlt := hc.2.1
    rw [S.totalClusters] at hlt
    exact .inr ⟨hc.1, by omega⟩
  · exact .inl h0

theorem Formatted.entryOffset_some (V : Formatted s) (c : Word) : ∃ e, entryOffset s.fatType c = some e := by
  rcases V.detected.known with h | h | h <;> rw [h] <;> exact ⟨_, rfl⟩

theorem updateFat_step (V : Formatted s) (S : SameVolume s t) (hdisk : t.disk = s.disk) (c v : Word) :
    SameVolume { t with table := (updateFat t c v).2.table } (updateFat t c v).2 ∧
      ∀ l x, l ≠ writtenSector s c → (updateFat t c v).2.disk.sector l x = s.disk.sector l x := by
  obtain ⟨e, he⟩ := V.entryOffset_some c
  rw [updateFat_ok (S.cached V.first.toCached) (S.fatType ▸ he)]
  refine ⟨⟨rfl, rfl, rfl, rfl, rfl, rfl, rfl, rfl, rfl, Disk.readFails_write _ _ _, Disk.writeFails_write _ _ _⟩,
    fun l x hl => ?_⟩
  have hl' : l ≠ t.firstFatSector + e := by
    rwa [S.firstFatSector, ← Option.getD_some (a := e) (b := 0), ← he]
  dsimp only
  rw [Disk.sector_write_of_ne hl', hdisk]

theorem updateFat_file (V : Formatted s) (S : SameVolume s t) (c v : Word) (h : Int) :
    t.file h = (updateFat t c v).2.file h := by
  obtain ⟨e, he⟩ := V.entryOffset_some c
  rw [updateFat_ok (S.cached V.first.toCached) (S.fatType ▸ he)]
  rfl

theorem SameVolume.withTable (S : SameVolume s t) (b : Buffer) :
    SameVolume { s with table := b } { t with table := b } :=
  ⟨S.1, S.2, rfl, S.4, S.5, S.6, S.7, S.8, S.9, S.10, S.11⟩

theorem entryAt_eq {e : DirEntry} (he : e.length = 32)
    (h : ∀ j < 32, s.disk.sector l (32 * m + j) = e.getD j 0) : entryAt s (l, m) = e := by
  apply List.ext_getElem
  · rw [entryAt, Buffer.length_slice, he]
  · intro j hj hj'
    have hj32 : j < 32 := he ▸ hj'
    rw [← List.getD_eq_getElem _ 0 hj, ← List.getD_eq_getElem _ 0 hj', entryAt, Buffer.getD_slice hj32, h j hj32]

/-- What is written, where the path leads to a directory, or to none. -/
theorem fatCreateFile_written (V : Formatted s) (hn : 0x2F ∉ n.text)
    (hr : fatCreateFile fuel s (dir ++ 0x2F :: n.text) = some s') :
    ∃ h t, fatOpen fuel { s with errno := 0 } (some dir) = some (h, t) ∧
      ((t.file h).isDir = true → ∃ c m, (c = 0 ∨ IsCluster s c) ∧
        Written s s' c (cluster2Lba s (t.file h).firstCluster) m (newEntry n.text c)) := by
  obtain ⟨⟨h, t⟩, hopen, hr⟩ := Option.bind_eq_some_iff.mp hr
  rw [parseFilename_eq hn] at hopen hr
  refine ⟨h, t, hopen, fun hd => ?_⟩
  have S₀ : SameVolume s { s with errno := 0 } := ⟨rfl, rfl, rfl, rfl, rfl, rfl, rfl, rfl, rfl, rfl, rfl⟩
  obtain ⟨S₁, hdisk₁, -⟩ := fatOpen_same (S₀.cached V.first.toCached) V.rootHandle hopen
  obtain ⟨s₂, hseek, hr⟩ := Option.bind_eq_some_iff.mp hr
  rw [fatSeek_start, Option.some.injEq] at hseek
  have S₂ : SameVolume s s₂ := hseek ▸ (S₀.trans S₁).trans (sameVolume_setFile _ _ _)
  have hdisk₂ : s₂.disk = s.disk := by rw [← hseek, disk_setFile, hdisk₁]
  have hfile₂ : s₂.file h = { t.file h with position := 0, currentCluster := (t.file h).firstCluster } := by
    rw [← hseek, file_setFile_self]
  obtain ⟨hc, hfree⟩ := findFreeCluster_range V S₂ hdisk₂
  simp only [hfree] at hr
  generalize (findFreeCluster s₂).1 = c at hc hr
  obtain ⟨S₃, hdisk₃⟩ := updateFat_step V S₂ hdisk₂ c 0xFFFFFFF8
  have hfile₃ : (updateFat s₂ c 0xFFFFFFF8).2.file h = s₂.file h := (updateFat_file V S₂ c 0xFFFFFFF8 h).symm
  generalize (updateFat s₂ c 0xFFFFFFF8).2 = s₃ at S₃ hdisk₃ hfile₃ hr
  have S := (S₂.withTable s₃.table).trans S₃
  obtain ⟨r, happend, hr⟩ := Option.bind_eq_some_iff.mp hr
  obtain rfl : r.2 = s' := Option.some.inj hr
  have N : Faultless s₃.disk := ⟨fun l => (congrFun S.readFails l).trans (V.faultless.readFails l),
    fun l => (congrFun S.writeFails l).trans (V.faultless.writeFails l)⟩
  obtain ⟨A, m, hm, hsector⟩ :=
    fatAppend_entry N (by rw [hfile₃, hfile₂]; exact hd) (by rw [hfile₃, hfile₂]) happend
  have hlba : cluster2Lba s₃ (s₃.file h).firstCluster = cluster2Lba s (t.file h).firstCluster := by
    rw [S.cluster2Lba_eq, hfile₃, hfile₂]
    rfl
  rw [hlba] at hsector
  refine ⟨c, m, hc, ?_, hm, entryAt_eq (length_newEntry _ _) fun j hj => ?_, fun l x hx hl => ?_⟩
  · rw [A.table]
    exact S.trans A
  · rw [hsector, if_pos ⟨rfl, by omega, by omega⟩, Nat.add_sub_cancel_left]
    rfl
  · rw [hsector, if_neg hx, hdisk₃ l x hl]

/-! ## Entries that keep their values -/

theorem Formatted.not_inFirstFat (V : Formatted s)
    (h : s.firstFatSector.toNat + s.bootSector.nbFat.toNat * s.fatSectors.toNat ≤ l.toNat) : ¬ InFirstFat s l := by
  rintro ⟨j, hj, rfl⟩
  have hle : s.fatSectors.toNat ≤ s.bootSector.nbFat.toNat * s.fatSectors.toNat := Nat.le_mul_of_pos_left _ V.nbFat
  have hw := V.noWrap
  rw [fatSector_eq, zero_mul, zero_add, BitVec.toNat_add, BitVec.toNat_ofNat] at h
  omega

/-- The entry of a cluster is in the sectors of the first FAT. -/
theorem Formatted.entry_lt (V : Formatted s) (hc : IsCluster s c) {j : Nat} (hj : j < s.fatType.toNat) :
    (s.fatType.toNat * c.toNat + j) / (8 * 512) < s.fatSectors.toNat := by
  have hfits := V.fits c hc
  rw [mul_add, mul_one] at hfits
  exact Nat.div_lt_of_lt_mul (by omega)

namespace Written

variable (W : Written s s' c l m e)

include W

theorem bit_eq (V : Formatted s) (hc : IsCluster s c') (hl : ¬ InFirstFat s l) {j : Nat} (hj : j < s.fatType.toNat)
    (hw : fatSector s 0 ((s.fatType.toNat * c'.toNat + j) / (8 * 512)) ≠ writtenSector s c) :
    (fatBytes s' 0).bit (s.fatType.toNat * c'.toNat + j) = (fatBytes s 0).bit (s.fatType.toNat * c'.toNat + j) := by
  apply Buffer.bit_congr
  have hin : InFirstFat s (fatSector s 0 ((s.fatType.toNat * c'.toNat + j) / (8 * 512))) :=
    ⟨_, V.entry_lt hc hj, rfl⟩
  generalize s.fatType.toNat * c'.toNat + j = b at hin hw
  have e : fatBytes s' 0 (b / 8) = s'.disk.sector (fatSector s 0 (b / 8 / 512)) (b / 8 % 512) := by
    rw [fatBytes, W.volume.firstFatSector, W.volume.fatSectors]
    rfl
  rw [Nat.div_div_eq_div_mul] at e
  rw [e, W.rest _ _ (fun h => hl (h.1 ▸ hin)) hw, fatBytes, Nat.div_div_eq_div_mul]
  rfl

/-- An entry stays that is in none of the two sectors. -/
theorem fatEntry_eq (V : Formatted s) (hc : IsCluster s c') (hl : ¬ InFirstFat s l)
    (hw : ∀ j < s.fatType.toNat, fatSector s 0 ((s.fatType.toNat * c'.toNat + j) / (8 * 512)) ≠ writtenSector s c) :
    fatEntry s' 0 c' = fatEntry s 0 c' := by
  have ht := V.detected.known
  have htype : s'.fatType = s.fatType := W.volume.fatType
  have hlt := V.toFatVolume.offset_lt V.detected hc
  rw [fatEntry_field (htype ▸ ht) (htype ▸ hlt), fatEntry_field ht hlt, htype]
  congr 1
  apply BitVec.eq_of_getLsbD_eq
  intro j hj
  rw [Buffer.getLsbD_field ht.width_le, Buffer.getLsbD_field ht.width_le]
  by_cases hj : j < s.fatType.toNat
  · rw [W.bit_eq V hc hl hj (hw j hj)]
  · rw [decide_eq_false hj, Bool.false_and, Bool.false_and]

end Written

theorem not_isEnd_zero (fatType : Byte) : ¬ IsEnd fatType 0 := by
  unfold IsEnd
  split <;> decide

/-- A bit of the first FAT that becomes set is one of the entry. -/
theorem Written.bit_set (W : Written s s' c l m e) (hw : ¬ InFirstFat s (writtenSector s c)) {b : Nat}
    (hin : InFirstFat s (fatSector s 0 (b / (8 * 512)))) (h0 : (fatBytes s 0).bit b = false)
    (h1 : (fatBytes s' 0).bit b = true) : fatSector s 0 (b / (8 * 512)) = l ∧ 8 * (32 * m) ≤ b % (8 * 512) ∧
      b % (8 * 512) < 8 * (32 * m + 32) ∧ (Buffer.ofList e).bit (b % (8 * 512) - 8 * (32 * m)) = true := by
  have hbytes : fatBytes s' 0 (b / 8) = s'.disk.sector (fatSector s 0 (b / (8 * 512))) (b / 8 % 512) := by
    rw [fatBytes, W.volume.firstFatSector, W.volume.fatSectors, Nat.div_div_eq_div_mul]
    rfl
  have hplace : fatSector s 0 (b / (8 * 512)) = l ∧ 32 * m ≤ b / 8 % 512 ∧ b / 8 % 512 < 32 * m + 32 := by
    by_contra hne
    have hsame : fatBytes s' 0 (b / 8) = fatBytes s 0 (b / 8) := by
      rw [hbytes, W.rest _ _ hne fun h => hw (h ▸ hin), fatBytes, Nat.div_div_eq_div_mul]
      rfl
    rw [Buffer.bit_congr hsame, h0] at h1
    cases h1
  obtain ⟨hl, hge, hlt⟩ := hplace
  refine ⟨hl, by omega, by omega, ?_⟩
  have hbyte : Buffer.ofList e (b / 8 % 512 - 32 * m) = fatBytes s' 0 (b / 8) := by
    rw [hbytes, hl]
    show e.getD _ 0 = _
    rw [← W.entry, entryAt, Buffer.getD_slice (by omega)]
    exact congrArg (s'.disk.sector l) (by dsimp only; omega)
  rw [Buffer.bit] at h1 ⊢
  rw [show (b % (8 * 512) - 8 * (32 * m)) / 8 = b / 8 % 512 - 32 * m by omega, hbyte,
    show (b % (8 * 512) - 8 * (32 * m)) % 8 = b % 8 by omega]
  exact h1

theorem fatSector_inj (V : Formatted s) {i j : Nat} (hi : i < s.fatSectors.toNat) (hj : j < s.fatSectors.toNat)
    (h : fatSector s 0 i = fatSector s 0 j) : i = j := by
  have e := congrArg (fun l => (l - s.firstFatSector).toNat) h
  rw [fatSector_sub V.toFatArea V.nbFat hi, fatSector_sub V.toFatArea V.nbFat hj] at e
  omega

/-- The bits of the entry of a free cluster. -/
theorem bit_of_free (V : Formatted s) (hc : IsCluster s c') (hfree : fatEntry s 0 c' = 0) {j : Nat}
    (hj : j < s.fatType.toNat) : (fatBytes s 0).bit (s.fatType.toNat * c'.toNat + j) = false := by
  have ht := V.detected.known
  rw [fatEntry_field ht (V.toFatVolume.offset_lt V.detected hc), extend_eq_zero_iff] at hfree
  have hbit := Buffer.getLsbD_field (b := fatBytes s 0) (k := s.fatType.toNat * c'.toNat) (j := j) ht.width_le
  rw [hfree, decide_eq_true hj, Bool.true_and] at hbit
  rw [← hbit]
  exact BitVec.getLsbD_zero

/-- The cluster of an entry is below the end marks. -/
theorem Formatted.width_cases (V : Formatted s) (hc : c = 0 ∨ IsCluster s c) (h32 : s.fatType ≠ 32) :
    s.fatType = 12 ∧ c.toNat + 8 < 2 ^ 12 ∨ s.fatType = 16 ∧ c.toNat + 8 < 2 ^ 16 := by
  have hle : c.toNat < s.totalClusters.toNat + 2 := by
    rcases hc with rfl | hc
    · exact Nat.succ_pos _
    · exact hc.2
  obtain ⟨h, hsmall⟩ | h | h := V.detected
  · have hsmall : s.totalClusters.toNat < 4085 := hsmall
    exact .inl ⟨h, by omega⟩
  · have := V.fat16 h
    exact .inr ⟨h, by omega⟩
  · exact absurd h h32

/-- An entry that is written over free clusters marks none of them. -/
theorem Written.not_isEnd (W : Written s s' c l m (newEntry n.text c)) (V : Formatted s) (hc : c = 0 ∨ IsCluster s c)
    (h32 : s.fatType ≠ 32) (hw : ¬ InFirstFat s (writtenSector s c)) (hn : ∀ b ∈ n.text, b < 0xF8)
    (hc' : IsCluster s c') (hfree : fatEntry s 0 c' = 0) : ¬ IsEnd s.fatType (fatEntry s' 0 c') := by
  intro hend
  have ht := V.detected.known
  have htype : s'.fatType = s.fatType := W.volume.fatType
  have hlt := V.toFatVolume.offset_lt V.detected hc'
  rw [fatEntry_field (htype ▸ ht) (htype ▸ hlt), htype] at hend
  have hwidth := V.width_cases hc h32
  have h1 : ∀ j, 3 ≤ j → j < s.fatType.toNat → (fatBytes s' 0).bit (s.fatType.toNat * c'.toNat + j) = true :=
    fun j h3 hj => bit_of_isEnd (hwidth.imp And.left And.left) hend h3 hj
  have hset := fun j h3 hj => W.bit_set hw ⟨_, V.entry_lt hc' hj, rfl⟩ (bit_of_free V hc' hfree hj) (h1 j h3 hj)
  -- all of them are in one sector
  have h3 : 3 < s.fatType.toNat := by
    rcases hwidth with ⟨h, -⟩ | ⟨h, -⟩ <;> rw [h] <;> decide
  have hsame : ∀ j, 3 ≤ j → j < s.fatType.toNat →
      (s.fatType.toNat * c'.toNat + j) / (8 * 512) = (s.fatType.toNat * c'.toNat + 3) / (8 * 512) := fun j hj3 hj =>
    fatSector_inj V (V.entry_lt hc' hj) (V.entry_lt hc' h3) ((hset j hj3 hj).1.trans (hset 3 (le_refl 3) h3).1.symm)
  obtain ⟨-, hge, -, -⟩ := hset 3 (le_refl 3) h3
  have hwr : ∃ r, (s.fatType.toNat * c'.toNat) % 8 = r ∧
      (s.fatType.toNat = 12 ∧ (r = 0 ∨ r = 4) ∨ s.fatType.toNat = 16 ∧ r = 0) := by
    rcases hwidth with ⟨h, -⟩ | ⟨h, -⟩
    · have h12 : s.fatType.toNat = 12 := by rw [h]; rfl
      rw [h12]
      exact ⟨_, rfl, .inl ⟨rfl, by omega⟩⟩
    · have h16 : s.fatType.toNat = 16 := by rw [h]; rfl
      rw [h16]
      exact ⟨_, rfl, .inr ⟨rfl, by omega⟩⟩
  obtain ⟨r, hr, hwr⟩ := hwr
  have hc8 : c.toNat + 8 < 2 ^ s.fatType.toNat := by
    rcases hwidth with ⟨h, hlt⟩ | ⟨h, hlt⟩ <;> rw [h] <;> exact hlt
  refine newEntry_no_mark hn hwr hc8 (o := (s.fatType.toNat * c'.toNat - (s.fatType.toNat * c'.toNat + 3) /
    (8 * 512) * (8 * 512) - 8 * (32 * m)) / 8) fun j hj3 hj => ?_
  have hbit := (hset j hj3 hj).2.2.2
  have hs := hsame j hj3 hj
  have hr4 : r % 4 = 0 := by omega
  generalize s.fatType.toNat * c'.toNat = k at hr hs hge hbit ⊢
  rwa [show 8 * ((k - (k + 3) / (8 * 512) * (8 * 512) - 8 * (32 * m)) / 8) + (r + j) =
    (k + j) % (8 * 512) - 8 * (32 * m) by omega]

end

end AlexOS.Fat
