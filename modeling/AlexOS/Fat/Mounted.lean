import AlexOS.Fat.Handles

/-!
# What every call keeps

The first sector of the FAT is the only one that is ever in the cache: the
sector numbers that `next_cluster`, `update_fat` and `find_free_cluster` pass to
`read_fat` are multiples of 512, cut to 8 bits. So once it is there, it is there
after every call (`Stable`). A call that looks up entries but updates none
leaves the cache and the figures of the volume as they are (`SameVolume`).
-/

namespace AlexOS.Fat

/-- What every call keeps. -/
structure Stable (s s' : Driver) : Prop where
  cached : Cached s → Cached s'
  readFails : s'.disk.readFails = s.disk.readFails
  rootHandle : s'.rootDir.handle = s.rootDir.handle

section

variable {s s' t : Driver} {h dir handle : Int} {f : File} {c v : Word} {fuel n : Nat} {name path : List Byte}

namespace Stable

theorem refl (s : Driver) : Stable s s := ⟨id, rfl, rfl⟩

theorem trans (h₁ : Stable s s') (h₂ : Stable s' t) : Stable s t :=
  ⟨fun C => h₂.cached (h₁.cached C), h₂.readFails.trans h₁.readFails, h₂.rootHandle.trans h₁.rootHandle⟩

theorem setFile (hf : f.handle = (s.file h).handle) : Stable s (s.setFile h f) := by
  refine ⟨(sameVolume_setFile s h f).cached, by rw [disk_setFile], ?_⟩
  rw [Driver.setFile]
  split
  · rename_i e
    rw [e, file_root] at hf
    exact hf
  · rfl

/-- A file moves its cursor. -/
theorem cursor (p z c : Word) (b : Buffer) : Stable s (s.setFile h { s.file h with
    position := p, size := z, currentCluster := c, buffer := b }) :=
  setFile rfl

theorem write (s : Driver) (l : Word) (data : Buffer) :
    Stable s { s with disk := (s.disk.write l data).2 } :=
  ⟨fun C => ⟨C.bytesPerSector, C.fatOffset⟩, Disk.readFails_write _ _ _, rfl⟩

end Stable

/-! ## The FAT -/

theorem nextCluster_stable (s : Driver) (c : Word) : Stable s (nextCluster s c).2 := by
  refine ⟨fun C => by rwa [nextCluster_ok C], ?_, ?_⟩
  · rw [(nextCluster_reads ROOT_DIR_HANDLE s c).disk]
  · rw [← file_root s, ← file_root (nextCluster s c).2, (nextCluster_reads ROOT_DIR_HANDLE s c).handle]

theorem advance_stable (s : Driver) (h : Int) : Stable s (advance s h) :=
  (nextCluster_stable s _).trans (Stable.cursor _ _ _ _)

theorem readFat_stable (s : Driver) : Stable s (readFat s 0).2 := ⟨fun C => ⟨C.bytesPerSector, rfl⟩, rfl, rfl⟩

/-- Multiples of 512 are cut to 0. -/
theorem setWidth_sub_mod (i : Word) : (i - i % 512).setWidth 8 = (0 : Byte) := by
  apply BitVec.eq_of_toNat_eq
  have e : (i % 512).toNat = i.toNat % 512 := BitVec.toNat_umod
  rw [BitVec.toNat_setWidth, BitVec.toNat_sub_of_le (by rw [BitVec.le_def]; omega), e,
    show (0 : Byte).toNat = 0 from rfl]
  omega

theorem scanClusters_stable (n : Nat) (s : Driver) (i : Word) : Stable s (scanClusters n s i).2 := by
  induction n generalizing s i with
  | zero => exact .refl s
  | succ n ih =>
    simp only [scanClusters, setWidth_sub_mod]
    generalize hs₁ : (if i > s.fatOffset.setWidth 32 * 512 + 512 then (readFat s 0).2 else s) = s₁
    have S₁ : Stable s s₁ := by
      rw [← hs₁]
      split
      · exact readFat_stable s
      · exact .refl s
    have S₂ := S₁.trans (nextCluster_stable s₁ i)
    split
    · exact S₂
    · exact S₂.trans (ih _ _)

theorem findFreeCluster_stable (s : Driver) : Stable s (findFreeCluster s).2 := by
  simp only [findFreeCluster]
  refine Stable.trans ?_ (scanClusters_stable _ _ _)
  split
  · exact readFat_stable s
  · exact .refl s

theorem loadEntry_stable (s : Driver) (e : Word) :
    Stable s (loadEntry s (e % s.bootSector.bytesPerSector.setWidth 32)) := by
  refine ⟨fun C => ?_, ?_, ?_⟩
  · have e' : s.bootSector.bytesPerSector.setWidth 32 = (512 : Word) := by rw [C.bytesPerSector]; rfl
    rwa [e', loadEntry_ok C]
  · rw [(loadEntry_reads ROOT_DIR_HANDLE s _).disk]
  · rw [← file_root s, ← file_root (loadEntry s _), (loadEntry_reads ROOT_DIR_HANDLE s _).handle]

theorem updateFat_stable (s : Driver) (c v : Word) : Stable s (updateFat s c v).2 := by
  rw [updateFat]
  cases entryOffset s.fatType c with
  | none => exact .refl s
  | some fatOffset =>
    have S := loadEntry_stable s fatOffset
    exact ⟨fun C => ⟨(S.cached C).bytesPerSector, (S.cached C).fatOffset⟩,
      (Disk.readFails_write _ _ _).trans S.readFails, S.rootHandle⟩

/-! ## Seeking, and appending -/

theorem seekLoop_stable (h : Int) (n : Nat) (s : Driver) (offset : Word) : Stable s (seekLoop h n s offset) := by
  induction n generalizing s offset with
  | zero => exact .refl s
  | succ n ih =>
    rw [seekLoop]
    split
    · exact (advance_stable s h).trans (ih _ _)
    · exact .refl s

theorem seekFrom_stable (s : Driver) (h : Int) (offset : Word) : Stable s (seekFrom s h offset) :=
  (Stable.cursor _ _ _ _).trans (seekLoop_stable h _ _ _)

theorem seekEnd_stable {r : Bool × Driver} (hr : seekEnd h n s = some r) : Stable s r.2 := by
  induction n generalizing s with
  | zero => cases hr
  | succ n ih =>
    simp only [seekEnd] at hr
    split at hr
    · split at hr
      · cases hr
        exact Stable.cursor _ _ _ _
      · exact (Stable.cursor _ _ _ _).trans (ih hr)
    · cases hr
      exact .refl s

theorem fatSeek_stable {offset : Word} {whence : Seek} (hs : fatSeek fuel s h offset whence = some s') :
    Stable s s' := by
  cases whence with
  | set =>
    cases hs
    exact (Stable.cursor _ _ _ _).trans (seekFrom_stable _ h _)
  | cur =>
    cases hs
    exact (Stable.cursor _ _ _ _).trans (seekFrom_stable _ h _)
  | «end» =>
    obtain ⟨r, hr, hs⟩ := Option.bind_eq_some_iff.mp hs
    have S := (Stable.cursor _ _ _ _).trans (seekEnd_stable hr)
    split at hs
    · cases hs
      exact S
    · cases hs
      exact S.trans (seekFrom_stable _ h _)

theorem nextForAppend_stable (s : Driver) (h : Int) : Stable s (nextForAppend s h) := by
  simp only [nextForAppend]
  split
  · refine (advance_stable s h).trans ((findFreeCluster_stable _).trans ?_)
    exact ((Stable.cursor _ _ _ _).trans (updateFat_stable _ _ _)).trans (updateFat_stable _ _ _)
  · exact advance_stable s h

theorem appendLoop_stable (h : Int) (n : Nat) (s : Driver) (count offset : Word) (input : Buffer)
    (writed : Word) : Stable s (appendLoop h n s count offset input writed).2 := by
  induction n generalizing s count offset input writed with
  | zero => exact .refl s
  | succ n ih =>
    simp only [appendLoop]
    by_cases hc : count > 0
    swap
    · rw [if_neg hc]
      exact .refl s
    rw [if_pos hc]
    generalize (if count < 512 - offset then count else 512 - offset) = toWrite
    generalize (s.disk.read _ _).2.copy _ _ _ = buffer
    refine Stable.trans ?_ (ih _ _ _ _ _)
    have S : Stable s (Driver.setFile { s with disk := (s.disk.write
        (cluster2Lba s (s.file h).currentCluster) buffer).2 } h { s.file h with
          buffer := buffer
          position := (s.file h).position + toWrite
          size := (s.file h).size + toWrite }) := (Stable.write s _ buffer).trans (Stable.cursor _ _ _ _)
    split
    · exact S.trans (nextForAppend_stable _ h)
    · exact S

theorem fatAppend_stable {count : Word} {input : Buffer} {r : Word × Driver}
    (hr : fatAppend fuel s h count input = some r) : Stable s r.2 := by
  obtain ⟨s₁, hs, hr⟩ := Option.bind_eq_some_iff.mp hr
  cases hr
  exact (fatSeek_stable hs).trans (appendLoop_stable h _ _ _ _ _ _)

/-! ## Opening -/

theorem readLoop_same (C : Cached s) (h : Int) (n : Nat) (count offset nbRead : Word) (out : List Byte) :
    SameVolume s (readLoop h n s count offset nbRead out).2.2 := by
  induction n generalizing s count offset nbRead out with
  | zero => exact .refl s
  | succ n ih =>
    simp only [readLoop]
    by_cases hgo : count > 0 ∧ (s.file h).currentCluster < 0xFFFFFFF8
    swap
    · rw [if_neg hgo]
      exact .refl s
    rw [if_pos hgo]
    generalize (if count + offset < 512 then count + offset else 512) = nbToRead
    generalize hs₁ : s.setFile h _ = s₁
    have S₁ : SameVolume s s₁ := hs₁ ▸ sameVolume_setFile _ _ _
    generalize hs₂ : (if nbToRead ≥ 512 then advance s₁ h else s₁) = s₂
    have S₂ : SameVolume s s₂ := by
      rw [← hs₂]
      split
      · exact S₁.trans (advance_same (S₁.cached C) h)
      · exact S₁
    exact S₂.trans (ih (S₂.cached C) _ _ _ _)

theorem findLoop_same {r : Option DirEntry × Driver} (C : Cached s) (hr : findLoop dir name n s = some r) :
    SameVolume s r.2 := by
  induction n generalizing s with
  | zero => cases hr
  | succ n ih =>
    have S : SameVolume s (readNextEntry s dir).2 := readLoop_same C _ _ _ _ _ _
    have hn := ih (S.cached C)
    simp only [findLoop] at hr
    split at hr
    · cases hr
      exact ⟨S.1, S.2, S.3, S.4, S.5, S.6, S.7, S.8, S.9, S.10, S.11⟩
    · split at hr
      · cases hr
        exact S
      · split at hr
        · exact S.trans (hn hr)
        · cases hr
          exact ⟨S.1, S.2, S.3, S.4, S.5, S.6, S.7, S.8, S.9, S.10, S.11⟩

theorem findFile_same {r : Option DirEntry × Driver} (C : Cached s) (hr : findFile fuel s dir name = some r) :
    SameVolume s r.2 := by
  rw [findFile] at hr
  split at hr
  · cases hr
    exact ⟨rfl, rfl, rfl, rfl, rfl, rfl, rfl, rfl, rfl, rfl, rfl⟩
  · exact findLoop_same C hr

theorem openLoop_same (C : Cached s) {ret : Int} (hr : openLoop fuel handle n s dir path = some (ret, s')) :
    SameVolume s s' := by
  induction n generalizing s dir path with
  | zero => cases hr
  | succ n ih =>
    rw [openLoop_succ] at hr
    split at hr
    · cases hr
      exact ⟨rfl, rfl, rfl, rfl, rfl, rfl, rfl, rfl, rfl, rfl, rfl⟩
    obtain ⟨⟨entry, s₁⟩, hfind, hr⟩ := Option.bind_eq_some_iff.mp hr
    have S := findFile_same C hfind
    cases entry with
    | none =>
      cases hr
      exact ⟨S.1, S.2, S.3, S.4, S.5, S.6, S.7, S.8, S.9, S.10, S.11⟩
    | some entry =>
      have S₂ : SameVolume s (setEntryFile s₁ handle entry) := S.trans (sameVolume_setFile s₁ handle _)
      cases hp : strchr path 0x2F with
      | none =>
        simp only [hp] at hr
        cases hr
        exact S₂.trans (sameVolume_setFile _ handle _)
      | some rest =>
        simp only [hp] at hr
        exact S₂.trans (ih (S₂.cached C) hr)

theorem fatOpen_stable (hroot : s.rootDir.handle = ROOT_DIR_HANDLE) {p : Option (List Byte)} {ret : Int}
    (hr : fatOpen fuel s p = some (ret, s')) : Stable s s' := by
  cases p with
  | none =>
    cases hr
    exact ⟨fun C => ⟨C.bytesPerSector, C.fatOffset⟩, rfl, rfl⟩
  | some p =>
    by_cases hp : p = [0x2F]
    · subst hp
      cases hr
      exact ⟨fun C => ⟨C.bytesPerSector, C.fatOffset⟩, rfl, rfl⟩
    · rw [fatOpen_eq hp] at hr
      have o := opens_openStart s
      have hstart : ((openStart s).file ROOT_DIR_HANDLE).handle = ROOT_DIR_HANDLE := by
        rw [file_root, o.rootHandle, hroot]
      obtain ⟨o', -⟩ := openLoop_cases (findFreeHandle_ne_root s) (.inl rfl) hstart hr
      refine ⟨fun C => ?_, by rw [o'.disk, o.disk], o'.rootHandle.trans o.rootHandle⟩
      exact (openLoop_same ((sameVolume_openStart s).cached C) hr).cached
        ((sameVolume_openStart s).cached C)

theorem fatCreateFile_stable (hroot : s.rootDir.handle = ROOT_DIR_HANDLE)
    (hr : fatCreateFile fuel s path = some s') : Stable s s' := by
  have S₀ : Stable s { s with errno := 0 } := ⟨fun C => ⟨C.bytesPerSector, C.fatOffset⟩, rfl, rfl⟩
  obtain ⟨⟨ret, s₁⟩, hopen, hr⟩ := Option.bind_eq_some_iff.mp hr
  obtain ⟨s₂, hseek, hr⟩ := Option.bind_eq_some_iff.mp hr
  obtain ⟨r, happend, hr⟩ := Option.bind_eq_some_iff.mp hr
  cases hr
  have S₁ := S₀.trans (fatOpen_stable (S₀.rootHandle.trans hroot) hopen)
  have S₂ := (S₁.trans (fatSeek_stable hseek)).trans (findFreeCluster_stable s₂)
  exact (S₂.trans (updateFat_stable _ _ _)).trans (fatAppend_stable happend)

end

end AlexOS.Fat
