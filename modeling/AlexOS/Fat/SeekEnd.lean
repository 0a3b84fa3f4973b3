import AlexOS.Fat.Cursor

/-!
# Seeking the end

With `SEEK_END`, `FAT_seek` looks for a delimiter in the first sector of a file
and counts the position on from where it was. Where there is none it looks at
the same sector again, and never returns (`seekEnd_never`). So the end is found
if it is in the first cluster, the delimiter in the first sector, and the
position before makes up the difference (`seek_end_iff`).
-/

namespace AlexOS.Fat

/-- The bytes between the places that are looked at. -/
def stride (isDir : Bool) : Nat := if isDir then 32 else 1

/-- What ends a file, or a directory. -/
def IsDelimiter (isDir : Bool) (b : Byte) : Prop := b = 0 ∨ isDir = false ∧ b = EOF

instance (isDir : Bool) (b : Byte) : Decidable (IsDelimiter isDir b) :=
  inferInstanceAs (Decidable (_ ∨ _))

/-- The first delimiter of a sector is at byte `i`. -/
structure FirstDelimiter (isDir : Bool) (buffer : Buffer) (i : Nat) : Prop where
  inside : i < 512
  place : stride isDir ∣ i
  delimiter : IsDelimiter isDir (buffer i)
  first : ∀ j < i, stride isDir ∣ j → ¬ IsDelimiter isDir (buffer j)

def NoDelimiter (isDir : Bool) (buffer : Buffer) : Prop :=
  ∀ j < 512, stride isDir ∣ j → ¬ IsDelimiter isDir (buffer j)

/-- What is read of the first sector of a file. -/
def firstSector (s : Driver) (h : Int) : Buffer :=
  (s.disk.read (cluster2Lba s (s.file h).firstCluster) (s.file h).buffer).2

/-! ## The end -/

/-- `512 * sector_per_cluster`. -/
def clusterSize (s : Driver) : Nat := 512 * s.bootSector.sectorPerCluster.toNat

/-- A volume with any number of sectors to a cluster. -/
structure Clustered (s : Driver) : Prop extends FatVolume s where
  detected : Detected s
  sectorPerCluster : 0 < s.bootSector.sectorPerCluster.toNat

/-- The clusters of a file or a directory, in their order. -/
inductive HasChain (s : Driver) (h : Int) : List Word → Prop
  | /-- A chain of the FAT. -/
    chain (c : Word) (cs : List Word) (first : (s.file h).firstCluster = c) (nodup : (c :: cs).Nodup)
      (cluster : ∀ d ∈ c :: cs, IsCluster s d) (linked : List.IsChain (Linked s) (c :: cs))
      (last : IsEnd s.fatType (fatEntry s 0 ((c :: cs).getLast (List.cons_ne_nil c cs)))) : HasChain s h (c :: cs)
  | /-- A file without clusters. -/
    empty (first : (s.file h).firstCluster = 0) : HasChain s h []
  | /-- The root directory before the clusters, with numbers that go on to theirs. -/
    root (handle : h = ROOT_DIR_HANDLE) (fatType : s.fatType ≠ 32) : HasChain s h
      ((List.range (s.rootDirSectors.toNat / s.bootSector.sectorPerCluster.toNat)).map fun i =>
        (s.file h).firstCluster + BitVec.ofNat 32 i)

/-- An open file or directory that its clusters have room for. -/
structure HasContent (s : Driver) (h : Int) (chain : List Word) : Prop where
  isOpen : (s.file h).isOpen = true
  clusters : HasChain s h chain
  size : (s.file h).isDir = false → (s.file h).size.toNat ≤ clusterSize s * chain.length

/-- The byte at an offset. -/
def chainByte (s : Driver) (chain : List Word) (x : Nat) : Byte :=
  s.disk.sector (cluster2Lba s (chain.getD (x / clusterSize s) 0) + BitVec.ofNat 32 (x % clusterSize s / 512)) (x % 512)

/-- The offset of the first entry of a directory that starts with 0, or that after the last one. -/
def dirEnd (s : Driver) (chain : List Word) : Nat :=
  32 * (List.range (clusterSize s * chain.length / 32)).findIdx fun k => chainByte s chain (32 * k) = 0

/-- Where a file or a directory ends. -/
def endOf (s : Driver) (h : Int) (chain : List Word) : Nat :=
  if (s.file h).isDir then dirEnd s chain else (s.file h).size.toNat

/-- The cluster of an offset. At the end of the last cluster that is none of them. -/
def ClusterAt (s : Driver) (chain : List Word) (x : Nat) (c : Word) : Prop :=
  chain[x / clusterSize s]? = some c ∨ chain.length ≤ x / clusterSize s ∧ c ∉ chain

/-- The end is found. -/
def EndFound (s : Driver) (h : Int) (chain : List Word) (offset : Word) : Prop :=
  ∃ fuel s', fatSeek fuel s h offset .end = some s' ∧ (s'.file h).position.toNat = endOf s h chain ∧
    ((s.file h).isDir = false → (s'.file h).size = (s.file h).size) ∧
      ClusterAt s chain (endOf s h chain) (s'.file h).currentCluster

section

variable {s s' : Driver} {h : Int} {isDir : Bool} {buffer : Buffer} {p offset : Word} {i n x : Nat} {chain : List Word}

/-! ## A sector -/

theorem stride_pos (isDir : Bool) : 0 < stride isDir := by
  cases isDir <;> decide

theorem scanSector_succ (isDir : Bool) (buffer : Buffer) (n i : Nat) (p : Word) :
    scanSector isDir buffer (n + 1) i p =
      if i < 512 then
        if IsDelimiter isDir (buffer i) then .error p
        else scanSector isDir buffer n (i + stride isDir) (p + BitVec.ofNat 32 (stride isDir))
      else .ok p := by
  conv_lhs => unfold scanSector
  cases isDir with
  | true => simp [IsDelimiter, stride, sizeofDirEntry]
  | false => simp [IsDelimiter, stride, or_comm]

/-- From place `i` on, the first delimiter is found, or the sector has none. -/
theorem scanSector_cases (n : Nat) (hi : stride isDir ∣ i) (hn : 512 ≤ i + n) (p : Word) :
    (∃ k, i ≤ k ∧ k < 512 ∧ stride isDir ∣ k ∧ IsDelimiter isDir (buffer k) ∧
        (∀ j, i ≤ j → j < k → stride isDir ∣ j → ¬ IsDelimiter isDir (buffer j)) ∧
          scanSector isDir buffer n i p = .error (p + BitVec.ofNat 32 (k - i))) ∨
      (∀ j, i ≤ j → j < 512 → stride isDir ∣ j → ¬ IsDelimiter isDir (buffer j)) ∧
        ∃ q, scanSector isDir buffer n i p = .ok q := by
  induction n generalizing i p with
  | zero => exact .inr ⟨fun j h1 h2 => absurd h2 (by omega), p, rfl⟩
  | succ n ih =>
    have hpos := stride_pos isDir
    rw [scanSector_succ]
    by_cases h512 : i < 512
    swap
    · rw [if_neg h512]
      exact .inr ⟨fun j h1 h2 => absurd h2 (by omega), p, rfl⟩
    rw [if_pos h512]
    by_cases hd : IsDelimiter isDir (buffer i)
    · rw [if_pos hd]
      exact .inl ⟨i, le_refl i, h512, hi, hd, fun j h1 h2 => absurd h2 (by omega), by simp⟩
    rw [if_neg hd]
    -- the next place is a stride away
    have hnext : ∀ j, i ≤ j → stride isDir ∣ j → j = i ∨ i + stride isDir ≤ j := fun j hij hj => by
      rcases Nat.eq_or_lt_of_le hij with e | hlt
      · exact .inl e.symm
      · have := Nat.le_of_dvd (by omega) (Nat.dvd_sub hj hi)
        exact .inr (by omega)
    rcases ih (Nat.dvd_add hi (dvd_refl _)) (by omega) (p + BitVec.ofNat 32 (stride isDir)) with
      ⟨k, h1, h2, hk, hdk, hfirst, e⟩ | ⟨hno, q, e⟩
    · refine .inl ⟨k, by omega, h2, hk, hdk, fun j hij hjk hj => ?_, ?_⟩
      · rcases hnext j hij hj with rfl | hle
        · exact hd
        · exact hfirst j hle hjk hj
      · rw [e, add_assoc, ← BitVec.ofNat_add, show stride isDir + (k - (i + stride isDir)) = k - i by omega]
    · refine .inr ⟨fun j hij hj512 hj => ?_, q, e⟩
      rcases hnext j hij hj with rfl | hle
      · exact hd
      · exact hno j hle hj512 hj

theorem delimiter_cases (isDir : Bool) (buffer : Buffer) :
    (∃ i, FirstDelimiter isDir buffer i) ∨ NoDelimiter isDir buffer := by
  rcases @scanSector_cases isDir buffer 0 512 (dvd_zero _) (le_refl _) 0 with
    ⟨k, -, h2, hk, hd, hfirst, -⟩ | ⟨hno, -⟩
  · exact .inl ⟨k, h2, hk, hd, fun j hj => hfirst j (Nat.zero_le j) hj⟩
  · exact .inr fun j hj => hno j (Nat.zero_le j) hj

/-! ## The loop -/

/-- What the loop reads of the current cluster. -/
def headBuffer (s : Driver) (h : Int) : Buffer :=
  (s.disk.read (cluster2Lba s (s.file h).currentCluster) (s.file h).buffer).2

theorem seekEnd_found (hlive : (s.file h).currentCluster < 0xFFFFFFF8)
    (hd : FirstDelimiter (s.file h).isDir (headBuffer s h) i) (n : Nat) : seekEnd h (n + 1) s = some (true,
      s.setFile h { s.file h with
        buffer := headBuffer s h
        position := (s.file h).position + BitVec.ofNat 32 i
        size := (s.file h).position + BitVec.ofNat 32 i }) := by
  have hscan : scanSector (s.file h).isDir (headBuffer s h) 512 0 (s.file h).position =
      .error ((s.file h).position + BitVec.ofNat 32 i) := by
    rcases @scanSector_cases _ (headBuffer s h) 0 512 (dvd_zero (stride (s.file h).isDir)) (le_refl _)
      (s.file h).position with ⟨k, -, h2, hk, hdk, hfirst, e⟩ | ⟨hno, -⟩
    · have hki : k = i := by
        rcases Nat.lt_trichotomy k i with hlt | heq | hgt
        · exact absurd hdk (hd.first k hlt hk)
        · exact heq
        · exact absurd hd.delimiter (hfirst i (Nat.zero_le i) hgt hd.place)
      rw [e, Nat.sub_zero, hki]
    · exact absurd hd.delimiter (hno i (Nat.zero_le i) hd.inside hd.place)
  unfold seekEnd
  unfold headBuffer at hscan ⊢
  simp only [if_pos hlive, hscan]

/-- The rounds that find none look at the same sector, of which there is no end. -/
theorem seekEnd_never (hlive : (s.file h).currentCluster < 0xFFFFFFF8)
    (hno : NoDelimiter (s.file h).isDir (headBuffer s h)) (n : Nat) : seekEnd h n s = none := by
  induction n generalizing s with
  | zero => rfl
  | succ n ih =>
    rcases @scanSector_cases _ (headBuffer s h) 0 512 (dvd_zero (stride (s.file h).isDir)) (le_refl _)
      (s.file h).position with ⟨k, -, h2, hk, hdk, -⟩ | ⟨-, q, e⟩
    · exact absurd hdk (hno k h2 hk)
    unfold seekEnd
    unfold headBuffer at e hno
    simp only [if_pos hlive, e]
    have S := sameVolume_setFile s h { s.file h with
      buffer := (s.disk.read (cluster2Lba s (s.file h).currentCluster) (s.file h).buffer).2, position := q }
    apply ih
    · rw [file_setFile_self]
      exact hlive
    · unfold headBuffer
      rw [S.cluster2Lba_eq, disk_setFile, file_setFile_self]
      dsimp only
      rw [read_read]
      exact hno

theorem seekEnd_of_mark (hend : ¬ (s.file h).currentCluster < 0xFFFFFFF8) (n : Nat) :
    seekEnd h (n + 1) s = some (false, s) := by
  unfold seekEnd
  simp only [if_neg hend]

theorem seekLoop_of_mark (hend : ¬ (s.file h).currentCluster < 0xFFFFFFF8) (n : Nat) (offset : Word) :
    seekLoop h n s offset = s := by
  cases n with
  | zero => rfl
  | succ n =>
    unfold seekLoop
    exact if_neg fun hgo => hend hgo.2

/-! ## The call -/

/-- The file at its first cluster. -/
def atStart (s : Driver) (h : Int) : Driver := s.setFile h { s.file h with currentCluster := (s.file h).firstCluster }

@[simp] theorem file_atStart (s : Driver) (h : Int) :
    (atStart s h).file h = { s.file h with currentCluster := (s.file h).firstCluster } :=
  file_setFile_self

theorem headBuffer_atStart (s : Driver) (h : Int) : headBuffer (atStart s h) h = firstSector s h := by
  unfold headBuffer firstSector atStart
  rw [(sameVolume_setFile s h _).cluster2Lba_eq, disk_setFile, file_setFile_self]

theorem fatSeek_end_eq (s : Driver) (h : Int) (offset : Word) (n : Nat) : fatSeek n s h offset .end =
    (seekEnd h n (atStart s h)).bind fun r => if r.1 then some r.2 else some (seekFrom r.2 h offset) := rfl

theorem fatSeek_found (hlive : (s.file h).firstCluster < 0xFFFFFFF8)
    (hd : FirstDelimiter (s.file h).isDir (firstSector s h) i) (offset : Word) (n : Nat) :
    fatSeek (n + 1) s h offset .end = some (s.setFile h { s.file h with
      currentCluster := (s.file h).firstCluster
      buffer := firstSector s h
      position := (s.file h).position + BitVec.ofNat 32 i
      size := (s.file h).position + BitVec.ofNat 32 i }) := by
  rw [fatSeek_end_eq, seekEnd_found (by simpa using hlive) (by simpa [headBuffer_atStart] using hd) n,
    headBuffer_atStart, file_atStart]
  unfold atStart
  simp only [Option.bind_some, if_true, setFile_setFile]

theorem fatSeek_never (hlive : (s.file h).firstCluster < 0xFFFFFFF8)
    (hno : NoDelimiter (s.file h).isDir (firstSector s h)) (offset : Word) (n : Nat) :
    fatSeek n s h offset .end = none := by
  rw [fatSeek_end_eq, seekEnd_never (by simpa using hlive) (by simpa [headBuffer_atStart] using hno)]
  rfl

theorem fatSeek_of_mark (hend : ¬ (s.file h).firstCluster < 0xFFFFFFF8) (offset : Word) (n : Nat) :
    fatSeek (n + 1) s h offset .end = some (atStart s h) := by
  rw [fatSeek_end_eq, seekEnd_of_mark (by simpa using hend)]
  simp only [Option.bind_some, Bool.false_eq_true, if_false]
  unfold seekFrom
  dsimp only
  rw [seekLoop_of_mark (by simpa using hend), file_atStart]
  unfold atStart
  rw [setFile_setFile]

/-! ## The end of the clusters -/

theorem HasChain.head (H : HasChain s h chain) :
    chain = [] ∨ ∃ cs, chain = (s.file h).firstCluster :: cs ∧ chain.Nodup := by
  cases H with
  | chain c cs first nodup _ _ _ => exact .inr ⟨cs, by rw [first], nodup⟩
  | empty _ => exact .inl rfl
  | root _ _ =>
    generalize hn : s.rootDirSectors.toNat / s.bootSector.sectorPerCluster.toNat = n
    have hle : n ≤ s.rootDirSectors.toNat := hn ▸ Nat.div_le_self _ _
    have hlt := s.rootDirSectors.isLt
    cases n with
    | zero => exact .inl rfl
    | succ n =>
      refine .inr ⟨(List.range n).map fun i => (s.file h).firstCluster + BitVec.ofNat 32 (i + 1), ?_, ?_⟩
      · rw [List.range_succ_eq_map, List.map_cons, List.map_map]
        simp
      · refine List.Nodup.map_on (fun i hi j hj e => ?_) List.nodup_range
        have hi := List.mem_range.mp hi
        have hj := List.mem_range.mp hj
        have e := congrArg BitVec.toNat (add_left_cancel e)
        rwa [BitVec.toNat_ofNat, BitVec.toNat_ofNat, Nat.mod_eq_of_lt (by omega), Nat.mod_eq_of_lt (by omega)] at e

theorem dirEnd_le (s : Driver) (chain : List Word) : dirEnd s chain ≤ clusterSize s * chain.length := by
  have h : (List.range (clusterSize s * chain.length / 32)).findIdx (fun k => chainByte s chain (32 * k) = 0) ≤
      (List.range (clusterSize s * chain.length / 32)).length := List.findIdx_le_length
  rw [List.length_range] at h
  unfold dirEnd
  omega

theorem HasContent.endOf_le (O : HasContent s h chain) : endOf s h chain ≤ clusterSize s * chain.length := by
  unfold endOf
  split
  · exact dirEnd_le s chain
  · rename_i hd
    exact O.size (Bool.eq_false_iff.mpr hd)

/-- The first cluster is that of the offsets inside it. -/
theorem clusterAt_first (V : Clustered s) (H : HasChain s h chain) (hx : x ≤ clusterSize s * chain.length) :
    ClusterAt s chain x (s.file h).firstCluster ↔ x < clusterSize s := by
  have hpos : 0 < clusterSize s := Nat.mul_pos (by decide) V.sectorPerCluster
  unfold ClusterAt
  rw [← Nat.div_eq_zero_iff_lt hpos]
  rcases H.head with rfl | ⟨cs, rfl, hnodup⟩
  · have h0 : x = 0 := by simpa using hx
    simp [h0]
  · generalize x / clusterSize s = q
    cases q with
    | zero => simp
    | succ q =>
      have hnot : (s.file h).firstCluster ∉ cs := (List.nodup_cons.mp hnodup).1
      have hne : cs[q]? ≠ some (s.file h).firstCluster := fun e => hnot (List.mem_of_getElem? e)
      simp [hne]

/-- The delimiter is in the first sector, and the end as far from the position before, in the first cluster. -/
theorem seek_end_iff (V : Clustered s) (O : HasContent s h chain) (offset : Word) :
    EndFound s h chain offset ↔ endOf s h chain < clusterSize s ∧
      (if (s.file h).firstCluster < 0xFFFFFFF8 then ∃ i, FirstDelimiter (s.file h).isDir (firstSector s h) i ∧
        ((s.file h).position + BitVec.ofNat 32 i).toNat = endOf s h chain
      else (s.file h).position.toNat = endOf s h chain) := by
  have hcl := clusterAt_first V O.clusters O.endOf_le
  have hsize : (s.file h).isDir = false → endOf s h chain = (s.file h).size.toNat := fun hd => by
    rw [endOf, hd, if_neg Bool.false_ne_true]
  have hzero : fatSeek 0 s h offset .end = none := rfl
  by_cases hlive : (s.file h).firstCluster < 0xFFFFFFF8
  · rw [if_pos hlive]
    constructor
    · rintro ⟨fuel, s', hs, hpos, -, hat⟩
      cases fuel with
      | zero => rw [hzero] at hs; cases hs
      | succ n =>
        rcases delimiter_cases (s.file h).isDir (firstSector s h) with ⟨i, hi⟩ | hno
        · rw [fatSeek_found hlive hi] at hs
          cases hs
          rw [file_setFile_self] at hpos hat
          exact ⟨hcl.mp hat, i, hi, hpos⟩
        · rw [fatSeek_never hlive hno] at hs
          cases hs
    · rintro ⟨hlt, i, hi, hpos⟩
      refine ⟨1, _, fatSeek_found hlive hi offset 0, ?_, fun hd => ?_, ?_⟩
      · rw [file_setFile_self]
        exact hpos
      · rw [file_setFile_self]
        exact BitVec.eq_of_toNat_eq (hpos.trans (hsize hd))
      · rw [file_setFile_self]
        exact hcl.mpr hlt
  · rw [if_neg hlive]
    constructor
    · rintro ⟨fuel, s', hs, hpos, -, hat⟩
      cases fuel with
      | zero => rw [hzero] at hs; cases hs
      | succ n =>
        rw [fatSeek_of_mark hlive] at hs
        cases hs
        rw [file_atStart] at hpos hat
        exact ⟨hcl.mp hat, hpos⟩
    · rintro ⟨hlt, hpos⟩
      refine ⟨1, _, fatSeek_of_mark hlive offset 0, ?_, fun _ => ?_, ?_⟩
      all_goals rw [file_atStart]
      · exact hpos
      · exact hcl.mpr hlt

/-! ## The files of a volume -/

theorem clustered_someFat : Clustered someFat where
  toFatVolume := ⟨rfl, by decide, by decide⟩
  detected := .inl ⟨rfl, by decide⟩
  sectorPerCluster := by decide

theorem hasContent_root : HasContent someFat ROOT_DIR_HANDLE [1] :=
  ⟨rfl, .root rfl (by decide), fun h => absurd h (by decide)⟩

/-- The root directory has two entries. -/
theorem seek_end_someFat : EndFound someFat ROOT_DIR_HANDLE [1] 0 :=
  (seek_end_iff clustered_someFat hasContent_root 0).mpr ⟨by decide, 64,
    ⟨by decide, by decide, by decide, by decide⟩, by decide⟩

theorem clustered_longFat : Clustered longFat where
  toFatVolume := readable_longFat.toFatVolume
  detected := readable_longFat.detected
  sectorPerCluster := by decide

theorem hasContent_longFat : HasContent longFat 4 [4, 5] :=
  ⟨rfl, .chain 4 [5] rfl (by decide) (by
      intro d hd
      rcases List.mem_pair.mp hd with rfl | rfl
      · exact ⟨by decide, by decide⟩
      · exact ⟨by decide, by decide⟩)
    (.cons_cons ⟨by decide, by decide, by decide⟩ (.singleton 5)) (by decide),
    fun _ => by decide⟩

/-- File `B` of 600 bytes has a zero at its start: the end is found there, and the size set to 0. -/
theorem seek_not_end : ¬ ∀ (s : Driver) (h : Int) (chain : List Word) (offset : Word), Clustered s →
    HasContent s h chain → EndFound s h chain offset := by
  intro H
  obtain ⟨fuel, s', hs, hpos, -⟩ := H longFat 4 [4, 5] 0 clustered_longFat hasContent_longFat
  cases fuel with
  | zero => cases hs
  | succ n =>
    have hlive : (longFat.file 4).firstCluster < 0xFFFFFFF8 := by decide
    have hfirst : FirstDelimiter (longFat.file 4).isDir (firstSector longFat 4) 0 :=
      ⟨by decide, dvd_zero _, by decide, fun j hj => absurd hj (Nat.not_lt_zero j)⟩
    rw [fatSeek_found hlive hfirst] at hs
    cases hs
    rw [file_setFile_self] at hpos
    exact absurd hpos (by decide)

end

end AlexOS.Fat
