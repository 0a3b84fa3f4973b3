import AlexOS.Fat.Volume

/-!
# Reading

What `FAT_read` copies is a function of the bytes of the clusters, of the
cluster that follows each, and of the cursor of the file (`readChain`,
`fatRead_eq`). A read leaves the disk alone, and the other files; of its own
file it changes the cursor and the buffer (`Reads`).
-/

namespace AlexOS.Fat

/-- How far a read is, and the cursor of the file. -/
structure Progress where
  nbRead : Word
  out : List Byte
  position : Word
  currentCluster : Word

/-- The loop of `FAT_read`, on clusters with these contents and successors. -/
def readChain (content : Word → Buffer) (next : Word → Word) : Nat → Word → Word → Progress → Progress
  | 0, _, _, p => p
  | n + 1, count, offset, p =>
    if count > 0 ∧ p.currentCluster < 0xFFFFFFF8 then
      let nbToRead := if count + offset < 512 then count + offset else 512
      let nbRead := nbToRead - offset
      readChain content next n (count - nbRead) 0
        { nbRead := nbRead
          out := p.out ++ (content p.currentCluster).slice offset.toNat nbRead.toNat
          position := p.position + nbRead
          currentCluster := if nbToRead ≥ 512 then next p.currentCluster else p.currentCluster }
    else p

/-- The bytes of a cluster. -/
def clusterBytes (s : Driver) (c : Word) : Buffer := s.disk.sector (cluster2Lba s c)

/-- What a read of file `h` does: nothing but to move its cursor, and to use its buffer. -/
structure Reads (h : Int) (s s' : Driver) : Prop where
  disk : s'.disk = s.disk
  other : ∀ k, k ≠ h → s'.file k = s.file k
  firstCluster : (s'.file h).firstCluster = (s.file h).firstCluster
  size : (s'.file h).size = (s.file h).size
  isDir : (s'.file h).isDir = (s.file h).isDir
  isOpen : (s'.file h).isOpen = (s.file h).isOpen
  handle : (s'.file h).handle = (s.file h).handle

/-- The bytes that a read asks for, within the size of a file that is not a directory. -/
def clamp (f : File) (count : Word) : Word :=
  if f.isDir then count
  else if count < f.size - f.position then count else f.size - f.position

section

variable {s s' s'' : Driver} {h k : Int} {f g : File} {count offset nbRead : Word} {n : Nat}
  {out : List Byte}

theorem file_setFile_of_ne (hne : k ≠ h) : (s.setFile h f).file k = s.file k := by
  by_cases hh : h = ROOT_DIR_HANDLE
  · rw [Driver.setFile, if_pos hh, Driver.file, Driver.file, if_neg (hh ▸ hne), if_neg (hh ▸ hne)]
  · rw [Driver.setFile, if_neg hh, Driver.file, Driver.file]
    split
    · rfl
    · exact if_neg fun e => hne (by omega)

@[simp] theorem setFile_setFile : (s.setFile h f).setFile h g = s.setFile h g := by
  rw [Driver.setFile, Driver.setFile, Driver.setFile]
  split
  · rfl
  · congr 1
    funext i
    split
    · rfl
    · rename_i hi
      exact if_neg hi

@[simp] theorem setFile_file : s.setFile h (s.file h) = s := by
  rw [Driver.setFile, Driver.file]
  split
  · rfl
  · have e : (fun i => if i = h - 3 then s.openedFiles (h - 3) else s.openedFiles i) = s.openedFiles := by
      funext i
      split
      · rename_i e
        rw [e]
      · rfl
    rw [e]

namespace Reads

theorem refl (h : Int) (s : Driver) : Reads h s s := ⟨rfl, fun _ _ => rfl, rfl, rfl, rfl, rfl, rfl⟩

theorem trans (r₁ : Reads h s s') (r₂ : Reads h s' s'') : Reads h s s'' where
  disk := r₂.disk.trans r₁.disk
  other k hk := (r₂.other k hk).trans (r₁.other k hk)
  firstCluster := r₂.firstCluster.trans r₁.firstCluster
  size := r₂.size.trans r₁.size
  isDir := r₂.isDir.trans r₁.isDir
  isOpen := r₂.isOpen.trans r₁.isOpen
  handle := r₂.handle.trans r₁.handle

/-- A file is open after a read if it was before. -/
theorem isOpen_eq (r : Reads h s s') (k : Int) : (s'.file k).isOpen = (s.file k).isOpen := by
  by_cases hk : k = h
  · rw [hk, r.isOpen]
  · rw [r.other k hk]

end Reads

theorem reads_setFile (p c : Word) (b : Buffer) :
    Reads h s (s.setFile h { s.file h with position := p, currentCluster := c, buffer := b }) :=
  ⟨disk_setFile _ _ _, fun _ hk => file_setFile_of_ne hk, by simp, by simp, by simp, by simp, by simp⟩

/-- Lookups change the cached sector only. -/
theorem loadEntry_reads (h : Int) (s : Driver) (e : Word) : Reads h s (loadEntry s e) := by
  simp only [loadEntry]
  split
  · exact ⟨rfl, fun _ _ => rfl, rfl, rfl, rfl, rfl, rfl⟩
  · exact .refl h s

theorem nextCluster_reads (h : Int) (s : Driver) (c : Word) : Reads h s (nextCluster s c).2 := by
  rw [nextCluster]
  split
  · exact .refl h s
  · exact loadEntry_reads h s _

theorem advance_reads (s : Driver) (h : Int) : Reads h s (advance s h) :=
  (nextCluster_reads h s _).trans (reads_setFile _ _ _)

theorem readLoop_reads (h : Int) (n : Nat) (s : Driver) (count offset nbRead : Word) (out : List Byte) :
    Reads h s (readLoop h n s count offset nbRead out).2.2 := by
  induction n generalizing s count offset nbRead out with
  | zero => exact .refl h s
  | succ n ih =>
    simp only [readLoop]
    by_cases hgo : count > 0 ∧ (s.file h).currentCluster < 0xFFFFFFF8
    · rw [if_pos hgo]
      refine Reads.trans ?_ (ih _ _ _ _ _)
      generalize (if count + offset < 512 then count + offset else 512) = nbToRead
      split
      · exact (reads_setFile _ _ _).trans (advance_reads _ h)
      · exact reads_setFile _ _ _
    · rw [if_neg hgo]
      exact .refl h s

theorem fatRead_reads (s : Driver) (h : Int) (count : Word) : Reads h s (fatRead s h count).2.2 :=
  readLoop_reads h _ s _ _ _ _

/-! ## What is read -/

/-- On a disk without faults the buffer holds the sector. -/
theorem slice_read {d : Disk} {lba : Word} (hr : d.readFails lba = false) (b : Buffer) {i m : Nat}
    (hm : i + m ≤ 512) : (d.read lba b).2.slice i m = (d.sector lba).slice i m := by
  apply List.map_congr_left
  intro j hj
  have hj := List.mem_range.mp hj
  rw [Disk.read, hr]
  exact if_pos ⟨Nat.zero_le _, show i + j < 0 + 512 by omega⟩

/-- Where a round ends in the sector. -/
theorem toNat_nbToRead (count offset : Word) (hlt : count.toNat + offset.toNat < 2 ^ 32) :
    (if count + offset < 512 then count + offset else 512).toNat = min (count.toNat + offset.toNat) 512 := by
  have hadd : (count + offset).toNat = count.toNat + offset.toNat := by
    rw [BitVec.toNat_add, Nat.mod_eq_of_lt hlt]
  have h512 : (512 : Word).toNat = 512 := rfl
  split
  · rename_i h
    rw [BitVec.lt_def, hadd, h512] at h
    rw [hadd, Nat.min_eq_left h.le]
  · rename_i h
    rw [BitVec.lt_def, hadd, h512] at h
    rw [h512, Nat.min_eq_right (by omega)]

theorem readLoop_eq (C : Cached s) (hr : ∀ l, s.disk.readFails l = false) (ho : offset.toNat < 512)
    (hc : count.toNat + offset.toNat < 2 ^ 32) :
    ∃ b, readLoop h n s count offset nbRead out =
      let p := readChain (clusterBytes s) (successor s) n count offset
        ⟨nbRead, out, (s.file h).position, (s.file h).currentCluster⟩
      (p.nbRead, p.out, s.setFile h { s.file h with
        position := p.position, currentCluster := p.currentCluster, buffer := b }) := by
  induction n generalizing s count offset nbRead out with
  | zero =>
    refine ⟨(s.file h).buffer, ?_⟩
    show (nbRead, out, s) = (nbRead, out, s.setFile h (s.file h))
    rw [setFile_file]
  | succ n ih =>
    simp only [readLoop, readChain]
    by_cases hgo : count > 0 ∧ (s.file h).currentCluster < 0xFFFFFFF8
    swap
    · rw [if_neg hgo, if_neg hgo]
      refine ⟨(s.file h).buffer, ?_⟩
      show (nbRead, out, s) = (nbRead, out, s.setFile h (s.file h))
      rw [setFile_file]
    rw [if_pos hgo, if_pos hgo]
    -- a round stays within the sector
    have hround := toNat_nbToRead count offset hc
    generalize (if count + offset < 512 then count + offset else 512) = nbToRead at hround ⊢
    have hle : offset.toNat ≤ nbToRead.toNat ∧ nbToRead.toNat ≤ 512 ∧
        nbToRead.toNat ≤ count.toNat + offset.toNat := by omega
    have hsub : (nbToRead - offset).toNat = nbToRead.toNat - offset.toNat :=
      BitVec.toNat_sub_of_le hle.1
    have hleft : (count - (nbToRead - offset)).toNat ≤ count.toNat := by
      rw [BitVec.toNat_sub_of_le (by rw [BitVec.le_def]; omega)]
      omega
    generalize hb : (s.disk.read (cluster2Lba s (s.file h).currentCluster) (s.file h).buffer).2 = b
    have hslice : b.slice offset.toNat (nbToRead - offset).toNat =
        (clusterBytes s (s.file h).currentCluster).slice offset.toNat (nbToRead - offset).toNat := by
      rw [← hb]
      exact slice_read (hr _) _ (by omega)
    generalize hs₁ : s.setFile h { s.file h with
      buffer := b, position := (s.file h).position + (nbToRead - offset) } = s₁
    have S₁ : SameVolume s s₁ := hs₁ ▸ sameVolume_setFile _ _ _
    have C₁ := S₁.cached C
    have hs₂ : (if nbToRead ≥ 512 then advance s₁ h else s₁) = s.setFile h { s.file h with
        buffer := b
        position := (s.file h).position + (nbToRead - offset)
        currentCluster := if nbToRead ≥ 512 then successor s (s.file h).currentCluster
          else (s.file h).currentCluster } := by
      split
      · rw [advance_ok C₁, S₁.successor_eq, ← hs₁, file_setFile_self, setFile_setFile]
      · exact hs₁.symm
    rw [hs₂, hslice]
    generalize (if nbToRead ≥ 512 then successor s (s.file h).currentCluster
      else (s.file h).currentCluster) = cur
    have S₂ := sameVolume_setFile s h { s.file h with
      buffer := b, position := (s.file h).position + (nbToRead - offset), currentCluster := cur }
    have hcontent : clusterBytes (s.setFile h { s.file h with
        buffer := b, position := (s.file h).position + (nbToRead - offset), currentCluster := cur }) =
        clusterBytes s := by
      funext c
      rw [clusterBytes, disk_setFile, S₂.cluster2Lba_eq]
      rfl
    have hread : ∀ l, (s.setFile h { s.file h with
        buffer := b
        position := (s.file h).position + (nbToRead - offset)
        currentCluster := cur }).disk.readFails l = false := by
      rw [disk_setFile]
      exact hr
    have hsum : (count - (nbToRead - offset)).toNat + (0 : Word).toNat < 2 ^ 32 := by
      rw [show (0 : Word).toNat = 0 from rfl]
      omega
    obtain ⟨b', e⟩ := ih (S₂.cached C) hread (by decide) hsum
    refine ⟨b', e.trans ?_⟩
    rw [hcontent, funext S₂.successor_eq]
    simp only [file_setFile_self, setFile_setFile]

/-- What a read returns and copies, and where it leaves the cursor. -/
theorem fatRead_eq (C : Cached s) (hr : ∀ l, s.disk.readFails l = false) (h : Int) (count : Word)
    (hc : (clamp (s.file h) count).toNat + 512 ≤ 2 ^ 32) :
    ∃ b, fatRead s h count =
      let m := clamp (s.file h) count
      let p := readChain (clusterBytes s) (successor s) m.toNat m ((s.file h).position % 512)
        ⟨0, [], (s.file h).position, (s.file h).currentCluster⟩
      (p.nbRead, p.out, s.setFile h { s.file h with
        position := p.position, currentCluster := p.currentCluster, buffer := b }) := by
  have ho : ((s.file h).position % 512).toNat < 512 := by
    rw [BitVec.toNat_umod]
    exact Nat.mod_lt _ (by decide)
  have hlt : (clamp (s.file h) count).toNat + ((s.file h).position % 512).toNat < 2 ^ 32 := by omega
  exact readLoop_eq C hr ho hlt

end

end AlexOS.Fat
