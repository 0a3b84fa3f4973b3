import AlexOS.Lib.Source
import AlexOS.Stage2.Directory

/-!
# Reads one after the other, in the bootloader

`FAT_Read` takes its bytes from a source, as in the kernel. The sector after
the one that is used up is read at once, and where the chain ends the size of
the file becomes its position, so that there is nothing left. Without disk
errors two reads return the bytes of one, and leave the same state
(`fatRead_split`).
-/

namespace AlexOS.Stage2

/-- A directory that is not counted. -/
def FileData.Unbounded (fd : FileData) : Prop := fd.isDirectory = true ∧ fd.size = 0

instance (fd : FileData) : Decidable fd.Unbounded := inferInstanceAs (Decidable (_ ∧ _))

/-- How many bytes are left of a file. -/
def FileData.left (fd : FileData) : Nat := if fd.Unbounded then 512 else (fd.size - fd.position).toNat

/-- Some bytes of the sector in the buffer. -/
def getBytes (p : Partition) (h : Int) (n : Nat) (s : FatData) : List Byte × FatData :=
  let fd := s.file h
  let t := s.setFile h { fd with position := fd.position + BitVec.ofNat 32 n }
  (fd.buffer.slice (fd.position.toNat % 512) n,
    if fd.position.toNat % 512 + n = 512 then (nextSector (fatNextCluster p) p t h).2 else t)

def source (p : Partition) (h : Int) : Source FatData where
  room s := min (512 - (s.file h).position.toNat % 512) (s.file h).left
  get := getBytes p h

section

variable {p : Partition} {s : FatData} {h : Int} {fd fd' : FileData} {count done : Word} {n : Nat} {out : List Byte}

@[simp] theorem setFile_setFile : (s.setFile h fd).setFile h fd' = s.setFile h fd' := by
  unfold FatData.setFile
  split
  · rfl
  · congr 1
    funext i
    split
    · rfl
    · rename_i hi
      exact if_neg hi

theorem NoFaults.setFile (hf : NoFaults s) (h : Int) (fd : FileData) : NoFaults (s.setFile h fd) := fun n => by
  rw [(sameFigures_setFile s h fd).2.2.2.2.2]
  exact hf n

theorem NoFaults.fatNextCluster (hf : NoFaults s) (c : Word) : NoFaults (fatNextCluster p s c).2 := by
  rw [fatNextCluster_eq]
  unfold loadWindow
  dsimp only
  split
  · rw [fatReadFat_ok hf]
    exact hf.afterRead
  · exact hf

/-! ## The next sector -/

/-- The loop goes on, or the size of the file is its position. -/
theorem nextSector_cases (hf : NoFaults s) (h : Int) :
    NoFaults (nextSector (fatNextCluster p) p s h).2 ∧
      ((nextSector (fatNextCluster p) p s h).2.file h).position = (s.file h).position ∧
      ((nextSector (fatNextCluster p) p s h).2.file h).isDirectory = (s.file h).isDirectory ∧
      ((nextSector (fatNextCluster p) p s h).2.file h).size =
        if (nextSector (fatNextCluster p) p s h).1 then (s.file h).size else (s.file h).position := by
  unfold nextSector
  dsimp only
  split
  · rw [mbrPartitionReadSector_ok (hf 0)]
    exact ⟨hf.afterRead.setFile _ _, by simp, by simp, by simp⟩
  -- the cluster of the sector, and the state in which it is read
  generalize hr : (if (s.file h).currentSectorInCluster + 1 ≥ s.bootSector.sectorsPerCluster.setWidth 32 then
    fatNextCluster p s (s.file h).currentCluster else ((s.file h).currentCluster, s)) = r
  have hf' : NoFaults r.2 := by
    rw [← hr]
    split
    · exact hf.fatNextCluster _
    · exact hf
  split
  · exact ⟨hf'.setFile _ _, by simp, by simp, by simp⟩
  · rw [mbrPartitionReadSector_ok (hf' 0)]
    exact ⟨hf'.afterRead.setFile _ _, by simp, by simp, by simp⟩

/-- Whether the chain of a file ends where the bytes do. -/
def Ends (p : Partition) (h : Int) (n : Nat) (s : FatData) : Prop :=
  (s.file h).position.toNat % 512 + n = 512 ∧ (nextSector (fatNextCluster p) p (s.setFile h { s.file h with
    position := (s.file h).position + BitVec.ofNat 32 n }) h).1 = false

theorem getBytes_file (hf : NoFaults s) (h : Int) (n : Nat) :
    NoFaults (getBytes p h n s).2 ∧
      ((getBytes p h n s).2.file h).position = (s.file h).position + BitVec.ofNat 32 n ∧
      ((getBytes p h n s).2.file h).isDirectory = (s.file h).isDirectory ∧
      (¬ Ends p h n s → ((getBytes p h n s).2.file h).size = (s.file h).size) ∧
      (Ends p h n s → ((getBytes p h n s).2.file h).size = (s.file h).position + BitVec.ofNat 32 n) := by
  obtain ⟨hf', hp, hd, hz⟩ := nextSector_cases (p := p) (hf.setFile h { s.file h with
    position := (s.file h).position + BitVec.ofNat 32 n }) h
  rw [file_setFile] at hp hd hz
  unfold getBytes Ends
  dsimp only
  split
  · rename_i hend
    refine ⟨hf', hp, hd, fun hn => ?_, fun he => ?_⟩
    · rw [hz, if_pos (Bool.not_eq_false _ ▸ fun e => hn ⟨hend, e⟩)]
    · rw [hz, if_neg (Bool.eq_false_iff.mp he.2)]
  · rename_i hend
    refine ⟨hf.setFile _ _, by simp, by simp, fun _ => by simp, fun he => absurd he.1 hend⟩

theorem FileData.left_congr (hs : fd'.size = fd.size) (hd : fd'.isDirectory = fd.isDirectory)
    (hp : fd'.position = fd.position + BitVec.ofNat 32 n) (hle : ¬ fd.Unbounded → n ≤ fd.left) :
    fd'.left = if fd.Unbounded then 512 else fd.left - n := by
  have hu : fd'.Unbounded ↔ fd.Unbounded := by rw [Unbounded, Unbounded, hs, hd]
  unfold left at hle ⊢
  by_cases h : fd.Unbounded
  · rw [if_pos (hu.mpr h), if_pos h]
  · have hle := hle h
    rw [if_neg h] at hle
    rw [if_neg (hu.not.mpr h), if_neg h, if_neg h, hs, hp, toNat_sub_add_ofNat hle]

/-- At the end of the chain nothing is left. -/
theorem FileData.left_end (hs : fd.size = fd.position) (hp : 0 < fd.position.toNat) :
    ¬ fd.Unbounded ∧ fd.left = 0 := by
  have hu : ¬ fd.Unbounded := fun ⟨_, hz⟩ => by
    rw [← hs, hz] at hp
    exact absurd hp (lt_irrefl 0)
  refine ⟨hu, ?_⟩
  unfold left
  rw [if_neg hu, hs, sub_self]
  rfl

theorem length_getBytes (p : Partition) (h : Int) (n : Nat) (s : FatData) : (getBytes p h n s).1.length = n :=
  Buffer.length_slice _ _ _

/-- Inside a sector, a file moves its position only. -/
theorem getBytes_of_lt (hn : (s.file h).position.toNat % 512 + n < 512) :
    (getBytes p h n s).2 = s.setFile h { s.file h with position := (s.file h).position + BitVec.ofNat 32 n } :=
  if_neg hn.ne

theorem source_lawful (p : Partition) (h : Int) : (source p h).Lawful where
  get_add s a b ha hb hle := by
    have hroom : (source p h).room s ≤ 512 - (s.file h).position.toNat % 512 := Nat.min_le_left _ _
    have hlt : (s.file h).position.toNat % 512 + a < 512 := by omega
    have hpos := toNat_add_ofNat_mod (s.file h).position a
    have hmod : ((s.file h).position.toNat + a) % 512 = (s.file h).position.toNat % 512 + a := by omega
    show getBytes p h (a + b) s = Source.andThen (getBytes p h a s) (getBytes p h b)
    unfold Source.andThen
    rw [getBytes_of_lt hlt]
    unfold getBytes
    simp only [file_setFile, setFile_setFile, hpos, hmod, Buffer.slice_append, BitVec.ofNat_add, add_assoc]
  room_get s a ha hlt := by
    have hroom : (source p h).room s ≤ 512 - (s.file h).position.toNat % 512 := Nat.min_le_left _ _
    have hleft : (source p h).room s ≤ (s.file h).left := Nat.min_le_right _ _
    have hlt' : (s.file h).position.toNat % 512 + a < 512 := by omega
    have e : (source p h).room s = min (512 - (s.file h).position.toNat % 512) (s.file h).left := rfl
    have e' : (source p h).room (getBytes p h a s).2 = min (512 - ((getBytes p h a s).2.file h).position.toNat % 512)
      ((getBytes p h a s).2.file h).left := rfl
    show (source p h).room (getBytes p h a s).2 = _
    have hle : ¬ (s.file h).Unbounded → a ≤ (s.file h).left := fun _ => by omega
    have hleft' : FileData.left { s.file h with position := (s.file h).position + BitVec.ofNat 32 a } =
        if (s.file h).Unbounded then 512 else (s.file h).left - a := FileData.left_congr rfl rfl rfl hle
    rw [e', e, getBytes_of_lt hlt', file_setFile, hleft', toNat_add_ofNat_mod]
    split
    · rename_i hu
      rw [show (s.file h).left = 512 from if_pos hu]
      omega
    · omega

/-! ## The loop -/

/-- A round of `FAT_Read` gives bytes of the source; it is the last one if the chain ends there. -/
theorem readLoop_round (hpos : 0 < count.toNat) {t : Nat}
    (ht : min count.toNat (512 - (s.file h).position.toNat % 512) = t) :
    (¬ Ends p h t s → readLoop (fatNextCluster p) p h (n + 1) s count done out =
      readLoop (fatNextCluster p) p h n (getBytes p h t s).2 (count - BitVec.ofNat 32 t) (done + BitVec.ofNat 32 t)
        (out ++ (getBytes p h t s).1)) ∧
    (Ends p h t s → readLoop (fatNextCluster p) p h (n + 1) s count done out =
      (done + BitVec.ofNat 32 t, out ++ (getBytes p h t s).1, (getBytes p h t s).2)) := by
  have hgt : count > 0 := hpos
  have htoNat := toNat_ofNat_of_le (show t ≤ count.toNat by omega)
  have hleft := toNat_leftInBuffer (s.file h).position
  have htake : minWord count (sectorSize - (s.file h).position % sectorSize) = BitVec.ofNat 32 t :=
    BitVec.eq_of_toNat_eq (by rw [toNat_minWord, hleft, htoNat, ht])
  have hend : sectorSize - (s.file h).position % sectorSize = BitVec.ofNat 32 t ↔
      (s.file h).position.toNat % 512 + t = 512 := by
    rw [BitVec.toNat_eq, hleft, htoNat]
    omega
  have hm : ((s.file h).position % sectorSize).toNat = (s.file h).position.toNat % 512 := BitVec.toNat_umod
  rw [readLoop]
  unfold Ends getBytes
  simp only [if_pos hgt, htake, hend, hm, htoNat]
  by_cases hfull : (s.file h).position.toNat % 512 + t = 512
  · simp only [hfull, true_and, if_true]
    constructor
    · intro hgo
      exact if_pos (Bool.eq_true_of_not_eq_false hgo)
    · intro hstop
      exact if_neg (Bool.eq_false_iff.mp hstop)
  · simp only [hfull, false_and, if_false, not_false_eq_true, forall_const, false_implies, and_true]

/-- What is left after a round that is not the last one. -/
theorem left_round (hf : NoFaults s) {t : Nat} (htle : t ≤ count.toNat) (he : ¬ Ends p h t s)
    (hc : ¬ (s.file h).Unbounded → count.toNat ≤ (s.file h).left) :
    ¬ ((getBytes p h t s).2.file h).Unbounded →
      (count - BitVec.ofNat 32 t).toNat ≤ ((getBytes p h t s).2.file h).left := by
  obtain ⟨-, hp', hd', hz, -⟩ := getBytes_file (p := p) hf h t
  have hl' := FileData.left_congr (hz he) hd' hp' fun hu => htle.trans (hc hu)
  intro hu
  unfold FileData.Unbounded at hu
  rw [hz he, hd'] at hu
  have hu : ¬ (s.file h).Unbounded := hu
  have := hc hu
  rw [hl', if_neg hu, toNat_sub_ofNat htle]
  omega

/-- The loop of `FAT_Read` takes its bytes from the source. -/
theorem readLoop_source (hf : NoFaults s) (hn : count.toNat ≤ n)
    (hc : ¬ (s.file h).Unbounded → count.toNat ≤ (s.file h).left)
    (hlt : (s.file h).position.toNat + count.toNat < 2 ^ 32) :
    readLoop (fatNextCluster p) p h n s count done out =
      let r := (source p h).run count.toNat s
      (done + BitVec.ofNat 32 r.1.length, out ++ r.1, r.2) := by
  induction n generalizing s count done out with
  | zero =>
    simp only [Nat.le_zero.mp hn, Source.run_zero, readLoop, List.length_nil, List.append_nil]
    rw [show BitVec.ofNat 32 0 = 0 from rfl, add_zero]
  | succ n ih =>
    rcases Nat.eq_zero_or_pos count.toNat with h0 | hpos
    · have hno : ¬ count > 0 := by
        rw [gt_iff_lt, BitVec.lt_def]
        simp [h0]
      simp only [readLoop, hno, if_false, h0, Source.run_zero, List.length_nil, List.append_nil]
      rw [show BitVec.ofNat 32 0 = 0 from rfl, add_zero]
    generalize ht : min count.toNat (512 - (s.file h).position.toNat % 512) = t
    obtain ⟨hgo, hstop⟩ := readLoop_round hpos ht
    have htle : t ≤ count.toNat := by omega
    have htoNat := toNat_ofNat_of_le htle
    have hrest := toNat_sub_ofNat htle
    have hroom : min count.toNat ((source p h).room s) = t := by
      rw [← ht, show (source p h).room s = min _ (s.file h).left from rfl]
      by_cases hu : (s.file h).Unbounded
      · rw [show (s.file h).left = 512 from if_pos hu]
        omega
      · have := hc hu
        omega
    have hrun : (source p h).run count.toNat s =
        Source.andThen (getBytes p h t s) ((source p h).run (count - BitVec.ofNat 32 t).toNat) := by
      rw [Source.run_of_pos hpos (by omega), hroom, hrest]
      rfl
    obtain ⟨hf', hp', -, -, hz'⟩ := getBytes_file (p := p) hf h t
    by_cases he : Ends p h t s
    · -- the chain ends, and nothing is left
      obtain ⟨-, hl'⟩ := FileData.left_end ((hz' he).trans hp'.symm) (by
        rw [hp', BitVec.toNat_add, htoNat]
        omega)
      have hnone : (source p h).run (count - BitVec.ofNat 32 t).toNat (getBytes p h t s).2 =
          ([], (getBytes p h t s).2) := Source.run_of_room_eq_zero (by
          show min _ ((getBytes p h t s).2.file h).left = 0
          rw [hl', Nat.min_zero]) _
      rw [hstop he, hrun]
      unfold Source.andThen
      dsimp only
      rw [hnone, List.append_nil, length_getBytes]
    · have hlt' : ((getBytes p h t s).2.file h).position.toNat + (count - BitVec.ofNat 32 t).toNat < 2 ^ 32 := by
        rw [hp', BitVec.toNat_add, htoNat]
        omega
      rw [hgo he, ih hf' (by omega) (left_round hf htle he hc) hlt', hrun]
      unfold Source.andThen
      dsimp only
      rw [List.length_append, length_getBytes, BitVec.ofNat_add, add_assoc, List.append_assoc]

/-- No more bytes are taken than are left. -/
theorem run_left (hf : NoFaults s) (hu : ¬ (s.file h).Unbounded) {n : Nat}
    (hn : (s.file h).position.toNat + n < 2 ^ 32) :
    (source p h).run n s = (source p h).run (min n (s.file h).left) s := by
  induction n using Nat.strong_induction_on generalizing s with
  | _ n ih =>
    rcases Nat.eq_zero_or_pos ((source p h).room s) with hr | hr
    · rw [Source.run_of_room_eq_zero hr, Source.run_of_room_eq_zero hr]
    have hroom : (source p h).room s ≤ (s.file h).left := Nat.min_le_right _ _
    rcases Nat.le_total n (s.file h).left with hle | hle
    · rw [Nat.min_eq_left hle]
    generalize ht : (source p h).room s = t at hr hroom
    obtain ⟨hf', hp', hd', hz, hz'⟩ := getBytes_file (p := p) hf h t
    have htoNat : (BitVec.ofNat 32 t).toNat = t := by rw [BitVec.toNat_ofNat, Nat.mod_eq_of_lt (by omega)]
    have hpos : ((getBytes p h t s).2.file h).position.toNat = (s.file h).position.toNat + t := by
      rw [hp', BitVec.toNat_add, htoNat]
      omega
    have hrest : (source p h).run (n - t) (getBytes p h t s).2 =
        (source p h).run ((s.file h).left - t) (getBytes p h t s).2 := by
      by_cases he : Ends p h t s
      · obtain ⟨-, hl⟩ := FileData.left_end ((hz' he).trans hp'.symm) (by omega)
        have hz : (source p h).room (getBytes p h t s).2 = 0 := by
          show min _ ((getBytes p h t s).2.file h).left = 0
          rw [hl, Nat.min_zero]
        rw [Source.run_of_room_eq_zero hz, Source.run_of_room_eq_zero hz]
      · have hl := FileData.left_congr (hz he) hd' hp' fun _ => hroom
        have hu' : ¬ ((getBytes p h t s).2.file h).Unbounded := by
          unfold FileData.Unbounded
          rw [hz he, hd']
          exact hu
        rw [ih _ (by omega) hf' hu' (by omega), hl, if_neg hu, Nat.min_eq_right (by omega)]
    rw [Nat.min_eq_right hle, Source.run_of_le (by omega) (by omega), Source.run_of_le (by omega) (by omega), ht]
    unfold Source.andThen
    exact congrArg (fun r : List Byte × FatData => ((getBytes p h t s).1 ++ r.1, r.2)) hrest

theorem fatRead_source (hf : NoFaults s) (hc : (s.file h).position.toNat + count.toNat < 2 ^ 32) :
    fatRead (fatNextCluster p) p s h count =
      let r := (source p h).run count.toNat s
      (BitVec.ofNat 32 r.1.length, r) := by
  unfold fatRead
  have hcond : (¬ (s.file h).isDirectory = true ∨ (s.file h).isDirectory = true ∧ (s.file h).size ≠ 0) ↔
      ¬ (s.file h).Unbounded := by
    unfold FileData.Unbounded
    tauto
  dsimp only
  simp only [hcond]
  split
  · rename_i hu
    have hm : (minWord count ((s.file h).size - (s.file h).position)).toNat = min count.toNat (s.file h).left := by
      rw [toNat_minWord, show (s.file h).left = _ from if_neg hu]
    rw [readLoop_source hf (le_refl _) (fun _ => by omega) (by omega), hm, ← run_left hf hu hc]
    simp only [zero_add, List.nil_append]
  · rename_i hu
    rw [readLoop_source hf (le_refl _) (fun h => absurd h hu) hc]
    simp only [zero_add, List.nil_append]

/-- Two reads return the bytes of one, and leave the same state. -/
theorem fatRead_split (hf : NoFaults s) (h : Int) (a b : Word)
    (hp : (s.file h).position.toNat + a.toNat + b.toNat < 2 ^ 32) :
    let r := fatRead (fatNextCluster p) p s h a
    let r' := fatRead (fatNextCluster p) p r.2.2 h b
    fatRead (fatNextCluster p) p s h (a + b) = (r.1 + r'.1, r.2.1 ++ r'.2.1, r'.2.2) := by
  intro r r'
  have hsum : (a + b).toNat = a.toNat + b.toNat := by
    rw [BitVec.toNat_add]
    omega
  have hr : r = _ := fatRead_source hf (by omega)
  -- what the second read relies on
  have hkeep : ∀ n m t, NoFaults t ∧ (t.file h).position.toNat + (n + m) + b.toNat < 2 ^ 32 → 0 < n →
      n ≤ (source p h).room t → NoFaults ((source p h).get n t).2 ∧
        (((source p h).get n t).2.file h).position.toNat + m + b.toNat < 2 ^ 32 := by
    rintro n m t ⟨hf, hlt⟩ - -
    obtain ⟨hf', hp', -⟩ := getBytes_file (p := p) hf h n
    refine ⟨hf', ?_⟩
    show ((getBytes p h n t).2.file h).position.toNat + m + b.toNat < 2 ^ 32
    rw [hp', BitVec.toNat_add, BitVec.toNat_ofNat]
    omega
  obtain ⟨m, hf', hm⟩ := Source.run_keeps
    (P := fun m t => NoFaults t ∧ (t.file h).position.toNat + m + b.toNat < 2 ^ 32)
    hkeep ⟨hf, hp⟩
  have hr' : r' = _ := fatRead_source (by rw [hr]; exact hf') (by rw [hr]; dsimp only; omega)
  rw [fatRead_source hf (by omega), hsum, (source_lawful p h).run_add, hr', hr]
  unfold Source.andThen
  dsimp only
  rw [List.length_append, BitVec.ofNat_add]

/-- The root directory, of 512 bytes. -/
theorem fatRead_split_bigData :
    let r := fatRead (fatNextCluster bigPartition) bigPartition bigData ROOT_DIRECTORY_HANDLE 500
    let r' := fatRead (fatNextCluster bigPartition) bigPartition r.2.2 ROOT_DIRECTORY_HANDLE 100
    fatRead (fatNextCluster bigPartition) bigPartition bigData ROOT_DIRECTORY_HANDLE 600 =
      (r.1 + r'.1, r.2.1 ++ r'.2.1, r'.2.2) :=
  fatRead_split (fun _ => rfl) ROOT_DIRECTORY_HANDLE 500 100 (by decide)

end

end AlexOS.Stage2
