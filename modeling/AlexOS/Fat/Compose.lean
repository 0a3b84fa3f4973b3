import AlexOS.Fat.Read
import AlexOS.Lib.Source
import AlexOS.Lib.Stream

/-!
# Reads one after the other

`FAT_read` takes its bytes from a source, which gives those of a sector, up to
the size of a file that is not a directory, and moves on to the next cluster at
the end of the sector. What is given does not depend on how it is split, so
that two reads copy the same bytes as one, and leave the same state
(`fatRead_add`).
-/

namespace AlexOS.Fat

/-- How many bytes are left of a file. Directories have no size. -/
def File.left (f : File) : Nat := if f.isDir then 512 else (f.size - f.position).toNat

/-- Some bytes of the sector that an open file is in. -/
def getBytes (h : Int) (n : Nat) (s : Driver) : List Byte × Driver :=
  let file := s.file h
  let buffer := (s.disk.read (cluster2Lba s file.currentCluster) file.buffer).2
  let t := s.setFile h { file with buffer := buffer, position := file.position + BitVec.ofNat 32 n }
  (buffer.slice (file.position.toNat % 512) n, if file.position.toNat % 512 + n = 512 then advance t h else t)

def source (h : Int) : Source Driver where
  room s :=
    if (s.file h).currentCluster < 0xFFFFFFF8 then min (512 - (s.file h).position.toNat % 512) (s.file h).left else 0
  get := getBytes h

section

variable {s : Driver} {h : Int} {count offset nbRead : Word} {n a b : Nat} {out : List Byte}

theorem room_le (s : Driver) (h : Int) : (source h).room s ≤ 512 - (s.file h).position.toNat % 512 := by
  unfold source
  dsimp only
  split
  · exact Nat.min_le_left _ _
  · exact Nat.zero_le _

/-- A sector that was read is read again. -/
theorem read_read (d : Disk) (l : Word) (b : Buffer) : (d.read l (d.read l b).2).2 = (d.read l b).2 := by
  unfold Disk.read
  cases d.readFails l with
  | true => rfl
  | false =>
    funext i
    simp only [Bool.false_eq_true, if_false, Buffer.copy]
    split <;> rfl

/-- Inside a sector, a file moves its position only. -/
theorem getBytes_of_lt (hn : (s.file h).position.toNat % 512 + n < 512) :
    (getBytes h n s).2 = s.setFile h { s.file h with
      buffer := (s.disk.read (cluster2Lba s (s.file h).currentCluster) (s.file h).buffer).2
      position := (s.file h).position + BitVec.ofNat 32 n } :=
  if_neg hn.ne

/-- The file that bytes are taken from. -/
theorem file_getBytes (h : Int) (n : Nat) (s : Driver) :
    ((getBytes h n s).2.file h).position = (s.file h).position + BitVec.ofNat 32 n ∧
      ((getBytes h n s).2.file h).size = (s.file h).size ∧ ((getBytes h n s).2.file h).isDir = (s.file h).isDir := by
  unfold getBytes
  dsimp only
  split
  · unfold advance
    rw [file_setFile_self]
    dsimp only
    rw [(nextCluster_reads (h + 1) _ _).other h (by omega), file_setFile_self]
    exact ⟨rfl, rfl, rfl⟩
  · rw [file_setFile_self]
    exact ⟨rfl, rfl, rfl⟩

theorem left_getBytes (hle : (s.file h).isDir = false → n ≤ (s.file h).left) :
    ((getBytes h n s).2.file h).left = if (s.file h).isDir then 512 else (s.file h).left - n := by
  obtain ⟨hp, hz, hd⟩ := file_getBytes h n s
  unfold File.left at hle ⊢
  rw [hp, hz, hd]
  split
  · rfl
  · rename_i hdir
    have hle := hle (Bool.eq_false_iff.mpr hdir)
    rw [if_neg hdir] at hle
    exact toNat_sub_add_ofNat hle

theorem source_lawful (h : Int) : (source h).Lawful where
  get_add s a b ha hb hle := by
    have hroom := room_le s h
    have hlt : (s.file h).position.toNat % 512 + a < 512 := by omega
    have hpos := toNat_add_ofNat_mod (s.file h).position a
    have hmod : ((s.file h).position.toNat + a) % 512 = (s.file h).position.toNat % 512 + a := by omega
    show getBytes h (a + b) s = Source.andThen (getBytes h a s) (getBytes h b)
    unfold Source.andThen
    rw [getBytes_of_lt hlt]
    have S : ∀ f, cluster2Lba (s.setFile h f) = cluster2Lba s :=
      fun f => funext (sameVolume_setFile s h f).cluster2Lba_eq
    unfold getBytes
    simp only [file_setFile_self, setFile_setFile, disk_setFile, S, read_read, hpos, hmod, Buffer.slice_append,
      BitVec.ofNat_add, add_assoc]
  room_get s a ha hlt := by
    have hroom := room_le s h
    have hlt' : (s.file h).position.toNat % 512 + a < 512 := by omega
    unfold source at hlt ⊢
    dsimp only at hlt ⊢
    split at hlt
    swap
    · exact absurd hlt (Nat.not_lt_zero a)
    rename_i hcur
    have hleft : ((getBytes h a s).2.file h).left = _ := left_getBytes fun _ => by omega
    have hpos : ((getBytes h a s).2.file h).position.toNat % 512 = (s.file h).position.toNat % 512 + a := by
      rw [getBytes_of_lt hlt', file_setFile_self, toNat_add_ofNat_mod]
      omega
    have hcur' : ((getBytes h a s).2.file h).currentCluster = (s.file h).currentCluster := by
      rw [getBytes_of_lt hlt', file_setFile_self]
    rw [hpos, hleft, hcur', if_pos hcur, if_pos hcur]
    unfold File.left at hlt ⊢
    split <;> omega

/-! ## The loop -/

/-- The bytes of a round. -/
def roundBytes (s : Driver) (h : Int) (count : Word) : Nat := min count.toNat (512 - (s.file h).position.toNat % 512)

/-- A round of `FAT_read`, which does not reach over a sector. -/
theorem readLoop_round (n : Nat) (nbRead : Word) (out : List Byte) (hpos : 0 < count.toNat)
    (hcur : (s.file h).currentCluster < 0xFFFFFFF8) (ho : offset.toNat = (s.file h).position.toNat % 512)
    (hlt : count.toNat + (s.file h).position.toNat % 512 < 2 ^ 32) :
    readLoop h (n + 1) s count offset nbRead out =
        readLoop h n (getBytes h (roundBytes s h count) s).2 (count - BitVec.ofNat 32 (roundBytes s h count)) 0
          (BitVec.ofNat 32 (roundBytes s h count)) (out ++ (getBytes h (roundBytes s h count) s).1) ∧
      (count - BitVec.ofNat 32 (roundBytes s h count)).toNat = count.toNat - roundBytes s h count := by
  have hgo : count > 0 ∧ (s.file h).currentCluster < 0xFFFFFFF8 := ⟨hpos, hcur⟩
  generalize ht : roundBytes s h count = t
  unfold roundBytes at ht
  have hle : t ≤ count.toNat := by omega
  have htoNat := toNat_ofNat_of_le hle
  refine ⟨?_, toNat_sub_ofNat hle⟩
  have hround := toNat_nbToRead count offset (by omega)
  conv_lhs => unfold readLoop
  simp only [if_pos hgo]
  generalize (if count + offset < 512 then count + offset else 512) = nbToRead at hround ⊢
  have hnb : nbToRead.toNat = (s.file h).position.toNat % 512 + t := by omega
  have hread : nbToRead - offset = BitVec.ofNat 32 t := by
    apply BitVec.eq_of_toNat_eq
    rw [BitVec.toNat_sub_of_le (by rw [BitVec.le_def]; omega), htoNat]
    omega
  have hend : nbToRead ≥ 512 ↔ (s.file h).position.toNat % 512 + t = 512 := by
    rw [ge_iff_le, BitVec.le_def, hnb, show (512 : Word).toNat = 512 from rfl]
    omega
  simp only [hread, hend, htoNat, ho]
  unfold getBytes
  rfl

/-- The loop of `FAT_read` takes its bytes from the source. -/
theorem readLoop_source (hn : count.toNat ≤ n)
    (ho : 0 < count.toNat → offset.toNat = (s.file h).position.toNat % 512)
    (hc : (s.file h).isDir = false → count.toNat ≤ (s.file h).left)
    (hlt : count.toNat + (s.file h).position.toNat % 512 < 2 ^ 32) :
    (readLoop h n s count offset nbRead out).2 =
      (out ++ ((source h).run count.toNat s).1, ((source h).run count.toNat s).2) := by
  induction n generalizing s count offset nbRead out with
  | zero =>
    rw [Nat.le_zero.mp hn, Source.run_zero]
    simp only [readLoop, List.append_nil]
  | succ n ih =>
    rcases Nat.eq_zero_or_pos count.toNat with h0 | hpos
    · have hno : ¬ count > 0 := by
        rw [gt_iff_lt, BitVec.lt_def]
        simp [h0]
      simp only [readLoop, hno, false_and, if_false, h0, Source.run_zero, List.append_nil]
    by_cases hcur : (s.file h).currentCluster < 0xFFFFFFF8
    swap
    · rw [Source.run_of_room_eq_zero (if_neg hcur), List.append_nil]
      simp only [readLoop, hcur, and_false, if_false]
    obtain ⟨hround, hleft⟩ := readLoop_round n nbRead out hpos hcur (ho hpos) hlt
    have hroom : min count.toNat ((source h).room s) = roundBytes s h count := by
      rw [roundBytes, show (source h).room s = min _ (s.file h).left from if_pos hcur]
      cases hd : (s.file h).isDir with
      | false =>
        have := hc hd
        omega
      | true =>
        rw [show (s.file h).left = 512 from if_pos hd]
        omega
    have hrun : (source h).run count.toNat s = Source.andThen (getBytes h (roundBytes s h count) s)
        ((source h).run (count - BitVec.ofNat 32 (roundBytes s h count)).toNat) := by
      rw [Source.run_of_pos hpos (by rw [roundBytes] at hroom; omega), hroom, hleft]
      rfl
    have ht : roundBytes s h count = min count.toNat (512 - (s.file h).position.toNat % 512) := rfl
    rw [hround, hrun]
    generalize roundBytes s h count = t at ht hleft
    have hleft' : ((getBytes h t s).2.file h).left = _ := left_getBytes fun hd => by
      have := hc hd
      omega
    obtain ⟨hpos', -, hdir'⟩ := file_getBytes h t s
    have hmod : ((getBytes h t s).2.file h).position.toNat % 512 = ((s.file h).position.toNat + t) % 512 := by
      rw [hpos', toNat_add_ofNat_mod]
    refine (ih (s := (getBytes h t s).2) ?_ ?_ ?_ ?_).trans ?_
    · omega
    · intro h0
      rw [hmod, show (0 : Word).toNat = 0 from rfl]
      omega
    · intro hd
      rw [hdir'] at hd
      rw [hleft', hd, if_neg Bool.false_ne_true]
      have := hc hd
      omega
    · omega
    · unfold Source.andThen
      rw [List.append_assoc]

/-- No more bytes are taken than are left. -/
theorem run_left (hd : (s.file h).isDir = false) (n : Nat) :
    (source h).run n s = (source h).run (min n (s.file h).left) s := by
  induction n using Nat.strong_induction_on generalizing s with
  | _ n ih =>
    rcases Nat.eq_zero_or_pos ((source h).room s) with hr | hr
    · rw [Source.run_of_room_eq_zero hr, Source.run_of_room_eq_zero hr]
    have hroom : (source h).room s ≤ (s.file h).left := by
      unfold source
      dsimp only
      split
      · exact Nat.min_le_right _ _
      · exact Nat.zero_le _
    rcases Nat.le_total n (s.file h).left with hn | hn
    · rw [Nat.min_eq_left hn]
    have hleft : ((getBytes h ((source h).room s) s).2.file h).left = _ := left_getBytes fun _ => hroom
    rw [hd, if_neg Bool.false_ne_true] at hleft
    rw [Nat.min_eq_right hn, Source.run_of_le hr (by omega), Source.run_of_le hr hroom]
    unfold Source.andThen
    have hrest : (source h).run (n - (source h).room s) (getBytes h ((source h).room s) s).2 =
        (source h).run ((s.file h).left - (source h).room s) (getBytes h ((source h).room s) s).2 := by
      rw [ih _ (by omega) ((file_getBytes h _ s).2.2.trans hd), hleft, Nat.min_eq_right (by omega)]
    exact congrArg (fun r : List Byte × Driver => ((getBytes h ((source h).room s) s).1 ++ r.1, r.2)) hrest

theorem toNat_clamp (f : File) (count : Word) :
    (clamp f count).toNat = if f.isDir then count.toNat else min count.toNat f.left := by
  unfold clamp File.left
  split
  · rfl
  · split
    · rename_i hlt
      have : count.toNat < (f.size - f.position).toNat := hlt
      omega
    · rename_i hlt
      have : ¬ count.toNat < (f.size - f.position).toNat := hlt
      omega

theorem fatRead_source (s : Driver) (h : Int)
    (hc : (clamp (s.file h) count).toNat + (s.file h).position.toNat % 512 < 2 ^ 32) :
    (fatRead s h count).2 = (source h).run count.toNat s := by
  have hm := toNat_clamp (s.file h) count
  have hloop : fatRead s h count = readLoop h (clamp (s.file h) count).toNat s (clamp (s.file h) count)
      ((s.file h).position % 512) 0 [] := rfl
  rw [hloop, readLoop_source (le_refl _) (fun _ => BitVec.toNat_umod) ?_ hc, List.nil_append]
  · cases hd : (s.file h).isDir with
    | false => rw [hm, hd, if_neg Bool.false_ne_true, ← run_left hd]
    | true => rw [hm, hd, if_pos rfl]
  · intro hd
    rw [hm, hd, if_neg Bool.false_ne_true]
    exact Nat.min_le_right _ _

/-- Two reads copy the bytes of one, and leave the same state. -/
theorem fatRead_add (s : Driver) (h : Int) (a b : Word) (hab : a.toNat + b.toNat < 2 ^ 31) :
    let r := fatRead s h a
    let r' := fatRead r.2.2 h b
    (fatRead s h (a + b)).2 = (r.2.1 ++ r'.2.1, r'.2.2) := by
  intro r r'
  have hsum : (a + b).toNat = a.toNat + b.toNat := by
    rw [BitVec.toNat_add]
    omega
  have hle : ∀ (f : File) (n : Word), (clamp f n).toNat ≤ n.toNat := fun f n => by
    rw [toNat_clamp]
    split
    · exact le_refl _
    · exact Nat.min_le_left _ _
  have hr : r.2 = (source h).run a.toNat s := fatRead_source s h (by have := hle (s.file h) a; omega)
  have hr' : r'.2 = (source h).run b.toNat r.2.2 :=
    fatRead_source r.2.2 h (by have := hle (r.2.2.file h) b; omega)
  have hw := hle (s.file h) (a + b)
  rw [fatRead_source s h (by omega), hsum, (source_lawful h).run_add, hr', hr]
  rfl

/-- Two entries of the root directory. -/
theorem fatRead_add_someFat : (fatRead someFat ROOT_DIR_HANDLE 64).2 =
    ((fatRead someFat ROOT_DIR_HANDLE 32).2.1 ++
        (fatRead (fatRead someFat ROOT_DIR_HANDLE 32).2.2 ROOT_DIR_HANDLE 32).2.1,
      (fatRead (fatRead someFat ROOT_DIR_HANDLE 32).2.2 ROOT_DIR_HANDLE 32).2.2) :=
  fatRead_add someFat ROOT_DIR_HANDLE 32 32 (by decide)

end

end AlexOS.Fat
