import AlexOS.Fat.Compose

/-!
# Scans of a directory

`find_file` and `FAT_list` read the entries of a directory one after the other
until one stops them, or none can be read. A read falls short where the number
of the cluster is from 0xFFFFFFF8 on, and nowhere else in a directory that is
read from the start of an entry. So a scan ends if, from sector to sector, such
a number or such an entry comes (`scansEnd_iff`).
-/

namespace AlexOS.Fat

/-- Whether a loop over the entries of a directory is done after some rounds: one stops it, or none is read. -/
def scanEntries (dir : Int) (stops : DirEntry → Bool) : Nat → Driver → Bool
  | 0, _ => false
  | n + 1, s =>
    let r := readNextEntry s dir
    match r.1 with
    | none => true
    | some entry => stops entry || scanEntries dir stops n r.2

/-- What is read of the sector that a file is in. -/
def sectorBuffer (s : Driver) (h : Int) : Buffer :=
  (s.disk.read (cluster2Lba s (s.file h).currentCluster) (s.file h).buffer).2

/-- Where a file is in its sector. -/
def sectorOffset (s : Driver) (h : Int) : Nat := (s.file h).position.toNat % 512

/-- A file goes on to the sector of the next cluster. -/
def nextSector (h : Int) (s : Driver) : Driver := (getBytes h (512 - sectorOffset s h) s).2

/-- There is no sector, or an entry of it that is yet to come stops the loop. -/
def StopsHere (h : Int) (stops : DirEntry → Bool) (s : Driver) : Prop :=
  (s.file h).currentCluster ≥ 0xFFFFFFF8 ∨
    ∃ i, sectorOffset s h + 32 * i < 512 ∧ stops ((sectorBuffer s h).slice (sectorOffset s h + 32 * i) 32) = true

/-- A file is no directory, or not at the start of an entry, or stops the loop in some sector. -/
def Halts (h : Int) (stops : DirEntry → Bool) (s : Driver) : Prop :=
  (s.file h).isDir = false ∨ ¬ 32 ∣ sectorOffset s h ∨ ∃ k, StopsHere h stops ((nextSector h)^[k] s)

/-- `find_file` stops at the name, and at an entry that starts with 0. -/
def stopsFind (fatName : List Byte) (e : DirEntry) : Bool := e.filename = fatName ∨ e.getD 0 0 = 0

/-- `FAT_list` stops at an entry that starts with 0. -/
def stopsList (e : DirEntry) : Bool := e.getD 0 0 = 0

section

variable {s t : Driver} {h dir : Int} {stops : DirEntry → Bool} {count offset nbRead : Word} {n m : Nat}
  {out : List Byte} {name filename : List Byte}

/-! ## The loops -/

theorem findLoop_isSome (dir : Int) (fatName : List Byte) (n : Nat) (s : Driver) :
    (findLoop dir fatName n s).isSome = scanEntries dir (stopsFind fatName) n s := by
  induction n generalizing s with
  | zero => rfl
  | succ n ih =>
    simp only [findLoop, scanEntries, stopsFind]
    cases (readNextEntry s dir).1 with
    | none => rfl
    | some entry =>
      dsimp only
      by_cases hname : entry.filename = fatName
      · rw [if_pos hname, decide_eq_true (.inl hname)]
        rfl
      by_cases h0 : entry.getD 0 0 = 0
      · rw [if_neg hname, if_neg (not_not.mpr h0), decide_eq_true (.inr h0)]
        rfl
      · rw [if_neg hname, if_pos h0, decide_eq_false (not_or.mpr ⟨hname, h0⟩), Bool.false_or, ih]

theorem listLoop_isSome (dir : Int) (n : Nat) (s : Driver) (out : List DirEntry) :
    (listLoop dir n s out).isSome = scanEntries dir stopsList n s := by
  induction n generalizing s out with
  | zero => rfl
  | succ n ih =>
    simp only [listLoop, scanEntries, stopsList]
    cases (readNextEntry s dir).1 with
    | none => rfl
    | some entry =>
      dsimp only
      by_cases h0 : entry.getD 0 0 = 0
      · rw [if_pos h0, decide_eq_true h0]
        rfl
      · rw [if_neg h0, decide_eq_false h0, Bool.false_or]
        split <;> exact ih _ _

/-! ## Reading an entry -/

theorem sectorOffset_lt (s : Driver) (h : Int) : sectorOffset s h < 512 := Nat.mod_lt _ (by decide)

theorem sectorOffset_getBytes (h : Int) (n : Nat) (s : Driver) :
    sectorOffset (getBytes h n s).2 h = (sectorOffset s h + n) % 512 := by
  rw [sectorOffset, (file_getBytes h n s).1, toNat_add_ofNat_mod, sectorOffset, Nat.mod_add_mod]

/-- What `FAT_read` returns are the bytes of a round, if there is one. -/
theorem readLoop_le (n : Nat) (nbRead : Word) (out : List Byte)
    (ho : 0 < count.toNat → offset.toNat = sectorOffset s h) (hlt : count.toNat + sectorOffset s h < 2 ^ 32) :
    (readLoop h n s count offset nbRead out).1 = nbRead ∨
      (readLoop h n s count offset nbRead out).1.toNat ≤ count.toNat := by
  induction n generalizing s count offset nbRead out with
  | zero => exact .inl rfl
  | succ n ih =>
    by_cases hgo : count > 0 ∧ (s.file h).currentCluster < 0xFFFFFFF8
    swap
    · simp only [readLoop, if_neg hgo]
      exact .inl trivial
    have hpos : 0 < count.toNat := hgo.1
    obtain ⟨hround, hleft⟩ := readLoop_round n nbRead out hpos hgo.2 (ho hpos) hlt
    have ht : roundBytes s h count = min count.toNat (512 - sectorOffset s h) := rfl
    rw [hround]
    generalize roundBytes s h count = t at ht hleft
    have hoff := sectorOffset_getBytes h t s
    have hlt512 := sectorOffset_lt s h
    have hzero : 0 < (count - BitVec.ofNat 32 t).toNat → (0 : Word).toNat = sectorOffset (getBytes h t s).2 h := by
      intro h0
      rw [hoff, show (0 : Word).toNat = 0 from rfl]
      omega
    have hrest := ih (BitVec.ofNat 32 t) (out ++ (getBytes h t s).1) hzero (by omega)
    rcases hrest with e | hle
    · rw [e, toNat_ofNat_of_le (by omega : t ≤ count.toNat)]
      exact .inr (by omega)
    · exact .inr (by omega)

theorem fatRead_loop (s : Driver) (h : Int) (count : Word) : fatRead s h count =
    readLoop h (clamp (s.file h) count).toNat s (clamp (s.file h) count) ((s.file h).position % 512) 0 [] := rfl

theorem clamp_le (f : File) (count : Word) : (clamp f count).toNat ≤ count.toNat := by
  rw [toNat_clamp]
  split
  · exact le_refl _
  · exact Nat.min_le_left _ _

theorem readLoop_end (hcur : (s.file h).currentCluster ≥ 0xFFFFFFF8) (n : Nat) :
    readLoop h n s count offset nbRead out = (nbRead, out, s) := by
  cases n with
  | zero => rfl
  | succ n =>
    unfold readLoop
    exact if_neg fun hgo => absurd hgo.2 (BitVec.not_lt.mpr hcur)

/-- A read of an entry falls short at the end of the chain, of the file and of the sector. -/
theorem fatRead_short (hshort : (s.file h).currentCluster ≥ 0xFFFFFFF8 ∨ (clamp (s.file h) 32).toNat < 32 ∨
    480 < sectorOffset s h) : (fatRead s h 32).1.toNat < 32 := by
  have hoff := sectorOffset_lt s h
  have hle : (clamp (s.file h) 32).toNat ≤ 32 := clamp_le _ _
  have ho : ((s.file h).position % 512).toNat = sectorOffset s h := BitVec.toNat_umod
  rw [fatRead_loop]
  generalize clamp (s.file h) 32 = count at hshort hle
  by_cases hcur : (s.file h).currentCluster ≥ 0xFFFFFFF8
  · rw [readLoop_end hcur]
    exact (by decide : (0 : Word).toNat < 32)
  rcases Nat.eq_zero_or_pos count.toNat with h0 | hpos
  · rw [h0]
    exact (by decide : (0 : Word).toNat < 32)
  -- the first round takes all, or the rest of the sector
  obtain ⟨n, hn⟩ := Nat.exists_eq_add_one.mpr hpos
  have hlt : count.toNat + (s.file h).position.toNat % 512 < 2 ^ 32 := by omega
  obtain ⟨hround, hleft⟩ := readLoop_round n 0 [] hpos (BitVec.not_le.mp hcur) ho hlt
  have ht : roundBytes s h count = min count.toNat (512 - sectorOffset s h) := rfl
  rw [hn, hround]
  generalize roundBytes s h count = t at ht hleft
  have hnext := sectorOffset_getBytes h t s
  have hrest : _ → _ → _ := @readLoop_le (getBytes h t s).2 h (count - BitVec.ofNat 32 t) 0 n (BitVec.ofNat 32 t)
    ([] ++ (getBytes h t s).1)
  rw [hnext, hleft, show (0 : Word).toNat = 0 from rfl] at hrest
  rcases hrest (by omega) (by omega) with e | hle'
  · rw [e, toNat_ofNat_of_le (by omega : t ≤ count.toNat)]
    have := hshort.resolve_left hcur
    omega
  · omega

theorem readNextEntry_none (hd : (s.file dir).handle = h)
    (hshort : (s.file h).currentCluster ≥ 0xFFFFFFF8 ∨ (clamp (s.file h) 32).toNat < 32 ∨
      480 < sectorOffset s h) :
    (readNextEntry s dir).1 = none := by
  rw [readNextEntry, hd, show sizeofDirEntry = 32 from rfl]
  exact if_neg fun e => absurd (fatRead_short hshort) (by rw [e]; decide)

/-- Else it takes the entry from the sector. -/
theorem fatRead_entry (hcur : (s.file h).currentCluster < 0xFFFFFFF8) (hcount : clamp (s.file h) 32 = 32)
    (hoff : sectorOffset s h ≤ 480) : fatRead s h 32 = (32, getBytes h 32 s) := by
  have ht : roundBytes s h 32 = 32 := by
    unfold sectorOffset at hoff
    exact Nat.min_eq_left (by rw [show (32 : Word).toNat = 32 from rfl]; omega)
  have hlt : (32 : Word).toNat + (s.file h).position.toNat % 512 < 2 ^ 32 := by
    rw [show (32 : Word).toNat = 32 from rfl]
    omega
  have ho : ((s.file h).position % 512).toNat = (s.file h).position.toNat % 512 := BitVec.toNat_umod
  obtain ⟨hround, -⟩ := readLoop_round 31 0 [] (by decide) hcur ho hlt
  rw [ht, List.nil_append] at hround
  rw [fatRead_loop, hcount]
  exact hround

theorem readNextEntry_some (hd : (s.file dir).handle = h) (hcur : (s.file h).currentCluster < 0xFFFFFFF8)
    (hcount : clamp (s.file h) 32 = 32) (hoff : sectorOffset s h ≤ 480) :
    readNextEntry s dir = (some (getBytes h 32 s).1, (getBytes h 32 s).2) := by
  rw [readNextEntry, hd, show sizeofDirEntry = 32 from rfl, fatRead_entry hcur hcount hoff]
  rfl

/-! ## One entry after the other -/

theorem getBytes_reads (h : Int) (n : Nat) (s : Driver) : Reads h s (getBytes h n s).2 := by
  unfold getBytes
  dsimp only
  split
  · exact (reads_setFile _ _ _).trans (advance_reads _ h)
  · exact reads_setFile _ _ _

theorem handle_getBytes (dir h : Int) (n : Nat) (s : Driver) :
    ((getBytes h n s).2.file dir).handle = (s.file dir).handle := by
  by_cases e : dir = h
  · rw [e, (getBytes_reads h n s).handle]
  · rw [(getBytes_reads h n s).other dir e]

/-- The loop is done after some number of rounds. -/
def Done (dir : Int) (stops : DirEntry → Bool) (s : Driver) : Prop := ∃ n, scanEntries dir stops n s = true

theorem done_short (hd : (s.file dir).handle = h)
    (hshort : (s.file h).currentCluster ≥ 0xFFFFFFF8 ∨ (clamp (s.file h) 32).toNat < 32 ∨
      480 < sectorOffset s h) :
    Done dir stops s := by
  refine ⟨1, ?_⟩
  simp only [scanEntries, readNextEntry_none hd hshort]

theorem scanEntries_succ (stops : DirEntry → Bool) (hd : (s.file dir).handle = h)
    (hcur : (s.file h).currentCluster < 0xFFFFFFF8) (hcount : clamp (s.file h) 32 = 32)
    (hoff : sectorOffset s h ≤ 480) (n : Nat) :
    scanEntries dir stops (n + 1) s = (stops ((sectorBuffer s h).slice (sectorOffset s h) 32) ||
      scanEntries dir stops n (getBytes h 32 s).2) := by
  have hentry : (getBytes h 32 s).1 = (sectorBuffer s h).slice (sectorOffset s h) 32 := rfl
  rw [scanEntries, readNextEntry_some hd hcur hcount hoff, ← hentry]

/-- The loop stops at an entry, or goes on after it. -/
theorem done_iff_next (hd : (s.file dir).handle = h) (hcur : (s.file h).currentCluster < 0xFFFFFFF8)
    (hcount : clamp (s.file h) 32 = 32) (hoff : sectorOffset s h ≤ 480) :
    Done dir stops s ↔ stops ((sectorBuffer s h).slice (sectorOffset s h) 32) = true ∨
      Done dir stops (getBytes h 32 s).2 := by
  have hround := scanEntries_succ stops hd hcur hcount hoff
  constructor
  · rintro ⟨n, hn⟩
    cases n with
    | zero => cases hn
    | succ n =>
      rw [hround, Bool.or_eq_true] at hn
      exact hn.imp_right fun h => ⟨n, h⟩
  · rintro (hstop | ⟨n, hn⟩)
    · exact ⟨1, by rw [hround, hstop, Bool.true_or]⟩
    · exact ⟨n + 1, by rw [hround, hn, Bool.or_true]⟩

/-- A file that is no directory comes to its end. -/
theorem done_of_file (hd : (s.file dir).handle = h) (hdir : (s.file h).isDir = false) : Done dir stops s := by
  generalize hleft : (s.file h).left = n
  induction n using Nat.strong_induction_on generalizing s with
  | _ n ih =>
    by_cases hshort : (s.file h).currentCluster ≥ 0xFFFFFFF8 ∨ (clamp (s.file h) 32).toNat < 32 ∨
      480 < sectorOffset s h
    · exact done_short hd hshort
    obtain ⟨hcur, hcount, hoff⟩ : _ ∧ _ ∧ _ := by simpa only [not_or] using hshort
    have hle : (clamp (s.file h) 32).toNat ≤ 32 := clamp_le _ _
    have hc : (clamp (s.file h) 32).toNat = 32 := by omega
    have hmin := toNat_clamp (s.file h) 32
    rw [hc, hdir, if_neg Bool.false_ne_true, show (32 : Word).toNat = 32 from rfl] at hmin
    refine (done_iff_next hd (BitVec.not_le.mp hcur) (BitVec.eq_of_toNat_eq hc) (by omega)).mpr (.inr ?_)
    have hleft' : ((getBytes h 32 s).2.file h).left = _ := left_getBytes fun _ => by omega
    rw [hdir, if_neg Bool.false_ne_true] at hleft'
    exact ih _ (by omega) ((handle_getBytes dir h 32 s).trans hd) ((getBytes_reads h 32 s).isDir.trans hdir) hleft'

/-- Off the start of an entry, the end of the sector falls inside one. -/
theorem done_of_unaligned (hd : (s.file dir).handle = h) (hdir : (s.file h).isDir = true)
    (hoff : ¬ 32 ∣ sectorOffset s h) : Done dir stops s := by
  generalize hn : 512 - sectorOffset s h = n
  induction n using Nat.strong_induction_on generalizing s with
  | _ n ih =>
    by_cases hshort : (s.file h).currentCluster ≥ 0xFFFFFFF8 ∨ (clamp (s.file h) 32).toNat < 32 ∨
      480 < sectorOffset s h
    · exact done_short hd hshort
    obtain ⟨hcur, -, hle⟩ : _ ∧ _ ∧ _ := by simpa only [not_or] using hshort
    have hcount : clamp (s.file h) 32 = 32 := if_pos hdir
    refine (done_iff_next hd (BitVec.not_le.mp hcur) hcount (by omega)).mpr (.inr ?_)
    have hnext := sectorOffset_getBytes h 32 s
    exact ih _ (by omega) ((handle_getBytes dir h 32 s).trans hd) ((getBytes_reads h 32 s).isDir.trans hdir)
      (by omega) rfl

/-! ## Sector after sector -/

/-- A directory at the start of an entry, whose entries are read by its handle. -/
structure AtEntry (dir h : Int) (s : Driver) : Prop where
  handle : (s.file dir).handle = h
  isDir : (s.file h).isDir = true
  aligned : 32 ∣ sectorOffset s h

namespace AtEntry

variable (A : AtEntry dir h s)

include A

theorem offset_le : sectorOffset s h ≤ 480 := by
  have := sectorOffset_lt s h
  have := A.aligned
  omega

theorem getBytes (hn : 32 ∣ n) : AtEntry dir h (getBytes h n s).2 where
  handle := (handle_getBytes dir h n s).trans A.handle
  isDir := (getBytes_reads h n s).isDir.trans A.isDir
  aligned := by
    have := A.aligned
    rw [sectorOffset_getBytes]
    omega

theorem nextSector : AtEntry dir h (nextSector h s) := A.getBytes (Nat.dvd_sub (by decide) A.aligned)

theorem done_iff (hcur : (s.file h).currentCluster < 0xFFFFFFF8) :
    Done dir stops s ↔ stops ((sectorBuffer s h).slice (sectorOffset s h) 32) = true ∨
      Done dir stops (Fat.getBytes h 32 s).2 :=
  done_iff_next A.handle hcur (if_pos A.isDir) A.offset_le

/-- The entry is the last of its sector, or the next one is in the same. -/
theorem next_cases (hcur : (s.file h).currentCluster < 0xFFFFFFF8) :
    sectorOffset s h = 480 ∧ (Fat.getBytes h 32 s).2 = Fat.nextSector h s ∨
      sectorOffset s h + 32 < 512 ∧ sectorOffset (Fat.getBytes h 32 s).2 h = sectorOffset s h + 32 ∧
        Fat.nextSector h (Fat.getBytes h 32 s).2 = Fat.nextSector h s ∧
        sectorBuffer (Fat.getBytes h 32 s).2 h = sectorBuffer s h ∧
        ((Fat.getBytes h 32 s).2.file h).currentCluster = (s.file h).currentCluster := by
  have hle := A.offset_le
  rcases Nat.eq_or_lt_of_le hle with e | hlt
  · exact .inl ⟨e, by rw [Fat.nextSector, e]⟩
  refine .inr ⟨by omega, ?_⟩
  have hoff : sectorOffset (Fat.getBytes h 32 s).2 h = sectorOffset s h + 32 := by
    rw [sectorOffset_getBytes]
    omega
  have hsame := getBytes_of_lt (s := s) (h := h) (n := 32) (by unfold sectorOffset at hlt; omega)
  refine ⟨hoff, ?_, ?_, ?_⟩
  · -- the rest of the sector at once, or after an entry
    have hroom : (source h).room s = 512 - sectorOffset s h := by
      unfold source File.left
      dsimp only
      rw [if_pos hcur, A.isDir, if_pos rfl]
      exact Nat.min_eq_left (Nat.sub_le _ _)
    have hadd := (source_lawful h).get_add s 32 (512 - sectorOffset s h - 32) (by decide) (by omega) (by omega)
    rw [Nat.add_sub_cancel' (by omega)] at hadd
    rw [Fat.nextSector, hoff, Nat.sub_add_eq]
    exact (congrArg Prod.snd hadd).symm
  · rw [sectorBuffer, hsame, file_setFile_self, disk_setFile, (sameVolume_setFile s h _).cluster2Lba_eq, read_read]
    rfl
  · rw [hsame, file_setFile_self]

end AtEntry

theorem stopsHere_iff (A : AtEntry dir h s) (hcur : (s.file h).currentCluster < 0xFFFFFFF8)
    (hnext : sectorOffset s h + 32 < 512) : StopsHere h stops s ↔
      stops ((sectorBuffer s h).slice (sectorOffset s h) 32) = true ∨ StopsHere h stops (getBytes h 32 s).2 := by
  obtain ⟨e, -⟩ | ⟨-, hoff, -, hbuffer, hcluster⟩ := A.next_cases hcur
  · omega
  have hno : ¬ (s.file h).currentCluster ≥ 0xFFFFFFF8 := BitVec.not_le.mpr hcur
  unfold StopsHere
  rw [hoff, hbuffer, hcluster]
  constructor
  · rintro (hend | ⟨i, hi, hstop⟩)
    · exact absurd hend hno
    cases i with
    | zero => exact .inl hstop
    | succ i =>
      have e : sectorOffset s h + 32 * (i + 1) = sectorOffset s h + 32 + 32 * i := by omega
      rw [e] at hi hstop
      exact .inr (.inr ⟨i, hi, hstop⟩)
  · rintro (hstop | hend | ⟨i, hi, hstop⟩)
    · exact .inr ⟨0, by omega, hstop⟩
    · exact absurd hend hno
    · have e : sectorOffset s h + 32 + 32 * i = sectorOffset s h + 32 * (i + 1) := by omega
      rw [e] at hi hstop
      exact .inr ⟨i + 1, hi, hstop⟩

/-- The last entry of a sector. -/
theorem stopsHere_last (hcur : (s.file h).currentCluster < 0xFFFFFFF8)
    (hlast : sectorOffset s h = 480) :
    StopsHere h stops s ↔ stops ((sectorBuffer s h).slice (sectorOffset s h) 32) = true := by
  constructor
  · rintro (hend | ⟨i, hi, hstop⟩)
    · exact absurd hend (BitVec.not_le.mpr hcur)
    · obtain rfl : i = 0 := by omega
      exact hstop
  · exact fun hstop => .inr ⟨0, by omega, hstop⟩

/-- The loop stops in a sector, or goes on in the next. -/
theorem done_iff_sector (A : AtEntry dir h s) :
    Done dir stops s ↔ StopsHere h stops s ∨ Done dir stops (nextSector h s) := by
  generalize hn : 512 - sectorOffset s h = n
  induction n using Nat.strong_induction_on generalizing s with
  | _ n ih =>
    by_cases hcur : (s.file h).currentCluster < 0xFFFFFFF8
    swap
    · have hend : (s.file h).currentCluster ≥ 0xFFFFFFF8 := BitVec.not_lt.mp hcur
      exact iff_of_true (done_short A.handle (.inl hend)) (.inl (.inl hend))
    rw [A.done_iff hcur]
    obtain ⟨hlast, hnext⟩ | ⟨hlt, hoff, hnext, -, -⟩ := A.next_cases hcur
    · rw [hnext, stopsHere_last hcur hlast]
    · rw [ih _ (by omega) (A.getBytes (dvd_refl 32)) rfl, hnext, stopsHere_iff A hcur hlt, or_assoc]

/-- The loop is done if it stops in some sector. -/
theorem done_iff_exists (A : AtEntry dir h s) :
    Done dir stops s ↔ ∃ k, StopsHere h stops ((nextSector h)^[k] s) := by
  constructor
  · rintro ⟨n, hn⟩
    induction n generalizing s with
    | zero => cases hn
    | succ n ih =>
      by_cases hcur : (s.file h).currentCluster < 0xFFFFFFF8
      swap
      · exact ⟨0, .inl (BitVec.not_lt.mp hcur)⟩
      rw [scanEntries_succ _ A.handle hcur (if_pos A.isDir) A.offset_le, Bool.or_eq_true] at hn
      rcases hn with hstop | hn
      · have hoff := sectorOffset_lt s h
        exact ⟨0, .inr ⟨0, hoff, hstop⟩⟩
      obtain ⟨k, hk⟩ := ih (A.getBytes (dvd_refl 32)) hn
      obtain ⟨-, hnext⟩ | ⟨hlt, -, hnext, -, -⟩ := A.next_cases hcur
      · rw [hnext] at hk
        exact ⟨k + 1, hk⟩
      · -- the entry after is in the same sector
        cases k with
        | zero => exact ⟨0, (stopsHere_iff A hcur hlt).mpr (.inr hk)⟩
        | succ k =>
          rw [Function.iterate_succ_apply, hnext] at hk
          exact ⟨k + 1, hk⟩
  · rintro ⟨k, hk⟩
    induction k generalizing s with
    | zero => exact (done_iff_sector A).mpr (.inl hk)
    | succ k ih => exact (done_iff_sector A).mpr (.inr (ih A.nextSector hk))

theorem done_iff (hd : (s.file dir).handle = h) : Done dir stops s ↔ Halts h stops s := by
  unfold Halts
  cases hdir : (s.file h).isDir with
  | false => exact iff_of_true (done_of_file hd hdir) (.inl rfl)
  | true =>
    by_cases hoff : 32 ∣ sectorOffset s h
    · rw [done_iff_exists ⟨hd, hdir, hoff⟩]
      simp [hoff]
    · exact iff_of_true (done_of_unaligned hd hdir hoff) (.inr (.inl hoff))

/-! ## The two functions -/

theorem findFile_returns_iff (hd : (s.file dir).handle = h) (filename : List Byte) :
    (∃ fuel r, findFile fuel s dir filename = some r) ↔
      11 < filename.length ∨ Halts h (stopsFind (bytesOf (normalToFatName filename fun _ => 0) 11)) s := by
  rw [← done_iff hd]
  unfold findFile Done
  by_cases hlong : filename.length > 11
  · simp only [if_pos hlong]
    exact iff_of_true ⟨0, _, rfl⟩ (.inl hlong)
  · simp only [if_neg hlong, ← Option.isSome_iff_exists, findLoop_isSome]
    exact (or_iff_right hlong).symm

/-- The state after the seek. -/
def rewound (s : Driver) (h : Int) : Driver :=
  s.setFile h { s.file h with position := 0, currentCluster := (s.file h).firstCluster }

theorem fatList_returns_iff (s : Driver) (h : Int) : (∃ fuel r, fatList fuel s h = some r) ↔
    Halts (s.file h).handle stopsList (rewound s h) := by
  have hseek : ∀ fuel, fatSeek fuel s h 0 .set = some (rewound s h) := fun fuel => by
    rw [fatSeek, seekFrom, file_setFile_self, setFile_setFile]
    rfl
  have hd : ((rewound s h).file h).handle = (s.file h).handle := by rw [rewound, file_setFile_self]
  rw [← done_iff hd]
  unfold fatList Done
  simp only [hseek, Option.bind_eq_bind, Option.bind_some, ← Option.isSome_iff_exists, listLoop_isSome]

/-- Directory scans end exactly on the disks where the chain of sectors has a number from 0xFFFFFFF8 on, or an entry
that stops them. -/
theorem scans_end_iff (s : Driver) (dir h : Int) (filename : List Byte) :
    ((∃ fuel r, findFile fuel s dir filename = some r) ↔ 11 < filename.length ∨
        Halts (s.file dir).handle (stopsFind (bytesOf (normalToFatName filename fun _ => 0) 11)) s) ∧
      ((∃ fuel r, fatList fuel s h = some r) ↔ Halts (s.file h).handle stopsList (rewound s h)) :=
  ⟨findFile_returns_iff rfl filename, fatList_returns_iff s h⟩

/-! ## With the FAT in the cache -/

/-- A cursor that is moved on. -/
theorem getBytes_cached (C : Cached s) (h : Int) (n : Nat) :
    SameVolume s (getBytes h n s).2 ∧ (getBytes h n s).2.disk = s.disk ∧
      ((getBytes h n s).2.file h).currentCluster =
        if sectorOffset s h + n = 512 then successor s (s.file h).currentCluster else (s.file h).currentCluster := by
  have S := sameVolume_setFile s h { s.file h with
    buffer := sectorBuffer s h, position := (s.file h).position + BitVec.ofNat 32 n }
  by_cases hend : sectorOffset s h + n = 512
  · have hnext : (getBytes h n s).2 = advance (s.setFile h { s.file h with
        buffer := sectorBuffer s h, position := (s.file h).position + BitVec.ofNat 32 n }) h := if_pos hend
    have C' := S.cached C
    rw [hnext, if_pos hend, disk_advance C', disk_setFile, currentCluster_advance C', S.successor_eq, file_setFile_self]
    exact ⟨S.trans (advance_same C' h), rfl, rfl⟩
  · have hsame : (getBytes h n s).2 = s.setFile h { s.file h with
        buffer := sectorBuffer s h, position := (s.file h).position + BitVec.ofNat 32 n } := if_neg hend
    rw [hsame, if_neg hend, disk_setFile, file_setFile_self]
    exact ⟨S, rfl, rfl⟩

/-- The sectors of a directory are those of the chain that `next_cluster` finds. -/
theorem nextSector_iterate (C : Cached s) (k : Nat) :
    SameVolume s ((nextSector h)^[k] s) ∧ ((nextSector h)^[k] s).disk = s.disk ∧
      (((nextSector h)^[k] s).file h).currentCluster = (successor s)^[k] (s.file h).currentCluster ∧
      (sectorOffset s h = 0 → sectorOffset ((nextSector h)^[k] s) h = 0) := by
  induction k with
  | zero => exact ⟨.refl s, rfl, rfl, id⟩
  | succ k ih =>
    obtain ⟨S, hdisk, hcluster, -⟩ := ih
    rw [Function.iterate_succ_apply', Function.iterate_succ_apply']
    generalize (nextSector h)^[k] s = t at S hdisk hcluster
    have hsum : sectorOffset t h + (512 - sectorOffset t h) = 512 := by
      have := sectorOffset_lt t h
      omega
    obtain ⟨S', hdisk', hcluster'⟩ := getBytes_cached (S.cached C) h (512 - sectorOffset t h)
    rw [if_pos hsum, S.successor_eq, hcluster] at hcluster'
    exact ⟨S.trans S', hdisk'.trans hdisk, hcluster',
      fun _ => by rw [nextSector, sectorOffset_getBytes, hsum, Nat.mod_self]⟩

theorem halts_iff_chain (C : Cached s) (hr : ∀ l, s.disk.readFails l = false) (hdir : (s.file h).isDir = true)
    (hoff : sectorOffset s h = 0) : Halts h stops s ↔
      ∃ k, let c := (successor s)^[k] (s.file h).currentCluster
        c ≥ 0xFFFFFFF8 ∨ ∃ i < 16, stops ((clusterBytes s c).slice (32 * i) 32) = true := by
  unfold Halts
  rw [hdir, hoff]
  simp only [Bool.true_eq_false, Nat.dvd_zero, not_true_eq_false, false_or]
  refine exists_congr fun k => ?_
  obtain ⟨S, hdisk, hcluster, hk⟩ := nextSector_iterate (h := h) C k
  have hread : ∀ i < 16, (sectorBuffer ((nextSector h)^[k] s) h).slice (32 * i) 32 =
      (clusterBytes s ((successor s)^[k] (s.file h).currentCluster)).slice (32 * i) 32 := by
    intro i hi
    rw [sectorBuffer, hdisk, S.cluster2Lba_eq, hcluster]
    exact slice_read (hr _) _ (by omega)
  unfold StopsHere
  rw [hk hoff, hcluster]
  simp only [Nat.zero_add]
  refine or_congr_right (exists_congr fun i => ?_)
  constructor
  · rintro ⟨hi, hstop⟩
    exact ⟨by omega, by rwa [← hread i (by omega)]⟩
  · rintro ⟨hi, hstop⟩
    exact ⟨by omega, by rwa [hread i hi]⟩

end

/-! ## A chain that is a cycle -/

/-- An image with a cluster that follows itself, and with no entry that starts with 0. -/
def cyclicDisk : Disk where
  sector l :=
    if l = 0 then Buffer.ofList [0, 0, 0, 0, 0, 0, 0, 0, 0, 0, 0, 0x00, 0x02, 1, 1, 0, 1, 16, 0, 11, 0, 0, 1, 0]
    else if l = 1 then Buffer.ofList [0xF8, 0x2F, 0x00, 0x02, 0x00]
    else fun _ => 0x41
  readFails _ := false
  writeFails _ := false

/-- It is mounted, with its root directory in front of the cluster. -/
def cyclicFat : Driver := (fatInit { someFat with disk := cyclicDisk }).2

theorem not_halts_cyclicFat {stops : DirEntry → Bool} (hstops : stops (List.replicate 32 0x41) = false) :
    ¬ Halts ROOT_DIR_HANDLE stops cyclicFat := by
  have C : Cached cyclicFat := ⟨by decide, rfl⟩
  rw [halts_iff_chain C (fun _ => rfl) rfl rfl]
  -- the chain never leaves clusters 1 and 2
  have hcycle : ∀ k, (successor cyclicFat)^[k] 1 = 1 ∨ (successor cyclicFat)^[k] 1 = 2 := by
    intro k
    induction k with
    | zero => exact .inl rfl
    | succ k ih =>
      rw [Function.iterate_succ_apply']
      rcases ih with e | e <;> rw [e]
      · exact .inr (by decide)
      · exact .inr (by decide)
  have hfirst : (cyclicFat.file ROOT_DIR_HANDLE).currentCluster = 1 := by decide
  rw [hfirst]
  rintro ⟨k, hk⟩
  have hentry : ∀ c : Word, c = 1 ∨ c = 2 →
    ∀ i, (clusterBytes cyclicFat c).slice (32 * i) 32 = List.replicate 32 0x41 := by
    intro c hc i
    have hsector : clusterBytes cyclicFat c = fun _ => 0x41 := by
      rcases hc with rfl | rfl
      · rw [clusterBytes, show cluster2Lba cyclicFat 1 = 2 by decide]
        rfl
      · rw [clusterBytes, show cluster2Lba cyclicFat 2 = 3 by decide]
        rfl
    rw [hsector]
    rfl
  rcases hk with hend | ⟨i, -, hstop⟩
  · rcases hcycle k with e | e <;> rw [e] at hend
    · exact absurd hend (by decide)
    · exact absurd hend (by decide)
  · rw [hentry _ (hcycle k), hstops] at hstop
    cases hstop

theorem not_scans_end : ¬ ∀ s : Driver, (fatInit s).1 = true →
    (∀ filename, ∃ fuel r, findFile fuel (fatInit s).2 ROOT_DIR_HANDLE filename = some r) ∧
      ∃ fuel r, fatList fuel (fatInit s).2 ROOT_DIR_HANDLE = some r := by
  intro H
  have hfind : ∃ fuel r, findFile fuel cyclicFat ROOT_DIR_HANDLE [0x42] = some r :=
    (H { someFat with disk := cyclicDisk } (by decide)).1 [0x42]
  rcases (findFile_returns_iff rfl [0x42]).mp hfind with hlong | hhalts
  · exact absurd hlong (by decide)
  · exact not_halts_cyclicFat (by decide) hhalts

end AlexOS.Fat
