import AlexOS.Fat.RoundTrip
import AlexOS.Fat.SeekEnd

/-!
# Two writes for one

`FAT_write` starts at the beginning of a sector, whatever the position, and is
in the next cluster when it is done. A second write goes on where the first one
stopped if that ended with a sector (`writeLoop_add`), and then the file is as
if both were written at once (`writes_compose`).
-/

namespace AlexOS.Fat

/-- A list of bytes is written. -/
def writeBytes (s : Driver) (h : Int) (d : List Byte) : Driver :=
  (fatWrite s h (BitVec.ofNat 32 d.length) (Buffer.ofList d)).2

/-- The bytes of a file, from its start on. -/
def readBack (s : Driver) (h : Int) : Option (List Byte) :=
  (fatSeek 0 s h 0 .set).map fun s' => (fatRead s' h (s.file h).size).2.1

/-- Two writes leave the file as one does. -/
structure WritesCompose (s : Driver) (h : Int) (a b : List Byte) : Prop where
  content : readBack (writeBytes (writeBytes s h a) h b) h = readBack (writeBytes s h (a ++ b)) h
  size : ((writeBytes (writeBytes s h a) h b).file h).size = ((writeBytes s h (a ++ b)).file h).size
  position : ((writeBytes (writeBytes s h a) h b).file h).position = ((writeBytes s h (a ++ b)).file h).position

/-- So many clusters are free. -/
def EnoughFree (s : Driver) (n : Nat) : Prop :=
  ∃ cs : List Word, cs.Nodup ∧ n ≤ cs.length ∧ ∀ c ∈ cs, IsCluster s c ∧ fatEntry s 0 c = 0

/-- The states are the same but for the buffer of a file. -/
def SameButBuffer (h : Int) (s t : Driver) : Prop := ∃ x, t = s.setFile h { s.file h with buffer := x }

/-- The bytes of a round. -/
def writeSize (count : Word) : Word := if 512 < count then 512 else count

/-- The buffer that is written in a round. -/
def roundBuffer (b : Buffer) (count : Word) (input : Buffer) : Buffer :=
  let buffer := b.copy 0 input (writeSize count).toNat
  if count < 512 then buffer.fill (writeSize count).toNat 0 (512 - (writeSize count).toNat) else buffer

/-- The state after the write of a round. -/
def afterRound (s : Driver) (h : Int) (count : Word) (input : Buffer) : Driver :=
  let buffer := roundBuffer (s.file h).buffer count input
  Driver.setFile { s with disk := (s.disk.write (cluster2Lba s (s.file h).currentCluster) buffer).2 } h { s.file h with
    buffer := buffer
    position := (s.file h).position + writeSize count
    size := (s.file h).size + writeSize count }

section

variable {s t : Driver} {h : Int} {count count' a b w w' w'' : Word} {input input' : Buffer} {n m k : Nat}

/-! ## Rounds -/

theorem toNat_writeSize (count : Word) : (writeSize count).toNat = min 512 count.toNat := by
  have h512 : (512 : Word).toNat = 512 := rfl
  unfold writeSize
  split
  · rename_i hlt
    rw [BitVec.lt_def, h512] at hlt
    rw [h512, Nat.min_eq_left hlt.le]
  · rename_i hlt
    rw [BitVec.lt_def, h512] at hlt
    rw [Nat.min_eq_right (by omega)]

theorem writeLoop_zero (h : Int) (n : Nat) (s : Driver) (input : Buffer) (w : Word) :
    writeLoop h n s 0 input w = (w, s) := by
  cases n with
  | zero => rfl
  | succ n => exact if_neg (by decide)

/-- A write that fails ends the loop. -/
theorem writeLoop_fail (hc : 0 < count.toNat)
    (hf : s.disk.writeFails (cluster2Lba s (s.file h).currentCluster) = true) :
    (writeLoop h (n + 1) s count input w).2 =
      s.setFile h { s.file h with buffer := roundBuffer (s.file h).buffer count input } := by
  have hgo : count > 0 := hc
  conv_lhs => unfold writeLoop
  simp only [if_pos hgo, Disk.write_of_fails hf, if_true]
  rfl

theorem writeLoop_round (hc : 0 < count.toNat)
    (hf : s.disk.writeFails (cluster2Lba s (s.file h).currentCluster) = false) :
    writeLoop h (n + 1) s count input w = writeLoop h n (nextForWrite (afterRound s h count input) h)
      (count - writeSize count) (fun i => input ((writeSize count).toNat + i)) (w + writeSize count) := by
  have hgo : count > 0 := hc
  have hok : ∀ data, (s.disk.write (cluster2Lba s (s.file h).currentCluster) data).1 = false := fun data => by
    rw [Disk.write, hf]
    rfl
  conv_lhs => unfold writeLoop
  simp only [if_pos hgo, hok, Bool.false_eq_true, if_false]
  rfl

/-- A round writes what there is of the first 512 bytes. -/
theorem roundBuffer_congr {b : Buffer} (hmin : min 512 count.toNat = min 512 count'.toNat)
    (hin : ∀ i < min 512 count.toNat, input i = input' i) : roundBuffer b count input =
      roundBuffer b count' input' := by
  have hcopy : b.copy 0 input (min 512 count.toNat) = b.copy 0 input' (min 512 count.toNat) := by
    funext x
    unfold Buffer.copy
    split
    · rename_i hx
      exact hin (x - 0) (by omega)
    · rfl
  have h512 : (512 : Word).toNat = 512 := rfl
  have hlt : count < 512 ↔ count' < 512 := by
    rw [BitVec.lt_def, BitVec.lt_def, h512]
    omega
  unfold roundBuffer
  simp only [toNat_writeSize, ← hmin, hcopy, hlt]

/-- Bytes after the last one, and what was counted before, make no difference. -/
theorem writeLoop_congr (hn : count.toNat ≤ n) (hm : count.toNat ≤ m)
    (hin : ∀ i < count.toNat, input i = input' i) :
    (writeLoop h n s count input w).2 = (writeLoop h m s count input' w').2 := by
  induction n generalizing s m count input input' w w' with
  | zero =>
    obtain rfl : count = 0 := BitVec.eq_of_toNat_eq (Nat.le_zero.mp hn)
    rw [writeLoop_zero, writeLoop_zero]
  | succ n ih =>
    rcases Nat.eq_zero_or_pos count.toNat with h0 | hpos
    · obtain rfl : count = 0 := BitVec.eq_of_toNat_eq h0
      rw [writeLoop_zero, writeLoop_zero]
    obtain ⟨m, rfl⟩ : ∃ m', m = m' + 1 := ⟨m - 1, by omega⟩
    have hbuf : ∀ b, roundBuffer b count input = roundBuffer b count input' := fun b =>
      roundBuffer_congr rfl fun i hi => hin i (by omega)
    cases hf : s.disk.writeFails (cluster2Lba s (s.file h).currentCluster) with
    | true => rw [writeLoop_fail hpos hf, writeLoop_fail hpos hf, hbuf]
    | false =>
      have hw := toNat_writeSize count
      have hleft : (count - writeSize count).toNat = count.toNat - (writeSize count).toNat :=
        BitVec.toNat_sub_of_le (by rw [BitVec.le_def]; omega)
      have hafter : afterRound s h count input = afterRound s h count input' := by
        unfold afterRound
        simp only [hbuf]
      rw [writeLoop_round hpos hf, writeLoop_round hpos hf, hafter]
      exact ih (by omega) (by omega) fun i hi => hin _ (by omega)

/-! ## A write that goes on at a sector -/

theorem SameButBuffer.refl (h : Int) (s : Driver) : SameButBuffer h s s := ⟨(s.file h).buffer, setFile_file.symm⟩

theorem writeLoop_zero_add (hk : b.toNat ≤ k) (hn : b.toNat ≤ n) :
    SameButBuffer h (writeLoop h n s (0 + b) input w).2
      (writeLoop h k (writeLoop h m s 0 input w').2 b (fun i => input ((0 : Word).toNat + i)) w'').2 := by
  rw [writeLoop_zero, zero_add]
  have e : (writeLoop h n s b input w).2 = (writeLoop h k s b (fun i => input ((0 : Word).toNat + i)) w'').2 :=
    writeLoop_congr hn hk fun i _ => congrArg input (Nat.zero_add i).symm
  rw [e]
  exact .refl h _

/-- A write of whole sectors, and one that goes on from there. -/
theorem writeLoop_add (ha : a.toNat % 512 = 0) (hab : a.toNat + b.toNat < 2 ^ 32) (hn : a.toNat + b.toNat ≤ n)
    (hm : a.toNat ≤ m) (hk : b.toNat ≤ k) :
    SameButBuffer h (writeLoop h n s (a + b) input w).2
      (writeLoop h k (writeLoop h m s a input w').2 b (fun i => input (a.toNat + i)) w'').2 := by
  induction m generalizing s n a input w w' with
  | zero =>
    obtain rfl : a = 0 := BitVec.eq_of_toNat_eq (Nat.le_zero.mp hm)
    exact writeLoop_zero_add hk (by omega)
  | succ m ih =>
    rcases Nat.eq_zero_or_pos a.toNat with h0 | hpos
    · obtain rfl : a = 0 := BitVec.eq_of_toNat_eq h0
      exact writeLoop_zero_add hk (by omega)
    obtain ⟨n, rfl⟩ : ∃ n', n = n' + 1 := ⟨n - 1, by omega⟩
    have hsum : (a + b).toNat = a.toNat + b.toNat := by
      rw [BitVec.toNat_add, Nat.mod_eq_of_lt hab]
    -- both rounds write the same sector
    have hsize : writeSize a = 512 ∧ writeSize (a + b) = 512 := by
      refine ⟨BitVec.eq_of_toNat_eq ?_, BitVec.eq_of_toNat_eq ?_⟩
      all_goals
        rw [toNat_writeSize, show (512 : Word).toNat = 512 from rfl]
        omega
    have hbuf : ∀ x, roundBuffer x (a + b) input = roundBuffer x a input := fun x =>
      roundBuffer_congr (by omega) fun _ _ => rfl
    cases hf : s.disk.writeFails (cluster2Lba s (s.file h).currentCluster) with
    | true =>
      rw [writeLoop_fail (by omega) hf, writeLoop_fail hpos hf, hbuf]
      generalize roundBuffer (s.file h).buffer a input = x
      rcases Nat.eq_zero_or_pos b.toNat with hb | hb
      · obtain rfl : b = 0 := BitVec.eq_of_toNat_eq hb
        rw [writeLoop_zero]
        exact .refl h _
      · -- the second write fails at the same sector
        obtain ⟨k, rfl⟩ : ∃ k', k = k' + 1 := ⟨k - 1, by omega⟩
        have S := sameVolume_setFile s h { s.file h with buffer := x }
        rw [writeLoop_fail hb (by rw [S.cluster2Lba_eq, S.writeFails, file_setFile_self]; exact hf)]
        exact ⟨_, rfl⟩
    | false =>
      have hleft : (a - 512).toNat = a.toNat - 512 := BitVec.toNat_sub_of_le (by
        rw [BitVec.le_def, show (512 : Word).toNat = 512 from rfl]
        omega)
      have hafter : afterRound s h (a + b) input = afterRound s h a input := by
        unfold afterRound
        simp only [hbuf, hsize]
      have hrest : a + b - 512 = a - 512 + b := by
        rw [add_sub_right_comm]
      have hinput : (fun i => input (a.toNat + i)) = fun i => input (512 + ((a - 512).toNat + i)) := by
        funext i
        rw [hleft]
        exact congrArg input (by omega)
      rw [writeLoop_round (by omega) hf, writeLoop_round hpos hf, hafter, hsize.1, hsize.2, hrest, hinput]
      exact ih (by omega) (by omega) (by omega) (by omega)

theorem nextForWrite_stable (s : Driver) (h : Int) : Stable s (nextForWrite s h) := by
  unfold nextForWrite
  dsimp only
  split
  · refine (advance_stable s h).trans ((findFreeCluster_stable _).trans ?_)
    exact ((Stable.cursor _ _ _ _).trans (updateFat_stable _ _ _)).trans (updateFat_stable _ _ _)
  · exact advance_stable s h

theorem afterRound_stable (s : Driver) (h : Int) (count : Word) (input : Buffer) :
    Stable s (afterRound s h count input) :=
  (Stable.write s _ _).trans (Stable.cursor _ _ _ _)

theorem writeLoop_stable (h : Int) (n : Nat) (s : Driver) (count : Word) (input : Buffer) (w : Word) :
    Stable s (writeLoop h n s count input w).2 := by
  induction n generalizing s count input w with
  | zero => exact .refl s
  | succ n ih =>
    rcases Nat.eq_zero_or_pos count.toNat with h0 | hpos
    · obtain rfl : count = 0 := BitVec.eq_of_toNat_eq h0
      rw [writeLoop_zero]
      exact .refl s
    cases hf : s.disk.writeFails (cluster2Lba s (s.file h).currentCluster) with
    | true =>
      rw [writeLoop_fail hpos hf]
      exact Stable.cursor _ _ _ _
    | false =>
      rw [writeLoop_round hpos hf]
      exact ((afterRound_stable s h count input).trans (nextForWrite_stable _ h)).trans (ih _ _ _ _)

theorem writeBytes_working (W : Working s) (h : Int) (d : List Byte) : Working (writeBytes s h d) := by
  have T : Stable s (writeBytes s h d) := writeLoop_stable h _ s _ _ _
  exact ⟨T.cached W.toCached, fun l => by rw [T.readFails, W.readFails]⟩

/-! ## Reading back -/

/-- What is read does not depend on what was in the buffer. -/
theorem fatRead_sameButBuffer (W : Working s) (e : SameButBuffer h s t)
    (hc : (clamp (s.file h) count).toNat + ((s.file h).position % 512).toNat < 2 ^ 32) :
    (fatRead t h count).2.1 = (fatRead s h count).2.1 := by
  obtain ⟨x, rfl⟩ := e
  have S := sameVolume_setFile s h { s.file h with buffer := x }
  have W' := S.working W
  have ho : ((s.file h).position % 512).toNat < 512 := by
    rw [BitVec.toNat_umod]
    exact Nat.mod_lt _ (by decide)
  have hclamp : clamp ((s.setFile h { s.file h with buffer := x }).file h) count = clamp (s.file h) count := by
    rw [file_setFile_self]
    rfl
  have hloop : ∀ u : Driver, fatRead u h count = readLoop h (clamp (u.file h) count).toNat u (clamp (u.file h) count)
      ((u.file h).position % 512) 0 [] := fun _ => rfl
  have hcontent : clusterBytes (s.setFile h { s.file h with buffer := x }) = clusterBytes s := by
    funext c
    rw [clusterBytes, disk_setFile, S.cluster2Lba_eq]
    rfl
  rw [hloop, hloop, hclamp, file_setFile_self]
  generalize clamp (s.file h) count = m at hc ⊢
  obtain ⟨b, e⟩ := @readLoop_eq _ h m _ 0 m.toNat [] W.toCached W.readFails ho hc
  obtain ⟨b', e'⟩ := @readLoop_eq _ h m _ 0 m.toNat [] W'.toCached W'.readFails ho hc
  rw [e, e', hcontent, funext S.successor_eq, file_setFile_self]

theorem sought_sameButBuffer (C : Cached s) (e : SameButBuffer h s t) (p : Word) (i : Nat) :
    SameButBuffer h (sought s h p i) (sought t h p i) := by
  obtain ⟨x, rfl⟩ := e
  have S := sameVolume_setFile s h { s.file h with buffer := x }
  refine ⟨x, ?_⟩
  unfold sought
  simp only [S.reach_eq C, file_setFile_self, setFile_setFile]

theorem readBack_sameButBuffer (W : Working s) (e : SameButBuffer h s t) : readBack t h = readBack s h := by
  have hsize : (t.file h).size = (s.file h).size := by
    obtain ⟨x, rfl⟩ := e
    rw [file_setFile_self]
  have C' : Cached t := by
    obtain ⟨x, rfl⟩ := e
    exact (sameVolume_setFile s h _).cached W.toCached
  have S := sought_same s h 0 0
  have hpos : ((sought s h 0 0).file h).position = 0 := by simp
  unfold readBack
  rw [fatSeek_set C', fatSeek_set W.toCached, hsize, show steps 0 = 0 from rfl, Option.map_some, Option.map_some,
    fatRead_sameButBuffer (S.working W) (sought_sameButBuffer W.toCached e 0 0)]
  rw [hpos]
  exact BitVec.isLt _

/-- If the first write ends with a sector, or there is nothing more to write, two writes do what one does. -/
theorem writes_compose {a b : List Byte} (W : Working s) (hlen : a.length + b.length < 2 ^ 32)
    (hab : a.length % 512 = 0 ∨ b = []) : WritesCompose s h a b := by
  have hlast : SameButBuffer h (writeBytes s h (a ++ b)) (writeBytes (writeBytes s h a) h b) := by
    rcases hab with ha | rfl
    · have hal : (BitVec.ofNat 32 a.length).toNat = a.length := by
        rw [BitVec.toNat_ofNat, Nat.mod_eq_of_lt (by omega)]
      have hbl : (BitVec.ofNat 32 b.length).toNat = b.length := by
        rw [BitVec.toNat_ofNat, Nat.mod_eq_of_lt (by omega)]
      -- the bytes of `a` and `b` in those of both
      have hfirst : (fatWrite s h (BitVec.ofNat 32 a.length) (Buffer.ofList a)).2 =
          (fatWrite s h (BitVec.ofNat 32 a.length) (Buffer.ofList (a ++ b))).2 :=
        writeLoop_congr (le_refl _) (le_refl _) fun i hi => by
          unfold Buffer.ofList
          rw [List.getD_append _ _ _ _ (by omega)]
      have hsecond : Buffer.ofList b = fun i => Buffer.ofList (a ++ b) ((BitVec.ofNat 32 a.length).toNat + i) := by
        funext i
        unfold Buffer.ofList
        rw [hal, List.getD_append_right _ _ _ _ (Nat.le_add_right _ _), Nat.add_sub_cancel_left]
      unfold writeBytes
      rw [hfirst, hsecond, List.length_append, BitVec.ofNat_add]
      exact writeLoop_add (by omega) (by omega) (by rw [BitVec.toNat_add]; omega) (le_refl _) (le_refl _)
    · rw [List.append_nil]
      exact .refl h _
  refine ⟨readBack_sameButBuffer (writeBytes_working W h _) hlast, ?_, ?_⟩
  all_goals
    obtain ⟨x, e⟩ := hlast
    rw [e, file_setFile_self]

/-! ## A file that was created -/

theorem writes_compose_someFat : WritesCompose someFat 4 (List.replicate 512 0x41) [0x42] :=
  writes_compose ⟨wellFormed_someFat.cached, fun _ => rfl⟩ (by rw [List.length_replicate]; decide)
    (.inl (by rw [List.length_replicate]))

/-- Two bytes are written one by one. The second one goes to the next cluster, and a zero is read for it. -/
theorem writes_not_compose : ¬ ∀ (s₀ s₁ s : Driver) (fuel fuel' : Nat) (h : Int) (path a b : List Byte),
    WellFormed s₀ → (∀ l, s₀.disk.readFails l = false ∧ s₀.disk.writeFails l = false) →
      fatCreateFile fuel s₀ path = some s₁ → fatOpen fuel' s₁ (some path) = some (h, s) → 3 ≤ h →
        (s.file h).size = 0 → EnoughFree s ((a.length + b.length) / 512 + 3) → WritesCompose s h a b := by
  intro H
  obtain ⟨s₁, s, hc, ho, hs, hsize⟩ := createdFile_eq
  have hfree : createdFile.map (fun r => decide (r.2.totalClusters = 8 ∧ fatEntry r.2 0 6 = 0 ∧
      fatEntry r.2 0 7 = 0 ∧ fatEntry r.2 0 8 = 0)) = some true := by decide
  rw [hs, Option.map_some, Option.some.injEq, decide_eq_true_iff] at hfree
  obtain ⟨htotal, h6, h7, h8⟩ := hfree
  have henough : EnoughFree s 3 := by
    refine ⟨[6, 7, 8], by decide, le_refl 3, fun c hc => ?_⟩
    unfold IsCluster
    rw [htotal]
    simp only [List.mem_cons, List.not_mem_nil, or_false] at hc
    rcases hc with rfl | rfl | rfl
    · exact ⟨⟨by decide, by decide⟩, h6⟩
    · exact ⟨⟨by decide, by decide⟩, h7⟩
    · exact ⟨⟨by decide, by decide⟩, h8⟩
  have hne := (H closedFat s₁ s 9 9 3 [0x43] [0x41] [0x42] wellFormed_closedFat (fun _ => ⟨rfl, rfl⟩) hc ho
    (by decide) hsize henough).content
  have htwice : createdFile.map (fun r => readBack (writeBytes (writeBytes r.2 3 [0x41]) 3 [0x42]) 3) =
      some (some [0x41, 0]) := by decide
  have honce : createdFile.map (fun r => readBack (writeBytes r.2 3 [0x41, 0x42]) 3) = some (some [0x41, 0x42]) := by
    decide
  rw [hs, Option.map_some, Option.some.injEq] at htwice honce
  rw [show ([0x41] : List Byte) ++ [0x42] = [0x41, 0x42] from rfl, htwice, honce] at hne
  exact absurd hne (by decide)

end

end AlexOS.Fat
