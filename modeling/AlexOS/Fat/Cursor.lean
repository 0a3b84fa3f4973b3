import AlexOS.Fat.Lookup
import AlexOS.Fat.Compose
import AlexOS.Lib.Walk

/-!
# The cursor of a file

`FAT_read` and `FAT_seek` move the position of a file and its current cluster,
each with a loop of its own. On a chain that is as long as the size
(`Covered`), `FAT_read` copies the bytes at the position and leaves the cluster
of the position after them; what it returns are the bytes of its last round
(`fatRead_eq_lastRound`). `FAT_seek` makes as many steps as there are whole
sectors before the byte that comes before the offset (`seekLoop_eq`).

So a read returns what it has copied if that is in one sector
(`fatRead_exact_iff`), a seek leads where a read does if the offset is not that
of a sector (`seek_reads_iff`), and a seek by a distance, which is walked along
with the position that it leads to, if this makes no step more
(`seeks_add_iff`).
-/

namespace AlexOS.Fat

/-- The cluster `i` places after `first`, by `next_cluster`. -/
def follow (s : Driver) (first : Word) (i : Nat) : Word := (fun c => (nextCluster s c).1)^[i] first

/-- A chain of `n` clusters on the disk, and `next_cluster` finds each of them. -/
structure FileChain (s : Driver) (first : Word) (n : Nat) : Prop where
  cluster : ∀ i < n, IsCluster s (follow s first i)
  linked : ∀ i, i + 1 < n → Linked s (follow s first i) (follow s first (i + 1))
  last : 0 < n → IsEnd s.fatType (fatEntry s 0 (follow s first (n - 1))) ∧ IsEnd s.fatType (follow s first n)

/-- The byte at an offset of the file that starts at a cluster. -/
def fileByte (s : Driver) (first : Word) (x : Nat) : Byte := clusterBytes s (follow s first (x / 512)) (x % 512)

/-- The bytes from offset `p` on. -/
def fileBytes (s : Driver) (first : Word) (p k : Nat) : List Byte :=
  (List.range k).map fun j => fileByte s first (p + j)

/-- A volume with one sector to a cluster. -/
structure Readable (s : Driver) : Prop extends FatVolume s, Cached s where
  detected : Detected s
  sectorPerCluster : s.bootSector.sectorPerCluster = 1
  readFails : ∀ l, s.disk.readFails l = false

/-- An open file that is not a directory, whose `n` clusters have room for its size. -/
structure Covered (s : Driver) (h : Int) (n : Nat) : Prop where
  isDir : (s.file h).isDir = false
  isOpen : (s.file h).isOpen = true
  chain : FileChain s (s.file h).firstCluster n
  size : (s.file h).size.toNat ≤ 512 * n

/-- The current cluster is that of the position, which is in the file or at its end. -/
structure InPlace (s : Driver) (h : Int) : Prop where
  position : (s.file h).position.toNat ≤ (s.file h).size.toNat
  currentCluster : (s.file h).currentCluster = follow s (s.file h).firstCluster ((s.file h).position.toNat / 512)

/-- The bytes that are asked for, and that the file has. -/
def wanted (f : File) (count : Word) : Nat := min count.toNat (f.size.toNat - f.position.toNat)

/-- A read copies the bytes at the position, moves past them, and returns how many they are. -/
structure ReadsExactly (s : Driver) (h : Int) (count : Word) : Prop where
  bytes : (fatRead s h count).2.1 =
    fileBytes s (s.file h).firstCluster (s.file h).position.toNat (wanted (s.file h) count)
  position : ((fatRead s h count).2.2.file h).position.toNat =
    (s.file h).position.toNat + wanted (s.file h) count
  currentCluster : ((fatRead s h count).2.2.file h).currentCluster =
    follow s (s.file h).firstCluster (((s.file h).position.toNat + wanted (s.file h) count) / 512)
  returned : (fatRead s h count).1.toNat = wanted (s.file h) count

/-- The two states have the file at the same position and cluster. -/
structure SameCursor (h : Int) (s t : Driver) : Prop where
  position : (s.file h).position = (t.file h).position
  currentCluster : (s.file h).currentCluster = (t.file h).currentCluster

/-- The bytes of the last round of a read of `k` bytes at offset `p`. -/
def lastRound (p k : Nat) : Nat := if p % 512 + k ≤ 512 then k else (p + k - 1) % 512 + 1

/-- How many times `FAT_seek` asks for the next cluster. -/
def steps (offset : Word) : Nat := (offset.toNat - 1) / 512

/-- The cluster that it gets to from `c` on. -/
def reach (s : Driver) (c : Word) (i : Nat) : Word :=
  walkWhile (fun c => c < 0xFFFFFFF8) (fun c => (nextCluster s c).1) i c

/-- A seek to offset `k` leaves the file where a read of `k` bytes from the start does, and the next read copies the
bytes from there on. -/
def SeekReads (s : Driver) (h : Int) (k : Word) : Prop :=
  ∃ s₁ s₂, fatSeek 0 s h k .set = some s₁ ∧ fatSeek 0 s h 0 .set = some s₂ ∧
    SameCursor h s₁ (fatRead s₂ h k).2.2 ∧ ∀ count, (fatRead s₁ h count).2.1 =
      fileBytes s (s.file h).firstCluster k.toNat (min count.toNat ((s.file h).size.toNat - k.toNat))

/-- A seek by `d` from position `p` leaves the file where one to their sum does. -/
def SeeksAdd (s : Driver) (h : Int) (p d : Word) : Prop :=
  ∃ s₁ s₂ s₃, fatSeek 0 s h p .set = some s₁ ∧ fatSeek 0 s₁ h d .cur = some s₂ ∧
    fatSeek 0 s h (p + d) .set = some s₃ ∧ SameCursor h s₂ s₃

section

variable {s t : Driver} {h : Int} {first c : Word} {n i j : Nat} {count offset k p d : Word}

/-! ## Chains -/

theorem Readable.not_isEnd (R : Readable s) (hc : IsCluster s c) : ¬ IsEnd s.fatType c := by
  have hlt := hc.2
  unfold IsEnd
  obtain ⟨ht, hn⟩ | ht | ht := R.detected
  · have hn' : s.totalClusters.toNat < 4085 := hn
    rw [ht, if_neg (by decide), ge_iff_le, BitVec.le_def, show (0xFFFFFFF8 : Word).toNat = 0xFFFFFFF8 from rfl]
    omega
  · have hn := R.fat16 ht
    rw [ht, if_neg (by decide), ge_iff_le, BitVec.le_def, show (0xFFFFFFF8 : Word).toNat = 0xFFFFFFF8 from rfl]
    omega
  · have hn := R.fat32 ht
    have hand : (c &&& 0x0FFFFFFF).toNat ≤ c.toNat := by
      rw [BitVec.toNat_and]
      exact Nat.and_le_left
    rw [ht, if_pos rfl, ge_iff_le, BitVec.le_def, show (0x0FFFFFF8 : Word).toNat = 0x0FFFFFF8 from rfl]
    omega

/-- The clusters of a volume are none that the loops stop at. -/
theorem Readable.live (R : Readable s) (hc : IsCluster s c) : c < 0xFFFFFFF8 := by
  have hlt := hc.2
  rw [BitVec.lt_def, show (0xFFFFFFF8 : Word).toNat = 0xFFFFFFF8 from rfl]
  obtain ⟨-, hn⟩ | ht | ht := R.detected
  · have hn' : s.totalClusters.toNat < 4085 := hn
    omega
  · have hn := R.fat16 ht
    omega
  · have hn := R.fat32 ht
    omega

theorem follow_eq (C : Cached s) (first : Word) (i : Nat) : follow s first i = (successor s)^[i] first := by
  unfold follow
  simp only [nextCluster_ok C]

/-- The clusters of a chain, and its end mark, are all different. -/
theorem FileChain.inj (F : FileChain s first n) (R : Readable s) (hi : i ≤ n) (hj : j ≤ n)
    (e : follow s first i = follow s first j) : i = j := by
  rcases Nat.eq_zero_or_pos n with rfl | hn
  · omega
  · exact iterate_injOn (P := fun c => IsCluster s c) F.cluster (fun hc => R.not_isEnd hc (F.last hn).2) hi hj e

theorem SameVolume.follow_eq (S : SameVolume s t) (C : Cached s) : follow t first i = follow s first i := by
  rw [Fat.follow_eq (S.cached C), Fat.follow_eq C, funext S.successor_eq]

theorem SameVolume.readable (S : SameVolume s t) (R : Readable s) : Readable t where
  bytesPerSector := S.bootSector ▸ R.bytesPerSector
  fat16 := by rw [S.fatType, S.totalClusters]; exact R.fat16
  fat32 := by rw [S.fatType, S.totalClusters]; exact R.fat32
  fatOffset := S.fatOffset.trans R.fatOffset
  detected := by
    unfold Detected
    rw [S.fatType, S.totalClusters]
    exact R.detected
  sectorPerCluster := S.bootSector ▸ R.sectorPerCluster
  readFails l := by rw [S.readFails, R.readFails]

theorem SameVolume.fatEntry_eq (S : SameVolume s t) (hd : t.disk = s.disk) (c : Word) :
    fatEntry t 0 c = fatEntry s 0 c := by
  unfold fatEntry fatBytes
  rw [S.fatType, S.firstFatSector, S.fatSectors, hd]

theorem SameVolume.fileChain (S : SameVolume s t) (C : Cached s) (hd : t.disk = s.disk) (F : FileChain s first n) :
    FileChain t first n where
  cluster i hi := by
    rw [S.follow_eq C, IsCluster, S.totalClusters]
    exact F.cluster i hi
  linked i hi := by
    rw [S.follow_eq C, S.follow_eq C, Linked, S.fatEntry_eq hd, S.fatType]
    exact F.linked i hi
  last hn := by
    rw [S.follow_eq C, S.follow_eq C, S.fatEntry_eq hd, S.fatType]
    exact F.last hn

theorem SameVolume.fileBytes_eq (S : SameVolume s t) (C : Cached s) (hd : t.disk = s.disk) (p k : Nat) :
    fileBytes t first p k = fileBytes s first p k := by
  unfold fileBytes fileByte clusterBytes
  simp only [S.follow_eq C, S.cluster2Lba_eq, hd]

/-! ## Reads -/

/-- The bytes of a chain, in the order of the offsets. -/
theorem chainBytes_append (f : Nat → Byte) (a b : Nat) : (List.range (a + b)).map f =
    (List.range a).map f ++ (List.range b).map fun j => f (a + j) := by
  rw [List.range_add, List.map_append, List.map_map]
  rfl

theorem lastRound_round {p k a : Nat} (ha : a = min k (512 - p % 512)) (hk : a < k) :
    lastRound (p + a) (k - a) = lastRound p k := by
  unfold lastRound
  rw [if_neg (show ¬ p % 512 + k ≤ 512 by omega), show p + a + (k - a) = p + k by omega]
  split <;> omega

theorem readChain_zero (content : Word → Buffer) (next : Word → Word) (n : Nat) (offset : Word) (p : Progress) :
    readChain content next n 0 offset p = p := by
  cases n with
  | zero => rfl
  | succ n => exact if_neg fun h => absurd h.1 (by decide)

/-- The cluster after `r` bytes of a sector. -/
theorem iterate_next {next : Word → Word} (first : Word) {i r : Nat} (hr : i % 512 + r ≤ 512) :
    (if i % 512 + r = 512 then next (next^[i / 512] first) else next^[i / 512] first) = next^[(i + r) / 512] first := by
  split
  · rw [← Function.iterate_succ_apply' next, show (i + r) / 512 = (i / 512).succ by omega]
  · rw [show (i + r) / 512 = i / 512 by omega]

/-- The loop of `FAT_read`, along a chain that goes on to the last byte. -/
theorem readChain_eq {content : Word → Buffer} {next : Word → Word} (first : Word) (p : Progress)
    (hn : count.toNat ≤ n) (ho : 0 < count.toNat → offset.toNat = p.position.toNat % 512)
    (hlt : p.position.toNat + count.toNat < 2 ^ 32) (hcur : p.currentCluster = next^[p.position.toNat / 512] first)
    (hlive : ∀ i, 512 * i < p.position.toNat + count.toNat → next^[i] first < 0xFFFFFFF8) :
    readChain content next n count offset p =
      { nbRead := if count.toNat = 0 then p.nbRead else BitVec.ofNat 32 (lastRound p.position.toNat count.toNat)
        out := p.out ++ (List.range count.toNat).map fun j =>
          content (next^[(p.position.toNat + j) / 512] first) ((p.position.toNat + j) % 512)
        position := p.position + count
        currentCluster := next^[(p.position.toNat + count.toNat) / 512] first } := by
  induction n generalizing count offset p with
  | zero =>
    obtain rfl : count = 0 := BitVec.eq_of_toNat_eq (Nat.le_zero.mp hn)
    rw [readChain_zero]
    simp [← hcur]
  | succ n ih =>
    rcases Nat.eq_zero_or_pos count.toNat with h0 | hpos
    · obtain rfl : count = 0 := BitVec.eq_of_toNat_eq h0
      rw [readChain_zero]
      simp [← hcur]
    have ho := ho hpos
    have hgo : count > 0 ∧ p.currentCluster < 0xFFFFFFF8 := ⟨hpos, hcur ▸ hlive _ (by omega)⟩
    have hround := toNat_nbToRead count offset (by omega)
    simp only [readChain, if_pos hgo]
    generalize (if count + offset < 512 then count + offset else 512) = nbToRead at hround ⊢
    -- the bytes of this round, to the end of the sector at most
    have hsub : (nbToRead - offset).toNat = nbToRead.toNat - offset.toNat :=
      BitVec.toNat_sub_of_le (by rw [BitVec.le_def]; omega)
    generalize hr : nbToRead - offset = r at hsub ⊢
    have hmin : r.toNat = min count.toNat (512 - p.position.toNat % 512) := by omega
    have hleft : (count - r).toNat = count.toNat - r.toNat :=
      BitVec.toNat_sub_of_le (by rw [BitVec.le_def]; omega)
    have hnext : (p.position + r).toNat = p.position.toNat + r.toNat := by
      rw [BitVec.toNat_add]
      omega
    have hend : nbToRead ≥ 512 ↔ p.position.toNat % 512 + r.toNat = 512 := by
      rw [ge_iff_le, BitVec.le_def, show (512 : Word).toNat = 512 from rfl]
      omega
    have hcur' : (if nbToRead ≥ 512 then next p.currentCluster else p.currentCluster) =
        next^[(p.position + r).toNat / 512] first := by
      simp only [hend]
      rw [hnext, hcur, iterate_next first (by omega)]
    have hbytes : (content p.currentCluster).slice offset.toNat r.toNat = (List.range r.toNat).map fun j =>
        content (next^[(p.position.toNat + j) / 512] first) ((p.position.toNat + j) % 512) := by
      apply List.map_congr_left
      intro j hj
      have hj := List.mem_range.mp hj
      rw [hcur, ho, show (p.position.toNat + j) / 512 = p.position.toNat / 512 by omega,
        show (p.position.toNat + j) % 512 = p.position.toNat % 512 + j by omega]
    rw [hcur', hbytes, ih]
    · simp only [hnext, hleft]
      congr 1
      · split
        · rename_i h0
          rw [if_neg hpos.ne']
          apply BitVec.eq_of_toNat_eq
          rw [lastRound, if_pos (by omega), BitVec.toNat_ofNat]
          omega
        · rename_i h0
          rw [if_neg hpos.ne', lastRound_round hmin (by omega)]
      · rw [List.append_assoc]
        conv_rhs => rw [show count.toNat = r.toNat + (count.toNat - r.toNat) by omega, chainBytes_append]
        simp only [Nat.add_assoc]
      · rw [add_assoc, add_sub_cancel]
      · rw [show p.position.toNat + r.toNat + (count.toNat - r.toNat) = p.position.toNat + count.toNat by omega]
    · omega
    · intro h0
      rw [hnext, show (0 : Word).toNat = 0 from rfl]
      omega
    · dsimp only
      omega
    · rfl
    · intro i hi
      dsimp only at hi
      exact hlive i (by omega)

theorem toNat_clamp_wanted (count : Word) (hd : (s.file h).isDir = false)
    (hp : (s.file h).position.toNat ≤ (s.file h).size.toNat) :
    (clamp (s.file h) count).toNat = wanted (s.file h) count := by
  rw [toNat_clamp, hd, if_neg Bool.false_ne_true, File.left, hd, if_neg Bool.false_ne_true,
    BitVec.toNat_sub_of_le hp]
  rfl

/-- All that a read does but for what it returns, which is the length of the last round. -/
theorem fatRead_eq_lastRound (R : Readable s) (F : Covered s h n) (P : InPlace s h) (count : Word) :
    ∃ b, fatRead s h count =
      (if wanted (s.file h) count = 0 then 0
        else BitVec.ofNat 32 (lastRound (s.file h).position.toNat (wanted (s.file h) count)),
      fileBytes s (s.file h).firstCluster (s.file h).position.toNat (wanted (s.file h) count),
      s.setFile h { s.file h with
        position := (s.file h).position + BitVec.ofNat 32 (wanted (s.file h) count)
        currentCluster := follow s (s.file h).firstCluster
          (((s.file h).position.toNat + wanted (s.file h) count) / 512)
        buffer := b }) := by
  have hm := toNat_clamp_wanted count F.isDir P.position
  have hp := P.position
  have hsize := F.size
  have hz := (s.file h).size.isLt
  have hle : wanted (s.file h) count ≤ (s.file h).size.toNat - (s.file h).position.toNat := Nat.min_le_right _ _
  have hoff : ((s.file h).position % 512).toNat = (s.file h).position.toNat % 512 := BitVec.toNat_umod
  have hloop : fatRead s h count = readLoop h (clamp (s.file h) count).toNat s (clamp (s.file h) count)
      ((s.file h).position % 512) 0 [] := rfl
  obtain ⟨b, e⟩ := @readLoop_eq s h (clamp (s.file h) count) ((s.file h).position % 512) 0
    (clamp (s.file h) count).toNat [] R.toCached R.readFails (by omega) (by omega)
  have hlive : ∀ i, 512 * i < (s.file h).position.toNat + (clamp (s.file h) count).toNat →
      (successor s)^[i] (s.file h).firstCluster < 0xFFFFFFF8 := fun i hi => by
    rw [← follow_eq R.toCached]
    exact R.live (F.chain.cluster i (by omega))
  have hcur := P.currentCluster
  rw [follow_eq R.toCached] at hcur
  refine ⟨b, ?_⟩
  rw [hloop, e, readChain_eq (s.file h).firstCluster _ (le_refl _) (fun _ => hoff) ?_ hcur hlive]
  · simp only [hm, List.nil_append]
    unfold fileBytes fileByte
    simp only [follow_eq R.toCached]
    rw [← hm, BitVec.ofNat_toNat, BitVec.setWidth_eq]
  · dsimp only
    omega

/-- What a read returns is short if it goes on in another sector. -/
theorem fatRead_exact_iff (R : Readable s) (F : Covered s h n) (P : InPlace s h) (count : Word) :
    ReadsExactly s h count ↔ (s.file h).position.toNat % 512 + wanted (s.file h) count ≤ 512 := by
  obtain ⟨b, e⟩ := fatRead_eq_lastRound R F P count
  have hle : wanted (s.file h) count ≤ (s.file h).size.toNat - (s.file h).position.toNat := Nat.min_le_right _ _
  have hp := P.position
  have hz := (s.file h).size.isLt
  generalize hk : wanted (s.file h) count = k at e hle
  constructor
  · intro H
    have hret := H.returned
    rw [e, hk] at hret
    unfold lastRound at hret
    by_contra hno
    rw [if_neg (by omega), if_neg hno, BitVec.toNat_ofNat] at hret
    omega
  · intro hone
    refine ⟨?_, ?_, ?_, ?_⟩
    · rw [e, hk]
    · rw [e, hk, file_setFile_self, BitVec.toNat_add, BitVec.toNat_ofNat]
      omega
    · rw [e, hk, file_setFile_self]
    · rw [e, hk]
      unfold lastRound
      dsimp only
      split
      · rename_i h0
        rw [h0]
        rfl
      · rw [BitVec.toNat_ofNat, Nat.mod_eq_of_lt (by omega)]

/-! ## Seeks -/

theorem reach_eq (C : Cached s) (c : Word) (i : Nat) :
    reach s c i = walkWhile (fun c => c < 0xFFFFFFF8) (successor s) i c := by
  unfold reach
  simp only [nextCluster_ok C]

theorem SameVolume.reach_eq (S : SameVolume s t) (C : Cached s) (c : Word) (i : Nat) : reach t c i = reach s c i := by
  rw [Fat.reach_eq (S.cached C), Fat.reach_eq C, funext S.successor_eq]

/-- The loop of `FAT_seek` walks along the chain. -/
theorem seekLoop_eq (C : Cached s) (hn : offset.toNat ≤ n) : seekLoop h n s offset =
    s.setFile h { s.file h with currentCluster := reach s (s.file h).currentCluster (steps offset) } := by
  rw [reach_eq C]
  induction n generalizing s offset with
  | zero =>
    unfold seekLoop steps
    rw [Nat.le_zero.mp hn]
    exact setFile_file.symm
  | succ n ih =>
    have h512 : offset > 512 ↔ 512 < offset.toNat := Iff.rfl
    unfold seekLoop
    by_cases hgo : offset > 512 ∧ (s.file h).currentCluster < 0xFFFFFFF8
    · have hlt := h512.mp hgo.1
      have hsub : (offset - 512).toNat = offset.toNat - 512 :=
        BitVec.toNat_sub_of_le (by rw [BitVec.le_def]; exact hlt.le)
      have hstep : (if offset < 512 then offset else 512) = (512 : Word) :=
        if_neg (BitVec.not_lt.mpr (by rw [BitVec.le_def]; exact hlt.le))
      have hsteps : steps offset = steps (offset - 512) + 1 := by
        unfold steps
        omega
      have S := advance_same C h
      rw [if_pos hgo, hstep, ih (S.cached C) (by omega), funext S.successor_eq, currentCluster_advance C, advance_ok C,
        setFile_setFile, file_setFile_self, hsteps, walkWhile, if_pos hgo.2]
    · rw [if_neg hgo]
      -- there is no step to make, or none is made
      have hstay : walkWhile (fun c => c < 0xFFFFFFF8) (successor s) (steps offset) (s.file h).currentCluster =
          (s.file h).currentCluster := by
        by_cases hlt : offset > 512
        · apply walkWhile_of_not_live
          exact fun hc => hgo ⟨hlt, hc⟩
        · have h0 : steps offset = 0 := by
            have := mt h512.mpr hlt
            unfold steps
            omega
          rw [h0, walkWhile]
      rw [hstay]
      exact setFile_file.symm

theorem seekFrom_eq (C : Cached s) (h : Int) (offset : Word) : seekFrom s h offset =
    s.setFile h { s.file h with currentCluster := reach s (s.file h).firstCluster (steps offset) } := by
  have S := sameVolume_setFile s h { s.file h with currentCluster := (s.file h).firstCluster }
  unfold seekFrom
  dsimp only
  rw [seekLoop_eq (S.cached C) (le_refl _), S.reach_eq C, file_setFile_self, setFile_setFile]

/-- Where `FAT_seek` leaves a file. -/
def sought (s : Driver) (h : Int) (p : Word) (i : Nat) : Driver :=
  s.setFile h { s.file h with position := p, currentCluster := reach s (s.file h).firstCluster i }

@[simp] theorem file_sought (s : Driver) (h : Int) (p : Word) (i : Nat) : (sought s h p i).file h =
    { s.file h with position := p, currentCluster := reach s (s.file h).firstCluster i } :=
  file_setFile_self

theorem sought_same (s : Driver) (h : Int) (p : Word) (i : Nat) : SameVolume s (sought s h p i) :=
  sameVolume_setFile _ _ _

theorem fatSeek_set (C : Cached s) (h : Int) (k : Word) : fatSeek 0 s h k .set = some (sought s h k (steps k)) := by
  have S := sameVolume_setFile s h { s.file h with position := k }
  show some (seekFrom _ h k) = _
  rw [seekFrom_eq (S.cached C), S.reach_eq C, file_setFile_self, setFile_setFile, sought]

/-- The distance is walked along with the position that it leads to. -/
theorem fatSeek_cur (C : Cached s) (h : Int) (p d : Word) (i : Nat) :
    fatSeek 0 (sought s h p i) h d .cur = some (sought s h (p + d) (steps (d + (p + d)))) := by
  have S := (sought_same s h p i).trans
    (sameVolume_setFile (sought s h p i) h { (sought s h p i).file h with position := p + d })
  unfold fatSeek
  simp only [file_sought] at S ⊢
  rw [seekFrom_eq (S.cached C), S.reach_eq C, file_setFile_self, setFile_setFile]
  unfold sought
  rw [setFile_setFile]

theorem Covered.sought (F : Covered s h n) (C : Cached s) (p : Word) (i : Nat) : Covered (sought s h p i) h n := by
  refine ⟨?_, ?_, ?_, ?_⟩ <;> rw [file_sought]
  · exact F.isDir
  · exact F.isOpen
  · exact (sought_same s h p i).fileChain C (disk_setFile _ _ _) F.chain
  · exact F.size

/-- On the chain, and at its end mark. -/
theorem FileChain.reach_eq (F : FileChain s first n) (R : Readable s) (hi : i ≤ n) :
    reach s first i = follow s first i :=
  walkWhile_eq_iterate fun j hj => R.live (F.cluster j (by omega))

/-- A file that was sought on its chain. -/
theorem inPlace_sought (R : Readable s) (F : Covered s h n) (hp : p.toNat ≤ (s.file h).size.toNat)
    (hi : i = p.toNat / 512) : InPlace (sought s h p i) h := by
  have hsize := F.size
  refine ⟨by simpa using hp, ?_⟩
  rw [(sought_same s h p i).follow_eq R.toCached, file_sought]
  dsimp only
  rw [F.chain.reach_eq R (by omega), hi]

/-- A read of bytes that the file has, from its start on. -/
theorem fatRead_sought_zero (R : Readable s) (F : Covered s h n) (hk : k.toNat ≤ (s.file h).size.toNat) :
    ((fatRead (sought s h 0 0) h k).2.2.file h).position = k ∧
      ((fatRead (sought s h 0 0) h k).2.2.file h).currentCluster =
        follow s (s.file h).firstCluster (k.toNat / 512) := by
  have S := sought_same s h 0 0
  obtain ⟨b, e⟩ := fatRead_eq_lastRound (S.readable R) (F.sought R.toCached 0 0)
    (inPlace_sought R F (p := 0) (Nat.zero_le _) rfl) k
  have hw : wanted ((sought s h 0 0).file h) k = k.toNat := by
    unfold wanted
    rw [file_sought]
    simpa using hk
  rw [e, file_setFile_self, hw, S.follow_eq R.toCached]
  simp

theorem seek_reads_iff (R : Readable s) (F : Covered s h n) (hk : k.toNat ≤ (s.file h).size.toNat) :
    SeekReads s h k ↔ k = 0 ∨ k.toNat % 512 ≠ 0 := by
  have hsize := F.size
  obtain ⟨hpos, hcur⟩ := fatRead_sought_zero R F hk
  have hset : ∀ q : Word, fatSeek 0 s h q .set = some (sought s h q (steps q)) := fatSeek_set R.toCached h
  have hreach : reach s (s.file h).firstCluster (steps k) = follow s (s.file h).firstCluster (steps k) :=
    F.chain.reach_eq R (by unfold steps; omega)
  have hzero : k = 0 ↔ k.toNat = 0 := BitVec.toNat_eq
  constructor
  · rintro ⟨s₁, s₂, h₁, h₂, hsame, -⟩
    obtain rfl := Option.some.inj ((hset k).symm.trans h₁)
    obtain rfl := Option.some.inj ((hset 0).symm.trans h₂)
    have hc := hsame.currentCluster
    rw [file_sought, show steps 0 = 0 from rfl, hcur] at hc
    dsimp only at hc
    rw [hreach] at hc
    have hsteps := F.chain.inj R (by unfold steps; omega) (by omega) hc
    unfold steps at hsteps
    rw [hzero]
    omega
  · intro hoff
    rw [hzero] at hoff
    have hsteps : steps k = k.toNat / 512 := by
      unfold steps
      omega
    refine ⟨_, _, hset k, hset 0, ⟨?_, ?_⟩, fun count => ?_⟩
    · rw [file_sought, show steps 0 = 0 from rfl, hpos]
    · rw [file_sought, show steps 0 = 0 from rfl, hcur, ← hsteps]
      exact hreach
    · have S := sought_same s h k (steps k)
      obtain ⟨b, e⟩ := fatRead_eq_lastRound (S.readable R) (F.sought R.toCached k (steps k))
        (inPlace_sought R F hk hsteps) count
      rw [e, S.fileBytes_eq R.toCached (disk_setFile _ _ _)]
      unfold wanted
      rw [file_sought]

theorem reach_add (s : Driver) (c : Word) (i j : Nat) : reach s c (i + j) = reach s (reach s c i) j :=
  walkWhile_add i j c

theorem seeksAdd_iff_reach (C : Cached s) (h : Int) (p d : Word) : SeeksAdd s h p d ↔
    reach s (s.file h).firstCluster (steps (d + (p + d))) = reach s (s.file h).firstCluster (steps (p + d)) := by
  have hset : ∀ q : Word, fatSeek 0 s h q .set = some (sought s h q (steps q)) := fatSeek_set C h
  have hcur := fatSeek_cur C h p d (steps p)
  constructor
  · rintro ⟨s₁, s₂, s₃, h₁, h₂, h₃, hsame⟩
    obtain rfl := Option.some.inj ((hset p).symm.trans h₁)
    obtain rfl := Option.some.inj (hcur.symm.trans h₂)
    obtain rfl := Option.some.inj ((hset (p + d)).symm.trans h₃)
    simpa using hsame.currentCluster
  · intro hc
    exact ⟨_, _, _, hset p, hcur, hset (p + d), by simp, by simpa using hc⟩

/-- Where `j` steps lead to cluster `i` of a chain. -/
theorem FileChain.reach_eq_iff (F : FileChain s first n) (R : Readable s) (hi : i ≤ n) (hlast : n < j → i < n) :
    reach s first j = follow s first i ↔
      j = i ∨ n < j ∧ follow s first n < 0xFFFFFFF8 ∧ reach s (follow s first n) (j - n) = follow s first i := by
  rcases Nat.lt_or_ge n j with hj | hj
  swap
  · rw [F.reach_eq R hj]
    constructor
    · exact fun e => .inl (F.inj R hj hi e)
    · rintro (e | ⟨hj', -⟩)
      · rw [e]
      · exact absurd hj' (by omega)
  have hi' := hlast hj
  by_cases hlive : follow s first n < 0xFFFFFFF8
  · have hj' : reach s first j = reach s (follow s first n) (j - n) := by
      rw [← F.reach_eq R (le_refl n), ← reach_add, Nat.add_sub_cancel' hj.le]
    rw [hj']
    constructor
    · exact fun e => .inr ⟨hj, hlive, e⟩
    · rintro (e | ⟨-, -, e⟩)
      · exact absurd e (by omega)
      · exact e
  · -- the walk stops at the end mark, which is none of the clusters
    have hstop : reach s first j = follow s first n :=
      walkWhile_eq_end (fun i hi => R.live (F.cluster i hi)) hlive hj.le
    rw [hstop]
    constructor
    · intro e
      have := F.inj R (le_refl n) hi e
      omega
    · rintro (e | ⟨-, hlive', -⟩)
      · exact absurd e (by omega)
      · exact absurd hlive' hlive

/-- The steps that are made too many have to lead back. On a chain none may be, or they lead over an end mark of 28
bits, which the loop does not stop at. -/
theorem seeks_add_iff (C : Cached s) (hpd : p.toNat + d.toNat ≤ (s.file h).size.toNat) :
    let first := (s.file h).firstCluster
    let i := steps (p + d)
    let j := steps (d + (p + d))
    (SeeksAdd s h p d ↔
      reach s (reach s first (min i j)) (max i j - min i j) = reach s first (min i j)) ∧
    ∀ n, Readable s → Covered s h n → (SeeksAdd s h p d ↔ j = i ∨
      n < j ∧ follow s first n < 0xFFFFFFF8 ∧ reach s (follow s first n) (j - n) = follow s first i) := by
  intro first i j
  have hreach := seeksAdd_iff_reach C h p d
  refine ⟨?_, fun n R F => ?_⟩
  · rw [hreach, ← reach_add, show min i j + (max i j - min i j) = max i j by omega]
    rcases Nat.le_total i j with hle | hle
    · rw [Nat.max_eq_right hle, Nat.min_eq_left hle]
    · rw [Nat.max_eq_left hle, Nat.min_eq_right hle]
      exact eq_comm
  have hsize := F.size
  have hz := (s.file h).size.isLt
  have hsum : (p + d).toNat = p.toNat + d.toNat := by
    rw [BitVec.toNat_add, Nat.mod_eq_of_lt (by omega)]
  have hi : i ≤ n := by
    show ((p + d).toNat - 1) / 512 ≤ n
    omega
  rw [hreach, F.chain.reach_eq R hi]
  refine F.chain.reach_eq_iff R hi fun hj => ?_
  have hn : 0 < n := by
    rcases Nat.eq_zero_or_pos n with rfl | hn
    · have h0 : p = 0 ∧ d = 0 := ⟨BitVec.eq_of_toNat_eq (show p.toNat = 0 by omega),
        BitVec.eq_of_toNat_eq (show d.toNat = 0 by omega)⟩
      have hj : 0 < steps (d + (p + d)) := hj
      rw [h0.1, h0.2] at hj
      exact absurd hj (by decide)
    · exact hn
  show ((p + d).toNat - 1) / 512 < n
  omega

/-! ## A file of two clusters -/

/-- File `B` has 600 bytes. -/
def longFat : Driver :=
  { someFat with openedFiles := fun i => if i = 1 then ⟨0, 600, 4, 4, fun _ => 0, false, true, 4⟩ else File.zero }

theorem readable_longFat : Readable longFat where
  bytesPerSector := rfl
  fat16 := by decide
  fat32 := by decide
  fatOffset := rfl
  detected := .inl ⟨rfl, by decide⟩
  sectorPerCluster := rfl
  readFails _ := rfl

theorem covered_longFat : Covered longFat 4 2 where
  isDir := rfl
  isOpen := rfl
  chain :=
    { cluster := fun i hi => by
        obtain rfl | rfl : i = 0 ∨ i = 1 := by omega
        · exact ⟨by decide, by decide⟩
        · exact ⟨by decide, by decide⟩
      linked := fun i hi => by
        obtain rfl : i = 0 := by omega
        exact ⟨by decide, by decide, by decide⟩
      last := fun _ => by decide }
  size := by decide

theorem inPlace_longFat : InPlace longFat 4 := ⟨by decide, rfl⟩

theorem fatRead_exact_longFat : ReadsExactly longFat 4 100 :=
  (fatRead_exact_iff readable_longFat covered_longFat inPlace_longFat 100).mpr (by decide)

/-- 600 bytes are copied, and 88 returned. -/
theorem fatRead_not_exact : ¬ ∀ (s : Driver) (h : Int) (n : Nat) (count : Word), Readable s → Covered s h n →
    InPlace s h → ReadsExactly s h count := fun H =>
  absurd (H longFat 4 2 600 readable_longFat covered_longFat inPlace_longFat).returned (by decide)

theorem seek_reads_longFat : SeekReads longFat 4 513 :=
  (seek_reads_iff readable_longFat covered_longFat (by decide)).mpr (.inr (by decide))

/-- The cluster of byte 511 is found for offset 512. -/
theorem seek_not_reads : ¬ ∀ (s : Driver) (h : Int) (n : Nat) (k : Word), Readable s → Covered s h n →
    k.toNat ≤ (s.file h).size.toNat → SeekReads s h k := by
  intro H
  obtain ⟨s₁, s₂, h₁, h₂, hsame, -⟩ := H longFat 4 2 512 readable_longFat covered_longFat (by decide)
  obtain rfl := Option.some.inj ((fatSeek_set readable_longFat.toCached 4 512).symm.trans h₁)
  obtain rfl := Option.some.inj ((fatSeek_set readable_longFat.toCached 4 0).symm.trans h₂)
  exact absurd hsame.currentCluster (by decide)

/-- In the second cluster. -/
theorem seeks_add_longFat : SeeksAdd longFat 4 550 20 :=
  ((seeks_add_iff readable_longFat.toCached (by decide)).2 2 readable_longFat covered_longFat).mpr (.inl (by decide))

/-- From the start on, a distance of 300 is walked twice, into the second cluster. -/
theorem seeks_not_add : ¬ ∀ (s : Driver) (h : Int) (n : Nat) (p d : Word), Readable s → Covered s h n →
    p.toNat + d.toNat ≤ (s.file h).size.toNat → SeeksAdd s h p d := by
  intro H
  have hc := (seeksAdd_iff_reach readable_longFat.toCached 4 0 300).mp
    (H longFat 4 2 0 300 readable_longFat covered_longFat (by decide))
  exact absurd hc (by decide)

end

end AlexOS.Fat
