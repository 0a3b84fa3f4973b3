import AlexOS.Fat.Lookup

/-!
# The search for a free cluster

`find_free_cluster` asks `next_cluster` for the clusters below
`total_clusters`, and so leaves out the last two. For each it looks at the bits
in the first sector of the FAT that an entry has the place of, modulo the bits
of a sector (`sectorBits`). What it finds is free if the first cluster with
zeros there is, and where it finds none there are none if all clusters are in
use (`findFreeCluster_iff`).
-/

namespace AlexOS.Fat

/-- What the first sector of the FAT has at the place of an entry, modulo the bits of a sector. -/
def sectorBits (s : Driver) (c : Word) : Word :=
  (firstBytes s).field (s.fatType.toNat * c.toNat % (8 * 512)) s.fatType.toNat

/-- The first cluster below `total_clusters` with zeros there. -/
def FirstZero (s : Driver) (c : Word) : Prop :=
  2 ≤ c.toNat ∧ c.toNat < s.totalClusters.toNat ∧ sectorBits s c = 0 ∧
    ∀ d : Word, 2 ≤ d.toNat → d.toNat < c.toNat → sectorBits s d ≠ 0

def NoZero (s : Driver) : Prop := ∀ c : Word, 2 ≤ c.toNat → c.toNat < s.totalClusters.toNat →
    sectorBits s c ≠ 0

/-- A cluster that is free on the disk, or 0 if there is none. -/
def IsFree (s : Driver) (c : Word) : Prop :=
  (c ≠ 0 → IsCluster s c ∧ fatEntry s 0 c = 0) ∧ (c = 0 → ∀ d, IsCluster s d → fatEntry s 0 d ≠ 0)

/-- The cache holds some sector of the FAT. -/
structure Searchable (s : Driver) : Prop extends FatVolume s where
  detected : Detected s
  readable : s.disk.readFails s.firstFatSector = false
  table : ∀ i < 512, s.table i = s.disk.sector (s.firstFatSector + s.fatOffset.setWidth 32) i

section

variable {s t : Driver} {c i : Word}

/-! ## The search -/

/-- The state in which the search starts. -/
def atFirst (s : Driver) : Driver := if s.fatOffset ≠ 0 then (readFat s 0).2 else s

theorem atFirst_ok (S : Searchable s) : FirstSector (atFirst s) ∧ (atFirst s).disk = s.disk ∧
    (atFirst s).fatType = s.fatType ∧ (atFirst s).totalClusters = s.totalClusters ∧
      firstBytes (atFirst s) = firstBytes s := by
  unfold atFirst
  split
  · have e0 : s.firstFatSector + (0 : Byte).setWidth 32 = s.firstFatSector := BitVec.add_zero _
    have hread : (readFat s 0).2 = { s with
        fatOffset := 0, table := s.table.copy 0 (s.disk.sector s.firstFatSector) SECTOR_SIZE } := by
      simp only [readFat, Disk.read, e0, S.readable, Bool.false_eq_true, if_false]
    rw [hread]
    refine ⟨⟨⟨S.bytesPerSector, rfl⟩, S.readable, fun i hi => ?_⟩, rfl, rfl, rfl, ?_⟩
    · exact if_pos ⟨Nat.zero_le i, by rw [SECTOR_SIZE]; omega⟩
    · funext i
      unfold firstBytes
      dsimp only
      split
      · rfl
      · rename_i hi
        exact if_neg fun h => hi (by rw [SECTOR_SIZE] at h; omega)
  · rename_i h0
    have h0 := not_not.mp h0
    refine ⟨⟨⟨S.bytesPerSector, h0⟩, S.readable, fun i hi => ?_⟩, rfl, rfl, rfl, rfl⟩
    rw [S.table i hi, h0]
    exact congrArg (fun l => s.disk.sector l i) (BitVec.add_zero _)

/-- From `i` on, the first of `n` clusters whose lookup gives 0, or 0. -/
theorem scanClusters_cases (F : FirstSector s) (n : Nat) (hi : i.toNat + n < 2 ^ 32) :
    (∃ c : Word, i.toNat ≤ c.toNat ∧ c.toNat < i.toNat + n ∧ (scanClusters n s i).1 = c ∧
      successor s c = 0 ∧
        ∀ d : Word, i.toNat ≤ d.toNat → d.toNat < c.toNat → successor s d ≠ 0) ∨
      (scanClusters n s i).1 = 0 ∧
        ∀ d : Word, i.toNat ≤ d.toNat → d.toNat < i.toNat + n → successor s d ≠ 0 := by
  induction n generalizing i with
  | zero => exact .inr ⟨rfl, fun d h1 h2 => absurd h2 (by omega)⟩
  | succ n ih =>
    have e : (if i > s.fatOffset.setWidth 32 * 512 + 512 then (readFat s 0).2 else s) = s := by
      rw [readFat_zero F, ite_self]
    simp only [scanClusters, setWidth_sub_mod, e, nextCluster_ok F.toCached]
    by_cases h0 : successor s i = 0
    · rw [if_pos h0]
      exact .inl ⟨i, le_refl _, by omega, rfl, h0, fun d h1 h2 => absurd h2 (by omega)⟩
    rw [if_neg h0]
    have hsucc : (i + 1).toNat = i.toNat + 1 := by
      rw [BitVec.toNat_add, show (1 : Word).toNat = 1 from rfl]
      omega
    have hfirst : ∀ d : Word, i.toNat ≤ d.toNat → d = i ∨ (i + 1).toNat ≤ d.toNat := fun d hd => by
      rcases Nat.eq_or_lt_of_le hd with hd | hd
      · exact .inl (BitVec.eq_of_toNat_eq hd.symm)
      · exact .inr (by omega)
    rcases ih (i := i + 1) (by omega) with ⟨c, h1, h2, hr, hc, hd⟩ | ⟨hr, hd⟩
    · refine .inl ⟨c, by omega, by omega, hr, hc, fun d hid hdc => ?_⟩
      rcases hfirst d hid with rfl | hid
      · exact h0
      · exact hd d hid hdc
    · refine .inr ⟨hr, fun d hid hdn => ?_⟩
      rcases hfirst d hid with rfl | hid
      · exact h0
      · exact hd d hid (by omega)

theorem extend_eq_zero_iff {fatType : Byte} {v : Word} : extend fatType v = 0 ↔ v = 0 := by
  unfold extend
  split
  · split
    · rename_i h
      refine iff_of_false (fun e => absurd (BitVec.or_eq_zero_iff.mp e).2 (by decide)) fun e => ?_
      rw [e] at h
      exact absurd h (by decide)
    · rfl
  · split
    · split
      · rename_i h
        refine iff_of_false (fun e => absurd (BitVec.or_eq_zero_iff.mp e).2 (by decide)) fun e => ?_
        rw [e] at h
        exact absurd h (by decide)
      · rfl
    · rfl

/-- What the lookups give. -/
theorem successor_atFirst (S : Searchable s) (hc : IsCluster s c) :
    successor (atFirst s) c = 0 ↔ sectorBits s c = 0 := by
  obtain ⟨F, -, ht, -, hbytes⟩ := atFirst_ok S
  have hlt := S.offset_lt S.detected hc
  rw [successor_field (ht ▸ S.detected.known) (ht ▸ hlt), extend_eq_zero_iff, ← F.firstBytes_eq, hbytes, ht]
  rfl

theorem findFreeCluster_cases (S : Searchable s) :
    FirstZero s (findFreeCluster s).1 ∨ (findFreeCluster s).1 = 0 ∧ NoZero s := by
  obtain ⟨F, -, -, htotal, -⟩ := atFirst_ok S
  have hlt : s.totalClusters.toNat < 2 ^ 32 := s.totalClusters.isLt
  have h2 : (2 : Word).toNat = 2 := rfl
  have hrun : findFreeCluster s = scanClusters (s.totalClusters.toNat - 2) (atFirst s) 2 := by
    rw [← htotal]
    rfl
  have hzero : ∀ d : Word, 2 ≤ d.toNat → d.toNat < s.totalClusters.toNat →
      (successor (atFirst s) d = 0 ↔ sectorBits s d = 0) :=
    fun d h1 h2 => successor_atFirst S ⟨h1, by omega⟩
  rw [hrun]
  rcases Nat.lt_or_ge s.totalClusters.toNat 2 with hsmall | hge
  · rw [Nat.sub_eq_zero_of_le hsmall.le]
    exact .inr ⟨rfl, fun c h1 h2 => absurd h2 (by omega)⟩
  rcases scanClusters_cases F (i := 2) (s.totalClusters.toNat - 2) (by omega) with
    ⟨c, h1, h2, hr, hc, hd⟩ | ⟨hr, hd⟩
  · rw [hr]
    refine .inl ⟨h1, by omega, (hzero c h1 (by omega)).mp hc, fun d hd1 hd2 h0 => ?_⟩
    exact hd d hd1 hd2 ((hzero d hd1 (by omega)).mpr h0)
  · exact .inr ⟨hr, fun d hd1 hd2 h0 => hd d hd1 (by omega) ((hzero d hd1 (by omega)).mpr h0)⟩

theorem FirstZero.unique {d : Word} (h : FirstZero s c) (h' : FirstZero s d) : c = d := by
  obtain ⟨hc2, -, hc0, hc⟩ := h
  obtain ⟨hd2, -, hd0, hd⟩ := h'
  rcases Nat.lt_trichotomy c.toNat d.toNat with hlt | heq | hgt
  · exact absurd hc0 (hd c hc2 hlt)
  · exact BitVec.eq_of_toNat_eq heq
  · exact absurd hd0 (hc d hd2 hgt)

/-- The search is right if the first cluster with zeros in the sector is free, or there is none of the one and none of
the other. -/
theorem findFreeCluster_iff (S : Searchable s) : IsFree s (findFreeCluster s).1 ↔
    (∃ c, FirstZero s c ∧ fatEntry s 0 c = 0) ∨ NoZero s ∧ ∀ c, IsCluster s c → fatEntry s 0 c ≠ 0 := by
  rcases findFreeCluster_cases S with h | ⟨h, hno⟩
  · have hne : (findFreeCluster s).1 ≠ 0 := fun e => by
      have h2 := h.1
      rw [e] at h2
      exact absurd h2 (by decide)
    have hin : IsCluster s (findFreeCluster s).1 := ⟨h.1, by have := h.2.1; omega⟩
    constructor
    · exact fun hf => .inl ⟨_, h, (hf.1 hne).2⟩
    · rintro (⟨c, hc, h0⟩ | ⟨hno, -⟩)
      · obtain rfl := h.unique hc
        exact ⟨fun _ => ⟨hin, h0⟩, fun e => absurd e hne⟩
      · exact absurd h.2.2.1 (hno _ h.1 h.2.1)
  · rw [h]
    constructor
    · exact fun hf => .inr ⟨hno, hf.2 rfl⟩
    · rintro (⟨c, hc, -⟩ | ⟨-, hall⟩)
      · exact absurd hc.2.2.1 (hno c hc.1 hc.2.1)
      · exact ⟨fun e => absurd rfl e, fun _ => hall⟩

/-! ## A volume with its last cluster free -/

theorem searchable_someFat : Searchable someFat where
  toFatVolume := ⟨rfl, by decide, by decide⟩
  detected := .inl ⟨rfl, by decide⟩
  readable := rfl
  table _ _ := rfl

/-- Cluster 3 is free. -/
theorem findFreeCluster_someFat : IsFree someFat (findFreeCluster someFat).1 :=
  (findFreeCluster_iff searchable_someFat).mpr (.inl ⟨3, ⟨by decide, by decide, by decide, fun d h1 h2 => by
    obtain rfl : d = 2 := BitVec.eq_of_toNat_eq (by
      have : d.toNat < 3 := h2
      show d.toNat = 2
      omega)
    decide⟩, by decide⟩)

/-- All of the eight clusters are in use but the last. -/
def fullDisk : Disk where
  sector l :=
    if l = 1 then Buffer.ofList [0xF8, 0xFF, 0xFF, 0xFF, 0xFF, 0xFF, 0xFF, 0xFF, 0xFF, 0xFF, 0xFF, 0xFF, 0xFF, 0x0F]
    else fun _ => 0
  readFails _ := false
  writeFails _ := false

def fullFat : Driver := { someFat with disk := fullDisk, table := fullDisk.sector 1 }

theorem searchable_fullFat : Searchable fullFat where
  toFatVolume := ⟨rfl, by decide, by decide⟩
  detected := .inl ⟨rfl, by decide⟩
  readable := rfl
  table _ _ := rfl

/-- Cluster 9 is not found. -/
theorem findFreeCluster_not_free : ¬ ∀ s : Driver, Searchable s → IsFree s (findFreeCluster s).1 := fun H =>
  absurd (show fatEntry fullFat 0 9 = 0 by decide)
    ((H fullFat searchable_fullFat).2 (by decide) 9 ⟨by decide, by decide⟩)

end

end AlexOS.Fat
