import AlexOS.Fat.Lookup
import AlexOS.Stage2.Layout
import AlexOS.Stage2.Read

/-!
# Entries at the end of the cache

`FAT_NextCluster` asks which sector of the FAT an entry starts in, and loads
five sectors from there on if it is not in the cache. An entry of 12 bits that
starts in the last byte of the cache is not loaded again: its other bits are
read after the cache, where `FatCachePosition` is (`EndsCache`). All other
entries are those of the FAT on disk (`fatNextCluster_iff`).
-/

namespace AlexOS.Stage2

open Fat (KnownType extend entryShift)

/-- The entry of a cluster starts in the last byte of the cache. -/
def EndsCache (s : FatData) (c : Word) : Prop :=
  s.fatType = 12 ∧ (fatIndex 12 c).toNat = 512 * s.fatCachePosition.toNat + 2559

instance (s : FatData) (c : Word) : Decidable (EndsCache s c) := inferInstanceAs (Decidable (_ ∧ _))

/-- The entry of a cluster, in a FAT. -/
def entryBits (fat : Buffer) (fatType : Byte) (c : Word) : Word :=
  fat.field (fatType.toNat * c.toNat) fatType.toNat

/-- The state after some lookups. -/
def lookups (p : Partition) (s : FatData) (clusters : List Word) : FatData :=
  clusters.foldl (fun s c => (fatNextCluster p s c).2) s

section

variable {p : Partition} {s s₀ : FatData} {c : Word} {b : Buffer} {i : Nat} {fatType : Byte}

/-! ## The value of an entry -/

theorem mod_two_eq_zero_iff : c % 2 = 0 ↔ ¬ c &&& 1 ≠ 0 := by
  rw [Fat.and_one_ne_zero_iff, BitVec.toNat_eq, BitVec.toNat_umod, show (2 : Word).toNat = 2 from rfl,
    show (0 : Word).toNat = 0 from rfl]
  omega

/-- Entries are decoded as in the kernel. -/
theorem decode_kernel : decode fatType b i c = Fat.decode fatType b i c := by
  have hand : ((b.load16 i &&& 0x0FFF).setWidth 32 : Word) = (b.load16 i).setWidth 32 &&& 0x0FFF := by
    rw [BitVec.setWidth_and]
    rfl
  have hshift : ((b.load16 i >>> 4).setWidth 32 : Word) = (b.load16 i).setWidth 32 >>> 4 := by
    apply BitVec.eq_of_toNat_eq
    simp only [BitVec.toNat_setWidth, BitVec.toNat_ushiftRight]
    have := (b.load16 i).isLt
    have hle : (b.load16 i).toNat >>> 4 ≤ (b.load16 i).toNat := Nat.shiftRight_le _ _
    rw [Nat.mod_eq_of_lt (by omega), Nat.mod_eq_of_lt (by omega)]
  unfold decode Fat.decode
  simp only [mod_two_eq_zero_iff, ite_not, apply_ite (BitVec.setWidth 32), hand, hshift]

/-- The index of an entry is its offset in the kernel. -/
theorem fatIndex_bits (ht : KnownType fatType) (hc : 3 * fatType.toNat * c.toNat < 8 * 2 ^ 32) :
    8 * (fatIndex fatType c).toNat + entryShift fatType c = fatType.toNat * c.toNat := by
  obtain rfl | rfl | rfl := ht
  · have hc : 3 * 12 * c.toNat < 8 * 2 ^ 32 := hc
    show 8 * (c * 3 / 2).toNat + 4 * (c.toNat % 2) = 12 * c.toNat
    rw [BitVec.toNat_udiv, BitVec.toNat_mul, show (3 : Word).toNat = 3 from rfl, show (2 : Word).toNat = 2 from rfl]
    omega
  · have hc : 3 * 16 * c.toNat < 8 * 2 ^ 32 := hc
    show 8 * (c * 2).toNat = 16 * c.toNat
    rw [BitVec.toNat_mul, show (2 : Word).toNat = 2 from rfl]
    omega
  · have hc : 3 * 32 * c.toNat < 8 * 2 ^ 32 := hc
    show 8 * (c * 4).toNat = 32 * c.toNat
    rw [BitVec.toNat_mul, show (4 : Word).toNat = 4 from rfl]
    omega

/-- What the FAT on disk has for a cluster. -/
theorem fatEntry_eq (ht : KnownType s.fatType) (hc : 3 * s.fatType.toNat * c.toNat < 8 * 2 ^ 32) :
    fatEntry p s c = extend s.fatType (entryBits (fatBytes p s) s.fatType c) := by
  unfold fatEntry entryBits
  rw [decode_kernel, Fat.decode_eq ht, fatIndex_bits ht hc]

theorem WellFormed.known (W : WellFormed s) : KnownType s.fatType := by
  rcases W.fatType with ⟨h, -⟩ | ⟨h, -⟩ | ⟨h, -⟩
  · exact .inl h
  · exact .inr (.inl h)
  · exact .inr (.inr h)

theorem WellFormed.bits_lt (W : WellFormed s) (hc : IsCluster s c) : 3 * s.fatType.toNat * c.toNat < 8 * 2 ^ 32 := by
  have hlt := hc.2
  rcases W.fatType with ⟨h, hn⟩ | ⟨h, -, hn⟩ | ⟨h, hn⟩
  · rw [h, show (12 : Byte).toNat = 12 from rfl]
    omega
  · rw [h, show (16 : Byte).toNat = 16 from rfl]
    omega
  · rw [h, show (32 : Byte).toNat = 32 from rfl]
    omega

/-! ## The window -/

/-- The cache is loaded unless the entry starts in it. -/
theorem position_loadWindow {k : Word} (hk : k.toNat < 2 ^ 23) :
    (loadWindow p s k).fatCachePosition = k ∨
      loadWindow p s k = s ∧ s.fatCachePosition.toNat ≤ k.toNat ∧ k.toNat < s.fatCachePosition.toNat + 5 := by
  unfold loadWindow
  split
  · exact .inl rfl
  · rename_i hin
    obtain ⟨hlo, hhi⟩ := not_or.mp hin
    have hlo : s.fatCachePosition.toNat ≤ k.toNat := BitVec.not_lt.mp hlo
    have hhi : k.toNat < (s.fatCachePosition + FAT_CACHE_SIZE).toNat := BitVec.not_le.mp hhi
    rw [BitVec.toNat_add, show FAT_CACHE_SIZE.toNat = 5 from rfl] at hhi
    exact .inr ⟨rfl, hlo, by omega⟩

/-- A lookup, with any sectors of the FAT in the cache. -/
theorem fatNextCluster_coherent (hf : NoFaults s) (C : Coherent p s) (ht : KnownType s.fatType)
    (hc : 3 * s.fatType.toNat * c.toNat < 8 * 2 ^ 32) :
    (fatNextCluster p s c).1 = extend s.fatType (entryBits (fatBytes p s) s.fatType c) ↔
      (EndsCache s c → s.cacheBytes.field (8 * 2559 + entryShift 12 c) 12 = entryBits (fatBytes p s) 12 c) := by
  have hidx := (fatIndex s.fatType c).isLt
  have hk : (fatIndex s.fatType c / sectorSize).toNat = (fatIndex s.fatType c).toNat / 512 :=
    BitVec.toNat_udiv
  have hbits := fatIndex_bits ht hc
  by_cases hcut : EndsCache s c
  · obtain ⟨h12, hi⟩ := hcut
    rw [h12] at hidx hk hbits hc
    -- the entry is not loaded
    have hstay : loadWindow p s (fatIndex 12 c / sectorSize) = s := by
      unfold loadWindow
      refine if_neg (not_or.mpr ⟨?_, ?_⟩)
      · rw [BitVec.lt_def, hk]
        omega
      · rw [ge_iff_le, BitVec.le_def, hk, BitVec.toNat_add, show FAT_CACHE_SIZE.toNat = 5 from rfl]
        omega
    have hmul : (s.fatCachePosition * sectorSize).toNat = s.fatCachePosition.toNat * 512 := by
      rw [BitVec.toNat_mul, show sectorSize.toNat = 512 from rfl]
      omega
    have hoff : (fatIndex 12 c - s.fatCachePosition * sectorSize).toNat = 2559 := by
      rw [BitVec.toNat_sub_of_le (by rw [BitVec.le_def]; omega), hmul]
      omega
    have hvalue : (fatNextCluster p s c).1 =
        extend 12 (s.cacheBytes.field (8 * 2559 + entryShift 12 c) (12 : Byte).toNat) := by
      rw [fatNextCluster_eq]
      dsimp only
      rw [h12, hstay, hoff, h12, decode_kernel, Fat.decode_eq (.inl rfl)]
    rw [hvalue, h12]
    exact ⟨fun e _ => Fat.extend_field_inj (.inl rfl) e, fun e => congrArg (extend 12) (e ⟨h12, hi⟩)⟩
  · refine iff_of_true ((fatNextCluster_window hf C ?_).trans (fatEntry_eq ht hc)) fun h => absurd h hcut
    obtain ⟨-, -, hlo, hhi, -⟩ := loadWindow_ok (k := fatIndex s.fatType c / sectorSize) hf C (by omega)
    have hpos := position_loadWindow (p := p) (s := s) (k := fatIndex s.fatType c / sectorSize) (by omega)
    rcases ht with ht | ht | ht
    · rw [ht] at hidx hk hpos hlo hhi ⊢
      have hne : (fatIndex 12 c).toNat ≠
          512 * (loadWindow p s (fatIndex 12 c / sectorSize)).fatCachePosition.toNat + 2559 := fun e => by
        rcases hpos with hp | ⟨hp, -, -⟩
        · rw [hp] at e
          omega
        · rw [hp] at e
          exact hcut ⟨ht, e⟩
      rw [entryWidth, if_pos (.inl rfl)]
      omega
    · rw [ht] at hidx hk hlo hhi hbits ⊢
      rw [entryWidth, if_pos (.inr rfl)]
      have : 8 * (fatIndex 16 c).toNat = 16 * c.toNat := hbits
      omega
    · rw [ht] at hidx hk hlo hhi hbits ⊢
      rw [entryWidth, if_neg (by decide)]
      have : 8 * (fatIndex 32 c).toNat = 32 * c.toNat := hbits
      omega

/-! ## Any lookups -/

theorem lookups_ok (hf : NoFaults s) (C : Coherent p s) (clusters : List Word) :
    SameFiles s (lookups p s clusters) ∧ NoFaults (lookups p s clusters) ∧ Coherent p (lookups p s clusters) := by
  induction clusters generalizing s with
  | nil => exact ⟨⟨rfl, rfl, rfl, rfl, rfl, rfl, rfl⟩, hf, C⟩
  | cons c clusters ih =>
    obtain ⟨S, hf', C'⟩ := fatNextCluster_keeps hf C c
    obtain ⟨S', hf'', C''⟩ := ih hf' C'
    refine ⟨⟨S'.1.trans S.1, S'.2.trans S.2, S'.3.trans S.3, S'.4.trans S.4, S'.5.trans S.5, S'.6.trans S.6,
      S'.7.trans S.7⟩, hf'', C''⟩

/-- Nothing is in the cache at first. -/
theorem fatInitialize_position {s' : FatData} (h : fatInitialize p s' = (true, s₀)) :
    s₀.fatCachePosition = 0xFFFFFFFF := by
  obtain ⟨-, -, rfl⟩ := fatInitialize_success h
  rfl

/-- After any lookups, an entry is found unless it starts in the last byte of the cache, and its other bits differ
from those of `FatCachePosition`. -/
theorem fatNextCluster_iff {s' : FatData} (h : fatInitialize p s' = (true, s₀)) (hf : NoFaults s₀)
    (W : WellFormed s₀) (hc : IsCluster s₀ c) (clusters : List Word) :
    (fatNextCluster p (lookups p s₀ clusters) c).1 =
        extend s₀.fatType (entryBits (fatBytes p s₀) s₀.fatType c) ↔
      (EndsCache (lookups p s₀ clusters) c →
        (lookups p s₀ clusters).cacheBytes.field (8 * 2559 + entryShift 12 c) 12 =
          entryBits (fatBytes p s₀) 12 c) := by
  obtain ⟨S, hf', C'⟩ := lookups_ok hf (.inl (fatInitialize_position h)) clusters
  have hbytes : fatBytes p (lookups p s₀ clusters) = fatBytes p s₀ := by rw [fatBytes, fatBytes, S.bootSector]
  have hiff := fatNextCluster_coherent hf' C' (S.fatType ▸ W.known) (S.fatType ▸ W.bits_lt hc)
  rwa [hbytes, S.fatType] at hiff

/-! ## A floppy disk -/

/-- The FAT is in sectors 1 to 9. The entry of cluster 1706 starts in the last byte of sector 5. -/
def splitEntry : Partition where
  sector l := if l = 0 then Buffer.ofList floppy else if l = 6 then Buffer.ofList [5] else fun _ => 0
  partitionOffset := 0

def splitData : FatData := (fatInitialize splitEntry blankData).2

theorem fatInitialize_splitEntry : fatInitialize splitEntry blankData = (true, splitData) := rfl

theorem wellFormed_splitData : WellFormed splitData :=
  ⟨by decide, by decide, .inl ⟨by decide, by decide⟩⟩

/-- After that of cluster 1700, it is found. -/
theorem fatNextCluster_splitEntry : (fatNextCluster splitEntry (lookups splitEntry splitData [1700]) 1706).1 =
    extend splitData.fatType (entryBits (fatBytes splitEntry splitData) splitData.fatType 1706) :=
  (fatNextCluster_iff fatInitialize_splitEntry (fun _ => rfl) wellFormed_splitData (by decide) [1700]).mpr
    fun he => absurd he (by decide)

/-- After that of cluster 2, it is not. -/
theorem fatNextCluster_ne : ¬ ∀ (p : Partition) (s s₀ : FatData) (clusters : List Word) (c : Word),
    fatInitialize p s = (true, s₀) → NoFaults s₀ → WellFormed s₀ → IsCluster s₀ c →
      (fatNextCluster p (lookups p s₀ clusters) c).1 =
        extend s₀.fatType (entryBits (fatBytes p s₀) s₀.fatType c) := fun H =>
  absurd (H splitEntry blankData splitData [2] 1706 fatInitialize_splitEntry (fun _ => rfl) wellFormed_splitData
    (by decide)) (by decide)

end

end AlexOS.Stage2
