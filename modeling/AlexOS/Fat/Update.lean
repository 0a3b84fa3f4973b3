import AlexOS.Fat.Lookup

/-!
# What `update_fat` writes

`update_fat` sets the entry of a cluster in the cached sector and writes this
to one sector of the disk, whose number it gets by adding the offset of the
entry in bytes to the first sector of the FAT (`writtenSector`). The disk is
`Updated` if each sector holds what is `due` in it: the entry in every copy of
the FAT, and in all else what it held.

The first copy of an entry is never in the sector that is written
(`writtenSector_ne`). So `Updated` holds only where it has its value already,
and the sectors that have to change are that one at most (`updated_iff`).
-/

namespace AlexOS.Fat

/-- Sector `n` of a copy of the FAT. -/
def fatSector (s : Driver) (copy n : Nat) : Word :=
  s.firstFatSector + BitVec.ofNat 32 copy * s.fatSectors + BitVec.ofNat 32 n

/-- What sector `l` is to hold once the entry of a cluster is set in every copy of the FAT. -/
def due (s : Driver) (cluster next : Word) (l : Word) : Buffer := fun i =>
  let n := (l - s.firstFatSector).toNat
  if n < s.bootSector.nbFat.toNat * s.fatSectors.toNat then
    (fatBytes s (n / s.fatSectors.toNat)).setField (s.fatType.toNat * cluster.toNat) s.fatType.toNat next
      (512 * (n % s.fatSectors.toNat) + i)
  else s.disk.sector l i

/-- The copies of the FAT differ in the entry of a cluster, and no other sector does. -/
def Updated (s s' : Driver) (cluster next : Word) : Prop :=
  ∀ l, ∀ i < 512, s'.disk.sector l i = due s cluster next l i

/-- The number that `update_fat` gets for the sector. -/
def writtenSector (s : Driver) (cluster : Word) : Word :=
  s.firstFatSector + (entryOffset s.fatType cluster).getD 0

/-- The table with the entry, at its offset modulo 512. -/
def writtenBytes (s : Driver) (cluster next : Word) : Buffer :=
  s.table.setField (s.fatType.toNat * cluster.toNat % (8 * 512)) s.fatType.toNat next

/-- A volume of `nb_fat` copies of the FAT, with an entry for each cluster. -/
structure FatArea (s : Driver) : Prop extends FatVolume s where
  detected : Detected s
  noWrap : s.firstFatSector.toNat + s.bootSector.nbFat.toNat * s.fatSectors.toNat ≤ 2 ^ 32
  fits : ∀ c, IsCluster s c → s.fatType.toNat * (c.toNat + 1) ≤ 8 * 512 * s.fatSectors.toNat

section

variable {s : Driver} {c v l : Word} {copy n i : Nat}

/-! ## The sectors of the FAT -/

theorem fatSector_eq : fatSector s copy n = s.firstFatSector + BitVec.ofNat 32 (copy * s.fatSectors.toNat + n) := by
  rw [fatSector, BitVec.ofNat_add, BitVec.ofNat_mul, BitVec.ofNat_toNat, BitVec.setWidth_eq, add_assoc]

theorem fatSector_sub (A : FatArea s) (hcopy : copy < s.bootSector.nbFat.toNat) (hn : n < s.fatSectors.toNat) :
    (fatSector s copy n - s.firstFatSector).toNat = copy * s.fatSectors.toNat + n := by
  have hle : copy * s.fatSectors.toNat + n < s.bootSector.nbFat.toNat * s.fatSectors.toNat :=
    calc copy * s.fatSectors.toNat + n < (copy + 1) * s.fatSectors.toNat := by rw [add_mul]; omega
      _ ≤ s.bootSector.nbFat.toNat * s.fatSectors.toNat := Nat.mul_le_mul_right _ hcopy
  have hw := A.noWrap
  rw [fatSector_eq, add_sub_cancel_left, BitVec.toNat_ofNat, Nat.mod_eq_of_lt (by omega)]

theorem eq_fatSector : l = fatSector s ((l - s.firstFatSector).toNat / s.fatSectors.toNat)
    ((l - s.firstFatSector).toNat % s.fatSectors.toNat) := by
  rw [fatSector_eq, Nat.div_add_mod', BitVec.ofNat_toNat, BitVec.setWidth_eq, add_sub_cancel]

/-- What is due in a sector of the FAT. -/
theorem due_fatSector (A : FatArea s) (hcopy : copy < s.bootSector.nbFat.toNat) (hn : n < s.fatSectors.toNat) :
    due s c v (fatSector s copy n) i =
      (fatBytes s copy).setField (s.fatType.toNat * c.toNat) s.fatType.toNat v (512 * n + i) := by
  have hle : copy * s.fatSectors.toNat + n < s.bootSector.nbFat.toNat * s.fatSectors.toNat :=
    calc copy * s.fatSectors.toNat + n < (copy + 1) * s.fatSectors.toNat := by rw [add_mul]; omega
      _ ≤ s.bootSector.nbFat.toNat * s.fatSectors.toNat := Nat.mul_le_mul_right _ hcopy
  rw [due]
  simp only [fatSector_sub A hcopy hn]
  have hdiv : (copy * s.fatSectors.toNat + n) / s.fatSectors.toNat = copy := by
    rw [Nat.mul_comm, Nat.mul_add_div (by omega), Nat.div_eq_of_lt hn, add_zero]
  rw [if_pos hle, Nat.mul_add_mod_of_lt hn, hdiv]

theorem fatBytes_sector (hi : i < 512) : fatBytes s copy (512 * n + i) = s.disk.sector (fatSector s copy n) i := by
  rw [fatBytes, fatSector, show (512 * n + i) / 512 = n by omega, show (512 * n + i) % 512 = i by omega]

/-- Some sectors hold what is due in them: those bits of the entry that are there have their values. -/
theorem due_iff (A : FatArea s) (hc : IsCluster s c) (P : Word → Prop) :
    (∀ l, P l → ∀ i < 512, s.disk.sector l i = due s c v l i) ↔
      ∀ copy < s.bootSector.nbFat.toNat, ∀ j < s.fatType.toNat,
        P (fatSector s copy ((s.fatType.toNat * c.toNat + j) / (8 * 512))) →
          (fatBytes s copy).bit (s.fatType.toNat * c.toNat + j) = v.getLsbD j := by
  have hfits := A.fits c hc
  rw [mul_add, mul_one] at hfits
  generalize hk : s.fatType.toNat * c.toNat = k at hfits ⊢
  constructor
  · intro h copy hcopy j hj hP
    have hn : (k + j) / (8 * 512) < s.fatSectors.toNat := Nat.div_lt_of_lt_mul (by omega)
    have e := h _ hP ((k + j) / 8 % 512) (Nat.mod_lt _ (by decide))
    rw [due_fatSector A hcopy hn, hk, ← fatBytes_sector (Nat.mod_lt _ (by decide)),
      show 512 * ((k + j) / (8 * 512)) + (k + j) / 8 % 512 = (k + j) / 8 by omega] at e
    rw [Buffer.bit_congr e, Buffer.bit_setField, if_pos ⟨by omega, by omega⟩, Nat.add_sub_cancel_left]
  · intro h l hP i hi
    by_cases hl : (l - s.firstFatSector).toNat < s.bootSector.nbFat.toNat * s.fatSectors.toNat
    swap
    · simp only [due, if_neg hl]
    have hpos : 0 < s.fatSectors.toNat := by
      rcases Nat.eq_zero_or_pos s.fatSectors.toNat with e | e
      · rw [e] at hl
        omega
      · exact e
    have hcopy := Nat.div_lt_of_lt_mul (show (l - s.firstFatSector).toNat <
      s.fatSectors.toNat * s.bootSector.nbFat.toNat by rwa [Nat.mul_comm])
    have hn := Nat.mod_lt (l - s.firstFatSector).toNat hpos
    rw [eq_fatSector (s := s) (l := l)] at hP ⊢
    generalize (l - s.firstFatSector).toNat / s.fatSectors.toNat = copy at hP hcopy ⊢
    generalize (l - s.firstFatSector).toNat % s.fatSectors.toNat = n at hP hn ⊢
    rw [due_fatSector A hcopy hn, ← fatBytes_sector hi, hk]
    apply BitVec.eq_of_getLsbD_eq
    intro b hb
    rw [← Buffer.bit_byte hb, ← Buffer.bit_byte hb, Buffer.bit_setField]
    split
    · rename_i hin
      have e := h copy hcopy (8 * (512 * n + i) + b - k) (by omega)
      rw [show k + (8 * (512 * n + i) + b - k) = 8 * (512 * n + i) + b by omega,
        show (8 * (512 * n + i) + b) / (8 * 512) = n by omega] at e
      exact e hP
    · rfl

/-! ## What is written -/

theorem updateFat_written (C : Cached s) (A : FatArea s) (hc : IsCluster s c) :
    (updateFat s c v).2.disk = (s.disk.write (writtenSector s c) (writtenBytes s c v)).2 := by
  have ht := A.detected.known
  obtain ⟨e, he, -⟩ := entryOffset_eq ht (A.toFatVolume.offset_lt A.detected hc)
  rw [updateFat_ok C he, writtenSector, he, Option.getD_some, writtenBytes]
  simp only [encode_eq ht, entry_mod ht (A.toFatVolume.offset_lt A.detected hc) he]

/-- The cached sector goes to one sector, and all others have to hold what is due in them already. -/
theorem updated_iff (C : Cached s) (A : FatArea s) (hc : IsCluster s c) (v : Word) :
    Updated s (updateFat s c v).2 c v ↔
      (∀ copy < s.bootSector.nbFat.toNat, ∀ j < s.fatType.toNat,
        (s.disk.writeFails (writtenSector s c) = true ∨
          fatSector s copy ((s.fatType.toNat * c.toNat + j) / (8 * 512)) ≠ writtenSector s c) →
            (fatBytes s copy).bit (s.fatType.toNat * c.toNat + j) = v.getLsbD j) ∧
      (s.disk.writeFails (writtenSector s c) = true ∨
        ∀ i < 512, writtenBytes s c v i = due s c v (writtenSector s c) i) := by
  rw [← due_iff A hc fun l => s.disk.writeFails (writtenSector s c) = true ∨ l ≠ writtenSector s c, Updated,
    updateFat_written C A hc]
  generalize writtenSector s c = w
  cases hf : s.disk.writeFails w with
  | true =>
    rw [Disk.write_of_fails hf]
    exact ⟨fun h => ⟨fun l _ => h l, .inl rfl⟩, fun h l => h.1 l (.inl rfl)⟩
  | false =>
    constructor
    · intro h
      refine ⟨fun l hl i hi => ?_, .inr fun i hi => ?_⟩
      · rw [← h l i hi, Disk.sector_write_of_ne (hl.resolve_left Bool.false_ne_true)]
      · rw [← h w i hi, Disk.sector_write_self hf hi]
    · rintro ⟨h, h'⟩ l i hi
      by_cases hl : l = w
      · rw [hl, Disk.sector_write_self hf hi]
        exact h'.resolve_left Bool.false_ne_true i hi
      · rw [Disk.sector_write_of_ne hl]
        exact h l (.inr hl) i hi

/-! ## The first copy -/

/-- The entry of a cluster is in an earlier sector of the first copy. -/
theorem writtenSector_ne (A : FatArea s) (hc : IsCluster s c) {j : Nat} (hj : j < s.fatType.toNat) :
    fatSector s 0 ((s.fatType.toNat * c.toNat + j) / (8 * 512)) ≠ writtenSector s c := by
  have ht := A.detected.known
  have hlt := A.toFatVolume.offset_lt A.detected hc
  obtain ⟨e, he, hbits⟩ := entryOffset_eq ht hlt
  have hw := ht.width_le
  have hshift : entryShift s.fatType c < 8 := by
    rw [entryShift]
    split <;> omega
  have hpos : 12 * 2 ≤ s.fatType.toNat * c.toNat := Nat.mul_le_mul ht.width_pos hc.1
  rw [fatSector_eq, writtenSector, he, Option.getD_some]
  intro h
  have h := congrArg BitVec.toNat (add_left_cancel h)
  rw [BitVec.toNat_ofNat, zero_mul, zero_add, Nat.mod_eq_of_lt (by omega)] at h
  omega

/-- So `update_fat` never sets it there. -/
theorem updated_first (C : Cached s) (A : FatArea s) (hc : IsCluster s c) (hn : 0 < s.bootSector.nbFat.toNat)
    (h : Updated s (updateFat s c v).2 c v) :
    fatEntry s 0 c = extend s.fatType ((v.setWidth s.fatType.toNat).setWidth 32) := by
  have ht := A.detected.known
  rw [fatEntry_field ht (A.toFatVolume.offset_lt A.detected hc)]
  congr 1
  apply BitVec.eq_of_getLsbD_eq
  intro j hj
  rw [Buffer.getLsbD_field ht.width_le, BitVec.getLsbD_setWidth, BitVec.getLsbD_setWidth, decide_eq_true hj,
    Bool.true_and]
  by_cases hw : j < s.fatType.toNat
  · rw [((updated_iff C A hc v).mp h).1 0 hn j hw (.inr (writtenSector_ne A hc hw))]
  · rw [decide_eq_false hw, Bool.false_and, Bool.false_and]

/-! ## A cluster that is marked already -/

theorem fatArea_someFat : FatArea someFat where
  bytesPerSector := rfl
  fat16 := by decide
  fat32 := by decide
  detected := .inl ⟨rfl, by decide⟩
  noWrap := by decide
  fits c hc := by
    have h : c.toNat < 8 + 2 := hc.2
    show 12 * (c.toNat + 1) ≤ 8 * 512 * 1
    omega

/-- Cluster 2 has its mark already, and the sector that is written for it holds what is written. -/
def markedFat : Driver :=
  { someFat with disk := { someDisk with sector := fun l => someDisk.sector (if l = 4 then 1 else l) } }

theorem fatArea_markedFat : FatArea markedFat := { fatArea_someFat with }

theorem updated_markedFat : Updated markedFat (updateFat markedFat 2 0xFFFFFFFF).2 2 0xFFFFFFFF :=
  (updated_iff (s := markedFat) ⟨rfl, rfl⟩ fatArea_markedFat ⟨by decide, by decide⟩ 0xFFFFFFFF).mpr
    ⟨by decide +kernel, .inr (by decide +kernel)⟩

theorem updateFat_not_updated : ¬ ∀ (s : Driver) (c v : Word), Cached s → FatArea s → IsCluster s c →
    Updated s (updateFat s c v).2 c v := fun h =>
  absurd (h someFat 3 5 wellFormed_someFat.cached fatArea_someFat ⟨by decide, by decide⟩ 5 0 (by decide))
    (by decide)

end

end AlexOS.Fat
