import AlexOS.Lib.Field
import AlexOS.Fat.Volume

/-!
# Entries of the FAT

The entry of a cluster is a bit field: with `w` bits to an entry, that of
cluster `c` is the `w` bits from bit `w * c` on, and in 12 bits too it is at
the bytes and the shift that `next_cluster` and `update_fat` compute
(`entryOffset_eq`, `decode_eq`, `encode_eq`). So an entry of the table that
`update_fat` sets is the one that `next_cluster` finds, and the entries of
other clusters stay as they were (`update_next`).
-/

namespace AlexOS.Fat

/-- The types of FAT with entries of their own width. -/
def KnownType (fatType : Byte) : Prop := fatType = 12 ∨ fatType = 16 ∨ fatType = 32

/-- End marks of 12 and 16 bits are extended with ones. -/
def extend (fatType : Byte) (val : Word) : Word :=
  if fatType = 12 then if val ≥ 0x0FF8 then val ||| 0xFFFFF000 else val
  else if fatType = 16 then if val ≥ 0xFFF8 then val ||| 0xFFFF0000 else val
  else val

/-- The bits of the first byte that belong to the entry before. -/
def entryShift (fatType : Byte) (cluster : Word) : Nat :=
  if fatType = 12 then 4 * (cluster.toNat % 2) else 0

/-- The entry of a cluster is in the first 512 bytes of the FAT. -/
def EntryInside (fatType : Byte) (cluster : Word) : Prop :=
  fatType.toNat * (cluster.toNat + 1) ≤ 8 * 512

instance (fatType : Byte) (cluster : Word) : Decidable (EntryInside fatType cluster) :=
  inferInstanceAs (Decidable (_ ≤ _))

section

variable {s : Driver} {fatType : Byte} {table : Buffer} {c d v e : Word} {o : Nat}

theorem and_one_ne_zero_iff : c &&& 1 ≠ 0 ↔ c.toNat % 2 = 1 := by
  rw [Ne, BitVec.toNat_eq, BitVec.toNat_and, show (1 : Word).toNat = 2 ^ 1 - 1 from rfl,
    Nat.and_two_pow_sub_one_eq_mod, show (0 : Word).toNat = 0 from rfl]
  omega

/-! ## The masks of an entry of 12 bits -/

theorem getLsbD_0FFF {j : Nat} (hj : j < 32) : (0x0FFF : Word).getLsbD j = decide (j < 12) :=
  (by decide : ∀ j < 32, (0x0FFF : Word).getLsbD j = decide (j < 12)) j hj

theorem getLsbD_FFF0 {j : Nat} (hj : j < 32) : (0xFFF0 : Word).getLsbD j = decide (4 ≤ j ∧ j < 16) :=
  (by decide : ∀ j < 32, (0xFFF0 : Word).getLsbD j = decide (4 ≤ j ∧ j < 16)) j hj

theorem getLsbD_000F {j : Nat} (hj : j < 32) : (0x000F : Word).getLsbD j = decide (j < 4) :=
  (by decide : ∀ j < 32, (0x000F : Word).getLsbD j = decide (j < 4)) j hj

theorem getLsbD_F000 {j : Nat} (hj : j < 32) : (0xF000 : Word).getLsbD j = decide (12 ≤ j ∧ j < 16) :=
  (by decide : ∀ j < 32, (0xF000 : Word).getLsbD j = decide (12 ≤ j ∧ j < 16)) j hj

/-! ## The value of an entry -/

theorem decode_12 : decode 12 table o c = extend 12 (table.field (8 * o + entryShift 12 c) 12) := by
  have e : (if c &&& 1 ≠ 0 then ((table.load16 o).setWidth 32 : Word) >>> 4
      else (table.load16 o).setWidth 32 &&& 0x0FFF) = table.field (8 * o + entryShift 12 c) 12 := by
    apply BitVec.eq_of_getLsbD_eq
    intro j hj
    rw [Buffer.getLsbD_field (by decide), entryShift, if_pos rfl]
    by_cases h : c &&& 1 ≠ 0
    · rw [if_pos h, and_one_ne_zero_iff.mp h, BitVec.getLsbD_ushiftRight, BitVec.getLsbD_setWidth,
        Buffer.getLsbD_load16, show 8 * o + (4 + j) = 8 * o + 4 * 1 + j by omega]
      grind
    · rw [if_neg h, show c.toNat % 2 = 0 by have := mt and_one_ne_zero_iff.mpr h; omega,
        BitVec.getLsbD_and, BitVec.getLsbD_setWidth, Buffer.getLsbD_load16, mul_zero, add_zero,
        getLsbD_0FFF hj]
      grind
  simp only [decode, if_pos, extend]
  rw [← e]

theorem setWidth_load16 : ((table.load16 o).setWidth 32 : Word) = table.field (8 * o) 16 := by
  apply BitVec.eq_of_getLsbD_eq
  intro j hj
  rw [Buffer.getLsbD_field (by decide), BitVec.getLsbD_setWidth, Buffer.getLsbD_load16, decide_eq_true hj,
    Bool.true_and]

theorem load32_eq_field : table.load32 o = table.field (8 * o) 32 := by
  apply BitVec.eq_of_getLsbD_eq
  intro j hj
  rw [Buffer.getLsbD_field (by decide), Buffer.getLsbD_load32]

theorem decode_eq (ht : KnownType fatType) :
    decode fatType table o c = extend fatType (table.field (8 * o + entryShift fatType c) fatType.toNat) := by
  obtain rfl | rfl | rfl := ht
  · exact decode_12
  · show extend 16 ((table.load16 o).setWidth 32) = _
    rw [setWidth_load16]
    rfl
  · show table.load32 o = _
    rw [load32_eq_field]
    rfl

/-- The low half of the word of an odd cluster, or the high half of that of an even one, stays. -/
theorem encode_12 : encode 12 table o c v = table.setField (8 * o + entryShift 12 c) 12 v := by
  apply Buffer.ext_bit
  intro i
  simp only [encode, if_pos, entryShift]
  rw [Buffer.bit_store16, Buffer.bit_setField]
  by_cases hi : 8 * o ≤ i ∧ i < 8 * o + 16
  swap
  · rw [if_neg hi, if_neg (by omega)]
  obtain ⟨j, rfl⟩ := Nat.exists_eq_add_of_le hi.1
  have hj : j < 16 := by omega
  rw [if_pos hi, Nat.add_sub_cancel_left, BitVec.getLsbD_setWidth, decide_eq_true hj, Bool.true_and]
  have hval : ((table.load16 o).setWidth 32 : Word).getLsbD j = table.bit (8 * o + j) := by
    rw [BitVec.getLsbD_setWidth, Buffer.getLsbD_load16, decide_eq_true hj,
      decide_eq_true (show j < 32 by omega), Bool.true_and, Bool.true_and]
  by_cases h : c &&& 1 ≠ 0
  · rw [if_pos h, and_one_ne_zero_iff.mp h, BitVec.getLsbD_or, BitVec.getLsbD_and, BitVec.getLsbD_and, hval,
      getLsbD_FFF0 (by omega), getLsbD_000F (by omega), BitVec.getLsbD_shiftLeft, BitVec.getLsbD_and,
      getLsbD_0FFF (by omega)]
    by_cases h4 : j < 4
    · rw [if_neg (by omega)]
      simp [h4]
    · rw [if_pos (by omega), show 8 * o + j - (8 * o + 4 * 1) = j - 4 by omega]
      simp [h4, hj, show 4 ≤ j by omega, show j < 32 by omega, show j - 4 < 12 by omega]
  · rw [if_neg h, show c.toNat % 2 = 0 by have := mt and_one_ne_zero_iff.mpr h; omega, BitVec.getLsbD_or,
      BitVec.getLsbD_and, BitVec.getLsbD_and, hval, getLsbD_0FFF (by omega), getLsbD_F000 (by omega)]
    by_cases h12 : j < 12
    · rw [if_pos (by omega), show 8 * o + j - (8 * o + 4 * 0) = j by omega]
      simp [h12, show ¬ 12 ≤ j by omega]
    · rw [if_neg (by omega)]
      simp [h12, hj, show 12 ≤ j by omega]

theorem encode_eq (ht : KnownType fatType) :
    encode fatType table o c v = table.setField (8 * o + entryShift fatType c) fatType.toNat v := by
  obtain rfl | rfl | rfl := ht
  · exact encode_12
  · show table.store16 o ((v &&& 0xFFFF).setWidth 16) = table.setField (8 * o) 16 v
    apply Buffer.ext_bit
    intro i
    rw [Buffer.bit_store16, Buffer.bit_setField]
    split
    · rw [BitVec.getLsbD_setWidth, BitVec.getLsbD_and, decide_eq_true (by omega), Bool.true_and,
        show (0xFFFF : Word) = BitVec.ofNat 32 (2 ^ 16 - 1) from rfl, BitVec.getLsbD_ofNat,
        Nat.testBit_two_pow_sub_one, decide_eq_true (by omega), decide_eq_true (by omega), Bool.and_self,
        Bool.and_true]
    · rfl
  · show table.store32 o v = table.setField (8 * o) 32 v
    apply Buffer.ext_bit
    intro i
    rw [Buffer.bit_store32, Buffer.bit_setField]

/-! ## The place of an entry -/

/-- An entry of cluster `c` starts at bit `w * c`, if this is at an offset of 32 bits. -/
theorem entryOffset_eq (ht : KnownType fatType) (hc : fatType.toNat * c.toNat < 8 * 2 ^ 32) :
    ∃ e, entryOffset fatType c = some e ∧ 8 * e.toNat + entryShift fatType c = fatType.toNat * c.toNat := by
  obtain rfl | rfl | rfl := ht
  · have h : 12 * c.toNat < 8 * 2 ^ 32 := hc
    refine ⟨c + c / 2, rfl, ?_⟩
    show 8 * (c + c / 2).toNat + 4 * (c.toNat % 2) = 12 * c.toNat
    rw [BitVec.toNat_add, BitVec.toNat_udiv, show (2 : Word).toNat = 2 from rfl]
    omega
  · have h : 16 * c.toNat < 8 * 2 ^ 32 := hc
    refine ⟨c * 2, rfl, ?_⟩
    show 8 * (c * 2).toNat = 16 * c.toNat
    rw [BitVec.toNat_mul, show (2 : Word).toNat = 2 from rfl]
    omega
  · have h : 32 * c.toNat < 8 * 2 ^ 32 := hc
    refine ⟨c * 4, rfl, ?_⟩
    show 8 * (c * 4).toNat = 32 * c.toNat
    rw [BitVec.toNat_mul, show (4 : Word).toNat = 4 from rfl]
    omega

theorem KnownType.width_le (ht : KnownType fatType) : fatType.toNat ≤ 32 := by
  obtain rfl | rfl | rfl := ht <;> decide

theorem KnownType.width_pos (ht : KnownType fatType) : 12 ≤ fatType.toNat := by
  obtain rfl | rfl | rfl := ht <;> decide

/-- The offset of an entry inside the first sector. -/
theorem EntryInside.offset (ht : KnownType fatType) (hc : EntryInside fatType c) :
    ∃ e, entryOffset fatType c = some e ∧ (e % 512).toNat = e.toNat ∧
      8 * e.toNat + entryShift fatType c = fatType.toNat * c.toNat := by
  have h : fatType.toNat * (c.toNat + 1) ≤ 8 * 512 := hc
  have hw := ht.width_pos
  rw [mul_add, mul_one] at h
  obtain ⟨e, he, hbits⟩ := entryOffset_eq (c := c) ht (by omega)
  refine ⟨e, he, ?_, hbits⟩
  rw [BitVec.toNat_umod, show (512 : Word).toNat = 512 from rfl]
  exact Nat.mod_eq_of_lt (by omega)

/-- Fields of different clusters are apart. -/
theorem entries_disjoint {w : Nat} (hcd : c ≠ d) :
    w * c.toNat + w ≤ w * d.toNat ∨ w * d.toNat + w ≤ w * c.toNat := by
  have h : c.toNat ≠ d.toNat := fun h => hcd (BitVec.eq_of_toNat_eq h)
  rcases Nat.lt_or_gt_of_ne h with h | h
  · exact .inl (by rw [← Nat.mul_succ]; exact Nat.mul_le_mul_left w h)
  · exact .inr (by rw [← Nat.mul_succ]; exact Nat.mul_le_mul_left w h)

/-! ## In the cached sector -/

theorem successor_inside (ht : KnownType s.fatType) (hc : EntryInside s.fatType c) :
    successor s c = extend s.fatType (s.table.field (s.fatType.toNat * c.toNat) s.fatType.toNat) := by
  obtain ⟨e, he, hmod, hbits⟩ := hc.offset ht
  simp only [successor, he]
  rw [decode_eq ht, hmod, hbits]

theorem updateFat_ok (C : Cached s) (he : entryOffset s.fatType c = some e) : updateFat s c v =
    (true, { s with
      table := encode s.fatType s.table (e % 512).toNat c v
      disk := (s.disk.write (s.firstFatSector + e) (encode s.fatType s.table (e % 512).toNat c v)).2 }) := by
  have hb : s.bootSector.bytesPerSector.setWidth 32 = (512 : Word) := by rw [C.bytesPerSector]; rfl
  simp only [updateFat, he, hb, loadEntry_ok C]

theorem updateFat_inside (C : Cached s) (ht : KnownType s.fatType) (hc : EntryInside s.fatType c) :
    (updateFat s c v).2.table = s.table.setField (s.fatType.toNat * c.toNat) s.fatType.toNat v ∧
      (updateFat s c v).2.fatType = s.fatType ∧ Cached (updateFat s c v).2 := by
  obtain ⟨e, he, hmod, hbits⟩ := hc.offset ht
  rw [updateFat_ok C he]
  refine ⟨?_, rfl, C.bytesPerSector, C.fatOffset⟩
  show encode s.fatType s.table (e % 512).toNat c v = _
  rw [encode_eq ht, hmod, hbits]

/-- The entry that was set is found again, and those of other clusters are as before. -/
theorem update_next (C : Cached s) (ht : KnownType s.fatType) (hc : EntryInside s.fatType c)
    (hd : EntryInside s.fatType d) (hcd : c ≠ d) (v : Word) :
    (nextCluster (updateFat s c v).2 c).1 =
        extend s.fatType ((v.setWidth s.fatType.toNat).setWidth 32) ∧
      (nextCluster (updateFat s c v).2 d).1 = (nextCluster s d).1 := by
  obtain ⟨htable, htype, C'⟩ := updateFat_inside (v := v) C ht hc
  rw [nextCluster_ok C', nextCluster_ok C', nextCluster_ok C]
  constructor
  · show successor _ c = _
    rw [successor_inside (htype ▸ ht) (htype ▸ hc), htable, htype, Buffer.field_setField_self ht.width_le]
  · show successor _ d = successor s d
    rw [successor_inside (htype ▸ ht) (htype ▸ hd), htable, htype, successor_inside ht hd,
      Buffer.field_setField_of_disjoint ht.width_le (entries_disjoint hcd)]

theorem update_next_someFat : (nextCluster (updateFat someFat 3 0x1FF9).2 3).1 = 0xFFFFFFF9 ∧
    (nextCluster (updateFat someFat 3 0x1FF9).2 2).1 = (nextCluster someFat 2).1 :=
  update_next wellFormed_someFat.cached (.inl rfl) (by decide) (by decide) (by decide) 0x1FF9

end

end AlexOS.Fat
