import AlexOS.Virtual.PageTables

/-!
# Entries

An entry holds a frame, the address of a page, in its upper twenty bits
(`frame`), and attributes in the others. `SET_FRAME` keeps bit 31 of the entry
it is given, as well as the attributes: the frame of the new entry is the one
set exactly if the old one has bit 31 clear or the new one has it set
(`frame_mapEntry_iff`).
-/

namespace AlexOS.Virtual

/-- The frame of an entry. -/
def frame (e : Word) : Word := e &&& ~~~0xFFF

/-- The present bit of an entry. -/
def isPresent (e : Word) : Prop := e &&& 1 ≠ 0

instance (e : Word) : Decidable (isPresent e) := inferInstanceAs (Decidable (_ ≠ _))

/-- The entry that `map_page` leaves in the place of `e`. -/
def mapEntry (e p : Word) : Word := ((e &&& ~~~0x7FFFF000) ||| p) ||| 1

/-- The entry that `unmap_page` leaves in the place of `e`. -/
def unmapEntry (e : Word) : Word := ((e &&& ~~~0x7FFFF000) ||| 0) &&& ~~~1

/-- The directory entry of a new table at `t`, in the place of `e`. -/
def tableEntry (e t : Word) : Word := ((e ||| 1 ||| 2) &&& ~~~0x7FFFF000) ||| t

section

variable {e p t v : Word} {i : Nat}

theorem getLsbD_mask12 (hi : i < 32) : (~~~0xFFF : Word).getLsbD i = decide (12 ≤ i) := by
  revert i
  decide

theorem getLsbD_maskFrame (hi : i < 32) :
    (~~~0x7FFFF000 : Word).getLsbD i = (decide (i < 12) || decide (i = 31)) := by
  revert i
  decide

theorem getLsbD_flag (hi : i < 32) : (1 : Word).getLsbD i = decide (i = 0) := by
  revert i
  decide

/-- An aligned address has no attributes. -/
theorem getLsbD_of_aligned (h : Aligned p) (hi : i < 12) : p.getLsbD i = false := by
  rw [Aligned] at h
  have e : p.toNat = 2 ^ 12 * (p.toNat / 4096) := by omega
  rw [BitVec.getLsbD, e, Nat.testBit_two_pow_mul, decide_eq_false (by omega), Bool.false_and]

theorem aligned_frame (e : Word) : Aligned (frame e) := by
  have h : frame e &&& 0xFFF = 0 := by
    apply BitVec.eq_of_getLsbD_eq
    intro i hi
    have h : (0xFFF : Word).getLsbD i = !(~~~0xFFF : Word).getLsbD i := by
      revert i
      decide
    rw [frame, BitVec.getLsbD_and, BitVec.getLsbD_and, h, Bool.and_assoc, Bool.and_not_self,
      Bool.and_false]
    exact BitVec.getLsbD_zero.symm
  have h := congrArg BitVec.toNat h
  rw [BitVec.toNat_and, show (0xFFF : Word).toNat = 2 ^ 12 - 1 from rfl,
    Nat.and_two_pow_sub_one_eq_mod] at h
  exact h

theorem isPresent_iff : isPresent e ↔ e.getLsbD 0 = true := by
  have h := Word.and_one_shl_eq_zero e (k := 0) (by decide)
  rw [isPresent, Ne, show (1 : Word) = (1 : Word) <<< 0 from rfl, h, Bool.not_eq_false]

theorem isPresent_mapEntry (e p : Word) : isPresent (mapEntry e p) := by
  rw [isPresent_iff, mapEntry, BitVec.getLsbD_or, getLsbD_flag (by decide)]
  exact Bool.or_true _

theorem not_isPresent_unmapEntry (e : Word) : ¬ isPresent (unmapEntry e) := by
  rw [isPresent_iff, unmapEntry, BitVec.getLsbD_and, BitVec.getLsbD_not, getLsbD_flag (by decide)]
  simp

theorem isPresent_tableEntry (e t : Word) : isPresent (tableEntry e t) := by
  rw [isPresent_iff, tableEntry, BitVec.getLsbD_or, BitVec.getLsbD_and, BitVec.getLsbD_or,
    BitVec.getLsbD_or, getLsbD_flag (by decide), getLsbD_maskFrame (by decide)]
  simp

theorem mem_setEntry (m : Mem) (entry t : Addr) :
    setEntry m entry t = m.store32 entry (tableEntry (m.load32 entry) t) := by
  simp only [setEntry, setFrame, setAttribute, Mem.load32_store32_self, Mem.store32_store32]
  rfl

theorem writePage_eq (s : Paging) (p v : Word) : writePage s p v =
    s.withMem (s.mem.store32 (getPage s v) (mapEntry (s.mem.load32 (getPage s v)) p)) := by
  simp only [writePage, setFrame, setAttribute, Mem.load32_store32_self, Mem.store32_store32]
  rfl

theorem unmapPage_eq (s : Paging) (v : Word) : unmapPage s v =
    s.withMem (s.mem.store32 (getPage s v) (unmapEntry (s.mem.load32 (getPage s v)))) := by
  simp only [unmapPage, setFrame, unsetAttribute, Mem.load32_store32_self, Mem.store32_store32]
  rfl

theorem not_isPresent_two : ¬ isPresent 2 := by decide

/-- An entry that was never present has no frame, so that the frame set is the frame. -/
theorem frame_tableEntry_two (ht : Aligned t) : frame (tableEntry 2 t) = t := by
  apply BitVec.eq_of_getLsbD_eq
  intro i hi
  have h3 : ((2 ||| 1 ||| 2 : Word) &&& ~~~0x7FFFF000).getLsbD i = decide (i < 2) := by
    revert i
    decide
  rw [frame, tableEntry, BitVec.getLsbD_and, BitVec.getLsbD_or, h3, getLsbD_mask12 hi]
  by_cases h : i < 12
  · rw [getLsbD_of_aligned ht h, decide_eq_false (show ¬ 12 ≤ i by omega), Bool.and_false]
  · rw [decide_eq_false (show ¬ i < 2 by omega), decide_eq_true (show 12 ≤ i by omega), Bool.false_or,
      Bool.and_true]

theorem getLsbD_frame_mapEntry (hp : Aligned p) (hi : i < 32) :
    (frame (mapEntry e p)).getLsbD i = (decide (i = 31) && e.getLsbD 31 || p.getLsbD i) := by
  rw [frame, mapEntry, BitVec.getLsbD_and, BitVec.getLsbD_or, BitVec.getLsbD_or, BitVec.getLsbD_and,
    getLsbD_flag hi, getLsbD_maskFrame hi, getLsbD_mask12 hi]
  by_cases h : i < 12
  · rw [getLsbD_of_aligned hp h, decide_eq_false (show ¬ 12 ≤ i by omega),
      decide_eq_false (show ¬ i = 31 by omega)]
    simp
  · rw [decide_eq_false h, decide_eq_true (show 12 ≤ i by omega),
      decide_eq_false (show ¬ i = 0 by omega)]
    by_cases h31 : i = 31
    · subst h31; simp
    · rw [decide_eq_false h31]; simp

/-- The frame is the one that was set, unless bit 31 of the old entry is left over. -/
theorem frame_mapEntry_iff (hp : Aligned p) :
    frame (mapEntry e p) = p ↔ (e.getLsbD 31 = true → p.getLsbD 31 = true) := by
  constructor
  · intro h he
    have := getLsbD_frame_mapEntry (e := e) hp (i := 31) (by decide)
    rw [h, he] at this
    simpa using this
  · intro h
    apply BitVec.eq_of_getLsbD_eq
    intro i hi
    rw [getLsbD_frame_mapEntry hp hi]
    by_cases h31 : i = 31
    · subst h31
      cases he : e.getLsbD 31
      · simp
      · simp [h he]
    · simp [h31]

theorem getLsbD_frame_31 (e : Word) : (frame e).getLsbD 31 = e.getLsbD 31 := by
  rw [frame, BitVec.getLsbD_and, getLsbD_mask12 (by decide), decide_eq_true (by decide), Bool.and_true]

theorem getLsbD_31_iff : p.getLsbD 31 = true ↔ 2 ^ 31 ≤ p.toNat := by
  rw [show p.getLsbD 31 = p.msb from (BitVec.msb_eq_getLsbD_last p).symm, BitVec.msb_eq_decide, decide_eq_true_iff]

/-- `unmap_page` clears bits of an entry, and sets none. -/
theorem getLsbD_unmapEntry (h : (unmapEntry e).getLsbD i = true) : e.getLsbD i = true := by
  have hz : (0 : Word).getLsbD i = false := BitVec.getLsbD_zero
  rw [unmapEntry, BitVec.getLsbD_and, BitVec.getLsbD_or, BitVec.getLsbD_and, hz, Bool.or_false, Bool.and_eq_true,
    Bool.and_eq_true] at h
  exact h.1.1

/-! ## The parts of a virtual address -/

theorem toNat_PD_INDEX (v : Word) : (PD_INDEX v).toNat = v.toNat / 2 ^ 22 := by
  rw [PD_INDEX, BitVec.toNat_ushiftRight, Nat.shiftRight_eq_div_pow]

theorem toNat_PT_INDEX (v : Word) : (PT_INDEX v).toNat = v.toNat / 4096 % 1024 := by
  rw [PT_INDEX, BitVec.toNat_and, BitVec.toNat_ushiftRight, Nat.shiftRight_eq_div_pow,
    show (0x3FF : Word).toNat = 2 ^ 10 - 1 from rfl, Nat.and_two_pow_sub_one_eq_mod]

theorem PD_INDEX_lt (v : Word) : (PD_INDEX v).toNat < 1024 := by
  have := v.isLt
  rw [toNat_PD_INDEX]
  omega

theorem PT_INDEX_lt (v : Word) : (PT_INDEX v).toNat < 1024 := by
  rw [toNat_PT_INDEX]
  exact Nat.mod_lt _ (by decide)

/-- The two indices are those of the page. -/
theorem page_eq_iff {v v' : Word} :
    page v = page v' ↔ PD_INDEX v = PD_INDEX v' ∧ PT_INDEX v = PT_INDEX v' := by
  rw [BitVec.toNat_eq, BitVec.toNat_eq, toNat_PD_INDEX, toNat_PD_INDEX, toNat_PT_INDEX,
    toNat_PT_INDEX, page, page]
  omega

theorem page_add {k : Word} (hv : Aligned v) (hk : k.toNat < 4096) : page (v + k) = page v := by
  have := v.isLt
  rw [Aligned] at hv
  rw [page, page, BitVec.toNat_add]
  omega

theorem offset_add {k : Word} (hv : Aligned v) (hk : k.toNat < 4096) : (v + k) &&& 0xFFF = k := by
  have := v.isLt
  rw [Aligned] at hv
  apply BitVec.eq_of_toNat_eq
  rw [BitVec.toNat_and, show (0xFFF : Word).toNat = 2 ^ 12 - 1 from rfl,
    Nat.and_two_pow_sub_one_eq_mod, BitVec.toNat_add]
  omega

/-! ## Ranges -/

theorem toNat_NB_PAGE (size : Word) : (NB_PAGE size).toNat = (size.toNat + 4095) / 4096 := by
  have hlt := size.isLt
  have hd : (size / PAGE_SIZE).toNat = size.toNat / 4096 := BitVec.toNat_udiv
  have hm : (size % PAGE_SIZE).toNat = size.toNat % 4096 := BitVec.toNat_umod
  rw [NB_PAGE, BitVec.toNat_add, hd]
  split
  · rename_i h0
    rw [h0] at hm
    have hm : 0 = size.toNat % 4096 := hm
    rw [show (0 : Word).toNat = 0 from rfl]
    omega
  · rename_i h0
    have hm0 : size.toNat % 4096 ≠ 0 := fun e => h0 (BitVec.eq_of_toNat_eq (hm.trans e))
    rw [show (1 : Word).toNat = 1 from rfl]
    omega

theorem pageAfter_eq (a : Addr) (i : Nat) : pageAfter a i = a + BitVec.ofNat 32 (4096 * i) := by
  rw [pageAfter, BitVec.ofNat_mul]
  rfl

theorem pageAfter_zero (a : Addr) : pageAfter a 0 = a := by
  rw [pageAfter, show PAGE_SIZE * BitVec.ofNat 32 0 = 0 from rfl, add_zero]

end

end AlexOS.Virtual
