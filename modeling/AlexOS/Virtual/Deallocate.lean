import AlexOS.Virtual.Undo

/-!
# Giving a range back

`deallocate_page` releases as many blocks as the range has pages, but from the
block of the page *table* of the first page on: `get_page` returns the address
of the page's entry. The table is in none of the blocks of the range, which are
fresh. If it is marked used, it is marked free in every case, since what follows
only clears bits (`bit_of_unmapPages`); if it is not, the first or the last block
of the range stays marked used, unless blocks behind the bitmap are released.
-/

namespace AlexOS.Virtual

open Physical

/-- The range that was mapped between `s` and `s₁` is given back between `s₁` and `s₂`: its pages are not
present, its blocks are free, and nothing else is changed. -/
structure GivenBack (s s₁ s₂ : Paging) (address nbPage : Word) : Prop where
  absent : ∀ v, page v ∈ pagesOf address nbPage.toNat → ¬ present s₂ v
  bits : ∀ c, c < s.phys.maxBlocks →
    (bit s₂.phys c ↔ bit s₁.phys c ∧ ¬ Taken (allocateBlocks s.phys nbPage).1 nbPage c)
  others : ∀ v, page v ∉ pagesOf address nbPage.toNat →
    (present s₂ v ↔ present s₁ v) ∧ (present s₁ v → getPhysAddr s₂ v = getPhysAddr s₁ v)

section

variable {s : Paging} {address v : Addr} {c nbPage e : Word} {n : Nat}

/-- Even if the entry is taken for one of the words of the map. -/
theorem bit_of_unmapPage (hm : s.phys.memoryMap.toNat % 4 = 0) (h : bit (unmapPage s v).phys c) : bit s.phys c := by
  have hal : (getPage s v).toNat % 4 = 0 := slot_aligned (aligned_frame _) (PT_INDEX_lt v)
  rw [unmapPage_eq] at h
  have h : ((s.mem.store32 (getPage s v) (unmapEntry (s.mem.load32 (getPage s v)))).load32
      (wordAt s.phys.memoryMap c)).getLsbD (c.toNat % 32) = true := h
  by_cases he : getPage s v = wordAt s.phys.memoryMap c
  · rw [← he, Mem.load32_store32_self] at h
    rw [bit, Mem.bit, ← he]
    exact getLsbD_unmapEntry h
  · rw [Mem.load32_store32_of_ne hal (wordAt_aligned hm c) he] at h
    exact h

theorem bit_of_unmapPages (hm : s.phys.memoryMap.toNat % 4 = 0) (h : bit (unmapPages s address n).phys c) :
    bit s.phys c := by
  induction n with
  | zero => exact h
  | succ n ih =>
    have h : bit (unmapPage (unmapPages s address n) (pageAfter address n)).phys c := h
    have hm' : (unmapPages s address n).phys.memoryMap.toNat % 4 = 0 := by
      rw [(same_unmapPages s address n).memoryMap]
      exact hm
    exact ih (bit_of_unmapPage hm' h)

theorem blockOf_getPage (s : Paging) (v : Addr) : blockOf (getPage s v) = blockOf (frame (pde s (PD_INDEX v))) :=
  blockOf_slot (aligned_frame _) (PT_INDEX_lt v)

theorem inTable_getPage (hp : isPresent (pde s (PD_INDEX v))) : InTable s (blockOf (getPage s v)) :=
  ⟨_, PD_INDEX_lt v, hp, blockOf_getPage s v⟩

/-- The table of the first page is marked free. -/
theorem Layout.deallocatePage_table (L : Layout s) (hn : 1 ≤ nbPage.toNat)
    (hp : isPresent (pde s (PD_INDEX address))) :
    bit (deallocatePage s address nbPage).phys (blockOf (getPage s address)) = false := by
  have husable := (L.tableUsable _ (inTable_getPage hp)).1
  have h0 : blockOf (getPage s address) ≠ 0 := fun e => by
    have := husable.pos
    rw [e] at this
    exact absurd this (by decide)
  have hrun : InRun (getPage s address / BLOCK_SIZE) nbPage.toNat (blockOf (getPage s address)) := inRun_self hn
  have hfree : bit (freeBlocks s.phys (getPage s address) nbPage) (blockOf (getPage s address)) = false := by
    rw [bit_freeBlocks, decide_eq_false h0, decide_eq_true hrun]
    rfl
  have S := same_freeBlocks s.phys (getPage s address) nbPage
  have hm : (freeBlocks s.phys (getPage s address) nbPage).memoryMap.toNat % 4 = 0 := by
    rw [S.memoryMap]
    exact L.map
  have e : deallocatePage s address nbPage =
      unmapPages { s with phys := freeBlocks s.phys (getPage s address) nbPage } address nbPage.toNat := rfl
  rw [Bool.eq_false_iff] at hfree ⊢
  rw [e]
  exact fun h => hfree (bit_of_unmapPages (s := { s with phys := freeBlocks s.phys (getPage s address) nbPage }) hm h)

/-- What is marked used and not released stays so, if what is released is within the bitmap. -/
theorem Layout.deallocatePage_kept (L : Layout s)
    (hfit : (blockOf (getPage s address)).toNat + nbPage.toNat ≤ s.phys.maxBlocks.toNat)
    (hout : c.toNat < (blockOf (getPage s address)).toNat ∨
      (blockOf (getPage s address)).toNat + nbPage.toNat ≤ c.toNat)
    (hc : c < s.phys.maxBlocks) (hb : bit s.phys c) : bit (deallocatePage s address nbPage).phys c := by
  have hmax := L.maxBlocks
  have hrun : ∀ b, InRun (blockOf (getPage s address)) nbPage.toNat b ↔
      (blockOf (getPage s address)).toNat ≤ b.toNat ∧
        b.toNat < (blockOf (getPage s address)).toNat + nbPage.toNat := fun b => inRun_iff_lt (by omega)
  have L' := L.freeBlocks_ok (a := getPage s address) (n := nbPage) fun b hb => by
    have := (hrun b).mp hb
    rw [BitVec.le_def]
    omega
  refine (L'.unmapPages_ok address nbPage.toNat).used c ?_ (bit_freeBlocks_kept (fun hr => ?_) hb)
  · rw [(same_freeBlocks s.phys (getPage s address) nbPage).maxBlocks]
    exact BitVec.le_of_lt hc
  · have := (hrun c).mp hr
    omega

/-- The block of a table is marked used, or the bitmap has the `n` blocks from it on. -/
def ReleaseSeen (s : Paging) (n : Nat) : Prop :=
  ∀ c, InTable s c → bit s.phys c ∨ c.toNat + n ≤ s.phys.maxBlocks.toNat

/-- The first or the last of `n` numbers is outside of as many others. -/
theorem exists_outside {b c n : Nat} (hn : 1 ≤ n) (h : b ≠ c) : ∃ i < n, b + i < c ∨ c + n ≤ b + i := by
  rcases Nat.lt_or_gt_of_ne h with hlt | hgt
  · exact ⟨0, hn, .inl hlt⟩
  · exact ⟨n - 1, by omega, .inr (by omega)⟩

/-- A block is not as it should be: that of the table, if it is marked used, and else the first or the last
one of the range. -/
theorem Layout.block_wrong (L : Layout s) (U : ReleaseSeen s nbPage.toNat) (F : FreshAllocation s address nbPage)
    (hn : 1 ≤ nbPage.toNat) (h : (allocateNewPage s address nbPage).1 ≠ 0) :
    ∃ c, c < s.phys.maxBlocks ∧
      ¬ (bit (deallocatePage (allocateNewPage s address nbPage).2 address nbPage).phys c ↔
        bit (allocateNewPage s address nbPage).2.phys c ∧ ¬ Taken (allocateBlocks s.phys nbPage).1 nbPage c) := by
  obtain ⟨h0, -, e⟩ := mapPages_of_obtained h
  obtain ⟨-, O⟩ := L.obtained F h
  have hpres : present (allocateNewPage s address nbPage).2 address := by
    rw [present, O.entries 0 hn address (by rw [pageAfter_zero])]
    exact isPresent_mapEntry _ _
  have hp := isPresent_pde hpres
  have hin := inTable_getPage hp
  have hbelow := (O.layout.tableUsable _ hin).1.below
  have hmax := O.same.maxBlocks
  by_cases hused : bit (allocateNewPage s address nbPage).2.phys
      (blockOf (getPage (allocateNewPage s address nbPage).2 address))
  · refine ⟨_, hmax ▸ hbelow, fun H => ?_⟩
    refine Bool.eq_false_iff.mp (O.layout.deallocatePage_table hn hp) (H.mpr ⟨hused, fun ht => ?_⟩)
    have hspare := ((L.allocateNewPage_mapped F h0).2 _ ht.2).2
    rw [e] at hin hspare
    exact hspare.notInTable hin
  -- the table is an old one
  have hold := (O.tables _ hin).resolve_right fun hnew => hused hnew.2
  have hfit := (U _ hold).resolve_left fun hb => hused (O.used _ (hmax ▸ BitVec.le_of_lt hbelow) hb)
  rw [← hmax] at hfit
  obtain ⟨i, hi, hout⟩ := exists_outside hn
    (b := page (allocateBlocks s.phys nbPage).1)
    (c := (blockOf (getPage (allocateNewPage s address nbPage).2 address)).toNat) fun heq => by
    rw [toNat_blockOf] at heq
    refine (O.given 0 hn).notInTable ?_
    rwa [pageAfter_zero, blockOf_eq_iff.mpr heq]
  rw [← O.blocks i hi, ← toNat_blockOf] at hout
  have hgiven := O.given i hi
  have hkept := O.layout.deallocatePage_kept hfit hout hgiven.below hgiven.used
  exact ⟨_, hmax ▸ hgiven.below, fun H => (H.mp hkept).2 (L.allocated_taken F.blocks h0 hi)⟩

/-- What was allocated is never given back. -/
theorem Layout.not_givenBack (L : Layout s) (U : ReleaseSeen s nbPage.toNat) (F : FreshAllocation s address nbPage)
    (hn : 1 ≤ nbPage.toNat) (h : (allocateNewPage s address nbPage).1 ≠ 0) :
    ¬ GivenBack s (allocateNewPage s address nbPage).2
      (deallocatePage (allocateNewPage s address nbPage).2 address nbPage) address nbPage := by
  obtain ⟨c, hc, hwrong⟩ := L.block_wrong U F hn h
  exact fun H => hwrong (H.bits c hc)

/-- A page at 4 KiB is allocated. -/
theorem allocated_somePhys : ∃ s, Guarded s ∧
    (∀ v, page v ∈ pagesOf 0x1000 (1 : Word).toNat → ¬ present s v) ∧
    (allocateNewPage s 0x1000 1).1 ≠ 0 := by
  obtain ⟨s, G, -, hne, hp, hfree⟩ := unmapped_somePhys (v := 0x1000) (by decide)
  have hp' : isPresent (pde { s with phys := (allocateBlocks s.phys 1).2 } (PD_INDEX 0x1000)) := by
    rwa [(G.toLayout.kept_allocateBlocks (G.freshBlocks 1)).sameDir.pde _ (PD_INDEX_lt _)]
  refine ⟨s, G, hfree, ?_⟩
  rw [allocateNewPage_one hne hp']
  exact show (0x1000 : Word) ≠ 0 by decide

theorem not_givenBack_somePhys : ∃ s, (allocateNewPage s 0x1000 1).1 ≠ 0 ∧
    ¬ GivenBack s (allocateNewPage s 0x1000 1).2
      (deallocatePage (allocateNewPage s 0x1000 1).2 0x1000 1) 0x1000 1 := by
  obtain ⟨s, G, -, h⟩ := allocated_somePhys
  exact ⟨s, h, G.toLayout.not_givenBack (fun c hc => .inl (G.tableUsed c hc)) (G.freshAllocation _ _) (by decide) h⟩

/-- The page at 4 KiB is given back: the block of the first page table is free. -/
theorem allocation_lost : ¬ ∀ (s : Paging) (address nbPage : Word), Guarded s → Aligned address →
    1 ≤ nbPage.toNat → (∀ v, page v ∈ pagesOf address nbPage.toNat → ¬ present s v) →
    (allocateNewPage s address nbPage).1 ≠ 0 →
    GivenBack s (allocateNewPage s address nbPage).2
      (deallocatePage (allocateNewPage s address nbPage).2 address nbPage) address nbPage := by
  intro H
  obtain ⟨s, G, hfree, h⟩ := allocated_somePhys
  obtain ⟨c, hc, hwrong⟩ := G.toLayout.block_wrong (fun c hc => .inl (G.tableUsed c hc)) (G.freshAllocation _ _)
    (by decide) h
  exact hwrong ((H s 0x1000 1 G (by decide) (by decide) hfree h).bits c hc)

end

end AlexOS.Virtual
