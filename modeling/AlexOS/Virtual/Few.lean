import AlexOS.Virtual.Ranges
import Mathlib.Order.Interval.Finset.Nat

/-!
# Few blocks

Live pages have blocks of their own, which are neither free nor block 0, so that
there are fewer of them than blocks that are handed out (`Live.add_card_lt`), and
where these are below 2 GiB, bit 31 of an entry is not set by a mapping
(`Layout.allocateNewPage_bit31`): the entries that `allocate_new_page` meets
stay clear of it, whether it succeeds or not.
-/

namespace AlexOS.Virtual

open Physical

/-- The address of a page, by its number. -/
def addressOf (k : Nat) : Addr := BitVec.ofNat 32 (4096 * k)

/-- The blocks that `allocate_blocks(n)` returns are below `m`. -/
def BelowBlock (s : Paging) (n : Word) (m : Nat) : Prop :=
  ∀ c, Taken (allocateBlocks s.phys n).1 n c → c.toNat < m

/-- The blocks that `allocate_new_page` is given are fresh, and those of the range below `m`. -/
structure LowAllocation (s : Paging) (address nbPage : Word) (m : Nat) : Prop extends
    FreshAllocation s address nbPage where
  low : BelowBlock s nbPage m

section

variable {s : Paging} {address base u v : Addr} {nbPage : Word} {n m lo e k i : Nat}

theorem page_addressOf (h : k < 2 ^ 20) : page (addressOf k) = k := by
  rw [page, addressOf, BitVec.toNat_ofNat]
  omega

/-! ## The blocks of live pages -/

/-- Pages that are live, and blocks that are free. -/
theorem Live.add_card_lt (V : Live s (Set.Ico lo e)) (he : e ≤ 2 ^ 20) (hm0 : 0 < m)
    (hm : ∀ v, page v ∈ Set.Ico lo e → page (frame (entryOf s v)) < m) (B : Finset Nat)
    (hB : ∀ b ∈ B, 0 < b ∧ b < m ∧ bit s.phys (BitVec.ofNat 32 b) = false) : e - lo + B.card < m := by
  let f : Nat → Nat := fun k => page (frame (entryOf s (addressOf k)))
  have hlive : ∀ k ∈ Finset.Ico lo e, page (addressOf k) = k ∧ page (addressOf k) ∈ Set.Ico lo e := by
    intro k hk
    obtain ⟨h1, h2⟩ := Finset.mem_Ico.mp hk
    have hp : page (addressOf k) = k := page_addressOf (by omega)
    exact ⟨hp, by rw [hp]; exact ⟨h1, h2⟩⟩
  have hspare : ∀ k ∈ Finset.Ico lo e, Spare s (BitVec.ofNat 32 (f k)) ∧ 0 < f k ∧ f k < m := by
    intro k hk
    have S := (V.owned _ (hlive k hk).2).spare
    have hblock : blockOf (frame (entryOf s (addressOf k))) = BitVec.ofNat 32 (f k) := by
      show _ = BitVec.ofNat 32 (page _)
      rw [← toNat_blockOf, BitVec.ofNat_toNat, BitVec.setWidth_eq]
    have hpos := S.pos
    rw [toNat_blockOf] at hpos
    exact ⟨hblock ▸ S, hpos, hm _ (hlive k hk).2⟩
  have hinj : Set.InjOn f (Finset.Ico lo e) := by
    intro j hj k hk h
    have hframe := eq_of_page_eq (aligned_frame _) (aligned_frame _) h
    have hpage := V.apart _ _ (hlive j hj).2 (hlive k hk).2 hframe
    rwa [(hlive j hj).1, (hlive k hk).1] at hpage
  -- block 0 is one more
  have hnot : 0 ∉ (Finset.Ico lo e).image f ∪ B := by
    rw [Finset.mem_union, not_or, Finset.mem_image]
    refine ⟨?_, fun hb => absurd (hB _ hb).1 (Nat.lt_irrefl 0)⟩
    rintro ⟨k, hk, hd⟩
    exact absurd hd (hspare k hk).2.1.ne'
  have hdisjoint : Disjoint ((Finset.Ico lo e).image f) B := by
    rw [Finset.disjoint_left]
    intro b hb hb'
    obtain ⟨k, hk, rfl⟩ := Finset.mem_image.mp hb
    exact Bool.eq_false_iff.mp (hB _ hb').2.2 (hspare k hk).1.used
  have hsub : insert 0 ((Finset.Ico lo e).image f ∪ B) ⊆ Finset.range m := by
    intro b hb
    rw [Finset.mem_range]
    rcases Finset.mem_insert.mp hb with rfl | hb
    · exact hm0
    rcases Finset.mem_union.mp hb with hb | hb
    · obtain ⟨k, hk, rfl⟩ := Finset.mem_image.mp hb
      exact (hspare k hk).2.2
    · exact (hB b hb).2.1
  have hcard := Finset.card_le_card hsub
  rw [Finset.card_insert_of_notMem hnot, Finset.card_union_of_disjoint hdisjoint, Finset.card_image_of_injOn hinj,
    Nat.card_Ico, Finset.card_range] at hcard
  omega

/-- With the blocks of a range that is allocated. -/
theorem Live.add_allocated_lt (L : Layout s) (F : FreshBlocks s nbPage) (V : Live s (Set.Ico lo e)) (he : e ≤ 2 ^ 20)
    (hm : ∀ v, page v ∈ Set.Ico lo e → page (frame (entryOf s v)) < m)
    (hlow : BelowBlock s nbPage m) (h0 : (allocateBlocks s.phys nbPage).1 ≠ 0) : e - lo + nbPage.toNat < m := by
  have hn := ((L.allocateBlocks_ok F).2 h0).1
  have hm0 := Nat.zero_lt_of_lt (hlow _ (L.allocated_taken F h0 hn))
  have hcard := V.add_card_lt he hm0 hm
    (Finset.Ico (page (allocateBlocks s.phys nbPage).1) (page (allocateBlocks s.phys nbPage).1 + nbPage.toNat))
    fun b hb => by
      obtain ⟨h1, h2⟩ := Finset.mem_Ico.mp hb
      obtain ⟨i, rfl⟩ := Nat.exists_eq_add_of_le h1
      have hi : i < nbPage.toNat := by omega
      obtain ⟨-, hpage, -, hfree, hspare⟩ := L.allocated_blocks F h0 hi
      have hb : (blockOf (pageAfter (allocateBlocks s.phys nbPage).1 i)).toNat =
          page (allocateBlocks s.phys nbPage).1 + i := by rw [toNat_blockOf, hpage]
      refine ⟨hb ▸ hspare.pos, hb ▸ hlow _ (L.allocated_taken F h0 hi), ?_⟩
      rw [← hb, BitVec.ofNat_toNat, BitVec.setWidth_eq]
      exact hfree
  rwa [Nat.card_Ico, Nat.add_sub_cancel_left] at hcard

/-! ## Bit 31 of an entry -/

/-- The frame of a page of the range is one of these blocks, unless its entry keeps bit 31. -/
theorem Layout.allocated_frame_lt (L : Layout s) (F : LowAllocation s address nbPage m)
    (h : (allocateNewPage s address nbPage).1 ≠ 0) (hv : page v ∈ pagesOf address nbPage.toNat)
    (h31 : (entryOf s v).getLsbD 31 = false) : page (frame (entryOf (allocateNewPage s address nbPage).2 v)) < m := by
  have FA := F.toFreshAllocation
  obtain ⟨hb, -, -⟩ := mapPages_of_obtained h
  obtain ⟨-, O⟩ := L.obtained FA h
  obtain ⟨i, hi, hpage⟩ := hv
  have hframe := (frame_mapEntry_iff (e := entryOf s v) (O.aligned i hi)).mpr fun h => by
    rw [h31] at h
    cases h
  have hblock := F.low _ (L.allocated_taken FA.blocks hb hi)
  rwa [toNat_blockOf, ← hframe, ← O.entries i hi v hpage] at hblock

/-- An entry that is clear stays so, where the frames are below 2 GiB. -/
theorem Layout.mapPages_bit31 (L : Layout s) (F : FreshTables s base address n)
    (hbase : ∀ i < n, (pageAfter base i).getLsbD 31 = false) (hv : (entryOf s v).getLsbD 31 = false) :
    (entryOf (mapPages s base address n).2 v).getLsbD 31 = false := by
  induction n with
  | zero => exact hv
  | succ n ih =>
    have ih := ih F.init fun i hi => hbase i (by omega)
    have L' := (L.mapPages_ok F.init).layout
    simp only [mapPages]
    split
    · rename_i hn
      rcases L'.mapPage_entries (F n (Nat.lt_succ_self n) hn) (pageAfter base n) with ⟨-, he⟩ | ⟨-, he⟩
      · rw [he v]
        exact ih
      · rw [he v]
        split
        · rename_i hpage
          rw [← entryOf_congr _ hpage, mapEntry, BitVec.getLsbD_or, BitVec.getLsbD_or, BitVec.getLsbD_and, ih,
            hbase n (Nat.lt_succ_self n)]
          decide
        · exact ih
    · exact ih

theorem Placed.unmapPages_bit31 (D : Placed s) (hv : (entryOf s v).getLsbD 31 = false) :
    (entryOf (unmapPages s address n) v).getLsbD 31 = false := by
  induction n with
  | zero => exact hv
  | succ n ih =>
    have R := (D.unmapPages_ok address n).placed
    rw [unmapPages]
    generalize unmapPages s address n = s₁ at *
    by_cases hpage : page v = page (pageAfter address n)
    · by_cases hp : isPresent (pde s₁ (PD_INDEX (pageAfter address n)))
      · have he : s₁.mem.load32 (getPage s₁ (pageAfter address n)) = entryOf s₁ (pageAfter address n) := by
          rw [entryOf, if_pos hp]
        rw [unmapPage_eq, R.toTables.entryOf_store hp, if_pos hpage, he, ← entryOf_congr s₁ hpage, unmapEntry,
          BitVec.getLsbD_and, BitVec.getLsbD_or, BitVec.getLsbD_and, ih]
        decide
      · -- there is no table, and no entry
        have hp' : ¬ isPresent (pde (unmapPage s₁ (pageAfter address n)) (PD_INDEX (pageAfter address n))) := by
          rwa [(R.unmapPage_ok _).pde _ (PD_INDEX_lt _)]
        rw [entryOf_congr _ hpage, entryOf, if_neg hp']
        decide
    · rw [(R.unmapPage_ok _).others v hpage]
      exact ih

theorem Layout.allocateNewPage_bit31 (L : Layout s) (F : FreshAllocation s address nbPage)
    (hlow : BelowBlock s nbPage (2 ^ 19)) (hv : (entryOf s v).getLsbD 31 = false) :
    (entryOf (allocateNewPage s address nbPage).2 v).getLsbD 31 = false := by
  have S := L.allocateBlocks_still F.blocks
  have K := L.kept_allocateBlocks F.blocks
  simp only [allocateNewPage]
  split
  · rwa [K.entryOf_eq]
  rename_i h0
  have hbase : ∀ i < nbPage.toNat, (pageAfter (allocateBlocks s.phys nbPage).1 i).getLsbD 31 = false := by
    intro i hi
    have hlt := hlow _ (L.allocated_taken F.blocks h0 hi)
    refine Nat.testBit_lt_two_pow ?_
    rw [toNat_blockOf, page] at hlt
    omega
  have hmap : (entryOf (mapPages { s with phys := (allocateBlocks s.phys nbPage).2 } (allocateBlocks s.phys nbPage).1
      address nbPage.toNat).2 v).getLsbD 31 = false := by
    refine S.layout.mapPages_bit31 (F.tables h0) hbase ?_
    rwa [K.entryOf_eq]
  split
  · exact hmap
  · obtain ⟨g, hrun⟩ := L.allocateNewPage_mapped F h0
    have R := g.layout.placed.freeBlocks_ok (a := (allocateBlocks s.phys nbPage).1) (n := nbPage)
      fun c hc => BitVec.le_of_lt (hrun c hc).2.below
    refine R.placed.unmapPages_bit31 ?_
    rwa [R.others v (Set.notMem_empty _)]

end

end AlexOS.Virtual
