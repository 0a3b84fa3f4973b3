import AlexOS.Virtual.Access

/-!
# Ranges of pages

What `allocate_new_page` and `deallocate_page` do to the entries, and to what is
in memory. Both change the entries of their pages only
(`Layout.allocateNewPage_others`, `Placed.deallocatePage_ok`). When
`allocate_new_page` succeeds, the pages are mapped one by one to blocks that
were free (`Obtained`), and what is in the spare blocks does not change: live
pages stay as they are, if they are not in the range, and the pages of the
range are live (`Live.obtained`).

What `deallocate_page` does is said of a directory and tables that are merely
apart from the bitmap (`Placed`).
-/

namespace AlexOS.Virtual

open Physical

/-- The `n` pages from that of `address` on. -/
def pagesOf (address : Addr) (n : Nat) : Set Nat := {p | ∃ i < n, p = page (pageAfter address i)}

/-- Spare blocks stay spare, and what is in them stays. -/
structure Still (s s' : Paging) : Prop extends Grows s s' where
  words : ∀ a : Addr, a.toNat % 4 = 0 → Spare s (blockOf a) → s'.mem.load32 a = s.mem.load32 a

/-- A range is mapped to the blocks from `base` on. -/
structure Obtained (s s' : Paging) (address : Addr) (n : Nat) (base : Addr) : Prop extends Still s s' where
  others : ∀ v, page v ∉ pagesOf address n → entryOf s' v = entryOf s v
  entries : ∀ i < n, ∀ v, page v = page (pageAfter address i) →
    entryOf s' v = mapEntry (entryOf s v) (pageAfter base i)
  aligned : ∀ i < n, Aligned (pageAfter base i)
  blocks : ∀ i < n, page (pageAfter base i) = page base + i
  free : ∀ i < n, bit s.phys (blockOf (pageAfter base i)) = false
  given : ∀ i < n, Spare s' (blockOf (pageAfter base i))

/-- The directory and the tables are in none of the blocks of the bitmap, nor in block 0. -/
structure Placed (s : Paging) : Prop extends Tables s where
  map : s.phys.memoryMap.toNat % 4 = 0
  notInMap : ∀ c, c = blockOf s.currentPageDir ∨ InTable s c → ¬ InMap s.phys c ∧ c ≠ 0
  notZero : ¬ InMap s.phys 0

/-- Only the entries of the pages `R` are changed, and what the bitmap and the tables hold; the
directory is the same. -/
structure Released (R : Set Nat) (s s' : Paging) : Prop extends SameDir s s' where
  placed : Placed s'
  same : Same s.phys s'.phys
  others : ∀ v, page v ∉ R → entryOf s' v = entryOf s v
  words : ∀ a : Addr, a.toNat % 4 = 0 → ¬ InMap s.phys (blockOf a) → ¬ InTable s (blockOf a) →
    blockOf a ≠ 0 → s'.mem.load32 a = s.mem.load32 a

section

variable {s s' s₁ s₂ s₃ : Paging} {P : Set Nat} {a address base u v : Addr} {c nbPage w : Word} {n : Nat}

/-! ## The pages of a range -/

theorem page_pageAfter (a : Addr) (i : Nat) : page (pageAfter a i) = (page a + i) % 2 ^ 20 := by
  rw [page, page, pageAfter, BitVec.toNat_add, BitVec.toNat_mul, BitVec.toNat_ofNat,
    show PAGE_SIZE.toNat = 4096 from rfl]
  omega

theorem eq_of_page_pageAfter {i j : Nat} (hi : i < 2 ^ 20) (hj : j < 2 ^ 20)
    (h : page (pageAfter a i) = page (pageAfter a j)) : i = j := by
  rw [page_pageAfter, page_pageAfter] at h
  omega

theorem aligned_pageAfter (h : Aligned a) (i : Nat) : Aligned (pageAfter a i) := by
  have := a.isLt
  rw [Aligned] at h ⊢
  rw [pageAfter, BitVec.toNat_add, BitVec.toNat_mul, BitVec.toNat_ofNat, show PAGE_SIZE.toNat = 4096 from rfl]
  omega

theorem pagesOf_succ : pagesOf address n ⊆ pagesOf address (n + 1) :=
  fun _ ⟨i, hi, h⟩ => ⟨i, Nat.lt_succ_of_lt hi, h⟩

theorem page_mem_pagesOf : page (pageAfter address n) ∈ pagesOf address (n + 1) := ⟨n, Nat.lt_succ_self n, rfl⟩

/-! ## What is in spare blocks -/

/-- A byte is as before if the words of its block are. -/
theorem byte_eq {m m' : Mem}
    (h : ∀ x : Addr, x.toNat % 4 = 0 → blockOf x = blockOf a → m'.load32 x = m.load32 x) : m' a = m a := by
  have hlt := a.isLt
  have ha : (a - BitVec.ofNat 32 (a.toNat % 4)).toNat = a.toNat - a.toNat % 4 := by
    rw [BitVec.toNat_sub, BitVec.toNat_ofNat]
    omega
  have hw := h (a - BitVec.ofNat 32 (a.toNat % 4)) (by omega) (blockOf_eq_iff.mpr (by
    rw [page, page, ha]
    omega))
  apply BitVec.eq_of_getLsbD_eq
  intro j hj
  have e := congrArg (BitVec.getLsbD · (8 * (a.toNat % 4) + j)) hw
  rw [getLsbD_load32 _ _ (by omega), getLsbD_load32 _ _ (by omega),
    show (8 * (a.toNat % 4) + j) / 8 = a.toNat % 4 by omega, show (8 * (a.toNat % 4) + j) % 8 = j by omega,
    BitVec.sub_add_cancel] at e
  exact e

namespace Still

theorem refl (L : Layout s) : Still s s := ⟨Grows.refl L, fun _ _ _ => rfl⟩

theorem trans (h₁ : Still s₁ s₂) (h₂ : Still s₂ s₃) : Still s₁ s₃ :=
  ⟨h₁.toGrows.trans h₂.toGrows, fun a ha hs =>
    (h₂.words a ha (h₁.spare hs)).trans (h₁.words a ha hs)⟩

/-- A byte of a spare block. -/
theorem byte (h : Still s s') (hs : Spare s (blockOf a)) : s'.mem a = s.mem a :=
  byte_eq fun x hx hb => h.words x hx (hb ▸ hs)

end Still

namespace Layout

variable (L : Layout s)

include L

/-- A page's entry is in no spare block. -/
theorem getPage_not_spare (v : Addr) : ¬ Spare s (blockOf (getPage s v)) := by
  intro hs
  rw [getPage_eq, blockOf_slot (aligned_frame _) (PT_INDEX_lt v)] at hs
  by_cases hp : isPresent (pde s (PD_INDEX v))
  · exact hs.notInTable ⟨_, PD_INDEX_lt v, hp, rfl⟩
  · have := hs.pos
    rw [L.absent _ (PD_INDEX_lt v) hp] at this
    exact absurd this (by decide)

theorem writePage_still (p v : Addr) : Still s (writePage s p v) := by
  refine ⟨(L.writePage_ok p v).grows L, fun a ha hs => ?_⟩
  rw [writePage_eq]
  exact Mem.load32_store32_of_ne (L.getPage_ok v).1 ha fun e => L.getPage_not_spare v (e ▸ hs)

theorem allocateBlocks_still {n : Word} (F : FreshBlocks s n) :
    Still s { s with phys := (allocateBlocks s.phys n).2 } :=
  ⟨(L.allocateBlocks_ok F).1.grows L, fun a ha hs => (L.heldRun F).words a ha hs.notInMap⟩

theorem newTable_still (F : FreshBlocks s 1) {i : Word} (hi : i.toNat < 1024) (hp : ¬ isPresent (pde s i)) :
    Still s (newTable s (slot s.currentPageDir i)).2 := by
  by_cases h : (allocateBlocks s.phys 1).1 = 0
  · rw [newTable_of_null h]
    exact L.allocateBlocks_still F
  refine ⟨L.newTable_ok F (by omega) hp, fun a ha hs => ?_⟩
  obtain ⟨-, hfree, -⟩ := L.cleared_ok F h
  have hne : page a ≠ page (allocateBlocks s.phys 1).1 := fun e =>
    Bool.eq_false_iff.mp hfree (blockOf_eq_iff.mpr e ▸ hs.used)
  rw [newTable_eq h]
  refine (Mem.load32_store32_of_ne (slot_aligned L.dir hi) ha fun e => hs.notInDir ?_).trans
    ((Mem.load32_memset_other (aligned_allocateBlocks s.phys 1) ha hne).trans ?_)
  · rw [← e, blockOf_slot L.dir hi]
    exact inDir_self s
  · exact (L.allocateBlocks_still F).words a ha hs

theorem mapPage_still (F : FreshTable s v) (p : Addr) : Still s (mapPage s p v).2 := by
  by_cases hp : isPresent (pde s (PD_INDEX v))
  · rw [mapPage_of_present hp]
    exact L.writePage_still p v
  have g := L.newTable_still (F hp) (PD_INDEX_lt v) hp
  by_cases h : (allocateBlocks s.phys 1).1 = 0
  · rw [newTable_of_null h] at g
    rw [mapPage_of_null hp h]
    exact g
  · rw [newTable_eq h] at g
    rw [mapPage_of_newTable hp h]
    exact g.trans (g.layout.writePage_still p v)

/-- What `map_page` does to the entries: it fails and changes none, or it changes one. -/
theorem mapPage_entries (F : FreshTable s v) (p : Addr) :
    ((mapPage s p v).1 = false ∧ ∀ u, entryOf (mapPage s p v).2 u = entryOf s u) ∨
      ((mapPage s p v).1 = true ∧ ∀ u, entryOf (mapPage s p v).2 u =
        if page u = page v then mapEntry (entryOf s v) p else entryOf s u) := by
  by_cases hp : isPresent (pde s (PD_INDEX v))
  · rw [mapPage_of_present hp]
    exact .inr ⟨rfl, (L.toTables.writePage_ok hp p).2.2⟩
  · obtain ⟨-, ⟨hr, -, he⟩ | ⟨hr, -, he⟩⟩ := L.toTables.mapPage_ok (L.fresh (F hp)) p v
    · exact .inl ⟨hr, he⟩
    · exact .inr ⟨hr, he⟩

/-! ## The loop that maps a range -/

theorem mapPages_still (F : FreshTables s base address n) : Still s (mapPages s base address n).2 := by
  induction n with
  | zero => exact Still.refl L
  | succ n ih =>
    have g := ih F.init
    simp only [mapPages]
    split
    · rename_i hn
      exact g.trans (g.layout.mapPage_still (F n (Nat.lt_succ_self n) hn) _)
    · exact g

theorem mapPages_others (F : FreshTables s base address n) (hv : page v ∉ pagesOf address n) :
    entryOf (mapPages s base address n).2 v = entryOf s v := by
  induction n with
  | zero => rfl
  | succ n ih =>
    have ih := ih F.init fun h => hv (pagesOf_succ h)
    have L' := (L.mapPages_ok F.init).layout
    simp only [mapPages]
    split
    · rename_i hn
      rw [← ih]
      rcases L'.mapPage_entries (F n (Nat.lt_succ_self n) hn) (pageAfter base n) with ⟨-, he⟩ | ⟨-, he⟩
      · exact he v
      · exact (he v).trans (if_neg fun e => hv (by rw [e]; exact page_mem_pagesOf))
    · exact ih

end Layout

theorem mapPages_le (s : Paging) (base address : Addr) (n : Nat) : (mapPages s base address n).1 ≤ n := by
  induction n with
  | zero => exact le_refl _
  | succ n ih =>
    simp only [mapPages]
    split
    · dsimp only
      split <;> omega
    · omega

/-- The loop is done if each round maps a page. -/
theorem mapPages_succ (h : (mapPages s base address (n + 1)).1 = n + 1) :
    (mapPages s base address n).1 = n ∧
      (mapPage (mapPages s base address n).2 (pageAfter base n) (pageAfter address n)).1 = true ∧
      (mapPages s base address (n + 1)).2 =
        (mapPage (mapPages s base address n).2 (pageAfter base n) (pageAfter address n)).2 := by
  have hle := mapPages_le s base address n
  simp only [mapPages] at h ⊢
  split at h
  · rename_i hn
    rw [if_pos hn]
    refine ⟨hn, ?_, rfl⟩
    by_contra ht
    rw [if_neg ht] at h
    exact absurd h (Nat.ne_of_lt (Nat.lt_succ_self n))
  · omega

theorem Layout.mapPages_entries (L : Layout s) (F : FreshTables s base address n) (hn : n ≤ 2 ^ 20)
    (h : (mapPages s base address n).1 = n) {i : Nat} (hi : i < n) (hv : page v = page (pageAfter address i)) :
    entryOf (mapPages s base address n).2 v = mapEntry (entryOf s v) (pageAfter base i) := by
  induction n with
  | zero => omega
  | succ n ih =>
    obtain ⟨hdone, ht, hs⟩ := mapPages_succ h
    have L' := (L.mapPages_ok F.init).layout
    rcases L'.mapPage_entries (F n (Nat.lt_succ_self n) hdone) (pageAfter base n) with ⟨hf, -⟩ | ⟨-, he⟩
    · rw [hf] at ht
      cases ht
    rw [hs, he v]
    rcases Nat.lt_succ_iff_lt_or_eq.mp hi with hlt | rfl
    · rw [if_neg, ih F.init (by omega) hdone hlt]
      intro e
      have := eq_of_page_pageAfter (by omega) (by omega) (hv.symm.trans e)
      omega
    · rw [if_pos hv, entryOf_congr _ hv.symm, L.mapPages_others F.init]
      rintro ⟨j, hj, e⟩
      have := eq_of_page_pageAfter (by omega) (by omega) (hv.symm.trans e)
      omega

/-! ## Releases -/

theorem Layout.placed (L : Layout s) : Placed s := by
  refine ⟨L.toTables, L.map, fun c hc => ?_, L.notZero⟩
  have H : Usable s.phys c := by
    rcases hc with rfl | hc
    · exact L.dirUsable _ (inDir_self s)
    · exact (L.tableUsable c hc).1
  refine ⟨H.notInMap, fun e => ?_⟩
  have := H.pos
  rw [e] at this
  exact absurd this (by decide)

namespace Released

variable {R R' : Set Nat}

theorem refl (D : Placed s) : Released ∅ s s :=
  ⟨⟨rfl, fun _ _ => rfl⟩, D, Same.refl _, fun _ _ => rfl, fun _ _ _ _ _ => rfl⟩

theorem mono (h : Released R s s') (hR : R ⊆ R') : Released R' s s' :=
  ⟨h.toSameDir, h.placed, h.same, fun v hv => h.others v fun hin => hv (hR hin), h.words⟩

theorem inTable (h : Released R s s') (hc : InTable s' c) : InTable s c := by
  obtain ⟨i, hi, hp, e⟩ := hc
  rw [h.pde i hi] at hp e
  exact ⟨i, hi, hp, e⟩

theorem trans (h₁ : Released R s₁ s₂) (h₂ : Released R s₂ s₃) : Released R s₁ s₃ := by
  refine ⟨⟨h₂.dir.trans h₁.dir, fun i hi => (h₂.pde i hi).trans (h₁.pde i hi)⟩, h₂.placed,
    h₁.same.trans h₂.same, fun v hv => (h₂.others v hv).trans (h₁.others v hv), fun a ha hm ht h0 => ?_⟩
  apply (h₂.words a ha (fun h => hm ((inMap_same h₁.same).mp h)) (fun h => ht (h₁.inTable h)) h0).trans
  exact h₁.words a ha hm ht h0

end Released

namespace Placed

variable (D : Placed s)

include D

theorem inUse {t : Addr} (ht : InUse s t) : Aligned t ∧ ¬ InMap s.phys (blockOf t) ∧ blockOf t ≠ 0 := by
  rcases ht with rfl | ⟨i, hi, hp, rfl⟩
  · exact ⟨D.dir, D.notInMap _ (.inl rfl)⟩
  · exact ⟨aligned_frame _, D.notInMap _ (.inr ⟨i, hi, hp, rfl⟩)⟩

/-- As long as the directory is the same, and the bitmap is where it was. -/
theorem of_sameDir (h : SameDir s s') (hs : Same s.phys s'.phys) : Placed s' := by
  refine ⟨h.tables D.toTables, hs.memoryMap ▸ D.map, fun c hc => ?_, fun hm => D.notZero ((inMap_same hs).mp hm)⟩
  rw [inMap_same hs]
  apply D.notInMap c
  rcases hc with rfl | ⟨i, hi, hp, e⟩
  · exact .inl (by rw [h.dir])
  · rw [h.pde i hi] at hp e
    exact .inr ⟨i, hi, hp, e⟩

/-- Blocks of the bitmap are released. -/
theorem freeBlocks_ok {n : Word} (h : ∀ c, InRun (blockOf a) n.toNat c → c ≤ s.phys.maxBlocks) :
    Released ∅ s { s with phys := freeBlocks s.phys a n } := by
  have hwords : ∀ x : Addr, x.toNat % 4 = 0 → ¬ InMap s.phys (blockOf x) →
      (freeBlocks s.phys a n).mem.load32 x = s.mem.load32 x := fun x hx hm =>
    load_freeBlocks D.map hx (page_ne_of_inMap hm (Nat.zero_le _) rfl)
      fun b hb => page_ne_of_inMap hm (h b hb) rfl
  have K : Kept s { s with phys := freeBlocks s.phys a n } := by
    refine ⟨rfl, fun t ht i hi => hwords _ (slot_aligned (D.inUse ht).1 hi) ?_⟩
    rw [blockOf_slot (D.inUse ht).1 hi]
    exact (D.inUse ht).2.1
  have S := same_freeBlocks s.phys a n
  exact ⟨K.sameDir, D.of_sameDir K.sameDir S, S, fun v _ => K.entryOf_eq v, fun x hx hm _ _ => hwords x hx hm⟩

/-- The page's entry is cleared, or, if there is no table, a word of block 0. -/
theorem unmapPage_ok (v : Addr) : Released {page v} s (unmapPage s v) := by
  have hblock := blockOf_slot (aligned_frame (pde s (PD_INDEX v))) (PT_INDEX_lt v)
  rw [← getPage_eq] at hblock
  have hal : (getPage s v).toNat % 4 = 0 := slot_aligned (aligned_frame _) (PT_INDEX_lt v)
  rw [unmapPage_eq]
  by_cases hp : isPresent (pde s (PD_INDEX v))
  · have S := D.toTables.sameDir_store (w := unmapEntry (s.mem.load32 (getPage s v))) hp
    refine ⟨S, D.of_sameDir S ⟨rfl, rfl⟩, ⟨rfl, rfl⟩, fun u hu => ?_, fun x hx _ ht _ => ?_⟩
    · rw [D.toTables.entryOf_store hp]
      exact if_neg hu
    · exact Mem.load32_store32_of_ne hal hx fun e => ht ⟨_, PD_INDEX_lt v, hp, by rw [← e, hblock]⟩
  have h0 : blockOf (getPage s v) = 0 := by
    rw [hblock, D.absent _ (PD_INDEX_lt v) hp]
    rfl
  have K : Kept s (s.withMem (s.mem.store32 (getPage s v) (unmapEntry (s.mem.load32 (getPage s v))))) := by
    refine ⟨rfl, fun t ht i hi => Mem.load32_store32_of_ne hal (slot_aligned (D.inUse ht).1 hi) fun e => ?_⟩
    apply (D.inUse ht).2.2
    rw [← blockOf_slot (D.inUse ht).1 hi, ← e, h0]
  refine ⟨K.sameDir, D.of_sameDir K.sameDir ⟨rfl, rfl⟩, ⟨rfl, rfl⟩, fun u _ => K.entryOf_eq u,
    fun x hx _ _ hx0 => ?_⟩
  exact Mem.load32_store32_of_ne hal hx fun e => hx0 (by rw [← e, h0])

theorem unmapPages_ok (address : Addr) (n : Nat) : Released (pagesOf address n) s (unmapPages s address n) := by
  induction n with
  | zero => exact (Released.refl D).mono (Set.empty_subset _)
  | succ n ih =>
    refine (ih.mono pagesOf_succ).trans ((ih.placed.unmapPage_ok (pageAfter address n)).mono ?_)
    exact Set.singleton_subset_iff.mpr page_mem_pagesOf

theorem deallocatePage_ok
    (h : ∀ c, InRun (blockOf (getPage s address)) nbPage.toNat c → c ≤ s.phys.maxBlocks) :
    Released (pagesOf address nbPage.toNat) s (deallocatePage s address nbPage) := by
  have R := D.freeBlocks_ok h
  exact (R.mono (Set.empty_subset _)).trans (R.placed.unmapPages_ok address nbPage.toNat)

end Placed

/-- Live pages that are not released are as before. -/
theorem Live.released {R : Set Nat} (L : Live s P) (h : Released R s s') (hv : page v ∈ P) (hR : page v ∉ R) :
    present s' v ∧ space s' v = space s v := by
  have O := L.owned v hv
  have hs := L.spare hv
  refine ⟨?_, space_congr O.present (h.others v hR) (byte_eq fun x hx hb => h.words x hx ?_ ?_ ?_)⟩
  · rw [present, h.others v hR]
    exact O.present
  · exact hb ▸ hs.notInMap
  · exact hb ▸ hs.notInTable
  · rw [hb]
    rintro e
    have := hs.pos
    rw [e] at this
    exact absurd this (by decide)

/-! ## New tables -/

/-- A table in one of the other two blocks of the directory. -/
theorem Layout.addEntry_entries (L : Layout s) {i t : Word} (hi : i.toNat < 3072) (hlow : 1024 ≤ i.toNat)
    (v : Addr) : entryOf (addEntry s i t) v = entryOf s v := by
  obtain ⟨ha, hd, hne⟩ := L.slot_dir hi
  suffices K : Kept s (addEntry s i t) from K.entryOf_eq v
  refine ⟨rfl, fun u hu k hk => ?_⟩
  have hal := L.toTables.aligned_inUse hu
  refine Mem.load32_store32_of_ne ha (slot_aligned hal hk) fun e => ?_
  rcases hu with rfl | ⟨j, hj, hp, rfl⟩
  · exact hne hlow (by rw [e, page_slot L.dir hk])
  · refine (L.tableUsable _ ⟨j, hj, hp, rfl⟩).2 ?_
    rwa [← blockOf_slot hal hk, ← e]

/-- A new table maps no page. -/
theorem Layout.newTable_entries (L : Layout s) (F : FreshBlocks s 1) {i : Word} (hi : i.toNat < 3072)
    (hp : ¬ isPresent (s.mem.load32 (slot s.currentPageDir i))) (v : Addr) :
    entryOf (newTable s (slot s.currentPageDir i)).2 v = entryOf s v := by
  have hF := L.fresh F
  by_cases h : (allocateBlocks s.phys 1).1 = 0
  · rw [newTable_of_null h]
    exact (L.kept_allocateBlocks F).entryOf_eq v
  rw [newTable_eq h]
  obtain ⟨K, hz⟩ := L.toTables.cleared_ok hF h
  rw [← K.entryOf_eq v]
  by_cases hlow : i.toNat < 1024
  · have hp₁ : ¬ isPresent (pde (cleared s) i) := by
      rw [K.sameDir.pde i hlow]
      exact hp
    have T := K.sameDir.tables L.toTables
    have A := T.addEntry_ok (aligned_allocateBlocks s.phys 1) (fun hu => hF.notInUse h (K.sameDir.inUse hu))
      hlow hp₁
    exact A.entryOf_eq T hp₁ hz v
  · obtain ⟨Q, -, -⟩ := L.cleared_ok F h
    exact (Q.grows L).layout.addEntry_entries hi (not_lt.mp hlow) v

/-! ## allocate_new_page -/

/-- The blocks that are allocated. -/
theorem Layout.allocated_blocks (L : Layout s) (F : FreshBlocks s nbPage)
    (h : (allocateBlocks s.phys nbPage).1 ≠ 0) {i : Nat} (hi : i < nbPage.toNat) :
    Aligned (pageAfter (allocateBlocks s.phys nbPage).1 i) ∧
      page (pageAfter (allocateBlocks s.phys nbPage).1 i) = page (allocateBlocks s.phys nbPage).1 + i ∧
      page (pageAfter (allocateBlocks s.phys nbPage).1 i) < s.phys.maxBlocks.toNat ∧
      bit s.phys (blockOf (pageAfter (allocateBlocks s.phys nbPage).1 i)) = false ∧
      Spare { s with phys := (allocateBlocks s.phys nbPage).2 }
        (blockOf (pageAfter (allocateBlocks s.phys nbPage).1 i)) := by
  have R := L.heldRun F
  have hrun := ((L.allocateBlocks_ok F).2 h).2
  have hal := aligned_allocateBlocks s.phys nbPage
  have hmax := L.maxBlocks
  have hn := nbPage.isLt
  generalize (allocateBlocks s.phys nbPage).1 = base at *
  have hb := toNat_blockOf base
  -- block `j` of the run
  have hin : ∀ j < nbPage.toNat, InRun (blockOf base) nbPage.toNat (blockOf base + BitVec.ofNat 32 j) ∧
      (page base + j) % 2 ^ 32 < s.phys.maxBlocks.toNat := fun j hj => by
    have hrunj : InRun (blockOf base) nbPage.toNat (blockOf base + BitVec.ofNat 32 j) := by
      rw [InRun, add_sub_cancel_left, BitVec.toNat_ofNat]
      omega
    have hlt := ((R.run h).2 _ hrunj).2.below
    rw [BitVec.lt_def, R.same.maxBlocks, BitVec.toNat_add, BitVec.toNat_ofNat, hb] at hlt
    exact ⟨hrunj, by omega⟩
  have hself := (hin 0 (Nat.zero_lt_of_lt hi)).2
  have hsmall : i < 2 ^ 20 := by
    by_contra hge
    have := (hin (2 ^ 20) (by omega)).2
    have := base.isLt
    rw [page] at *
    omega
  obtain ⟨hrunj, hbelow⟩ := hin i hi
  have hbase := base.isLt
  have hpage : page (pageAfter base i) = page base + i := by
    rw [page_pageAfter]
    rw [page] at *
    omega
  have hblock : blockOf (pageAfter base i) = blockOf base + BitVec.ofNat 32 i := BitVec.eq_of_toNat_eq (by
    rw [toNat_blockOf, hpage, BitVec.toNat_add, BitVec.toNat_ofNat, hb]
    rw [page] at *
    omega)
  refine ⟨aligned_pageAfter hal i, hpage, ?_, ?_⟩
  · rw [hpage]
    rw [page] at *
    omega
  · rw [hblock]
    exact hrun _ hrunj

/-- A block of the range is one of those that are returned. -/
theorem Layout.allocated_taken (L : Layout s) (F : FreshBlocks s nbPage) (h0 : (allocateBlocks s.phys nbPage).1 ≠ 0)
    {i : Nat} (hi : i < nbPage.toNat) : Taken (allocateBlocks s.phys nbPage).1 nbPage
      (blockOf (pageAfter (allocateBlocks s.phys nbPage).1 i)) := by
  have hpage := (L.allocated_blocks F h0 hi).2.1
  have hlt := (blockOf (pageAfter (allocateBlocks s.phys nbPage).1 i)).isLt
  refine ⟨h0, ?_⟩
  rw [InRun, BitVec.toNat_sub, toNat_blockOf, toNat_blockOf, hpage]
  rw [toNat_blockOf, hpage] at hlt
  omega

/-- Nothing but the entries of the range changes. -/
theorem Layout.allocateNewPage_others (L : Layout s) (F : FreshAllocation s address nbPage)
    (hv : page v ∉ pagesOf address nbPage.toNat) : entryOf (allocateNewPage s address nbPage).2 v = entryOf s v := by
  have L' := (L.allocateBlocks_still F.blocks).layout
  have K := L.kept_allocateBlocks F.blocks
  have hle := mapPages_le { s with phys := (allocateBlocks s.phys nbPage).2 } (allocateBlocks s.phys nbPage).1
    address nbPage.toNat
  simp only [allocateNewPage]
  split
  · exact K.entryOf_eq v
  rename_i h0
  have hmap := (L'.mapPages_others (F.tables h0) hv).trans (K.entryOf_eq v)
  split
  · exact hmap
  -- the blocks are released, and the pages that were mapped are unmapped
  obtain ⟨g, hrun⟩ := L.allocateNewPage_mapped F h0
  have R := g.layout.placed.freeBlocks_ok (a := (allocateBlocks s.phys nbPage).1) (n := nbPage)
    fun c hc => BitVec.le_of_lt (hrun c hc).2.below
  have hv' : page v ∉ pagesOf address (mapPages { s with phys := (allocateBlocks s.phys nbPage).2 }
      (allocateBlocks s.phys nbPage).1 address nbPage.toNat).1 := by
    rintro ⟨i, hi, e⟩
    exact hv ⟨i, hi.trans_le hle, e⟩
  refine ((R.placed.unmapPages_ok address _).others v hv').trans ?_
  exact (R.others v (Set.notMem_empty _)).trans hmap

theorem mapPages_of_obtained (h : (allocateNewPage s address nbPage).1 ≠ 0) :
    (allocateBlocks s.phys nbPage).1 ≠ 0 ∧
      (mapPages { s with phys := (allocateBlocks s.phys nbPage).2 } (allocateBlocks s.phys nbPage).1 address
        nbPage.toNat).1 = nbPage.toNat ∧
      allocateNewPage s address nbPage =
        (address, (mapPages { s with phys := (allocateBlocks s.phys nbPage).2 } (allocateBlocks s.phys nbPage).1
          address nbPage.toNat).2) := by
  simp only [allocateNewPage] at h ⊢
  split at h
  · exact absurd rfl h
  rename_i h0
  split at h
  · rename_i hn
    exact ⟨h0, hn, by rw [if_neg h0, if_pos hn]⟩
  · exact absurd rfl h

/-- The range is mapped to the blocks that are allocated. -/
theorem Layout.obtained (L : Layout s) (F : FreshAllocation s address nbPage)
    (h : (allocateNewPage s address nbPage).1 ≠ 0) : (allocateNewPage s address nbPage).1 = address ∧
      Obtained s (allocateNewPage s address nbPage).2 address nbPage.toNat (allocateBlocks s.phys nbPage).1 := by
  obtain ⟨h0, hn, e⟩ := mapPages_of_obtained h
  have S := L.allocateBlocks_still F.blocks
  have FT := F.tables h0
  have S' := S.layout.mapPages_still FT
  have K := L.kept_allocateBlocks F.blocks
  have hlt : nbPage.toNat ≤ 2 ^ 20 := by
    by_contra hge
    have := (L.allocated_blocks F.blocks h0 (i := 2 ^ 20) (by omega)).2.1
    rw [page_pageAfter] at this
    omega
  have hblocks := fun i hi => L.allocated_blocks F.blocks h0 (i := i) hi
  refine ⟨by rw [e], ?_⟩
  rw [e]
  refine ⟨S.trans S', fun v hv => ?_, fun i hi v hv => ?_, fun i hi => (hblocks i hi).1,
    fun i hi => (hblocks i hi).2.1, fun i hi => (hblocks i hi).2.2.2.1,
    fun i hi => S'.spare (hblocks i hi).2.2.2.2⟩
  · rw [S.layout.mapPages_others FT hv, K.entryOf_eq]
  · rw [S.layout.mapPages_entries FT hlt hn hi hv, K.entryOf_eq]

/-! ## allocate_new_page, whether it succeeds or not -/

theorem same_allocateBlocks (phys : Phys) (n : Word) : Same phys (allocateBlocks phys n).2 := by
  rcases allocateBlocks_cases phys n with e | ⟨start, e, A⟩
  · rw [e]
    exact Same.refl phys
  · exact A.same

theorem same_unmapPages (s : Paging) (address : Addr) (n : Nat) : Same s.phys (unmapPages s address n).phys := by
  induction n with
  | zero => exact Same.refl _
  | succ n ih => exact ih.trans ⟨rfl, rfl⟩

theorem Layout.unmapPage_still (L : Layout s) (v : Addr) : Still s (unmapPage s v) := by
  refine ⟨(L.unmapPage_ok v).grows L, fun a ha hs => ?_⟩
  rw [unmapPage_eq]
  exact Mem.load32_store32_of_ne (L.getPage_ok v).1 ha fun e => L.getPage_not_spare v (e ▸ hs)

theorem Layout.unmapPages_still (L : Layout s) (address : Addr) (n : Nat) : Still s (unmapPages s address n) := by
  induction n with
  | zero => exact Still.refl L
  | succ n ih => exact ih.trans (ih.layout.unmapPage_still _)

/-- Blocks that were free are released. -/
theorem Still.freeBlocks {n : Word} (S : Still s s')
    (h : ∀ c, InRun (blockOf a) n.toNat c → bit s.phys c = false ∧ Spare s' c) :
    Still s { s' with phys := Physical.freeBlocks s'.phys a n } := by
  refine ⟨S.toGrows.freeBlocks h, fun x hx hs => ?_⟩
  have R := S.layout.placed.freeBlocks_ok fun c hc => BitVec.le_of_lt (h c hc).2.below
  have hs' := S.spare hs
  refine (R.words x hx hs'.notInMap hs'.notInTable fun e => ?_).trans (S.words x hx hs)
  have := hs'.pos
  rw [e] at this
  exact absurd this (by decide)

theorem Layout.allocateNewPage_still (L : Layout s) (F : FreshAllocation s address nbPage) :
    Still s (allocateNewPage s address nbPage).2 := by
  have S := L.allocateBlocks_still F.blocks
  simp only [allocateNewPage]
  split
  · exact S
  rename_i h0
  have S' := S.trans (S.layout.mapPages_still (F.tables h0))
  split
  · exact S'
  have S'' := S'.freeBlocks (L.allocateNewPage_mapped F h0).2
  exact S''.trans (S''.layout.unmapPages_still address _)

/-! ## Live pages -/

/-- The pages of a range are live when it has been mapped, and other live pages are as before. -/
theorem Live.obtained (L : Live s P) (O : Obtained s s' address n base)
    (hclean : ∀ v, page v ∈ pagesOf address n → (entryOf s v).getLsbD 31 = false) :
    Live s' (P ∪ pagesOf address n) ∧
      ∀ v, page v ∈ P → page v ∉ pagesOf address n → space s' v = space s v := by
  have hframe : ∀ i < n, ∀ v, page v = page (pageAfter address i) →
      frame (entryOf s' v) = pageAfter base i := fun i hi v hv => by
    rw [O.entries i hi v hv]
    refine (frame_mapEntry_iff (O.aligned i hi)).mpr fun h31 => ?_
    rw [hclean v ⟨i, hi, hv⟩] at h31
    cases h31
  have hold : ∀ v, page v ∈ P → page v ∉ pagesOf address n → Owned s v ∧ entryOf s' v = entryOf s v :=
    fun v hv hn => ⟨L.owned v hv, O.others v hn⟩
  -- a page of the range, and a live page before it
  have hne : ∀ v v', page v ∈ pagesOf address n → page v' ∈ P → page v' ∉ pagesOf address n →
      frame (entryOf s' v) ≠ frame (entryOf s' v') := by
    rintro v v' ⟨i, hi, hv⟩ hv' hn e
    obtain ⟨O', e'⟩ := hold v' hv' hn
    rw [hframe i hi v hv, e'] at e
    apply Bool.eq_false_iff.mp (O.free i hi)
    rw [e]
    exact O'.spare.used
  refine ⟨⟨fun v hv => ?_, fun v v' hv hv' e => ?_⟩, fun v hv hn => ?_⟩
  · by_cases hr : page v ∈ pagesOf address n
    · obtain ⟨i, hi, hv⟩ := hr
      refine ⟨?_, ?_⟩
      · rw [present, O.entries i hi v hv]
        exact isPresent_mapEntry _ _
      · rw [hframe i hi v hv]
        exact O.given i hi
    · obtain ⟨O', e'⟩ := hold v (hv.resolve_right hr) hr
      refine ⟨?_, ?_⟩
      · rw [present, e']
        exact O'.present
      · rw [e']
        exact O.spare O'.spare
  · by_cases hr : page v ∈ pagesOf address n <;> by_cases hr' : page v' ∈ pagesOf address n
    · obtain ⟨i, hi, hv⟩ := hr
      obtain ⟨j, hj, hv'⟩ := hr'
      rw [hframe i hi v hv, hframe j hj v' hv'] at e
      have := congrArg page e
      rw [O.blocks i hi, O.blocks j hj] at this
      rw [hv, hv', show i = j by omega]
    · exact absurd e (hne v v' hr (hv'.resolve_right hr') hr')
    · exact absurd e.symm (hne v' v hr' (hv.resolve_right hr) hr)
    · rw [O.others v hr, O.others v' hr'] at e
      exact L.apart v v' (hv.resolve_right hr) (hv'.resolve_right hr') e
  · obtain ⟨O', e'⟩ := hold v hv hn
    exact space_congr O'.present e' (O.byte (L.spare hv))

end

end AlexOS.Virtual
