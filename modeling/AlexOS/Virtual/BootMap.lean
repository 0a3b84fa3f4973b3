import AlexOS.Virtual.Ranges
import AlexOS.Heap.Malloc

/-!
# What boot maps

`init_virtual_memory_manager` maps the first 4 MiB to themselves, and 4 MiB at
`0xC0000000` to the kernel (`init_bootMap`), and ends with
`page_dir_vec_init`, whose `calloc` is the first of all: it maps the first page
of the heap at `STARTING_PAGE` (`pageDirVecInit`). So three entries of the
directory have a table after boot, those of the two ranges and that of the heap
(`boot_maps`).
-/

namespace AlexOS.Virtual

open Physical

/-- `*a = w`. -/
def storeWord (s : Paging) (a : Addr) (w : Word) : Option Paging :=
  storeBytes s a [w.extractLsb' 0 8, w.extractLsb' 8 8, w.extractLsb' 16 8, w.extractLsb' 24 8]

/-- `malloc(12)` when there is no page and no free block: the page is added, and the block is the first in it.
`NULL` if there is no page. -/
def firstMalloc (s : Paging) : Option (Addr × Paging) :=
  let page := allocateNewPage s Malloc.STARTING_PAGE 1
  if page.1 = 0 then some (0, page.2) else do
  -- `add_page`
  let s ← storeWord page.2 (page.1 + 4) PAGE_SIZE
  let s ← storeWord s (page.1 + 8) Malloc.sizeofPageHeader
  let s ← storeWord s page.1 0
  -- the block, of 16 bytes
  let header := page.1 + Malloc.sizeofPageHeader
  let s ← storeWord s (header + 4) 12
  let s ← storeWord s (header + 8) 16
  let s ← storeWord s header 0
  let s ← storeWord s (page.1 + 8) (Malloc.sizeofPageHeader + (Malloc.sizeofBlkHeader + 16))
  let nbBlock ← load32 s (page.1 + 12)
  let s ← storeWord s (page.1 + 12) (nbBlock + 1)
  return (header + Malloc.sizeofBlkHeader, s)

/-- `calloc(sizeof(struct page_directory_vec_s), 1)`, and `vec->cap = 10`. -/
def pageDirVecInit (s : Paging) : Option (Addr × Paging) := do
  let (vec, s) ← firstMalloc s
  let s ← storeBytes s vec (List.replicate 12 0)
  let s ← storeWord s (vec + 8) 10
  return (vec, s)

/-- The ranges that boot maps. -/
structure BootMap (s : Paging) (kernelAddress : Word) : Prop where
  low : ∀ v : Word, v.toNat < 2 ^ 22 → present s v ∧ getPhysAddr s v = v
  high : ∀ k : Word, k.toNat < 2 ^ 22 →
    present s (0xC0000000 + k) ∧ getPhysAddr s (0xC0000000 + k) = kernelAddress + k

/-- The blocks allocated for the first page of the heap are fresh. -/
structure FreshHeap (s : Paging) : Prop where
  block : Fresh (InUse s) s.phys
  table : Fresh (fun t => InUse s t ∨ t = (allocateBlocks s.phys 1).1) (allocateBlocks s.phys 1).2

/-- The first page of the heap is mapped to a frame that is not in use. -/
structure HeapPage (s : Paging) : Prop extends Tables s where
  own : Private s {0xF0000}

/-- The heap's page is written, and no entry. -/
structure Written (s s' : Paging) : Prop extends SameDir s s' where
  heapPage : HeapPage s'
  entries : ∀ v, entryOf s' v = entryOf s v

section

variable {s s' : Paging} {phys : Phys} {m : Mem} {P : Set Nat} {a f t v : Addr} {k w : Word} {i n : Nat}

/-! ## The tables that are filled -/

/-- The table of the kernel, and that of the first 4 MiB. -/
theorem load_filled_table (hne : page (table phys).1 ≠ page (tableHigherHalf phys).1) (hi : i < 1024) :
    (filled phys k).mem.load32 (slot (table phys).1 (BitVec.ofNat 32 i)) = pageEntry (pageAfter k i) ∧
      (filled phys k).mem.load32 (slot (tableHigherHalf phys).1 (BitVec.ofNat 32 i)) = pageEntry (pageAfter 0 i) := by
  have hlt : (BitVec.ofNat 32 i).toNat < 1024 := by
    rw [BitVec.toNat_ofNat]
    omega
  have ht := aligned_table phys
  have hh := aligned_tableHigherHalf phys
  have e : (filled phys k).mem = fillTables (tableHigherHalf phys).2.mem (table phys).1
    (tableHigherHalf phys).1 k := rfl
  rw [e, fillTables]
  constructor
  · exact load_fillTable_self ht (by decide) (Nat.le_refl _) hi
  · refine (load_fillTable_other ht (slot_aligned hh hlt) fun h => ?_).trans
      (load_fillTable_self hh (by decide) (Nat.le_refl _) hi)
    rw [page_slot hh hlt] at h
    exact hne h.symm

/-! ## The directory -/

attribute [local irreducible] allocateBlocks fillTables

/-- The entries that boot makes, and what the tables hold. -/
theorem init_entries (F : FreshInit phys) (h : initVirtualMemoryManager phys k = (true, s)) :
    (isPresent (pde s 0) ∧ frame (pde s 0) = (tableHigherHalf phys).1) ∧
      (isPresent (pde s 768) ∧ frame (pde s 768) = (table phys).1) ∧
      ∀ j < 1024, s.mem.load32 (slot (table phys).1 (BitVec.ofNat 32 j)) = pageEntry (pageAfter k j) ∧
        s.mem.load32 (slot (tableHigherHalf phys).1 (BitVec.ofNat 32 j)) = pageEntry (pageAfter 0 j) := by
  obtain ⟨hd, ht, hh, rfl⟩ := init_eq h
  have D := F.sameDir (k := k) hd ht hh
  have hne : page (table phys).1 ≠ page (tableHigherHalf phys).1 := fun e => F.tableHigherHalf.notInUse hh
    (.inr (eq_of_page_eq (aligned_table phys) (aligned_tableHigherHalf phys) e).symm)
  have T : Tables (filled phys k) := by
    obtain ⟨hal, h2⟩ := directory_ok hd
    exact D.tables (tables_of_empty hal h2)
  have htn : ¬ InUse (filled phys k) (table phys).1 := fun hu => F.table.notInUse ht (inUse_filled D hd hu)
  have A := T.addEntry_ok (aligned_table phys) htn (i := 768) (by decide) (not_present_filled D hd (by decide))
  have T' := A.tables T
  have hp : ¬ isPresent (pde (addEntry (filled phys k) 768 (table phys).1) 0) := by
    rw [A.pde_other 0 (by decide) (by decide)]
    exact not_present_filled D hd (by decide)
  have hhn : ¬ InUse (addEntry (filled phys k) 768 (table phys).1) (tableHigherHalf phys).1 := by
    rintro (e | ⟨j, hj, hpj, e⟩)
    · exact F.tableHigherHalf.notInUse hh (.inl e)
    · by_cases hj' : j = 768
      · rw [hj', A.frame_self] at e
        exact F.tableHigherHalf.notInUse hh (.inr e)
      · rw [A.pde_other j hj hj'] at hpj
        exact absurd hpj (not_present_filled D hd hj)
  have A' := T'.addEntry_ok (aligned_tableHigherHalf phys) hhn (by decide) hp
  have e768 : pde (addEntry (addEntry (filled phys k) 768 (table phys).1) 0 (tableHigherHalf phys).1) 768 =
      pde (addEntry (filled phys k) 768 (table phys).1) 768 := A'.pde_other 768 (by decide) (by decide)
  -- the tables are not in the directory's page
  have hword : ∀ a : Addr, a.toNat % 4 = 0 → page a ≠ page (directory phys).currentPageDir →
      (addEntry (addEntry (filled phys k) 768 (table phys).1) 0 (tableHigherHalf phys).1).mem.load32 a =
        (filled phys k).mem.load32 a := fun a ha hpage => (A'.words a ha hpage).trans (A.words a ha hpage)
  have hdal := (directory_ok hd).1
  have htd : page (table phys).1 ≠ page (directory phys).currentPageDir := fun e =>
    F.table.notInUse ht (eq_of_page_eq (aligned_table phys) hdal e)
  have hhd : page (tableHigherHalf phys).1 ≠ page (directory phys).currentPageDir := fun e =>
    F.tableHigherHalf.notInUse hh (.inl (eq_of_page_eq (aligned_tableHigherHalf phys) hdal e))
  refine ⟨⟨A'.present_self, A'.frame_self⟩, ?_, fun j hj => ?_⟩
  · rw [e768]
    exact ⟨A.present_self, A.frame_self⟩
  · have hjlt : (BitVec.ofNat 32 j).toNat < 1024 := by
      rw [BitVec.toNat_ofNat]
      omega
    obtain ⟨h1, h2⟩ := load_filled_table (k := k) hne hj
    have e1 := hword _ (slot_aligned (aligned_table phys) hjlt) (by rwa [page_slot (aligned_table phys) hjlt])
    have e2 := hword _ (slot_aligned (aligned_tableHigherHalf phys) hjlt)
      (by rwa [page_slot (aligned_tableHigherHalf phys) hjlt])
    exact ⟨e1.trans h1, e2.trans h2⟩

/-- Translation of an address in one of the two ranges. -/
theorem getPhysAddr_of_entry {i : Nat} (hf : Aligned f) (hk : v.toNat = 4096 * i + w.toNat) (hw : w.toNat < 4096)
    (h : entryOf s v = pageEntry f) : present s v ∧ getPhysAddr s v = f + w := by
  have hp : present s v := by
    rw [present, h]
    exact isPresent_pageEntry f
  refine ⟨hp, ?_⟩
  have hoff : v &&& 0xFFF = w := BitVec.eq_of_toNat_eq (by
    rw [toNat_offset]
    omega)
  rw [getPhysAddr_eq hp, h, frame_pageEntry hf, hoff]

theorem init_bootMap (F : FreshInit phys) (hk : Aligned k) (h : initVirtualMemoryManager phys k = (true, s)) :
    BootMap s k := by
  obtain ⟨⟨hp0, hf0⟩, ⟨hp768, hf768⟩, hload⟩ := init_entries F h
  constructor
  · intro v hv
    have hpd : PD_INDEX v = 0 := BitVec.eq_of_toNat_eq (by
      rw [toNat_PD_INDEX, show (0 : Word).toNat = 0 from rfl]
      omega)
    have hpt : PT_INDEX v = BitVec.ofNat 32 (v.toNat / 4096) := BitVec.eq_of_toNat_eq (by
      rw [toNat_PT_INDEX, BitVec.toNat_ofNat]
      omega)
    have he : entryOf s v = pageEntry (pageAfter 0 (v.toNat / 4096)) := by
      rw [entryOf, hpd, if_pos hp0, getPage_eq, hpd, hf0, hpt]
      exact (hload _ (by omega)).2
    have hw : (BitVec.ofNat 32 (v.toNat % 4096)).toNat = v.toNat % 4096 := by
      rw [BitVec.toNat_ofNat]
      omega
    obtain ⟨h1, h2⟩ := getPhysAddr_of_entry (w := BitVec.ofNat 32 (v.toNat % 4096)) (i := v.toNat / 4096)
      (aligned_pageAfter (by decide) _) (by omega) (by omega) he
    refine ⟨h1, h2.trans (BitVec.eq_of_toNat_eq ?_)⟩
    rw [pageAfter, BitVec.toNat_add, BitVec.toNat_add, BitVec.toNat_mul, hw, BitVec.toNat_ofNat,
      show PAGE_SIZE.toNat = 4096 from rfl, show (0 : Word).toNat = 0 from rfl]
    omega
  · intro x hx
    have hv : (0xC0000000 + x).toNat = 0xC0000000 + x.toNat := by
      rw [BitVec.toNat_add, show (0xC0000000 : Word).toNat = 0xC0000000 from rfl]
      omega
    have hpd : PD_INDEX (0xC0000000 + x) = 768 := BitVec.eq_of_toNat_eq (by
      rw [toNat_PD_INDEX, hv, show (768 : Word).toNat = 768 from rfl]
      omega)
    have hpt : PT_INDEX (0xC0000000 + x) = BitVec.ofNat 32 (x.toNat / 4096) := BitVec.eq_of_toNat_eq (by
      rw [toNat_PT_INDEX, hv, BitVec.toNat_ofNat]
      omega)
    have he : entryOf s (0xC0000000 + x) = pageEntry (pageAfter k (x.toNat / 4096)) := by
      rw [entryOf, hpd, if_pos hp768, getPage_eq, hpd, hf768, hpt]
      exact (hload _ (by omega)).1
    have hw : (BitVec.ofNat 32 (x.toNat % 4096)).toNat = x.toNat % 4096 := by
      rw [BitVec.toNat_ofNat]
      omega
    obtain ⟨h1, h2⟩ := getPhysAddr_of_entry (w := BitVec.ofNat 32 (x.toNat % 4096))
      (i := 0xC0000 + x.toNat / 4096) (aligned_pageAfter hk _) (by omega) (by omega) he
    refine ⟨h1, h2.trans (BitVec.eq_of_toNat_eq ?_)⟩
    rw [pageAfter, BitVec.toNat_add, BitVec.toNat_add, BitVec.toNat_add, BitVec.toNat_mul, hw, BitVec.toNat_ofNat,
      show PAGE_SIZE.toNat = 4096 from rfl]
    omega

/-! ## The first page of the heap -/

theorem Fresh.mono {inUse inUse' : Addr → Prop} (F : Fresh inUse phys) (h : ∀ t, inUse' t → inUse t) :
    Fresh inUse' phys :=
  ⟨fun h0 hu => F.notInUse h0 (h _ hu), fun t ht => F.same t (h t ht)⟩

/-- A table that `map_page` makes is in the entry of its page, and no other table is new. -/
theorem Tables.mapPage_tables (T : Tables s) (hF : Fresh (InUse s) s.phys) (p : Word) :
    (∀ i : Word, i.toNat < 1024 → i ≠ PD_INDEX v → pde (mapPage s p v).2 i = pde s i) ∧
      ∀ t, InUse (mapPage s p v).2 t → InUse s t ∨ (allocateBlocks s.phys 1).1 ≠ 0 ∧
        t = (allocateBlocks s.phys 1).1 := by
  by_cases hp : isPresent (pde s (PD_INDEX v))
  · rw [mapPage_of_present hp, writePage_eq]
    exact ⟨fun i hi _ => (T.sameDir_store hp).pde i hi, fun t ht => .inl ((T.sameDir_store hp).inUse ht)⟩
  by_cases h : (allocateBlocks s.phys 1).1 = 0
  · rw [mapPage_of_null hp h]
    have K : Kept s { s with phys := (allocateBlocks s.phys 1).2 } := ⟨rfl, hF.same⟩
    exact ⟨fun i hi _ => K.sameDir.pde i hi, fun t ht => .inl (K.sameDir.inUse ht)⟩
  · rw [mapPage_of_newTable hp h, writePage_eq]
    obtain ⟨K, -⟩ := T.cleared_ok hF h
    have T₁ := K.sameDir.tables T
    have hp₁ : ¬ isPresent (pde (cleared s) (PD_INDEX v)) := by rwa [K.sameDir.pde _ (PD_INDEX_lt v)]
    have A := T₁.addEntry_ok (aligned_allocateBlocks s.phys 1) (fun hu => hF.notInUse h (K.sameDir.inUse hu))
      (PD_INDEX_lt v) hp₁
    have D := (A.tables T₁).sameDir_store (v := v) (w := mapEntry ((addEntry (cleared s) (PD_INDEX v)
      (allocateBlocks s.phys 1).1).mem.load32 (getPage (addEntry (cleared s) (PD_INDEX v)
        (allocateBlocks s.phys 1).1) v)) p) A.present_self
    refine ⟨fun i hi hne => ?_, fun t ht => ?_⟩
    · rw [D.pde i hi, A.pde_other i hi hne, K.sameDir.pde i hi]
    · rcases D.inUse ht with rfl | ⟨i, hi, hpi, rfl⟩
      · exact .inl (.inl rfl)
      · by_cases hne : i = PD_INDEX v
        · rw [hne, A.frame_self]
          exact .inr ⟨h, rfl⟩
        · rw [A.pde_other i hi hne] at hpi ⊢
          exact .inl (K.sameDir.inUse (.inr ⟨i, hi, hpi, rfl⟩))

theorem FreshHeap.allocateNewPage_ok (F : FreshHeap s) (T : Tables s) (hp : ¬ isPresent (pde s 960))
    (h : (allocateNewPage s Malloc.STARTING_PAGE 1).1 ≠ 0) :
    (allocateNewPage s Malloc.STARTING_PAGE 1).1 = Malloc.STARTING_PAGE ∧
      HeapPage (allocateNewPage s Malloc.STARTING_PAGE 1).2 ∧
      (∀ i : Word, i.toNat < 1024 → i ≠ 960 → pde (allocateNewPage s Malloc.STARTING_PAGE 1).2 i = pde s i) ∧
      ∀ v, page v ≠ 0xF0000 → entryOf (allocateNewPage s Malloc.STARTING_PAGE 1).2 v = entryOf s v := by
  obtain ⟨h0, hn, e⟩ := mapPages_of_obtained h
  have K : Kept s { s with phys := (allocateBlocks s.phys 1).2 } := ⟨rfl, F.block.same⟩
  have T₁ := K.sameDir.tables T
  have F₁ : Fresh (InUse { s with phys := (allocateBlocks s.phys 1).2 }) (allocateBlocks s.phys 1).2 :=
    F.table.mono fun t ht => .inl (K.sameDir.inUse ht)
  have hn₁ : (mapPages { s with phys := (allocateBlocks s.phys 1).2 } (allocateBlocks s.phys 1).1
    Malloc.STARTING_PAGE 1).1 = 0 + 1 := hn
  obtain ⟨-, hmap, e₁⟩ := mapPages_succ hn₁
  rw [pageAfter_zero, pageAfter_zero] at hmap e₁
  rw [show (1 : Word).toNat = 0 + 1 from rfl, e₁] at e
  rw [e]
  simp only [mapPages] at hmap ⊢
  obtain ⟨hpde, hnew⟩ := T₁.mapPage_tables (v := Malloc.STARTING_PAGE) F₁ (allocateBlocks s.phys 1).1
  obtain ⟨T₂, ⟨hfalse, -⟩ | ⟨-, -, hent⟩⟩ :=
    T₁.mapPage_ok F₁ (allocateBlocks s.phys 1).1 Malloc.STARTING_PAGE
  · rw [hfalse] at hmap
    exact absurd hmap Bool.false_ne_true
  have hzero : entryOf s Malloc.STARTING_PAGE = 0 := if_neg hp
  have hal := aligned_allocateBlocks s.phys 1
  have hown : ∀ v, page v = page Malloc.STARTING_PAGE →
      entryOf (mapPage { s with phys := (allocateBlocks s.phys 1).2 } (allocateBlocks s.phys 1).1
        Malloc.STARTING_PAGE).2 v = mapEntry 0 (allocateBlocks s.phys 1).1 := fun v hv => by
    rw [hent v, if_pos hv, K.entryOf_eq, hzero]
  refine ⟨trivial, ⟨T₂, fun v hv => ?_, fun v hv t ht => ?_, fun v v' hv hv' _ => hv.trans hv'.symm⟩,
    fun i hi hne => ?_, fun v hv => ?_⟩
  · rw [present, hown v hv]
    exact isPresent_mapEntry _ _
  · rw [hown v hv, (frame_mapEntry_iff hal).mpr fun h => absurd h (by decide), Ne, blockOf_eq_iff]
    intro e
    obtain rfl := eq_of_page_eq (T₂.aligned_inUse ht) hal e
    rcases hnew _ ht with ht | ⟨h1, ht⟩
    · exact F.block.notInUse h0 (K.sameDir.inUse ht)
    · exact F.table.notInUse h1 (.inr ht.symm)
  · exact (hpde i hi hne).trans (K.sameDir.pde i hi)
  · rw [hent v, if_neg (show page v ≠ page Malloc.STARTING_PAGE from hv), K.entryOf_eq]

theorem Written.trans {s₁ s₂ s₃ : Paging} (h₁ : Written s₁ s₂) (h₂ : Written s₂ s₃) :
    Written s₁ s₃ :=
  ⟨⟨h₂.dir.trans h₁.dir, fun i hi => (h₂.pde i hi).trans (h₁.pde i hi)⟩, h₂.heapPage,
    fun v => (h₂.entries v).trans (h₁.entries v)⟩

/-- Stores to the heap's page do not fault, and are to no table. -/
theorem HeapPage.storeBytes_ok (H : HeapPage s) (bytes : List Byte) (hlen : bytes.length ≤ 2 ^ 32)
    (hP : ∀ i < bytes.length, page (v + BitVec.ofNat 32 i) = 0xF0000) :
    ∃ s', storeBytes s v bytes = some s' ∧ Written s s' := by
  obtain ⟨s', hs'⟩ := H.own.storeBytes_some H.toTables hP
  have K := (H.own.storeBytes_ok H.toTables hlen (fun i hi _ => hP i hi) hs').toKept
  exact ⟨s', hs', K.sameDir, ⟨K.sameDir.tables H.toTables, H.own.of_kept K⟩, K.entryOf_eq⟩

theorem page_word (ha : a.toNat % 4 = 0) (hi : i < 4) : page (a + BitVec.ofNat 32 i) = page a := by
  have hlt := a.isLt
  rw [page, page, BitVec.toNat_add, BitVec.toNat_ofNat]
  omega

theorem HeapPage.storeWord_ok (H : HeapPage s) (ha : a.toNat % 4 = 0) (hp : page a = 0xF0000) (w : Word) :
    ∃ s', storeWord s a w = some s' ∧ Written s s' :=
  H.storeBytes_ok _ (show 4 ≤ 2 ^ 32 by decide) fun i hi => by rwa [page_word ha hi]

/-- The first `malloc` returns a block of the first page. -/
theorem firstMalloc_ok {r : Addr × Paging} (hr : allocateNewPage s Malloc.STARTING_PAGE 1 = r)
    (h : r.1 = Malloc.STARTING_PAGE) (H : HeapPage r.2) :
    ∃ s', firstMalloc s = some (Malloc.STARTING_PAGE + Malloc.sizeofPageHeader + Malloc.sizeofBlkHeader, s') ∧
      Written r.2 s' := by
  have hne : ¬ Malloc.STARTING_PAGE = 0 := by decide
  obtain ⟨s₁, e₁, W₁⟩ := H.storeWord_ok (a := Malloc.STARTING_PAGE + 4) (by decide) (by decide) PAGE_SIZE
  obtain ⟨s₂, e₂, W₂⟩ := W₁.heapPage.storeWord_ok (a := Malloc.STARTING_PAGE + 8) (by decide) (by decide)
    Malloc.sizeofPageHeader
  obtain ⟨s₃, e₃, W₃⟩ := W₂.heapPage.storeWord_ok (a := Malloc.STARTING_PAGE) (by decide) (by decide) 0
  obtain ⟨s₄, e₄, W₄⟩ := W₃.heapPage.storeWord_ok (a := Malloc.STARTING_PAGE + Malloc.sizeofPageHeader + 4)
    (by decide) (by decide) 12
  obtain ⟨s₅, e₅, W₅⟩ := W₄.heapPage.storeWord_ok (a := Malloc.STARTING_PAGE + Malloc.sizeofPageHeader + 8)
    (by decide) (by decide) 16
  obtain ⟨s₆, e₆, W₆⟩ := W₅.heapPage.storeWord_ok (a := Malloc.STARTING_PAGE + Malloc.sizeofPageHeader)
    (by decide) (by decide) 0
  obtain ⟨s₇, e₇, W₇⟩ := W₆.heapPage.storeWord_ok (a := Malloc.STARTING_PAGE + 8) (by decide)
    (by decide) (Malloc.sizeofPageHeader + (Malloc.sizeofBlkHeader + 16))
  have hacc : Accessible s₇ (Malloc.STARTING_PAGE + 12) 4 := fun i hi => by
    refine W₇.heapPage.own.present _ ?_
    rw [page_word (by decide) hi]
    decide
  have hload : load32 s₇ (Malloc.STARTING_PAGE + 12) = some ((space s₇).load32 (Malloc.STARTING_PAGE + 12)) :=
    if_pos hacc
  obtain ⟨s₈, e₈, W₈⟩ := W₇.heapPage.storeWord_ok (a := Malloc.STARTING_PAGE + 12) (by decide) (by decide)
    ((space s₇).load32 (Malloc.STARTING_PAGE + 12) + 1)
  refine ⟨s₈, ?_, ((((((W₁.trans W₂).trans W₃).trans W₄).trans W₅).trans W₆).trans W₇).trans W₈⟩
  simp only [firstMalloc, hr, h, if_neg hne, e₁, e₂, e₃, e₄, e₅, e₆, e₇, hload, e₈, Option.bind_eq_bind,
    Option.bind_some]
  rfl

theorem pageDirVecInit_ok {r : Addr × Paging} (hr : allocateNewPage s Malloc.STARTING_PAGE 1 = r)
    (h : r.1 = Malloc.STARTING_PAGE) (H : HeapPage r.2) :
    ∃ vec s', pageDirVecInit s = some (vec, s') ∧ Written r.2 s' := by
  obtain ⟨s₁, e₁, W₁⟩ := firstMalloc_ok hr h H
  obtain ⟨s₂, e₂, W₂⟩ := W₁.heapPage.storeBytes_ok (List.replicate 12 0)
    (v := Malloc.STARTING_PAGE + Malloc.sizeofPageHeader + Malloc.sizeofBlkHeader) (by simp) fun i hi => by
      rw [List.length_replicate] at hi
      revert i
      decide
  obtain ⟨s₃, e₃, W₃⟩ := W₂.heapPage.storeWord_ok
    (a := Malloc.STARTING_PAGE + Malloc.sizeofPageHeader + Malloc.sizeofBlkHeader + 8) (by decide) (by decide) 10
  refine ⟨Malloc.STARTING_PAGE + Malloc.sizeofPageHeader + Malloc.sizeofBlkHeader, s₃, ?_,
    (W₁.trans W₂).trans W₃⟩
  simp only [pageDirVecInit, e₁, Option.bind_eq_bind, Option.bind_some, e₂, e₃]
  rfl

/-- If the bitmap is guarded, the blocks are fresh. -/
theorem Guarded.freshHeap (G : Guarded s) (h0 : (allocateBlocks s.phys 1).1 ≠ 0) : FreshHeap s := by
  obtain ⟨Q, hrun⟩ := G.toLayout.allocateBlocks_ok (G.freshBlocks 1)
  have hs := ((hrun h0).2 _ (inRun_self (by decide))).2
  have G' := (Q.grows G.toLayout).guarded G
  have F := G'.fresh
  have R := G'.toLayout.heldRun (G'.freshBlocks 1)
  have back : SameDir { s with phys := (allocateBlocks s.phys 1).2 } s := ⟨rfl, fun i hi => (Q.pde i hi).symm⟩
  refine ⟨G.fresh, ⟨fun h hu => ?_, fun t hu i hi => ?_⟩⟩
  · rcases hu with e | e
    · exact F.notInUse h (back.inUse e)
    · have hfree := ((R.run h).2 _ (inRun_self (by decide))).1
      exact Bool.eq_false_iff.mp hfree (e ▸ hs.used)
  · rcases hu with e | rfl
    · exact F.same t (back.inUse e) i hi
    · apply R.words _ (slot_aligned (aligned_allocateBlocks _ _) hi)
      rw [blockOf_slot (aligned_allocateBlocks _ _) hi]
      exact hs.notInMap

/-- After boot, with the vector: the two ranges are mapped, and no other directory entry is present than
theirs and that of the heap. -/
theorem boot_maps (F : FreshInit phys) (hk : Aligned k) (h : initVirtualMemoryManager phys k = (true, s))
    (H : FreshHeap s) (hnew : (allocateNewPage s Malloc.STARTING_PAGE 1).1 ≠ 0) :
    ∃ vec s', pageDirVecInit s = some (vec, s') ∧
      BootMap s' k ∧ ∀ i : Word, i.toNat < 1024 → i ≠ 0 → i ≠ 768 → i ≠ 960 →
        ¬ isPresent (pde s' i) := by
  have B := init_bootMap F hk h
  have h960 : ¬ isPresent (pde s 960) := absent_init F h (by decide) (by decide) (by decide)
  obtain ⟨e, HP, hpde, hent⟩ := H.allocateNewPage_ok (tables_init F h) h960 hnew
  obtain ⟨vec, s', hvec, W⟩ := pageDirVecInit_ok rfl e HP
  have hent' : ∀ v, page v ≠ 0xF0000 → entryOf s' v = entryOf s v := fun v hv => (W.entries v).trans (hent v hv)
  refine ⟨vec, s', hvec, ⟨fun v hv => ?_, fun x hx => ?_⟩, fun i hi h0 h768 h960 => ?_⟩
  · have he := hent' v (by
      rw [page]
      omega)
    obtain ⟨hp, ht⟩ := B.low v hv
    exact ⟨by rwa [present, he], (getPhysAddr_congr hp he).trans ht⟩
  · have he := hent' (0xC0000000 + x) (by
      rw [page, BitVec.toNat_add, show (0xC0000000 : Word).toNat = 0xC0000000 from rfl]
      omega)
    obtain ⟨hp, ht⟩ := B.high x hx
    exact ⟨by rwa [present, he], (getPhysAddr_congr hp he).trans ht⟩
  · rw [W.pde i hi, hpde i hi h960]
    exact absent_init F h hi h0 h768

/-- 256 blocks, seven of them free. -/
def roomyPhys : Phys where
  mem x := if x = 0x30018 then 0xFE else somePhys.mem x
  memoryMap := 0x30000
  maxBlocks := 256
  usedBlocks := 0

theorem left_roomyPhys : Left roomyPhys [64, 65, 66, 96, 128, 160, 192] 0 := .of_forall rfl rfl (by decide +kernel)

theorem protected_roomyPhys : Protected roomyPhys := .of_block48 rfl rfl (by decide) (by decide)

/-- There is a block for the first page of the heap, and one for its table. -/
theorem allocated_roomyPhys : ∃ s, initVirtualMemoryManager roomyPhys 0x100000 = (true, s) ∧ FreshInit roomyPhys ∧
    FreshHeap s ∧ (allocateNewPage s Malloc.STARTING_PAGE 1).1 ≠ 0 := by
  obtain ⟨s, h, F, L⟩ := left_roomyPhys.boot (by simp) protected_roomyPhys 0x100000
  have G := (init_ok protected_roomyPhys h).1
  obtain ⟨e₁, L₁⟩ := L.allocate_one 5 G.prot (by decide) (by decide) (by simp)
  obtain ⟨e₂, -⟩ := L₁.allocate_one 6 (G.prot.allocateBlocks_ok 1).2 (by decide) (by decide) (by simp)
  have h₁ : (allocateBlocks s.phys 1).1 ≠ 0 := by
    rw [e₁]
    decide
  have h₂ : (allocateBlocks (allocateBlocks s.phys 1).2 1).1 ≠ 0 := by
    rw [e₂]
    decide
  have H := G.freshHeap h₁
  refine ⟨s, h, F, H, ?_⟩
  have K : Kept s { s with phys := (allocateBlocks s.phys 1).2 } := ⟨rfl, H.block.same⟩
  have hp : ¬ isPresent (pde { s with phys := (allocateBlocks s.phys 1).2 } 960) := by
    rw [K.sameDir.pde _ (by decide)]
    exact absent_init F h (by decide) (by decide) (by decide)
  have hmap : (mapPages { s with phys := (allocateBlocks s.phys 1).2 } (allocateBlocks s.phys 1).1
      Malloc.STARTING_PAGE (1 : Word).toNat).1 = (1 : Word).toNat := by
    have := mapPage_of_newTable
      (v := pageAfter Malloc.STARTING_PAGE 0) hp h₂ (pageAfter (allocateBlocks s.phys 1).1 0)
    show (mapPages _ _ _ (0 + 1)).1 = 1
    rw [mapPages, mapPages, if_pos rfl, this]
    rfl
  simp only [allocateNewPage]
  rw [if_neg h₁, if_pos hmap]
  exact show Malloc.STARTING_PAGE ≠ 0 by decide

theorem maps_roomyPhys : ∃ s vec s', pageDirVecInit s = some (vec, s') ∧ BootMap s' 0x100000 ∧
    ∀ i : Word, i.toNat < 1024 → i ≠ 0 → i ≠ 768 → i ≠ 960 → ¬ isPresent (pde s' i) := by
  obtain ⟨s, h, F, H, hnew⟩ := allocated_roomyPhys
  exact ⟨s, boot_maps F (by decide) h H hnew⟩

/-- The heap's entry is present too. -/
theorem heap_present : ¬ ∀ (phys : Phys) (k : Word) (s : Paging), FreshInit phys → Aligned k →
    initVirtualMemoryManager phys k = (true, s) → FreshHeap s →
      (allocateNewPage s Malloc.STARTING_PAGE 1).1 ≠ 0 →
      ∃ vec s', pageDirVecInit s = some (vec, s') ∧
        BootMap s' k ∧ ∀ i : Word, i.toNat < 1024 → i ≠ 0 → i ≠ 768 → ¬ isPresent (pde s' i) := by
  intro hall
  obtain ⟨s, h, F, H, hnew⟩ := allocated_roomyPhys
  obtain ⟨vec, s', hvec, -, habsent⟩ := hall roomyPhys 0x100000 s F (by decide) h H hnew
  have h960 : ¬ isPresent (pde s 960) := absent_init F h (by decide) (by decide) (by decide)
  obtain ⟨e, HP, -⟩ := H.allocateNewPage_ok (tables_init F h) h960 hnew
  obtain ⟨vec', s'', hvec', W⟩ := pageDirVecInit_ok rfl e HP
  rw [hvec'] at hvec
  cases hvec
  have hp := isPresent_pde (W.heapPage.own.present Malloc.STARTING_PAGE (by decide))
  rw [show PD_INDEX Malloc.STARTING_PAGE = 960 by decide] at hp
  exact habsent 960 (by decide) (by decide) (by decide) hp

end

end AlexOS.Virtual
