import AlexOS.Virtual.Entry

/-!
# The directory and its tables

`entryOf s v` is the entry of the page of `v`: what translation depends on.
`Tables` says that the directory and the tables are pages of their own. A call
keeps it, if the blocks that it is given are `Fresh`, and changes the entry of
its own page only (`Tables.mapPage_ok`, `Tables.unmapPage_ok`).
-/

namespace AlexOS.Virtual

open Physical

/-- Directory entry `i`. -/
def pde (s : Paging) (i : Word) : Word := s.mem.load32 (slot s.currentPageDir i)

/-- The entry of the page of `v`, 0 if there is no table for it. -/
def entryOf (s : Paging) (v : Word) : Word :=
  if isPresent (pde s (PD_INDEX v)) then s.mem.load32 (getPage s v) else 0

/-- The page of `v` is mapped. -/
def present (s : Paging) (v : Word) : Prop := isPresent (entryOf s v)

/-- The directory, and the tables that it refers to. -/
def InUse (s : Paging) (t : Addr) : Prop :=
  t = s.currentPageDir ∨ ∃ i : Word, i.toNat < 1024 ∧ isPresent (pde s i) ∧ t = frame (pde s i)

/-- The directory and the tables are different pages, and an entry without a table was never used. -/
structure Tables (s : Paging) : Prop where
  dir : Aligned s.currentPageDir
  apart : ∀ i : Word, i.toNat < 1024 → isPresent (pde s i) → frame (pde s i) ≠ s.currentPageDir
  distinct : ∀ i j : Word, i.toNat < 1024 → j.toNat < 1024 → isPresent (pde s i) →
    isPresent (pde s j) → frame (pde s i) = frame (pde s j) → i = j
  absent : ∀ i : Word, i.toNat < 1024 → ¬ isPresent (pde s i) → pde s i = 2

/-- The block that `allocate_blocks` returns is not in use, and the pages in use are as before. -/
structure Fresh (inUse : Addr → Prop) (phys : Phys) : Prop where
  notInUse : (allocateBlocks phys 1).1 ≠ 0 → ¬ inUse (allocateBlocks phys 1).1
  same : ∀ t, inUse t → ∀ i : Word, i.toNat < 1024 →
    (allocateBlocks phys 1).2.mem.load32 (slot t i) = phys.mem.load32 (slot t i)

section

variable {s s' : Paging} {v v' p w : Word} {i : Word}

theorem getPage_eq (s : Paging) (v : Word) :
    getPage s v = slot (frame (pde s (PD_INDEX v))) (PT_INDEX v) := rfl

/-- A call of `allocate_blocks` returns a page, or `NULL` and changes nothing. -/
theorem aligned_allocateBlocks (phys : Phys) (n : Word) : Aligned (allocateBlocks phys n).1 := by
  rcases allocateBlocks_cases phys n with e | ⟨start, e, -⟩
  · rw [e]
    exact show Aligned 0 by decide
  · rw [e, Aligned, BitVec.toNat_mul, show (BLOCK_SIZE).toNat = 4096 from rfl]
    omega

/-- The directory has not changed. -/
structure SameDir (s s' : Paging) : Prop where
  dir : s'.currentPageDir = s.currentPageDir
  pde : ∀ i : Word, i.toNat < 1024 → pde s' i = pde s i

namespace SameDir

variable (D : SameDir s s')

include D

theorem inUse {t : Addr} (h : InUse s' t) : InUse s t := by
  rcases h with rfl | ⟨i, hi, hp, rfl⟩
  · exact .inl D.dir
  · rw [D.pde i hi] at hp ⊢
    exact .inr ⟨i, hi, hp, rfl⟩

theorem tables (T : Tables s) : Tables s' := by
  refine ⟨D.dir ▸ T.dir, fun i hi => ?_, fun i j hi hj => ?_, fun i hi => ?_⟩
  · rw [D.pde i hi, D.dir]
    exact T.apart i hi
  · rw [D.pde i hi, D.pde j hj]
    exact T.distinct i j hi hj
  · rw [D.pde i hi]
    exact T.absent i hi

end SameDir

/-- The pages in use have not changed. -/
structure Kept (s s' : Paging) : Prop where
  dir : s'.currentPageDir = s.currentPageDir
  words : ∀ t, InUse s t → ∀ i : Word, i.toNat < 1024 →
    s'.mem.load32 (slot t i) = s.mem.load32 (slot t i)

namespace Kept

variable (K : Kept s s')

include K

theorem sameDir : SameDir s s' := by
  refine ⟨K.dir, fun i hi => ?_⟩
  rw [pde, K.dir]
  exact K.words _ (.inl rfl) i hi

theorem inUse {t : Addr} (h : InUse s t) : InUse s' t := by
  rcases h with rfl | ⟨i, hi, hp, rfl⟩
  · exact .inl K.dir.symm
  · rw [← K.sameDir.pde i hi] at hp ⊢
    exact .inr ⟨i, hi, hp, rfl⟩

theorem trans {s'' : Paging} (K' : Kept s' s'') : Kept s s'' :=
  ⟨K'.dir.trans K.dir, fun t ht i hi => (K'.words t (K.inUse ht) i hi).trans (K.words t ht i hi)⟩

theorem entryOf_eq (v : Word) : entryOf s' v = entryOf s v := by
  rw [entryOf, entryOf, getPage_eq, K.sameDir.pde _ (PD_INDEX_lt v)]
  split
  · rename_i hp
    exact K.words _ (.inr ⟨_, PD_INDEX_lt v, hp, rfl⟩) _ (PT_INDEX_lt v)
  · rfl

end Kept

/-! ## An entry of a table is written -/

namespace Tables

theorem aligned_inUse (T : Tables s) {t : Addr} (ht : InUse s t) : Aligned t := by
  rcases ht with rfl | ⟨i, -, -, rfl⟩
  · exact T.dir
  · exact aligned_frame _

theorem sameDir_store (T : Tables s) (hv : isPresent (pde s (PD_INDEX v))) :
    SameDir s (s.withMem (s.mem.store32 (getPage s v) w)) := by
  refine ⟨rfl, fun i hi => Mem.load32_store32_of_ne (slot_aligned (aligned_frame _) (PT_INDEX_lt v))
    (slot_aligned T.dir hi) ?_⟩
  exact slot_ne_of_page (aligned_frame _) T.dir (PT_INDEX_lt v) hi (T.apart _ (PD_INDEX_lt v) hv)

/-- Only the entry of this page is written. -/
theorem entryOf_store (T : Tables s) (hv : isPresent (pde s (PD_INDEX v))) :
    entryOf (s.withMem (s.mem.store32 (getPage s v) w)) v' =
      if page v' = page v then w else entryOf s v' := by
  have hd := (T.sameDir_store (w := w) hv).pde _ (PD_INDEX_lt v')
  rw [entryOf, getPage_eq _ v', hd]
  by_cases he : page v' = page v
  · obtain ⟨h1, h2⟩ := page_eq_iff.mp he
    rw [if_pos he, h1, if_pos hv, h2]
    exact Mem.load32_store32_self _ _ _
  rw [if_neg he, entryOf]
  by_cases hv' : isPresent (pde s (PD_INDEX v'))
  · rw [if_pos hv', if_pos hv']
    refine Mem.load32_store32_of_ne (slot_aligned (aligned_frame _) (PT_INDEX_lt v))
      (slot_aligned (aligned_frame _) (PT_INDEX_lt v')) ?_
    by_cases h1 : PD_INDEX v = PD_INDEX v'
    · rw [← h1]
      refine slot_ne (aligned_frame _) (PT_INDEX_lt v) (PT_INDEX_lt v') fun h2 => he ?_
      exact page_eq_iff.mpr ⟨h1.symm, h2.symm⟩
    · exact slot_ne_of_page (aligned_frame _) (aligned_frame _) (PT_INDEX_lt v) (PT_INDEX_lt v')
        fun e => h1 (T.distinct _ _ (PD_INDEX_lt v) (PD_INDEX_lt v') hv hv' e)
  · rw [if_neg hv', if_neg hv']

end Tables

/-! ## A new table -/

/-- The new block is cleared, and not yet in the directory. -/
def cleared (s : Paging) : Paging :=
  let a := allocateBlocks s.phys 1
  { s with phys := { a.2 with mem := a.2.mem.memset a.1 0 4096 } }

/-- The table at `t` is put into directory entry `i`. -/
def addEntry (s : Paging) (i t : Word) : Paging :=
  s.withMem (s.mem.store32 (slot s.currentPageDir i) (tableEntry (pde s i) t))

theorem newTable_of_null (h : (allocateBlocks s.phys 1).1 = 0) (entry : Addr) :
    newTable s entry = (0, { s with phys := (allocateBlocks s.phys 1).2 }) := by
  simp only [newTable]
  rw [if_pos h]

theorem newTable_eq (h : (allocateBlocks s.phys 1).1 ≠ 0) (i : Word) :
    newTable s (slot s.currentPageDir i) =
      ((allocateBlocks s.phys 1).1, addEntry (cleared s) i (allocateBlocks s.phys 1).1) := by
  simp only [newTable]
  rw [if_neg h, mem_setEntry]
  rfl

/-- A free page is put into an entry of the directory that has no table. -/
structure Added (s s' : Paging) (i t : Word) : Prop where
  dir : s'.currentPageDir = s.currentPageDir
  aligned : Aligned t
  notInUse : ¬ InUse s t
  pde_self : pde s' i = tableEntry 2 t
  pde_other : ∀ j : Word, j.toNat < 1024 → j ≠ i → pde s' j = pde s j
  words : ∀ a : Addr, a.toNat % 4 = 0 → page a ≠ page s.currentPageDir →
    s'.mem.load32 a = s.mem.load32 a

theorem pde_addEntry_other {j t : Word} (hd : Aligned s.currentPageDir) (hi : i.toNat < 1024)
    (hj : j.toNat < 1024) (h : j ≠ i) : pde (addEntry s i t) j = pde s j :=
  Mem.load32_store32_of_ne (slot_aligned hd hi) (slot_aligned hd hj) (slot_ne hd hi hj h.symm)

theorem Tables.addEntry_ok {t : Addr} (T : Tables s) (ht : Aligned t) (hn : ¬ InUse s t)
    (hi : i.toNat < 1024) (hp : ¬ isPresent (pde s i)) : Added s (addEntry s i t) i t := by
  refine ⟨rfl, ht, hn, ?_, fun j hj => pde_addEntry_other T.dir hi hj, fun a ha hpa => ?_⟩
  · rw [← T.absent i hi hp]
    exact Mem.load32_store32_self _ _ _
  · refine Mem.load32_store32_of_ne (slot_aligned T.dir hi) ha fun e => hpa ?_
    rw [← e, page_slot T.dir hi]

namespace Added

variable {t : Word} (A : Added s s' i t)

include A

theorem frame_self : frame (pde s' i) = t := by
  rw [A.pde_self]
  exact frame_tableEntry_two A.aligned

theorem present_self : isPresent (pde s' i) := by
  rw [A.pde_self]
  exact isPresent_tableEntry _ _

theorem tables (T : Tables s) : Tables s' := by
  have hother : ∀ j : Word, j.toNat < 1024 → j ≠ i → isPresent (pde s' j) →
      frame (pde s' j) ≠ t := by
    intro j hj hji hp e
    rw [A.pde_other j hj hji] at hp e
    exact A.notInUse (.inr ⟨j, hj, hp, e.symm⟩)
  refine ⟨A.dir ▸ T.dir, fun j hj hp => ?_, fun j k hj hk hpj hpk e => ?_, fun j hj hp => ?_⟩
  · rw [A.dir]
    by_cases hji : j = i
    · rw [hji, A.frame_self]
      exact fun e => A.notInUse (.inl e)
    · rw [A.pde_other j hj hji] at hp ⊢
      exact T.apart j hj hp
  · by_cases hji : j = i <;> by_cases hki : k = i
    · rw [hji, hki]
    · rw [hji, A.frame_self] at e
      exact absurd e.symm (hother k hk hki hpk)
    · rw [hki, A.frame_self] at e
      exact absurd e (hother j hj hji hpj)
    · rw [A.pde_other j hj hji] at hpj e
      rw [A.pde_other k hk hki] at hpk e
      exact T.distinct j k hj hk hpj hpk e
  · by_cases hji : j = i
    · rw [hji] at hp
      exact absurd A.present_self hp
    · rw [A.pde_other j hj hji] at hp ⊢
      exact T.absent j hj hp

/-- If the page is clear, no page becomes mapped, and the others are as before. -/
theorem entryOf_eq (T : Tables s) (hp : ¬ isPresent (pde s i))
    (hz : ∀ k : Word, k.toNat < 1024 → s.mem.load32 (slot t k) = 0) (v : Word) :
    entryOf s' v = entryOf s v := by
  have hw : ∀ u : Addr, Aligned u → u ≠ s.currentPageDir → ∀ k : Word, k.toNat < 1024 →
      s'.mem.load32 (slot u k) = s.mem.load32 (slot u k) := fun u hu hne k hk => by
    refine A.words _ (slot_aligned hu hk) fun e => hne ?_
    rw [page_slot hu hk] at e
    exact eq_of_page_eq hu T.dir e
  rw [entryOf, entryOf, getPage_eq]
  by_cases hv : PD_INDEX v = i
  · rw [hv, if_pos A.present_self, if_neg hp, A.frame_self,
      hw t A.aligned (fun e => A.notInUse (.inl e)) _ (PT_INDEX_lt v)]
    exact hz _ (PT_INDEX_lt v)
  · rw [A.pde_other _ (PD_INDEX_lt v) hv]
    split
    · rename_i hpv
      exact hw _ (aligned_frame _) (T.apart _ (PD_INDEX_lt v) hpv) _ (PT_INDEX_lt v)
    · rfl

end Added

/-- A fresh block is cleared. -/
theorem Tables.cleared_ok (T : Tables s) (hF : Fresh (InUse s) s.phys)
    (h : (allocateBlocks s.phys 1).1 ≠ 0) :
    Kept s (cleared s) ∧ ∀ k : Word, k.toNat < 1024 →
      (cleared s).mem.load32 (slot (allocateBlocks s.phys 1).1 k) = 0 := by
  have ha := aligned_allocateBlocks s.phys 1
  refine ⟨⟨rfl, fun u hu k hk => ?_⟩, fun k hk => ?_⟩
  · have hal := T.aligned_inUse hu
    refine (Mem.load32_memset_other ha (slot_aligned hal hk) fun e => ?_).trans (hF.same u hu k hk)
    rw [page_slot hal hk] at e
    exact hF.notInUse h (eq_of_page_eq hal ha e ▸ hu)
  · exact Mem.load32_memset_page ha (slot_aligned ha hk) (page_slot ha hk)

/-! ## One call -/

theorem mapPage_of_present (hp : isPresent (pde s (PD_INDEX v))) (p : Word) :
    mapPage s p v = (true, writePage s p v) := by
  have hp' : ¬ tstAttribute s.mem (s.entry v) PAGE_TABLE_ENTRY_PRESENT = 0 := hp
  rw [mapPage, if_neg hp']

/-- Without a block for the table, `map_page` fails. -/
theorem mapPage_of_null (hp : ¬ isPresent (pde s (PD_INDEX v)))
    (h : (allocateBlocks s.phys 1).1 = 0) (p : Word) :
    mapPage s p v = (false, { s with phys := (allocateBlocks s.phys 1).2 }) := by
  have hp' : tstAttribute s.mem (s.entry v) PAGE_TABLE_ENTRY_PRESENT = 0 := not_not.mp hp
  simp only [mapPage]
  rw [if_pos hp', newTable_of_null h, if_pos rfl]

theorem mapPage_of_newTable (hp : ¬ isPresent (pde s (PD_INDEX v)))
    (h : (allocateBlocks s.phys 1).1 ≠ 0) (p : Word) :
    mapPage s p v =
      (true, writePage (addEntry (cleared s) (PD_INDEX v) (allocateBlocks s.phys 1).1) p v) := by
  have hp' : tstAttribute s.mem (s.entry v) PAGE_TABLE_ENTRY_PRESENT = 0 := not_not.mp hp
  have hn : newTable s (s.entry v) = _ := newTable_eq h (PD_INDEX v)
  simp only [mapPage]
  rw [if_pos hp', hn, if_neg h]

theorem Tables.writePage_ok (T : Tables s) (hp : isPresent (pde s (PD_INDEX v))) (p : Word) :
    Tables (writePage s p v) ∧ isPresent (pde (writePage s p v) (PD_INDEX v)) ∧
      ∀ v', entryOf (writePage s p v) v' =
        if page v' = page v then mapEntry (entryOf s v) p else entryOf s v' := by
  have he : s.mem.load32 (getPage s v) = entryOf s v := by rw [entryOf, if_pos hp]
  rw [writePage_eq, he]
  refine ⟨(T.sameDir_store hp).tables T, ?_, fun v' => T.entryOf_store hp⟩
  rw [(T.sameDir_store hp).pde _ (PD_INDEX_lt v)]
  exact hp

/-- What `map_page` does to the entries: it fails and changes none, or it changes one. -/
theorem Tables.mapPage_ok (T : Tables s) (hF : Fresh (InUse s) s.phys) (p v : Word) :
    Tables (mapPage s p v).2 ∧
    (((mapPage s p v).1 = false ∧ ¬ isPresent (pde s (PD_INDEX v)) ∧
        ∀ v', entryOf (mapPage s p v).2 v' = entryOf s v') ∨
      ((mapPage s p v).1 = true ∧ isPresent (pde (mapPage s p v).2 (PD_INDEX v)) ∧
        ∀ v', entryOf (mapPage s p v).2 v' =
          if page v' = page v then mapEntry (entryOf s v) p else entryOf s v')) := by
  by_cases hp : isPresent (pde s (PD_INDEX v))
  · rw [mapPage_of_present hp]
    obtain ⟨T', hp', he⟩ := T.writePage_ok hp p
    exact ⟨T', .inr ⟨rfl, hp', he⟩⟩
  by_cases h : (allocateBlocks s.phys 1).1 = 0
  · rw [mapPage_of_null hp h]
    have K : Kept s { s with phys := (allocateBlocks s.phys 1).2 } := ⟨rfl, hF.same⟩
    exact ⟨K.sameDir.tables T, .inl ⟨rfl, hp, K.entryOf_eq⟩⟩
  · rw [mapPage_of_newTable hp h]
    obtain ⟨K, hz⟩ := T.cleared_ok hF h
    have hp₁ : ¬ isPresent (pde (cleared s) (PD_INDEX v)) := by rwa [K.sameDir.pde _ (PD_INDEX_lt v)]
    have A := (K.sameDir.tables T).addEntry_ok (aligned_allocateBlocks s.phys 1)
      (fun hu => hF.notInUse h (K.sameDir.inUse hu)) (PD_INDEX_lt v) hp₁
    obtain ⟨T', hp', he⟩ := (A.tables (K.sameDir.tables T)).writePage_ok A.present_self p
    have hent : ∀ v', entryOf _ v' = entryOf s v' := fun v' =>
      (A.entryOf_eq (K.sameDir.tables T) hp₁ hz v').trans (K.entryOf_eq v')
    refine ⟨T', .inr ⟨rfl, hp', fun v' => (he v').trans ?_⟩⟩
    rw [hent, hent]

theorem Tables.unmapPage_ok (T : Tables s) (hv : present s v) :
    Tables (unmapPage s v) ∧ ∀ v', entryOf (unmapPage s v) v' =
      if page v' = page v then unmapEntry (entryOf s v) else entryOf s v' := by
  have hp : isPresent (pde s (PD_INDEX v)) := by
    by_contra hp
    rw [present, entryOf, if_neg hp] at hv
    exact absurd hv (by decide)
  have he : s.mem.load32 (getPage s v) = entryOf s v := by rw [entryOf, if_pos hp]
  rw [unmapPage_eq, he]
  exact ⟨(T.sameDir_store hp).tables T, fun v' => T.entryOf_store hp⟩

/-- Translation of an address in a page that has a table. -/
theorem getPhysAddr_add {k : Word} (hp : isPresent (pde s (PD_INDEX v))) (hv : Aligned v)
    (hk : k.toNat < 4096) : getPhysAddr s (v + k) = frame (entryOf s v) + k := by
  obtain ⟨h1, h2⟩ := page_eq_iff.mp (page_add hv hk)
  have hg : getPage s (v + k) = getPage s v := by rw [getPage_eq, getPage_eq, h1, h2]
  rw [getPhysAddr, offset_add hv hk, hg, entryOf, if_pos hp]
  rfl

end

end AlexOS.Virtual
