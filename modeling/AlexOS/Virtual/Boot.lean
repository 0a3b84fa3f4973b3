import AlexOS.Virtual.Guard

/-!
# The directory built at boot

`init_virtual_memory_manager` makes a directory whose only tables are those of
the first 4 MiB and of the 4 MiB at `0xC0000000`. It is well formed if the
blocks allocated for it are fresh (`tables_init`). If they are not those of the
bitmap either (`ClearInit`), the three are in different blocks
(`init_grows`); a bitmap that is protected gives both, and a state that is
guarded (`init_ok`).
-/

namespace AlexOS.Virtual

open Physical

section

variable {s s₀ : Paging} {phys : Phys} {m : Mem} {a t dir : Addr} {c i v : Word} {n : Nat}

/-- The entries that the loop over the directory leaves. -/
theorem load_clearDirectory (hd : Aligned dir) (hn : n ≤ 1024) (hi : i.toNat < 1024) :
    (clearDirectory m dir n).load32 (slot dir i) =
      if i.toNat < n then m.load32 (slot dir i) ||| 2 else m.load32 (slot dir i) := by
  induction n with
  | zero => simp [clearDirectory]
  | succ n ih =>
    have e : (BitVec.ofNat 32 n).toNat = n := by
      rw [BitVec.toNat_ofNat]
      omega
    have ih := ih (by omega)
    rw [clearDirectory, setAttribute]
    by_cases h : i = BitVec.ofNat 32 n
    · have hin : i.toNat = n := by rw [h, e]
      rw [← h, Mem.load32_store32_self, ih, if_neg (by omega), if_pos (by omega)]
      rfl
    · have hin : i.toNat ≠ n := fun h' => h (BitVec.eq_of_toNat_eq (h'.trans e.symm))
      rw [Mem.load32_store32_of_ne (slot_aligned hd (by omega)) (slot_aligned hd hi)
        (slot_ne hd (by omega) hi (Ne.symm h)), ih]
      simp only [show i.toNat < n + 1 ↔ i.toNat < n by omega]

/-- The loop writes to the directory only. -/
theorem load_clearDirectory_other (hd : Aligned dir) (hn : n ≤ 1024) (ha : a.toNat % 4 = 0)
    (h : page a ≠ page dir) : (clearDirectory m dir n).load32 a = m.load32 a := by
  induction n with
  | zero => rfl
  | succ n ih =>
    have e : (BitVec.ofNat 32 n).toNat = n := by
      rw [BitVec.toNat_ofNat]
      omega
    rw [clearDirectory, setAttribute, Mem.load32_store32_of_ne (slot_aligned hd (by omega)) ha]
    · exact ih (by omega)
    · intro e'
      rw [← e', page_slot hd (by omega)] at h
      exact h rfl

/-- The loops that fill a table write to the table only. -/
theorem load_fillTable_other {f : Word} (ht : Aligned t) (ha : a.toNat % 4 = 0)
    (h : page a ≠ page t) : (fillTable m t f v n).load32 a = m.load32 a := by
  induction n with
  | zero => rfl
  | succ n ih =>
    have hpt := PT_INDEX_lt (pageAfter v n)
    rw [fillTable, Mem.load32_store32_of_ne (slot_aligned ht hpt) ha, ih]
    intro e
    rw [← e, page_slot ht hpt] at h
    exact h rfl

theorem index_pageAfter {i : Nat} (hv : v.toNat % 2 ^ 22 = 0) (hi : i < 1024) :
    PT_INDEX (pageAfter v i) = BitVec.ofNat 32 i := by
  apply BitVec.eq_of_toNat_eq
  rw [toNat_PT_INDEX, pageAfter, BitVec.toNat_add, BitVec.toNat_mul, BitVec.toNat_ofNat,
    show PAGE_SIZE.toNat = 4096 from rfl]
  omega

/-- Entry `i` of a table that has been filled for the 4 MiB from `v` on. -/
theorem load_fillTable_self {f : Word} {i : Nat} (ht : Aligned t) (hv : v.toNat % 2 ^ 22 = 0) (hn : n ≤ 1024)
    (hi : i < n) :
    (fillTable m t f v n).load32 (slot t (BitVec.ofNat 32 i)) = pageEntry (pageAfter f i) := by
  have hlt : ∀ j < 1024, (BitVec.ofNat 32 j).toNat = j := fun j hj => by
    rw [BitVec.toNat_ofNat]
    omega
  induction n with
  | zero => omega
  | succ n ih =>
    rw [fillTable, index_pageAfter hv (by omega)]
    rcases Nat.lt_succ_iff_lt_or_eq.mp hi with h | rfl
    · rw [Mem.load32_store32_of_ne (slot_aligned ht (by rw [hlt n] <;> omega))
        (slot_aligned ht (by rw [hlt i] <;> omega))]
      · exact ih (by omega) h
      · refine slot_ne ht (by rw [hlt n] <;> omega) (by rw [hlt i] <;> omega) fun e => ?_
        have := congrArg BitVec.toNat e
        rw [hlt n (by omega), hlt i (by omega)] at this
        omega
    · exact Mem.load32_store32_self _ _ _

/-- An entry written at boot is one that `map_page` would have left in a new table's place. -/
theorem pageEntry_eq (f : Word) : pageEntry f = mapEntry 2 f := by
  have e1 : (0 ||| PAGE_TABLE_ENTRY_PRESENT ||| PAGE_TABLE_ENTRY_READ_WRITE) &&& ~~~0x7FFFF000 = (2 ||| 1 : Word) := by
    decide
  have e2 : (2 : Word) &&& ~~~0x7FFFF000 = 2 := by decide
  rw [pageEntry, mapEntry, e1, e2, BitVec.or_assoc, BitVec.or_comm 1 f, ← BitVec.or_assoc]

theorem isPresent_pageEntry (f : Word) : isPresent (pageEntry f) := by
  rw [pageEntry_eq]
  exact isPresent_mapEntry _ _

theorem frame_pageEntry {f : Word} (hf : Aligned f) : frame (pageEntry f) = f := by
  rw [pageEntry_eq, frame_mapEntry_iff hf]
  exact fun h => absurd h (by decide)

/-! ## The stages of boot -/

/-- The state when the directory has been made. -/
def directory (phys : Phys) : Paging := ⟨(makeDirectory phys).2, (makeDirectory phys).1⟩

/-- The blocks of the two tables, and what remains. -/
def table (phys : Phys) : Addr × Phys := allocateBlocks (directory phys).phys 1
def tableHigherHalf (phys : Phys) : Addr × Phys := allocateBlocks (table phys).2 1

/-- The tables are filled, and not yet in the directory. -/
def filled (phys : Phys) (kernelAddress : Word) : Paging :=
  let h := tableHigherHalf phys
  ⟨{ h.2 with mem := fillTables h.2.mem (table phys).1 h.1 kernelAddress },
    (directory phys).currentPageDir⟩

theorem makeDirectory_eq (h : (makeDirectory phys).1 ≠ 0) : (allocateBlocks phys 3).1 ≠ 0 ∧
    directory phys = ⟨{ (allocateBlocks phys 3).2 with
      mem := clearDirectory ((allocateBlocks phys 3).2.mem.memset (allocateBlocks phys 3).1 0 4096)
        (allocateBlocks phys 3).1 1024 }, (allocateBlocks phys 3).1⟩ := by
  simp only [makeDirectory, directory] at h ⊢
  split at h
  · exact absurd rfl h
  · rename_i h0
    rw [if_neg h0]
    exact ⟨h0, rfl⟩

theorem aligned_table (phys : Phys) : Aligned (table phys).1 := aligned_allocateBlocks _ _

theorem aligned_tableHigherHalf (phys : Phys) : Aligned (tableHigherHalf phys).1 :=
  aligned_allocateBlocks _ _

theorem addEntry_eq (s : Paging) (i t : Word) :
    addEntry s i t = s.withMem (setEntry s.mem (slot s.currentPageDir i) t) := by
  rw [mem_setEntry]
  rfl

/-- Boot succeeds if the three allocations do. -/
theorem init_eq {k : Word} (h : initVirtualMemoryManager phys k = (true, s)) :
    (makeDirectory phys).1 ≠ 0 ∧ (table phys).1 ≠ 0 ∧ (tableHigherHalf phys).1 ≠ 0 ∧
      s = addEntry (addEntry (filled phys k) 768 (table phys).1) 0 (tableHigherHalf phys).1 := by
  have e768 : PD_INDEX 0xC0000000 = 768 := by decide
  have e0 : PD_INDEX 0 = 0 := by decide
  simp only [initVirtualMemoryManager] at h
  split at h
  · exact absurd (congrArg Prod.fst h) Bool.false_ne_true
  rename_i hd
  split at h
  · exact absurd (congrArg Prod.fst h) Bool.false_ne_true
  rename_i ht
  split at h
  · exact absurd (congrArg Prod.fst h) Bool.false_ne_true
  rename_i hh
  refine ⟨hd, ht, hh, (congrArg Prod.snd h).symm.trans ?_⟩
  simp only [addEntry_eq, filled, Paging.withMem, Paging.mem, tableHigherHalf, table, directory, e768,
    e0]

theorem init_of_allocated (k : Word) (hd : (makeDirectory phys).1 ≠ 0) (ht : (table phys).1 ≠ 0)
    (hh : (tableHigherHalf phys).1 ≠ 0) : (initVirtualMemoryManager phys k).1 = true := by
  have ht : ¬ (allocateBlocks (makeDirectory phys).2 1).1 = 0 := ht
  have hh : ¬ (allocateBlocks (allocateBlocks (makeDirectory phys).2 1).2 1).1 = 0 := hh
  simp only [initVirtualMemoryManager]
  rw [if_neg hd, if_neg ht, if_neg hh]

theorem makeDirectory_fst (h : (allocateBlocks phys 3).1 ≠ 0) :
    (makeDirectory phys).1 = (allocateBlocks phys 3).1 := by
  simp only [makeDirectory]
  rw [if_neg h]

theorem load_filled_other {k : Word} (ha : a.toNat % 4 = 0) (ht : page a ≠ page (table phys).1)
    (hh : page a ≠ page (tableHigherHalf phys).1) :
    (filled phys k).mem.load32 a = (tableHigherHalf phys).2.mem.load32 a := by
  have hta := aligned_table phys
  have hha := aligned_tableHigherHalf phys
  refine (load_fillTable_other hta ha ht).trans ((load_fillTable_other hha ha hh).trans ?_)
  rw [Mem.load32_memset_other hha ha hh, Mem.load32_memset_other hta ha ht]

attribute [local irreducible] allocateBlocks fillTables

theorem directory_ok (h : (makeDirectory phys).1 ≠ 0) : Aligned (directory phys).currentPageDir ∧
    ∀ i : Word, i.toNat < 1024 → pde (directory phys) i = 2 := by
  have hal := aligned_allocateBlocks phys 3
  rw [(makeDirectory_eq h).2]
  refine ⟨hal, fun i hi => (load_clearDirectory hal (le_refl _) hi).trans ?_⟩
  rw [if_pos hi, Mem.load32_memset_page hal (slot_aligned hal hi) (page_slot hal hi)]
  rfl

/-- A directory without tables. -/
theorem tables_of_empty (hd : Aligned s.currentPageDir)
    (h : ∀ i : Word, i.toNat < 1024 → pde s i = 2) : Tables s := by
  have hp : ∀ i : Word, i.toNat < 1024 → ¬ isPresent (pde s i) := fun i hi => by
    rw [h i hi]
    exact not_isPresent_two
  exact ⟨hd, fun i hi hi' => absurd hi' (hp i hi), fun i _ hi _ hi' => absurd hi' (hp i hi),
    fun i hi _ => h i hi⟩

/-- The two entries that boot makes. -/
theorem not_present_filled {k : Word} (D : SameDir (directory phys) (filled phys k))
    (h : (makeDirectory phys).1 ≠ 0) (hi : i.toNat < 1024) : ¬ isPresent (pde (filled phys k) i) := by
  rw [D.pde i hi, (directory_ok h).2 i hi]
  exact not_isPresent_two

theorem inUse_filled {k : Word} (D : SameDir (directory phys) (filled phys k))
    (h : (makeDirectory phys).1 ≠ 0) (hu : InUse (filled phys k) t) :
    t = (directory phys).currentPageDir := by
  rcases hu with rfl | ⟨i, hi, hp, -⟩
  · rfl
  · exact absurd hp (not_present_filled D h hi)

/-- The blocks allocated at boot are fresh. -/
structure FreshInit (phys : Phys) : Prop where
  table : Fresh (· = (directory phys).currentPageDir) (directory phys).phys
  tableHigherHalf : Fresh (fun t => t = (directory phys).currentPageDir ∨ t = (Virtual.table phys).1)
    (Virtual.table phys).2

theorem FreshInit.sameDir {k : Word} (F : FreshInit phys) (hd : (makeDirectory phys).1 ≠ 0)
    (ht : (Virtual.table phys).1 ≠ 0) (hh : (Virtual.tableHigherHalf phys).1 ≠ 0) :
    SameDir (directory phys) (filled phys k) := by
  have hal := (directory_ok hd).1
  have hta := aligned_table phys
  have hha := aligned_tableHigherHalf phys
  refine ⟨rfl, fun i hi => ?_⟩
  refine (load_filled_other (slot_aligned hal hi) (fun e => F.table.notInUse ht ?_)
    (fun e => F.tableHigherHalf.notInUse hh (.inl ?_))).trans ?_
  · rw [page_slot hal hi] at e
    exact (eq_of_page_eq hal hta e).symm
  · rw [page_slot hal hi] at e
    exact (eq_of_page_eq hal hha e).symm
  · exact (F.tableHigherHalf.same _ (.inl rfl) i hi).trans (F.table.same _ rfl i hi)

/-- The directory that boot builds is well formed. -/
theorem tables_init {k : Word} (F : FreshInit phys)
    (h : initVirtualMemoryManager phys k = (true, s)) : Tables s := by
  obtain ⟨hd, ht, hh, rfl⟩ := init_eq h
  have D := F.sameDir (k := k) hd ht hh
  have T : Tables (filled phys k) := by
    obtain ⟨hal, h2⟩ := directory_ok hd
    exact D.tables (tables_of_empty hal h2)
  have A := T.addEntry_ok (aligned_table phys)
    (fun hu => F.table.notInUse ht (inUse_filled D hd hu)) (i := 768) (by decide)
    (not_present_filled D hd (by decide))
  have T' := A.tables T
  have hp : ¬ isPresent (pde (addEntry (filled phys k) 768 (Virtual.table phys).1) 0) := by
    rw [A.pde_other 0 (by decide) (by decide)]
    exact not_present_filled D hd (by decide)
  refine (T'.addEntry_ok (aligned_tableHigherHalf phys) (fun hu => ?_) (by decide) hp).tables T'
  apply F.tableHigherHalf.notInUse hh
  rcases hu with e | ⟨j, hj, hpj, e⟩
  · exact .inl e
  · by_cases hj' : j = 768
    · rw [hj', A.frame_self] at e
      exact .inr e
    · rw [A.pde_other j hj hj'] at hpj
      exact absurd hpj (not_present_filled D hd hj)

/-- Boot makes no others. -/
theorem absent_init {k : Word} (F : FreshInit phys) (h : initVirtualMemoryManager phys k = (true, s))
    (hi : i.toNat < 1024) (h0 : i ≠ 0) (h768 : i ≠ 768) : ¬ isPresent (pde s i) := by
  obtain ⟨hd, ht, hh, rfl⟩ := init_eq h
  have D := F.sameDir (k := k) hd ht hh
  have hal : Aligned (filled phys k).currentPageDir := (directory_ok hd).1
  have hal' : Aligned (addEntry (filled phys k) 768 (Virtual.table phys).1).currentPageDir := hal
  rw [pde_addEntry_other hal' (by decide) hi h0, pde_addEntry_other hal (by decide) hi h768]
  exact not_present_filled D hd hi

/-! ## Where boot puts them -/

/-- What boot allocates is below `max_blocks` and clear of the bitmap, and the tables are clear
of the directory. -/
structure ClearInit (phys : Phys) : Prop where
  map : phys.memoryMap.toNat % 4 = 0
  maxBlocks : phys.maxBlocks.toNat < 2 ^ 20
  notZero : ¬ InMap phys 0
  directory : ClearRun phys 3
  table : FreshBlocks (Virtual.directory phys) 1
  tableHigherHalf : FreshBlocks { Virtual.directory phys with phys := (Virtual.table phys).2 } 1

theorem same_directory (h : (makeDirectory phys).1 ≠ 0) : Same phys (directory phys).phys := by
  have S : Same phys (allocateBlocks phys 3).2 := by
    rcases allocateBlocks_cases phys 3 with e | ⟨start, e, A⟩
    · rw [e]
      exact .refl phys
    · exact A.same
  rw [(makeDirectory_eq h).2]
  exact S.trans ⟨rfl, rfl⟩

/-- The directory is made in blocks that do not hold the bitmap. -/
theorem ClearRun.bit_directory (F : ClearRun phys 3) (hm : phys.memoryMap.toNat % 4 = 0)
    (hmax : phys.maxBlocks.toNat < 2 ^ 20) (h : (makeDirectory phys).1 ≠ 0) {b : Word}
    (hb : b ≤ phys.maxBlocks) : bit (directory phys).phys b = bit (allocateBlocks phys 3).2 b := by
  obtain ⟨h3, e⟩ := makeDirectory_eq h
  have R := F.heldRun hm hmax
  have hd := aligned_allocateBlocks phys 3
  have hself := ((R.run h3).2 _ (inRun_self (by decide))).2
  have hb : b ≤ (allocateBlocks phys 3).2.maxBlocks := R.same.maxBlocks ▸ hb
  have hne : page (wordAt (allocateBlocks phys 3).2.memoryMap b) ≠ page (allocateBlocks phys 3).1 :=
    fun e => page_ne_of_inMap hself.notInMap hb e rfl
  have hw : (wordAt (allocateBlocks phys 3).2.memoryMap b).toNat % 4 = 0 :=
    wordAt_aligned (R.same.memoryMap ▸ hm) b
  rw [e]
  refine bit_congr ?_
  exact (load_clearDirectory_other hd (le_refl _) hw hne).trans (Mem.load32_memset_other hd hw hne)

/-- The directory is in blocks that are held. -/
theorem ClearRun.held_directory (F : ClearRun phys 3) (hm : phys.memoryMap.toNat % 4 = 0)
    (hmax : phys.maxBlocks.toNat < 2 ^ 20) (h : (makeDirectory phys).1 ≠ 0)
    (hc : InDir (directory phys) c) : Held (directory phys).phys c := by
  obtain ⟨h3, e⟩ := makeDirectory_eq h
  have R := F.heldRun hm hmax
  rw [InDir, show (directory phys).currentPageDir = (allocateBlocks phys 3).1 by rw [e]] at hc
  have H := ((R.run h3).2 c hc).2
  have S : Same (allocateBlocks phys 3).2 (directory phys).phys := by
    rw [e]
    exact ⟨rfl, rfl⟩
  have hlt : c ≤ phys.maxBlocks := R.same.maxBlocks ▸ BitVec.le_of_lt H.below
  exact H.mono S ((F.bit_directory hm hmax h hlt).trans H.used)

/-- The state after the three allocations of boot. -/
def allocated (phys : Phys) : Paging := ⟨(tableHigherHalf phys).2, (directory phys).currentPageDir⟩

namespace ClearInit

variable (I : ClearInit phys) (hd : (makeDirectory phys).1 ≠ 0)

include I hd

theorem layout_directory : Layout (Virtual.directory phys) := by
  obtain ⟨hal, h2⟩ := directory_ok hd
  have S := same_directory hd
  refine ⟨tables_of_empty hal h2, S.memoryMap ▸ I.map, S.maxBlocks ▸ I.maxBlocks,
    fun h => I.notZero ((inMap_same S).mp h),
    fun c hc => (I.directory.held_directory I.map I.maxBlocks hd hc).toUsable, ?_⟩
  rintro c ⟨i, hi, hp, -⟩
  rw [h2 i hi] at hp
  exact absurd hp not_isPresent_two

/-- The two tables are spare blocks, and different. -/
theorem allocated_ok (ht : (Virtual.table phys).1 ≠ 0) (hh : (Virtual.tableHigherHalf phys).1 ≠ 0) :
    Quiet (fun c => Taken (Virtual.tableHigherHalf phys).1 1 c ∨ Taken (Virtual.table phys).1 1 c)
      (Virtual.directory phys) (allocated phys) ∧
    (Spare (allocated phys) (blockOf (Virtual.table phys).1) ∧
      bit (Virtual.directory phys).phys (blockOf (Virtual.table phys).1) = false) ∧
    (Spare (allocated phys) (blockOf (Virtual.tableHigherHalf phys).1) ∧
      bit (Virtual.directory phys).phys (blockOf (Virtual.tableHigherHalf phys).1) = false) ∧
    blockOf (Virtual.table phys).1 ≠ blockOf (Virtual.tableHigherHalf phys).1 := by
  have L := I.layout_directory hd
  obtain ⟨Q, hrun⟩ := L.allocateBlocks_ok I.table
  obtain ⟨hfree₁, hts⟩ := (hrun ht).2 _ (inRun_self (by decide))
  have g := Q.grows L
  obtain ⟨Q', hrun'⟩ := g.layout.allocateBlocks_ok I.tableHigherHalf
  obtain ⟨hfree, hhs⟩ := (hrun' hh).2 _ (inRun_self (by decide))
  have hlt := hhs.below
  rw [Q'.same.maxBlocks, Q.same.maxBlocks] at hlt
  refine ⟨Q.trans Q', ⟨(Q'.grows g.layout).spare hts, hfree₁⟩, ⟨hhs, ?_⟩, fun e => ?_⟩
  · refine Bool.eq_false_iff.mpr fun h => Bool.eq_false_iff.mp hfree ?_
    exact g.used _ (BitVec.le_of_lt hlt) h
  · exact Bool.eq_false_iff.mp hfree (e ▸ hts.used)

/-- The blocks allocated at boot are fresh. -/
theorem freshInit (ht : (Virtual.table phys).1 ≠ 0) : FreshInit phys := by
  have L := I.layout_directory hd
  have F := L.fresh I.table
  obtain ⟨Q, hrun⟩ := L.allocateBlocks_ok I.table
  have hts := ((hrun ht).2 _ (inRun_self (by decide))).2
  have L' := (Q.grows L).layout
  have F' := L'.fresh I.tableHigherHalf
  have R := L'.heldRun I.tableHigherHalf
  refine ⟨⟨fun h e => F.notInUse h (.inl e), fun t ht => F.same t (.inl ht)⟩,
    ⟨fun h hu => ?_, fun t hu i hi => ?_⟩⟩
  · rcases hu with e | e
    · exact F'.notInUse h (.inl e)
    · have hfree := ((R.run h).2 _ (inRun_self (by decide))).1
      exact Bool.eq_false_iff.mp hfree (e ▸ hts.used)
  · rcases hu with e | rfl
    · exact F'.same t (.inl e) i hi
    · apply R.words _ (slot_aligned (aligned_table phys) hi)
      rw [blockOf_slot (aligned_table phys) hi]
      exact hts.notInMap

theorem filled_ok (k : Word) (ht : (Virtual.table phys).1 ≠ 0)
    (hh : (Virtual.tableHigherHalf phys).1 ≠ 0) : Quiet NoBlock (allocated phys) (filled phys k) := by
  obtain ⟨Q, ⟨hts, -⟩, ⟨hhs, -⟩, -⟩ := I.allocated_ok hd ht hh
  have L := (Q.grows (I.layout_directory hd)).layout
  refine Quiet.withMem (fun b hb => ?_) fun i hi => ?_
  · exact load_filled_other (wordAt_aligned L.map b)
      (fun e => page_ne_of_inMap hts.notInMap hb e rfl)
      (fun e => page_ne_of_inMap hhs.notInMap hb e rfl)
  · refine load_filled_other (slot_aligned L.dir hi) (fun e => hts.notInDir ?_)
      (fun e => hhs.notInDir ?_) <;>
    · rw [page_slot L.dir hi] at e
      rw [← blockOf_eq_iff.mpr e]
      exact inDir_self _

end ClearInit

/-- Two tables go into an empty directory. -/
theorem Layout.addEntries_ok {u : Word} (L : Layout s) (ht : Aligned t) (hu : Aligned u)
    (hst : Spare s (blockOf t)) (hsu : Spare s (blockOf u)) (hne : blockOf t ≠ blockOf u)
    (hp : ∀ i : Word, i.toNat < 1024 → ¬ isPresent (pde s i)) :
    Layout (addEntry (addEntry s 768 t) 0 u) ∧
      (∀ c, InTable (addEntry (addEntry s 768 t) 0 u) c → c = blockOf u ∨ c = blockOf t) ∧
      ∀ c, c ≤ s.phys.maxBlocks → bit (addEntry (addEntry s 768 t) 0 u).phys c = bit s.phys c := by
  obtain ⟨L', htable, hbit⟩ := L.addEntry_ok ht hst (i := 768) (by decide) (hp 768 (by decide))
  have hp' : ¬ isPresent (pde (addEntry s 768 t) 0) := by
    rw [pde_addEntry_other L.dir (by decide) (by decide) (by decide)]
    exact hp 0 (by decide)
  have hnone : ∀ c, ¬ InTable s c := by
    rintro c ⟨i, hi, hpi, -⟩
    exact hp i hi hpi
  have hsu' : Spare (addEntry s 768 t) (blockOf u) := by
    refine ⟨hsu.toHeld.mono ⟨rfl, rfl⟩ ?_, hsu.notInDir, fun h => ?_⟩
    · exact (hbit _ (BitVec.le_of_lt hsu.below)).trans hsu.used
    · exact (htable _ h).elim (fun e => hne e.symm) (hnone _)
  obtain ⟨L'', htable', hbit'⟩ := L'.addEntry_ok hu hsu' (by decide) hp'
  refine ⟨L'', fun c hc => ?_, fun c hc => (hbit' c hc).trans (hbit c hc)⟩
  exact (htable' c hc).imp_right fun h => (htable c h).resolve_right (hnone c)

/-- The tables are in blocks that were free, and are used. -/
theorem Grows.addEntries {u : Word} (g : Grows s₀ s) (ht : Aligned t) (hu : Aligned u)
    (hst : Spare s (blockOf t)) (hsu : Spare s (blockOf u)) (hne : blockOf t ≠ blockOf u)
    (hp : ∀ i : Word, i.toNat < 1024 → ¬ isPresent (pde s i)) (hft : bit s₀.phys (blockOf t) = false)
    (hfu : bit s₀.phys (blockOf u) = false) :
    Grows s₀ (addEntry (addEntry s 768 t) 0 u) ∧
      ∀ c, c ≤ s.phys.maxBlocks → bit (addEntry (addEntry s 768 t) 0 u).phys c = bit s.phys c := by
  obtain ⟨L', htable, hbit⟩ := g.layout.addEntries_ok ht hu hst hsu hne hp
  have hused : ∀ c, Spare s c → bit (addEntry (addEntry s 768 t) 0 u).phys c := fun c hs =>
    (hbit c (BitVec.le_of_lt hs.below)).trans hs.used
  refine ⟨⟨L', g.dir, g.same.trans ⟨rfl, rfl⟩, fun c hc h => ?_, fun c hc => .inr ?_⟩, hbit⟩
  · exact (hbit c (by rwa [g.same.maxBlocks])).trans (g.used c hc h)
  · rcases htable c hc with rfl | rfl
    · exact ⟨hfu, hused _ hsu⟩
    · exact ⟨hft, hused _ hst⟩

/-- Boot adds its tables to the directory, and does not write to the bitmap but to allocate. -/
theorem init_grows {k : Word} (I : ClearInit phys) (h : initVirtualMemoryManager phys k = (true, s)) :
    Grows (directory phys) s ∧ ∀ c, c ≤ (allocated phys).phys.maxBlocks →
      bit s.phys c = bit (allocated phys).phys c := by
  obtain ⟨hd, ht, hh, rfl⟩ := init_eq h
  obtain ⟨Q, ⟨hts, hft⟩, ⟨hhs, hfh⟩, hne⟩ := I.allocated_ok hd ht hh
  have Q' := I.filled_ok hd k ht hh
  have L := I.layout_directory hd
  have g' := Q'.grows (Q.grows L).layout
  obtain ⟨g, hbit⟩ := ((Q.trans Q').grows L).addEntries (aligned_table phys) (aligned_tableHigherHalf phys)
    (g'.spare hts) (g'.spare hhs) hne (fun i hi => not_present_filled (Q.trans Q').toSameDir hd hi) hft hfh
  exact ⟨g, fun c hc => (hbit c (by rwa [g'.same.maxBlocks])).trans (Q'.bit_eq hc)⟩

/-! ## Boot with a protected bitmap -/

theorem guarded_directory (P : Protected phys) (h : (makeDirectory phys).1 ≠ 0) :
    Guarded (directory phys) := by
  obtain ⟨hal, h2⟩ := directory_ok h
  have S := same_directory h
  have R := (P.allocateBlocks_ok 3).1
  have hheld := fun c hc => (P.clearRun 3).held_directory P.map P.maxBlocks h (c := c) hc
  have hnone : ∀ c, ¬ InTable (directory phys) c := by
    rintro c ⟨i, hi, hp, -⟩
    rw [h2 i hi] at hp
    exact not_isPresent_two hp
  refine ⟨⟨tables_of_empty hal h2, S.memoryMap ▸ P.map, S.maxBlocks ▸ P.maxBlocks,
    fun h => P.notZero ((inMap_same S).mp h), fun c hc => (hheld c hc).toUsable,
    fun c hc => absurd hc (hnone c)⟩, P.of_used S fun c hc hb => ?_, fun c hc => (hheld c hc).used,
    fun c hc => absurd hc (hnone c)⟩
  rw [(P.clearRun 3).bit_directory P.map P.maxBlocks h hc]
  exact (R.bits c).mpr (.inr hb)

theorem Protected.clearInit (P : Protected phys) (h : (makeDirectory phys).1 ≠ 0) : ClearInit phys := by
  have G := guarded_directory P h
  have F := G.freshBlocks 1
  refine ⟨P.map, P.maxBlocks, P.notZero, P.clearRun 3, F, Guarded.freshBlocks ?_ 1⟩
  exact ((G.toLayout.allocateBlocks_ok F).1.grows G.toLayout).guarded G

/-- With a protected bitmap, the blocks allocated at boot are fresh. -/
theorem freshInit_of_protected (P : Protected phys) (hd : (makeDirectory phys).1 ≠ 0)
    (ht : (table phys).1 ≠ 0) : FreshInit phys := (P.clearInit hd).freshInit hd ht

/-- Boot leaves the blocks of the directory and of its tables guarded. -/
theorem init_ok {k : Word} (P : Protected phys) (h : initVirtualMemoryManager phys k = (true, s)) :
    Guarded s ∧ ∀ c, c ≤ (allocated phys).phys.maxBlocks → bit s.phys c = bit (allocated phys).phys c := by
  obtain ⟨hd, -⟩ := init_eq h
  obtain ⟨g, hbit⟩ := init_grows (P.clearInit hd) h
  exact ⟨g.guarded (guarded_directory P hd), hbit⟩

theorem counts_init {k : Word} (h : initVirtualMemoryManager phys k = (true, s)) :
    s.phys.maxBlocks = (allocated phys).phys.maxBlocks ∧
      s.phys.usedBlocks = (allocated phys).phys.usedBlocks := by
  obtain ⟨-, -, -, rfl⟩ := init_eq h
  exact ⟨rfl, rfl⟩

/-! ## A boot that succeeds -/

/-- The free blocks are those of a list. -/
structure Left (phys : Phys) (free : List Word) (used : Word) : Prop where
  maxBlocks : phys.maxBlocks = 256
  usedBlocks : phys.usedBlocks = used
  bits : ∀ c, c ≤ 256 → (bit phys c ↔ c ∉ free)

/-- No block is given back with a page. -/
theorem Left.unmapPage {free : List Word} {u : Word} (B : Left s.phys free u) (L : Layout s) (v : Addr) :
    Left (unmapPage s v).phys free u := by
  refine ⟨B.maxBlocks, B.usedBlocks, fun c hc => ?_⟩
  rw [(L.unmapPage_ok v).bit_eq (B.maxBlocks ▸ hc)]
  exact B.bits c hc

/-- The first free blocks are allocated. -/
theorem Left.allocate {free : List Word} {u : Word} (L : Left phys free u) (rest : List Word)
    (P : Protected phys) (i : Nat) (n : Word) (hi : 1 ≤ i ∧ i < 8) (hn : 0 < n.toNat) (hu : n < 256 - u)
    (hfull : ∀ c ∈ free, 32 * i ≤ c.toNat ∧ c.toNat ≤ 256)
    (hrun : ∀ k < n.toNat, BitVec.ofNat 32 (32 * i) + BitVec.ofNat 32 k ∈ free)
    (hrest : (free.filter fun c => ¬ InRun (BitVec.ofNat 32 (32 * i)) n.toNat c) = rest) :
    (allocateBlocks phys n).1 = BitVec.ofNat 32 (32 * i) * BLOCK_SIZE ∧
      Left (allocateBlocks phys n).2 rest (u + n) := by
  subst hrest
  have hm : phys.maxBlocks.toNat = 256 := by rw [L.maxBlocks]; rfl
  have hrun' : ∀ b, InRun (BitVec.ofNat 32 (32 * i)) n.toNat b → b ∈ free := fun b hb => by
    have := hrun _ hb
    rwa [BitVec.ofNat_toNat, BitVec.setWidth_eq, add_sub_cancel] at this
  have e : (BitVec.ofNat 32 (32 * i)).toNat = 32 * i := by
    rw [BitVec.toNat_ofNat]
    omega
  have hp := allocateBlocks_of_free (s := phys) (n := n) hi.1 (by omega) (by omega)
    (by rwa [L.maxBlocks, L.usedBlocks]) hn
    (fun c _ hc => (L.bits c (show c.toNat ≤ 256 by omega)).mpr fun h => by
      have := (hfull c h).1
      omega)
    (fun b hb => Bool.eq_false_iff.mpr fun h =>
      (L.bits b (hfull b (hrun' b hb)).2).mp h (hrun' b hb))
  have R := (P.allocateBlocks_ok n).1
  have h0 : (allocateBlocks phys n).1 ≠ 0 := by
    rw [hp]
    exact block_ne_zero (by omega) (by omega)
  have hblock : blockOf (allocateBlocks phys n).1 = BitVec.ofNat 32 (32 * i) := by
    rw [hp, blockOf, block_div (by omega)]
  refine ⟨hp, R.same.maxBlocks.trans L.maxBlocks, ?_, fun c hc => ?_⟩
  · rw [R.usedBlocks, if_neg h0, L.usedBlocks]
  · rw [R.bits, Taken, hblock, L.bits c hc, List.mem_filter, decide_eq_true_iff, not_and_or, not_not,
      or_comm]
    simp only [h0, ne_eq, not_false_eq_true, true_and]

/-- Blocks beyond a run are not in it. -/
theorem filter_rest {rest : List Word} {start : Word} {k : Nat}
    (hrest : ∀ c ∈ rest, 160 ≤ c.toNat ∧ c.toNat ≤ 256)
    (h : start.toNat + k ≤ 160) : rest.filter (fun c => ¬ InRun start k c) = rest := by
  refine List.filter_eq_self.mpr fun c hc => decide_eq_true fun hr => ?_
  have := (inRun_iff_lt (by omega)).mp hr
  have := (hrest c hc).1
  omega

theorem Left.directory {rest : List Word} (L : Left phys (64 :: 65 :: 66 :: 96 :: 128 :: rest) 0)
    (hrest : ∀ c ∈ rest, 160 ≤ c.toNat ∧ c.toNat ≤ 256) (P : Protected phys) :
    (makeDirectory phys).1 ≠ 0 ∧ Left (directory phys).phys (96 :: 128 :: rest) 3 := by
  obtain ⟨e, L'⟩ := L.allocate (96 :: 128 :: rest) P 2 3 (by decide) (by decide)
    (by decide) (fun c hc => by
      simp only [List.mem_cons] at hc
      rcases hc with rfl | rfl | rfl | rfl | rfl | hc
      iterate 5 decide
      have := hrest c hc
      omega) (by
      intro k hk
      have : k = 0 ∨ k = 1 ∨ k = 2 := by
        have : k < 3 := hk
        omega
      rcases this with rfl | rfl | rfl <;> simp) (by
      have hrun : ∀ c : Word, ¬ InRun (BitVec.ofNat 32 (32 * 2)) (3 : Word).toNat c ↔ ¬ InRun 64 3 c :=
        fun _ => Iff.rfl
      simp only [hrun, List.filter_cons, filter_rest hrest (show (64 : Word).toNat + 3 ≤ 160 by decide)]
      rfl)
  have hd : (makeDirectory phys).1 ≠ 0 := by
    have h3 : (allocateBlocks phys 3).1 ≠ 0 := by
      rw [e]
      decide
    rwa [makeDirectory_fst h3]
  have hm := L'.maxBlocks
  refine ⟨hd, ?_, ?_, fun c hc => ?_⟩
  · rw [(makeDirectory_eq hd).2]
    exact hm
  · rw [(makeDirectory_eq hd).2]
    exact L'.usedBlocks
  · rw [(P.clearRun 3).bit_directory P.map P.maxBlocks hd (by rwa [L.maxBlocks])]
    exact L'.bits c hc

/-- A single block at the start of the list is allocated. -/
theorem Left.allocate_one {rest : List Word} {u : Word} (i : Nat) (L : Left phys (BitVec.ofNat 32 (32 * i) :: rest) u)
    (P : Protected phys) (hi : 1 ≤ i ∧ i < 8) (hu : 1 < 256 - u)
    (hrest : ∀ c ∈ rest, 32 * i < c.toNat ∧ c.toNat ≤ 256) :
    (allocateBlocks phys 1).1 = BitVec.ofNat 32 (32 * i) * BLOCK_SIZE ∧
      Left (allocateBlocks phys 1).2 rest (u + 1) := by
  have e : (BitVec.ofNat 32 (32 * i)).toNat = 32 * i := by
    rw [BitVec.toNat_ofNat]
    omega
  have hone : ∀ c : Word, InRun (BitVec.ofNat 32 (32 * i)) (1 : Word).toNat c ↔
    c = BitVec.ofNat 32 (32 * i) := fun c =>
    ⟨fun h => sub_eq_zero.mp (BitVec.eq_of_toNat_eq (Nat.lt_one_iff.mp h)), fun h => h ▸ inRun_self (by decide)⟩
  refine L.allocate rest P i 1 hi (by decide) hu (fun c hc => ?_) (fun k hk => ?_) ?_
  · rcases List.mem_cons.mp hc with rfl | hc
    · omega
    · have := hrest c hc
      omega
  · obtain rfl : k = 0 := Nat.lt_one_iff.mp hk
    rw [show BitVec.ofNat 32 0 = (0 : Word) from rfl, add_zero]
    exact List.mem_cons_self
  · have hself : ¬ ¬ InRun (BitVec.ofNat 32 (32 * i)) (1 : Word).toNat (BitVec.ofNat 32 (32 * i)) :=
      not_not.mpr ((hone _).mpr rfl)
    rw [List.filter_cons, if_neg (by rw [decide_eq_true_iff]; exact hself)]
    refine List.filter_eq_self.mpr fun c hc => decide_eq_true fun h => ?_
    have := (hrest c hc).1
    rw [(hone c).mp h, e] at this
    omega

/-- With these blocks free, boot succeeds. -/
theorem Left.boot {rest : List Word} (L : Left phys (64 :: 65 :: 66 :: 96 :: 128 :: rest) 0)
    (hrest : ∀ c ∈ rest, 160 ≤ c.toNat ∧ c.toNat ≤ 256) (P : Protected phys) (k : Word) :
    ∃ s, initVirtualMemoryManager phys k = (true, s) ∧ FreshInit phys ∧ Left s.phys rest 5 := by
  obtain ⟨hd, L₁⟩ := L.directory hrest P
  have P₁ := (guarded_directory P hd).prot
  obtain ⟨e₂, L₂⟩ := L₁.allocate_one 3 P₁ (by decide) (by decide) fun c hc => by
    rcases List.mem_cons.mp hc with rfl | hc
    · decide
    · have := hrest c hc
      omega
  have ht : (table phys).1 ≠ 0 := by
    rw [table, e₂]
    decide
  have P₂ := (P₁.allocateBlocks_ok 1).2
  obtain ⟨e₃, L₃⟩ := L₂.allocate_one 4 P₂ (by decide) (by decide) fun c hc => by
    have := hrest c hc
    omega
  have hh : (tableHigherHalf phys).1 ≠ 0 := by
    rw [tableHigherHalf, table, e₃]
    decide
  have L₃ : Left (allocated phys).phys rest 5 := L₃
  have hs : initVirtualMemoryManager phys k = (true, (initVirtualMemoryManager phys k).2) :=
    Prod.ext (init_of_allocated k hd ht hh) rfl
  obtain ⟨hm, hu⟩ := counts_init hs
  refine ⟨_, hs, freshInit_of_protected P hd ht, hm.trans L₃.maxBlocks, hu.trans L₃.usedBlocks,
    fun c hc => ?_⟩
  rw [(init_ok P hs).2 c (by rwa [L₃.maxBlocks])]
  exact L₃.bits c hc

/-- 256 blocks, all used but the first of some words of the map. -/
def somePhys : Phys where
  mem x := if x = 0x30008 then 0xF8 else if x = 0x3000C ∨ x = 0x30010 ∨ x = 0x30014 then 0xFE else 0xFF
  memoryMap := 0x30000
  maxBlocks := 256
  usedBlocks := 0

theorem Left.of_forall {phys : Phys} {rest : List Word} (hm : phys.maxBlocks = 256) (hu : phys.usedBlocks = 0)
    (h : ∀ c : Fin 257, bit phys (BitVec.ofNat 32 c) ↔ BitVec.ofNat 32 c ∉ rest) : Left phys rest 0 := by
  refine ⟨hm, hu, fun c hc => ?_⟩
  have hc : c.toNat ≤ 256 := hc
  have := h ⟨c.toNat, by omega⟩
  rwa [BitVec.ofNat_toNat, BitVec.setWidth_eq] at this

theorem left_somePhys : Left somePhys [64, 65, 66, 96, 128, 160] 0 := .of_forall rfl rfl (by decide +kernel)

/-- A map of 256 blocks, in block 48. -/
theorem inMap_block48 {phys : Phys} {c : Word} (hm : phys.memoryMap = 0x30000) (hn : phys.maxBlocks = 256)
    (h : InMap phys c) : c = 48 := by
  obtain ⟨b, hb, rfl⟩ := h
  rw [hn] at hb
  have hb : b.toNat ≤ 256 := hb
  apply BitVec.eq_of_toNat_eq
  rw [toNat_blockOf, page, wordAt, BitVec.toNat_add, toNat_word, hm]
  show (0x30000 + 4 * (b.toNat / 32)) % 2 ^ 32 / 4096 = 48
  omega

theorem Protected.of_block48 {phys : Phys} (hm : phys.memoryMap = 0x30000) (hn : phys.maxBlocks = 256)
    (hown : bit phys 48) (hlast : bit phys 256) : Protected phys := by
  refine ⟨by rw [hm]; decide, by rw [hn]; decide, by rw [hn]; exact hlast, fun c _ h => ?_, fun h => ?_⟩
  · rw [inMap_block48 hm hn h]
    exact hown
  · exact absurd (inMap_block48 hm hn h) (by decide)

theorem protected_somePhys : Protected somePhys := .of_block48 rfl rfl (by decide) (by decide)

/-- Boot succeeds there, and leaves a block. -/
theorem boot_somePhys : ∃ s, initVirtualMemoryManager somePhys 0x100000 = (true, s) ∧ FreshInit somePhys ∧
    Left s.phys [160] 5 :=
  left_somePhys.boot (fun c hc => by
    rw [List.mem_singleton.mp hc]
    decide) protected_somePhys 0x100000

end

end AlexOS.Virtual
