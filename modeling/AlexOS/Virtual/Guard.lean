import AlexOS.Virtual.Tables
import AlexOS.Physical.Runs

/-!
# The blocks of the page tables

`Layout` says that the bitmap, the directory and the tables are in different
blocks of those that the bitmap is about. Blocks that are used, and belong to
none of the three, are `Spare`.

A call that writes to an entry keeps the layout; one that allocates does if the
blocks that it is given are fresh (`FreshBlocks`). Each step but a release keeps
the spare blocks spare, too (`Grows`).

The bitmap is not in blocks that are marked used, so that this is an assumption
on each call. It follows where the bitmap, the directory and the tables are
(`Guarded`), which all calls but a release preserve.
-/

namespace AlexOS.Virtual

open Physical

/-- The block of an address. -/
def blockOf (a : Addr) : Word := a / BLOCK_SIZE

/-- Block `c` holds a bit of the map, up to that of the first block past the last. -/
def InMap (phys : Phys) (c : Word) : Prop :=
  ∃ b, b ≤ phys.maxBlocks ∧ c = blockOf (wordAt phys.memoryMap b)

/-- The map is in used blocks. -/
structure Protected (phys : Phys) : Prop where
  map : phys.memoryMap.toNat % 4 = 0
  maxBlocks : phys.maxBlocks.toNat < 2 ^ 20
  /-- A run that starts below `max_blocks` ends below it. -/
  last : bit phys phys.maxBlocks
  own : ∀ c, c < phys.maxBlocks → InMap phys c → bit phys c
  notZero : ¬ InMap phys 0

/-- Block `c` is one of those that the bitmap is about, and holds no bits of it. -/
structure Usable (phys : Phys) (c : Word) : Prop where
  pos : 0 < c.toNat
  below : c < phys.maxBlocks
  notInMap : ¬ InMap phys c

/-- It is marked used. -/
structure Held (phys : Phys) (c : Word) : Prop extends Usable phys c where
  used : bit phys c

/-- The three blocks of the directory. -/
def InDir (s : Paging) (c : Word) : Prop := InRun (blockOf s.currentPageDir) 3 c

/-- The blocks of the tables. -/
def InTable (s : Paging) (c : Word) : Prop :=
  ∃ i : Word, i.toNat < 1024 ∧ isPresent (pde s i) ∧ c = blockOf (frame (pde s i))

/-- The bitmap, the directory and the tables are in different blocks. -/
structure Layout (s : Paging) : Prop extends Tables s where
  map : s.phys.memoryMap.toNat % 4 = 0
  maxBlocks : s.phys.maxBlocks.toNat < 2 ^ 20
  notZero : ¬ InMap s.phys 0
  dirUsable : ∀ c, InDir s c → Usable s.phys c
  tableUsable : ∀ c, InTable s c → Usable s.phys c ∧ ¬ InDir s c

/-- Block `c` is used, but for nothing of this. -/
structure Spare (s : Paging) (c : Word) : Prop extends Held s.phys c where
  notInDir : ¬ InDir s c
  notInTable : ¬ InTable s c

/-- The blocks of what `allocate_blocks` returns. -/
def Taken (p : Addr) (n c : Word) : Prop := p ≠ 0 ∧ InRun (blockOf p) n.toNat c

/-- The blocks that `allocate_blocks` returns are below `max_blocks`, and not those of the bitmap, -/
def ClearRun (phys : Phys) (n : Word) : Prop :=
  ∀ c, Taken (allocateBlocks phys n).1 n c → c < phys.maxBlocks ∧ ¬ InMap phys c

/-- nor those of the directory and of the tables. -/
structure FreshBlocks (s : Paging) (n : Word) : Prop where
  clear : ClearRun s.phys n
  notInUse : ∀ c, Taken (allocateBlocks s.phys n).1 n c → ¬ InDir s c ∧ ¬ InTable s c

/-- The block of a table that `map_page` makes is fresh. -/
def FreshTable (s : Paging) (v : Word) : Prop := ¬ isPresent (pde s (PD_INDEX v)) → FreshBlocks s 1

/-- The blocks of the tables that the loop of `allocate_new_page` makes are. -/
def FreshTables (s : Paging) (base address : Addr) (n : Nat) : Prop :=
  ∀ i < n, (mapPages s base address i).1 = i →
    FreshTable (mapPages s base address i).2 (pageAfter address i)

/-- The blocks that `allocate_new_page` is given are. -/
structure FreshAllocation (s : Paging) (address nbPage : Word) : Prop where
  blocks : FreshBlocks s nbPage
  tables : (allocateBlocks s.phys nbPage).1 ≠ 0 →
    FreshTables { s with phys := (allocateBlocks s.phys nbPage).2 } (allocateBlocks s.phys nbPage).1
      address nbPage.toNat

/-- What every step but a release does: tables can be added, in blocks that become used. -/
structure Grows (s s' : Paging) : Prop where
  layout : Layout s'
  dir : s'.currentPageDir = s.currentPageDir
  same : Same s.phys s'.phys
  used : ∀ c, c ≤ s.phys.maxBlocks → bit s.phys c → bit s'.phys c
  tables : ∀ c, InTable s' c → InTable s c ∨ bit s.phys c = false ∧ bit s'.phys c

/-- The blocks of the bitmap, of the directory and of the tables are marked used. -/
structure Guarded (s : Paging) : Prop extends Layout s where
  prot : Protected s.phys
  dirUsed : ∀ c, InDir s c → bit s.phys c
  tableUsed : ∀ c, InTable s c → bit s.phys c

section

variable {s s' s₁ s₂ s₃ : Paging} {phys phys' : Phys} {a t : Addr} {b c i n start v w : Word}

theorem toNat_blockOf (a : Addr) : (blockOf a).toNat = page a := BitVec.toNat_udiv

theorem blockOf_eq_iff {a a' : Addr} : blockOf a = blockOf a' ↔ page a = page a' := by
  rw [BitVec.toNat_eq, toNat_blockOf, toNat_blockOf]

theorem blockOf_slot (ht : Aligned t) (hi : i.toNat < 1024) : blockOf (slot t i) = blockOf t :=
  blockOf_eq_iff.mpr (page_slot ht hi)

theorem page_ne_of_inMap {x y : Addr} (hx : ¬ InMap phys (blockOf x)) (hb : b ≤ phys.maxBlocks)
    (h : page y = page x) : wordAt phys.memoryMap b ≠ y := fun e =>
  hx ⟨b, hb, by rw [e]; exact blockOf_eq_iff.mpr h.symm⟩

theorem inMap_same (h : Same phys phys') : InMap phys' c ↔ InMap phys c := by
  rw [InMap, InMap, h.memoryMap, h.maxBlocks]

theorem Usable.mono (U : Usable phys c) (h : Same phys phys') : Usable phys' c :=
  ⟨U.pos, h.maxBlocks ▸ U.below, fun hm => U.notInMap ((inMap_same h).mp hm)⟩

theorem Held.mono (H : Held phys c) (h : Same phys phys') (hb : bit phys' c) : Held phys' c :=
  ⟨H.toUsable.mono h, hb⟩

theorem inDir_self (s : Paging) : InDir s (blockOf s.currentPageDir) := inRun_self (by decide)

namespace SameDir

variable (D : SameDir s s')

include D

theorem inDir (h : InDir s' c) : InDir s c := by
  rwa [InDir, D.dir] at h

theorem inTable (h : InTable s' c) : InTable s c := by
  obtain ⟨i, hi, hp, e⟩ := h
  rw [D.pde i hi] at hp e
  exact ⟨i, hi, hp, e⟩

theorem layout (L : Layout s) (S : Same s.phys s'.phys) : Layout s' := by
  refine ⟨D.tables L.toTables, S.memoryMap ▸ L.map, S.maxBlocks ▸ L.maxBlocks,
    fun h => L.notZero ((inMap_same S).mp h), fun c hc => (L.dirUsable c (D.inDir hc)).mono S,
    fun c hc => ?_⟩
  obtain ⟨hu, hd⟩ := L.tableUsable c (D.inTable hc)
  exact ⟨hu.mono S, fun h => hd (D.inDir h)⟩

end SameDir

namespace Grows

theorem refl (L : Layout s) : Grows s s := ⟨L, rfl, Same.refl _, fun _ _ h => h, fun _ h => .inl h⟩

theorem trans (h₁ : Grows s₁ s₂) (h₂ : Grows s₂ s₃) : Grows s₁ s₃ := by
  refine ⟨h₂.layout, h₂.dir.trans h₁.dir, h₁.same.trans h₂.same,
    fun c hc h => h₂.used c (h₁.same.maxBlocks ▸ hc) (h₁.used c hc h), fun c hc => ?_⟩
  have hlt := (h₂.layout.tableUsable c hc).1.below
  rw [h₂.same.maxBlocks] at hlt
  rcases h₂.tables c hc with h | ⟨hfree, hused⟩
  · refine (h₁.tables c h).imp_right fun hnew => ⟨hnew.1, ?_⟩
    exact h₂.used c (BitVec.le_of_lt hlt) hnew.2
  · refine .inr ⟨Bool.eq_false_iff.mpr fun h => ?_, hused⟩
    exact Bool.eq_false_iff.mp hfree (h₁.used c (h₁.same.maxBlocks ▸ BitVec.le_of_lt hlt) h)

theorem spare (g : Grows s s') (h : Spare s c) : Spare s' c := by
  refine ⟨h.toHeld.mono g.same (g.used c (BitVec.le_of_lt h.below) h.used), fun hd => ?_, fun ht => ?_⟩
  · rw [InDir, g.dir] at hd
    exact h.notInDir hd
  · rcases g.tables c ht with ht | ⟨hfree, -⟩
    · exact h.notInTable ht
    · exact Bool.eq_false_iff.mp hfree h.used

end Grows

/-! ## Steps that leave the directory alone -/

/-- The directory is as before, and so are the bits, but for those of `new` blocks, now used. -/
structure Quiet (new : Word → Prop) (s s' : Paging) : Prop extends SameDir s s' where
  same : Same s.phys s'.phys
  bits : ∀ c, c ≤ s.phys.maxBlocks → (bit s'.phys c ↔ new c ∨ bit s.phys c)

/-- No blocks. -/
def NoBlock (_ : Word) : Prop := False

namespace Quiet

theorem bit_eq (Q : Quiet NoBlock s s') (hc : c ≤ s.phys.maxBlocks) : bit s'.phys c = bit s.phys c := by
  have h := Q.bits c hc
  rwa [NoBlock, false_or, ← Bool.eq_iff_iff] at h

theorem trans {new new' : Word → Prop} (h₁ : Quiet new s₁ s₂) (h₂ : Quiet new' s₂ s₃) :
    Quiet (fun c => new' c ∨ new c) s₁ s₃ := by
  refine ⟨⟨h₂.dir.trans h₁.dir, fun i hi => (h₂.pde i hi).trans (h₁.pde i hi)⟩,
    h₁.same.trans h₂.same, fun c hc => ?_⟩
  rw [h₂.bits c (h₁.same.maxBlocks ▸ hc), h₁.bits c hc, or_assoc]

variable {new : Word → Prop}

theorem grows (Q : Quiet new s s') (L : Layout s) : Grows s s' :=
  ⟨Q.layout L Q.same, Q.dir, Q.same, fun c hc h => (Q.bits c hc).mpr (.inr h),
    fun _ h => .inl (Q.inTable h)⟩

/-- Memory changes, but not the words of the map or of the directory. -/
theorem withMem {m : Mem}
    (hm : ∀ b, b ≤ s.phys.maxBlocks →
      m.load32 (wordAt s.phys.memoryMap b) = s.mem.load32 (wordAt s.phys.memoryMap b))
    (hd : ∀ i : Word, i.toNat < 1024 →
      m.load32 (slot s.currentPageDir i) = s.mem.load32 (slot s.currentPageDir i)) :
    Quiet NoBlock s (s.withMem m) := by
  refine ⟨⟨rfl, hd⟩, ⟨rfl, rfl⟩, fun c hc => ?_⟩
  rw [show bit (s.withMem m).phys c = bit s.phys c from bit_congr (hm c hc), NoBlock, false_or]

end Quiet

namespace Layout

variable (L : Layout s)

include L

/-- A word outside the map and the directory is written. -/
theorem quiet_store (ha : a.toNat % 4 = 0) (hm : ¬ InMap s.phys (blockOf a))
    (hd : page a ≠ page s.currentPageDir) : Quiet NoBlock s (s.withMem (s.mem.store32 a w)) := by
  refine Quiet.withMem (fun b hb => ?_) fun i hi => ?_
  · exact Mem.load32_store32_of_ne ha (wordAt_aligned L.map b) (page_ne_of_inMap hm hb rfl).symm
  · refine Mem.load32_store32_of_ne ha (slot_aligned L.dir hi) fun e => hd ?_
    rw [e, page_slot L.dir hi]

/-- A page outside the map and the directory is cleared. -/
theorem quiet_memset (ht : Aligned t) (hm : ¬ InMap s.phys (blockOf t)) (hd : t ≠ s.currentPageDir) :
    Quiet NoBlock s (s.withMem (s.mem.memset t 0 4096)) := by
  refine Quiet.withMem (fun b hb => ?_) fun i hi => ?_
  · refine Mem.load32_memset_other ht (wordAt_aligned L.map b) fun e => ?_
    exact page_ne_of_inMap hm hb e rfl
  · refine Mem.load32_memset_other ht (slot_aligned L.dir hi) fun e => hd ?_
    rw [page_slot L.dir hi] at e
    exact (eq_of_page_eq L.dir ht e).symm

/-- The entry of a page is outside the map and the directory, even if there is no table. -/
theorem getPage_ok (v : Word) :
    (getPage s v).toNat % 4 = 0 ∧ ¬ InMap s.phys (blockOf (getPage s v)) ∧
      page (getPage s v) ≠ page s.currentPageDir := by
  have hpt := PT_INDEX_lt v
  have hal := aligned_frame (pde s (PD_INDEX v))
  rw [getPage_eq, blockOf_slot hal hpt, page_slot hal hpt]
  refine ⟨slot_aligned hal hpt, ?_⟩
  by_cases hp : isPresent (pde s (PD_INDEX v))
  · obtain ⟨hu, -⟩ := L.tableUsable _ ⟨_, PD_INDEX_lt v, hp, rfl⟩
    refine ⟨hu.notInMap, fun e => L.apart _ (PD_INDEX_lt v) hp ?_⟩
    exact eq_of_page_eq hal L.dir e
  · have h0 : frame (pde s (PD_INDEX v)) = 0 := by
      rw [L.absent _ (PD_INDEX_lt v) hp]
      rfl
    rw [h0]
    refine ⟨L.notZero, fun e => ?_⟩
    have := (L.dirUsable _ (inDir_self s)).pos
    rw [toNat_blockOf, ← e] at this
    exact absurd this (by decide)

theorem writePage_ok (p v : Word) : Quiet NoBlock s (writePage s p v) := by
  obtain ⟨ha, hm, hd⟩ := L.getPage_ok v
  rw [writePage_eq]
  exact L.quiet_store ha hm hd

theorem unmapPage_ok (v : Word) : Quiet NoBlock s (unmapPage s v) := by
  obtain ⟨ha, hm, hd⟩ := L.getPage_ok v
  rw [unmapPage_eq]
  exact L.quiet_store ha hm hd

theorem unmapPages_ok (address : Addr) (n : Nat) : Grows s (unmapPages s address n) := by
  induction n with
  | zero => exact .refl L
  | succ n ih => exact ih.trans ((ih.layout.unmapPage_ok _).grows ih.layout)

/-- A page that is in use is not in the map. -/
theorem usable_inUse (ht : InUse s t) : Aligned t ∧ Usable s.phys (blockOf t) := by
  rcases ht with rfl | ⟨i, hi, hp, rfl⟩
  · exact ⟨L.dir, L.dirUsable _ (inDir_self s)⟩
  · exact ⟨aligned_frame _, (L.tableUsable _ ⟨i, hi, hp, rfl⟩).1⟩

end Layout

/-! ## Allocation -/

/-- What `allocate_blocks` does: the blocks that it returns are held, and the only words that
change are the map's. -/
structure HeldRun (phys phys' : Phys) (p : Addr) (n : Word) : Prop where
  same : Same phys phys'
  bits : ∀ c, bit phys' c ↔ Taken p n c ∨ bit phys c
  usedBlocks : phys'.usedBlocks = if p = 0 then phys.usedBlocks else phys.usedBlocks + n
  words : ∀ a : Addr, a.toNat % 4 = 0 → ¬ InMap phys (blockOf a) →
    phys'.mem.load32 a = phys.mem.load32 a
  run : p ≠ 0 → 0 < n.toNat ∧ ∀ c, InRun (blockOf p) n.toNat c →
    bit phys c = false ∧ Held phys' c

/-- A run that wraps contains the last block of all. -/
theorem start_le_of_inRun {k : Nat} (h : ∀ c, InRun start k c → c.toNat < 2 ^ 20)
    (hc : InRun start k c) : start.toNat ≤ c.toNat := by
  by_contra hlt
  have hlast : InRun start k (-1) := by
    have := c.isLt; have := start.isLt
    rw [InRun, BitVec.toNat_sub, show (-1 : Word).toNat = 2 ^ 32 - 1 from rfl]
    rw [InRun, BitVec.toNat_sub] at hc
    omega
  exact absurd (h _ hlast) (by decide)

theorem ClearRun.heldRun (F : ClearRun phys n) (hm : phys.memoryMap.toNat % 4 = 0)
    (hmax : phys.maxBlocks.toNat < 2 ^ 20) :
    HeldRun phys (allocateBlocks phys n).2 (allocateBlocks phys n).1 n := by
  rcases allocateBlocks_cases phys n with e | ⟨start, e, A⟩
  · rw [e]
    refine ⟨Same.refl _, fun c => ?_, (if_pos rfl).symm, fun _ _ _ => rfl, fun h => absurd rfl h⟩
    simp only [Taken, ne_eq, not_true_eq_false, false_and, false_or]
  have hst := A.below
  have h32 := A.first
  have hblock : blockOf (allocateBlocks phys n).1 = start := by
    rw [e, blockOf, block_div (by omega)]
  have h0 : (allocateBlocks phys n).1 ≠ 0 := by
    rw [e]
    exact block_ne_zero (by omega) (by omega)
  have hclear : ∀ c, InRun start n.toNat c → c < phys.maxBlocks ∧ ¬ InMap phys c := fun c hc =>
    F c ⟨h0, by rwa [hblock]⟩
  have hle : ∀ c, InRun start n.toNat c → start.toNat ≤ c.toNat := fun c hc =>
    start_le_of_inRun (fun b hb => by have := (hclear b hb).1; rw [BitVec.lt_def] at this; omega) hc
  refine ⟨A.same, fun c => ?_, A.usedBlocks.trans (if_neg h0).symm, fun a ha hm' => ?_,
    fun _ => ⟨A.pos, fun c hc => ?_⟩⟩
  · rw [A.bits, Bool.or_eq_true, decide_eq_true_iff, Taken, hblock]
    simp only [h0, ne_eq, not_false_eq_true, true_and]
  · exact A.words hm a ha fun b hb => page_ne_of_inMap hm' (BitVec.le_of_lt (hclear b hb).1) rfl
  · rw [hblock] at hc
    have hge := hle c hc
    obtain ⟨hlt, hnot⟩ := hclear c hc
    refine ⟨A.free c hc, ⟨by omega, A.same.maxBlocks ▸ hlt, fun h => hnot ((inMap_same A.same).mp h)⟩, ?_⟩
    rw [A.bits, decide_eq_true hc, Bool.true_or]

namespace Layout

variable (L : Layout s)

include L

theorem heldRun (F : FreshBlocks s n) : HeldRun s.phys (allocateBlocks s.phys n).2 (allocateBlocks s.phys n).1 n :=
  F.clear.heldRun L.map L.maxBlocks

/-- `allocate_blocks` changes nothing else, and the blocks it returns are spare. -/
theorem allocateBlocks_ok (F : FreshBlocks s n) :
    Quiet (Taken (allocateBlocks s.phys n).1 n) s { s with phys := (allocateBlocks s.phys n).2 } ∧
      ((allocateBlocks s.phys n).1 ≠ 0 → 0 < n.toNat ∧
        ∀ c, InRun (blockOf (allocateBlocks s.phys n).1) n.toNat c →
          bit s.phys c = false ∧ Spare { s with phys := (allocateBlocks s.phys n).2 } c) := by
  have R := L.heldRun F
  have Q : Quiet (Taken (allocateBlocks s.phys n).1 n) s
      { s with phys := (allocateBlocks s.phys n).2 } := by
    refine ⟨⟨rfl, fun i hi => R.words _ (slot_aligned L.dir hi) ?_⟩, R.same, fun c _ => R.bits c⟩
    rw [blockOf_slot L.dir hi]
    exact (L.dirUsable _ (inDir_self s)).notInMap
  refine ⟨Q, fun h => ⟨(R.run h).1, fun c hc => ?_⟩⟩
  obtain ⟨hfree, hheld⟩ := (R.run h).2 c hc
  obtain ⟨hnd, hnt⟩ := F.notInUse c ⟨h, hc⟩
  exact ⟨hfree, hheld, fun h => hnd (Q.inDir h), fun h => hnt (Q.inTable h)⟩

/-- The pages in use are as before. -/
theorem kept_allocateBlocks (F : FreshBlocks s n) :
    Kept s { s with phys := (allocateBlocks s.phys n).2 } := by
  refine ⟨rfl, fun t ht i hi => ?_⟩
  obtain ⟨hal, hu⟩ := L.usable_inUse ht
  refine (L.heldRun F).words _ (slot_aligned hal hi) ?_
  rw [blockOf_slot hal hi]
  exact hu.notInMap

theorem fresh (F : FreshBlocks s 1) : Fresh (InUse s) s.phys := by
  refine ⟨fun h hu => ?_, (L.kept_allocateBlocks F).words⟩
  obtain ⟨hnd, hnt⟩ := F.notInUse _ ⟨h, inRun_self (by decide)⟩
  rcases hu with e | ⟨i, hi, hp, e⟩
  · exact hnd (e ▸ inDir_self s)
  · exact hnt ⟨i, hi, hp, by rw [e]⟩

/-! ## New tables -/

/-- A word of the directory's three pages. -/
theorem slot_dir (hi : i.toNat < 3072) :
    (slot s.currentPageDir i).toNat % 4 = 0 ∧ InDir s (blockOf (slot s.currentPageDir i)) ∧
      (1024 ≤ i.toNat → page (slot s.currentPageDir i) ≠ page s.currentPageDir) := by
  have hlast : InDir s (blockOf s.currentPageDir + 2) := by
    rw [InDir, InRun, add_sub_cancel_left]
    decide
  have hdir : s.currentPageDir.toNat % 4096 = 0 := L.dir
  have hmax := L.maxBlocks
  have hlt := (L.dirUsable _ hlast).below
  have hfirst := (L.dirUsable _ (inDir_self s)).below
  rw [BitVec.lt_def, BitVec.toNat_add, toNat_blockOf, page, show (2 : Word).toNat = 2 from rfl] at hlt
  rw [BitVec.lt_def, toNat_blockOf, page] at hfirst
  have e : (slot s.currentPageDir i).toNat = s.currentPageDir.toNat + 4 * i.toNat := by
    rw [slot, BitVec.toNat_add, BitVec.toNat_mul, show (4 : Word).toNat = 4 from rfl]
    omega
  refine ⟨by omega, ?_, fun h => ?_⟩
  · rw [InDir, inRun_iff_lt, toNat_blockOf, toNat_blockOf, page, page, e]
    · omega
    · rw [toNat_blockOf, page]
      omega
  · rw [page, page, e]
    omega

/-- A block for a table is found and cleared. -/
theorem cleared_ok (F : FreshBlocks s 1) (h : (allocateBlocks s.phys 1).1 ≠ 0) :
    Quiet (fun c => NoBlock c ∨ Taken (allocateBlocks s.phys 1).1 1 c) s (cleared s) ∧
      bit s.phys (blockOf (allocateBlocks s.phys 1).1) = false ∧
      Spare (cleared s) (blockOf (allocateBlocks s.phys 1).1) := by
  obtain ⟨Q, hrun⟩ := L.allocateBlocks_ok F
  obtain ⟨-, hrun⟩ := hrun h
  obtain ⟨hfree, hspare⟩ := hrun _ (inRun_self (by decide))
  have L₁ := Q.layout L Q.same
  have Q₁ := L₁.quiet_memset (aligned_allocateBlocks s.phys 1) hspare.notInMap
    fun e => hspare.notInDir (e ▸ inDir_self _)
  exact ⟨Q.trans Q₁, hfree, (Q₁.grows L₁).spare hspare⟩

/-- The table goes into an entry that the processor reads. -/
theorem addEntry_ok (ht : Aligned t) (hs : Spare s (blockOf t)) (hi : i.toNat < 1024)
    (hp : ¬ isPresent (pde s i)) :
    Layout (addEntry s i t) ∧ (∀ c, InTable (addEntry s i t) c → c = blockOf t ∨ InTable s c) ∧
      ∀ c, c ≤ s.phys.maxBlocks → bit (addEntry s i t).phys c = bit s.phys c := by
  have hn : ¬ InUse s t := by
    rintro (rfl | ⟨j, hj, hpj, rfl⟩)
    · exact hs.notInDir (inDir_self s)
    · exact hs.notInTable ⟨j, hj, hpj, rfl⟩
  have A := L.toTables.addEntry_ok ht hn hi hp
  have hmap : ¬ InMap s.phys (blockOf (slot s.currentPageDir i)) := by
    rw [blockOf_slot L.dir hi]
    exact (L.dirUsable _ (inDir_self s)).notInMap
  have htable : ∀ c, InTable (addEntry s i t) c → c = blockOf t ∨ InTable s c := by
    rintro c ⟨j, hj, hpj, rfl⟩
    by_cases hji : j = i
    · rw [hji, A.frame_self]
      exact .inl rfl
    · rw [A.pde_other j hj hji] at hpj ⊢
      exact .inr ⟨j, hj, hpj, rfl⟩
  have S : Same s.phys (addEntry s i t).phys := ⟨rfl, rfl⟩
  refine ⟨⟨A.tables L.toTables, L.map, L.maxBlocks, fun h => L.notZero ((inMap_same S).mp h),
    fun c hc => (L.dirUsable c hc).mono S, fun c hc => ?_⟩, htable, fun c hc => bit_congr ?_⟩
  · rcases htable c hc with rfl | hc
    · exact ⟨hs.toUsable.mono S, hs.notInDir⟩
    · exact ⟨(L.tableUsable c hc).1.mono S, (L.tableUsable c hc).2⟩
  · exact Mem.load32_store32_of_ne (slot_aligned L.dir hi) (wordAt_aligned L.map c)
      (page_ne_of_inMap hmap hc rfl).symm

/-- A new table, in any entry of the directory's three blocks. -/
theorem newTable_ok (F : FreshBlocks s 1) (hi : i.toNat < 3072)
    (hp : ¬ isPresent (s.mem.load32 (slot s.currentPageDir i))) :
    Grows s (newTable s (slot s.currentPageDir i)).2 := by
  by_cases h : (allocateBlocks s.phys 1).1 = 0
  · rw [newTable_of_null h]
    exact (L.allocateBlocks_ok F).1.grows L
  rw [newTable_eq h]
  obtain ⟨Q, hfree, hs⟩ := L.cleared_ok F h
  have g := Q.grows L
  by_cases hlow : i.toNat < 1024
  · have hp₁ : ¬ isPresent (pde (cleared s) i) := by rwa [Q.pde i hlow]
    obtain ⟨L₂, htable, hbit⟩ := g.layout.addEntry_ok (aligned_allocateBlocks s.phys 1) hs hlow hp₁
    have hused : ∀ c, c ≤ s.phys.maxBlocks → bit (cleared s).phys c →
        bit (addEntry (cleared s) i (allocateBlocks s.phys 1).1).phys c := fun c hc h => by
      rwa [hbit c (Q.same.maxBlocks ▸ hc)]
    refine ⟨L₂, Q.dir, Q.same.trans ⟨rfl, rfl⟩, fun c hc h => hused c hc (g.used c hc h), fun c hc => ?_⟩
    rcases htable c hc with rfl | hc
    · exact .inr ⟨hfree, hused _ (Q.same.maxBlocks ▸ BitVec.le_of_lt hs.below) hs.used⟩
    · exact .inl (Q.inTable hc)
  · obtain ⟨ha, hd, hne⟩ := g.layout.slot_dir (i := i) hi
    exact g.trans ((g.layout.quiet_store ha (g.layout.dirUsable _ hd).notInMap
      (hne (by omega))).grows g.layout)

/-! ## The calls -/

theorem mapPage_ok (F : FreshTable s v) (p : Word) : Grows s (mapPage s p v).2 := by
  by_cases hp : isPresent (pde s (PD_INDEX v))
  · rw [mapPage_of_present hp]
    exact (L.writePage_ok p v).grows L
  have g := L.newTable_ok (F hp) (i := PD_INDEX v) (by have := PD_INDEX_lt v; omega) hp
  by_cases h : (allocateBlocks s.phys 1).1 = 0
  · rw [newTable_of_null h] at g
    rw [mapPage_of_null hp h]
    exact g
  · rw [newTable_eq h] at g
    rw [mapPage_of_newTable hp h]
    exact g.trans ((g.layout.writePage_ok p v).grows g.layout)

end Layout

theorem FreshTables.init {base address : Addr} {k : Nat} (F : FreshTables s base address (k + 1)) :
    FreshTables s base address k := fun i hi => F i (Nat.lt_succ_of_lt hi)

theorem Layout.mapPages_ok {base address : Addr} {k : Nat} (L : Layout s) (F : FreshTables s base address k) :
    Grows s (mapPages s base address k).2 := by
  induction k with
  | zero => exact .refl L
  | succ k ih =>
    have g := ih F.init
    simp only [mapPages]
    split
    · rename_i hk
      exact g.trans (g.layout.mapPage_ok (F k (Nat.lt_succ_self k) hk) _)
    · exact g

/-! ## What protects itself -/

/-- As long as no block is released. -/
theorem Protected.of_used (P : Protected phys) (S : Same phys phys')
    (h : ∀ c, c ≤ phys.maxBlocks → bit phys c → bit phys' c) : Protected phys' := by
  refine ⟨S.memoryMap ▸ P.map, S.maxBlocks ▸ P.maxBlocks, ?_, fun c hc hm => ?_,
    fun hm => P.notZero ((inMap_same S).mp hm)⟩
  · rw [S.maxBlocks]
    exact h _ (BitVec.le_refl _) P.last
  · rw [S.maxBlocks] at hc
    exact h c (BitVec.le_of_lt hc) (P.own c hc ((inMap_same S).mp hm))

/-- A run that is found lies below `max_blocks`. -/
theorem Protected.mem_of_found (P : Protected phys) (F : Found phys n start)
    (hc : InRun start n.toNat c) : start.toNat ≤ c.toNat ∧ c < phys.maxBlocks := by
  by_contra hge
  rw [BitVec.lt_def] at hge
  have hlast : InRun start n.toNat phys.maxBlocks := by
    have hb := F.below
    have hmax := P.maxBlocks
    have := c.isLt; have := start.isLt
    rw [InRun, BitVec.toNat_sub] at hc ⊢
    omega
  exact Bool.eq_false_iff.mp (F.free _ hlast) P.last

theorem Protected.clearRun (P : Protected phys) (n : Word) : ClearRun phys n := by
  rintro c ⟨h0, hc⟩
  rcases allocateBlocks_cases phys n with e | ⟨start, e, A⟩
  · exact absurd (congrArg Prod.fst e) h0
  have hlt := P.maxBlocks
  have hst := A.below
  rw [e, blockOf, block_div (by omega)] at hc
  have hbelow := (P.mem_of_found A.toFound hc).2
  exact ⟨hbelow, fun hm => Bool.eq_false_iff.mp (A.free c hc) (P.own c hbelow hm)⟩

/-- If no block is free, none is returned. -/
theorem Protected.allocateBlocks_none (P : Protected phys) (h : ∀ c, c < phys.maxBlocks → bit phys c) (n : Word) :
    allocateBlocks phys n = (0, phys) := by
  rcases allocateBlocks_cases phys n with e | ⟨start, -, A⟩
  · exact e
  have hself : InRun start n.toNat start := inRun_self A.pos
  exact absurd (h start (P.mem_of_found A.toFound hself).2) (Bool.eq_false_iff.mp (A.free start hself))

theorem Protected.allocateBlocks_ok (P : Protected phys) (n : Word) :
    HeldRun phys (allocateBlocks phys n).2 (allocateBlocks phys n).1 n ∧
      Protected (allocateBlocks phys n).2 := by
  have R := (P.clearRun n).heldRun P.map P.maxBlocks
  exact ⟨R, P.of_used R.same fun c _ h => (R.bits c).mpr (.inr h)⟩

theorem Grows.guarded (g : Grows s s') (G : Guarded s) : Guarded s' := by
  refine ⟨g.layout, G.prot.of_used g.same g.used, fun c hc => ?_, fun c hc => ?_⟩
  · rw [InDir, g.dir] at hc
    exact g.used c (BitVec.le_of_lt (G.dirUsable c hc).below) (G.dirUsed c hc)
  · rcases g.tables c hc with h | ⟨-, h⟩
    · exact g.used c (BitVec.le_of_lt (G.tableUsable c h).1.below) (G.tableUsed c h)
    · exact h

namespace Guarded

variable (G : Guarded s)

include G

/-- The blocks in use are marked used, so that a block returned is not one of them. -/
theorem freshBlocks (n : Word) : FreshBlocks s n := by
  have R := (G.prot.allocateBlocks_ok n).1
  refine ⟨G.prot.clearRun n, fun c hc => ?_⟩
  have hfree := ((R.run hc.1).2 c hc.2).1
  exact ⟨fun h => Bool.eq_false_iff.mp hfree (G.dirUsed c h),
    fun h => Bool.eq_false_iff.mp hfree (G.tableUsed c h)⟩

theorem fresh : Fresh (InUse s) s.phys := G.toLayout.fresh (G.freshBlocks 1)

theorem newTable_ok (hi : i.toNat < 3072)
    (hp : ¬ isPresent (s.mem.load32 (slot s.currentPageDir i))) :
    Grows s (newTable s (slot s.currentPageDir i)).2 := G.toLayout.newTable_ok (G.freshBlocks 1) hi hp

theorem mapPage_ok (p v : Word) : Grows s (mapPage s p v).2 :=
  G.toLayout.mapPage_ok (fun _ => G.freshBlocks 1) p

theorem mapPages_ok (base address : Addr) (n : Nat) : Grows s (mapPages s base address n).2 := by
  induction n with
  | zero => exact .refl G.toLayout
  | succ n ih =>
    simp only [mapPages]
    split
    · exact ih.trans ((ih.guarded G).mapPage_ok _ _)
    · exact ih

theorem freshTables (base address : Addr) (n : Nat) : FreshTables s base address n := fun i _ _ _ =>
  ((G.mapPages_ok base address i).guarded G).freshBlocks 1

theorem freshAllocation (address nbPage : Word) : FreshAllocation s address nbPage := by
  refine ⟨G.freshBlocks nbPage, fun _ => Guarded.freshTables ?_ _ _ _⟩
  exact ((G.toLayout.allocateBlocks_ok (G.freshBlocks nbPage)).1.grows G.toLayout).guarded G

theorem tableAt_ok (hi : i.toNat < 3072) : Grows s (tableAt s i).2 := by
  simp only [tableAt]
  split
  · rename_i h
    exact G.newTable_ok hi (not_not.mpr h)
  · exact .refl G.toLayout

theorem scanDirectory_ok {k : Nat} (hi : i.toNat + k ≤ 3072) (n : Word) (baseAddr : Addr) (count : Word) :
    Grows s (scanDirectory n k s i baseAddr count).2 := by
  induction k generalizing s i baseAddr count with
  | zero => exact .refl G.toLayout
  | succ k ih =>
    have e : (i + 1).toNat = (i.toNat + 1) % 2 ^ 32 := BitVec.toNat_add _ _
    have g := G.tableAt_ok (i := i) (by omega)
    simp only [scanDirectory]
    split
    · exact g
    split
    · exact g
    · exact g.trans (ih (g.guarded G) (by omega) _ _)

theorem findFreePage_ok (n : Word) : Grows s (findFreePage s n).2 := G.scanDirectory_ok (by decide) n 0 0

end Guarded

end

end AlexOS.Virtual
