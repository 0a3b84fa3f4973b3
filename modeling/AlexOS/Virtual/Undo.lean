import AlexOS.Virtual.Ranges
import AlexOS.Physical.Search

/-!
# A range that cannot be mapped

`map_page` runs out of blocks when the range needs more page tables than blocks
are left. `allocate_new_page` releases the blocks of the range then, and unmaps
the pages that it mapped; the tables that were made stay (`Installs`). How many
tables are made is a matter of the bitmap only: as many as blocks can be
allocated one by one (`singles`, `Layout.mapPages_installs`).

`NULL` is also what is returned for a range at address 0 that *is* mapped
(`Layout.undone_iff`).
-/

namespace AlexOS.Virtual

open Physical

/-- Two bitmaps that are the same for calls of `allocate_blocks(1)`. -/
structure Agree (phys phys' : Phys) : Prop extends Same phys phys' where
  usedBlocks : phys'.usedBlocks = phys.usedBlocks
  bits : ∀ c, c < phys.maxBlocks → bit phys' c = bit phys c

/-- After `n` calls of `allocate_blocks(1)`, if all of them succeed. -/
def singles (phys : Phys) : Nat → Option Phys
  | 0 => some phys
  | n + 1 => (singles phys n).bind fun phys =>
    if (allocateBlocks phys 1).1 = 0 then none else some (allocateBlocks phys 1).2

/-- The directory entries of a range that have no table. -/
def lacking (s : Paging) (address : Addr) (n : Nat) : Finset Word :=
  ((Finset.range n).image fun i => PD_INDEX (pageAfter address i)).filter fun i => ¬ isPresent (pde s i)

/-- Tables are put into the directory entries `new`, in blocks that become used; nothing else of
the directory and of the bitmap changes. -/
structure Installs (s s' : Paging) (new : Finset Word) : Prop where
  same : Same s.phys s'.phys
  kept : ∀ i : Word, i.toNat < 1024 → isPresent (pde s i) → pde s' i = pde s i
  made : ∀ i, i ∈ new ↔ i.toNat < 1024 ∧ ¬ isPresent (pde s i) ∧ isPresent (pde s' i)
  bits : ∀ c, c < s.phys.maxBlocks →
    (bit s'.phys c ↔ bit s.phys c ∨ ∃ i ∈ new, c = blockOf (frame (pde s' i)))
  usedBlocks : s'.phys.usedBlocks = s.phys.usedBlocks + BitVec.ofNat 32 new.card

/-- No mapping has changed, and the bitmap only for the blocks of new tables. -/
def Undone (s s' : Paging) : Prop :=
  (∀ v, (present s' v ↔ present s v) ∧ (present s v → getPhysAddr s' v = getPhysAddr s v)) ∧
    ∃ new, Installs s s' new

/-- What `allocate_new_page` relies on to be undone: if the range gets its blocks, and its tables too,
it is not at address 0; if it gets its blocks only, block 0 is marked used. -/
def Undoable (s : Paging) (address nbPage : Word) : Prop :=
  (allocateBlocks s.phys nbPage).1 ≠ 0 →
    if (singles (allocateBlocks s.phys nbPage).2 (lacking s address nbPage.toNat).card).isSome then address ≠ 0
    else bit s.phys 0

section

variable {s s' s₁ s₂ s₃ : Paging} {phys phys' : Phys} {a address base v : Addr} {c i nbPage p : Word} {n : Nat}
  {new new' : Finset Word}

/-! ## Single blocks -/

theorem Found.congr {start : Word} (A : Agree phys phys') (F : Found phys 1 start) : Found phys' 1 start := by
  have hword : ∀ b : Word, b.toNat / 32 = start.toNat / 32 → b < phys.maxBlocks := fun b hb => by
    have := F.below
    rw [BitVec.lt_def]
    omega
  refine ⟨F.first, A.maxBlocks ▸ F.below, fun b hb ht => ?_, fun b hb => ?_⟩
  · exact (A.bits b (hword b hb)).trans (F.passes b hb ht)
  · have hself : b = start := sub_eq_zero.mp (BitVec.eq_of_toNat_eq (Nat.lt_one_iff.mp hb))
    rw [A.bits b (hword b (by rw [hself]))]
    exact F.free b hb

theorem Agree.refl (phys : Phys) : Agree phys phys := ⟨Same.refl _, rfl, fun _ _ => rfl⟩

theorem Agree.symm (A : Agree phys phys') : Agree phys' phys :=
  ⟨⟨A.memoryMap.symm, A.maxBlocks.symm⟩, A.usedBlocks.symm, fun c hc => (A.bits c (A.maxBlocks ▸ hc)).symm⟩

theorem Agree.trans {phys'' : Phys} (A : Agree phys phys') (A' : Agree phys' phys'') : Agree phys phys'' :=
  ⟨A.toSame.trans A'.toSame, A'.usedBlocks.trans A.usedBlocks,
    fun c hc => (A'.bits c (A.maxBlocks ▸ hc)).trans (A.bits c hc)⟩

/-- The search finds the same block. -/
theorem Agree.search (A : Agree phys phys') : findFirstFreeBlocks phys' 1 = findFirstFreeBlocks phys 1 := by
  have hne : (1 : Word) ≠ 0 := by decide
  rcases findFirstFreeBlocks_cases (s := phys) hne with ⟨F, hle⟩ | ⟨e, hno⟩ <;>
    rcases findFirstFreeBlocks_cases (s := phys') hne with ⟨F', hle'⟩ | ⟨e', hno'⟩
  · exact BitVec.eq_of_toNat_eq (le_antisymm (hle' _ (Found.congr A F)) (hle _ (Found.congr A.symm F')))
  · exact absurd (Found.congr A F) (hno' _)
  · exact absurd (Found.congr A.symm F') (hno _)
  · rw [e, e']

theorem Agree.allocate (A : Agree phys phys') : (allocateBlocks phys' 1).1 = (allocateBlocks phys 1).1 ∧
    Agree (allocateBlocks phys 1).2 (allocateBlocks phys' 1).2 := by
  have hmark : ∀ phys start b, bit (forBlocks setBlock phys start (1 : Word).toNat) b =
      (decide (InRun start (1 : Word).toNat b) || bit phys b) := fun phys start b =>
    bit_forBlocks_set (fun _ _ _ => bit_setBlock) (by decide)
  simp only [allocateBlocks]
  rw [A.search, A.maxBlocks, A.usedBlocks]
  split
  · exact ⟨rfl, A⟩
  split
  · exact ⟨rfl, A⟩
  have S := same_forBlocks same_setBlock phys (findFirstFreeBlocks phys 1) (1 : Word).toNat
  have S' := same_forBlocks same_setBlock phys' (findFirstFreeBlocks phys 1) (1 : Word).toNat
  refine ⟨rfl, ⟨?_, ?_⟩, ?_, fun c hc => ?_⟩
  · exact S'.memoryMap.trans (A.memoryMap.trans S.memoryMap.symm)
  · exact S'.maxBlocks.trans (A.maxBlocks.trans S.maxBlocks.symm)
  · rw [usedBlocks_forBlocks usedBlocks_setBlock, usedBlocks_forBlocks usedBlocks_setBlock, A.usedBlocks]
  · have hc : c < phys.maxBlocks := S.maxBlocks ▸ hc
    exact (hmark _ _ _).trans ((congrArg _ (A.bits c hc)).trans (hmark _ _ _).symm)

theorem allocateBlocks_of_null (h : (allocateBlocks phys nbPage).1 = 0) (hm : phys.maxBlocks.toNat ≤ 2 ^ 20) :
    (allocateBlocks phys nbPage).2 = phys := by
  rcases allocateBlocks_cases phys nbPage with e | ⟨start, e, A⟩
  · rw [e]
  · have h1 := A.first
    have h2 := A.below
    rw [e] at h
    exact absurd h (block_ne_zero (by omega) (by omega))

/-- No pages are not to be had, which the heap relies on. -/
theorem allocateNewPage_zero (s : Paging) (address : Addr) : allocateNewPage s address 0 = (0, s) := by
  rcases allocateBlocks_cases s.phys 0 with e | ⟨start, -, A⟩
  · simp only [allocateNewPage, e, if_true]
  · exact absurd A.pos (by decide)

theorem singles_none {m : Nat} (hle : n ≤ m) (h : singles phys n = none) : singles phys m = none := by
  induction m, hle using Nat.le_induction with
  | base => exact h
  | succ m _ ih => rw [singles, ih, Option.bind_none]

/-! ## The tables that are made -/

namespace Installs

theorem of_sameDir (D : SameDir s s') (S : Same s.phys s'.phys)
    (hb : ∀ c, c < s.phys.maxBlocks → bit s'.phys c = bit s.phys c)
    (hu : s'.phys.usedBlocks = s.phys.usedBlocks) : Installs s s' ∅ := by
  refine ⟨S, fun i hi _ => D.pde i hi, fun i => ?_, fun c hc => ?_, ?_⟩
  · simp only [Finset.notMem_empty, false_iff]
    rintro ⟨hi, hp, hp'⟩
    rw [D.pde i hi] at hp'
    exact hp hp'
  · simp only [Finset.notMem_empty, false_and, exists_false, or_false, hb c hc]
  · rw [hu, Finset.card_empty]
    exact (add_zero _).symm

theorem refl (s : Paging) : Installs s s ∅ :=
  of_sameDir ⟨rfl, fun _ _ => rfl⟩ (Same.refl _) (fun _ _ => rfl) rfl

/-- What has been made is not made again. -/
theorem disjoint (h₁ : Installs s₁ s₂ new) (h₂ : Installs s₂ s₃ new') : Disjoint new new' := by
  rw [Finset.disjoint_left]
  intro i hi hi'
  exact ((h₂.made i).mp hi').2.1 ((h₁.made i).mp hi).2.2

theorem trans (h₁ : Installs s₁ s₂ new) (h₂ : Installs s₂ s₃ new') : Installs s₁ s₃ (new ∪ new') := by
  have hpres : ∀ i : Word, i.toNat < 1024 → isPresent (pde s₂ i) → isPresent (pde s₃ i) := fun i hi hp => by
    rwa [h₂.kept i hi hp]
  have hkept : ∀ i : Word, i.toNat < 1024 → isPresent (pde s₁ i) → pde s₃ i = pde s₁ i := fun i hi hp => by
    rw [h₂.kept i hi (by rwa [h₁.kept i hi hp]), h₁.kept i hi hp]
  refine ⟨h₁.same.trans h₂.same, hkept, fun i => ?_, fun c hc => ?_, ?_⟩
  · rw [Finset.mem_union, h₁.made, h₂.made]
    constructor
    · rintro (⟨hi, hp, hp'⟩ | ⟨hi, hp, hp'⟩)
      · exact ⟨hi, hp, hpres i hi hp'⟩
      · exact ⟨hi, fun hp₁ => hp (by rwa [h₁.kept i hi hp₁]), hp'⟩
    · rintro ⟨hi, hp, hp'⟩
      by_cases hp₂ : isPresent (pde s₂ i)
      · exact .inl ⟨hi, hp, hp₂⟩
      · exact .inr ⟨hi, hp₂, hp'⟩
  · have hold : (∃ i ∈ new, c = blockOf (frame (pde s₃ i))) ↔
      ∃ i ∈ new, c = blockOf (frame (pde s₂ i)) := by
      refine exists_congr fun i => and_congr_right fun hi => ?_
      obtain ⟨hlt, -, hp⟩ := (h₁.made i).mp hi
      rw [h₂.kept i hlt hp]
    rw [h₂.bits c (h₁.same.maxBlocks ▸ hc), h₁.bits c hc, or_assoc, ← hold]
    simp only [Finset.mem_union, or_and_right, exists_or]
  · rw [h₂.usedBlocks, h₁.usedBlocks, Finset.card_union_of_disjoint (disjoint h₁ h₂),
      BitVec.ofNat_add, add_assoc]

end Installs

/-- A write to memory that does not change the directory or the bits. -/
theorem Quiet.installs (Q : Quiet NoBlock s s') (hu : s'.phys.usedBlocks = s.phys.usedBlocks) :
    Installs s s' ∅ ∧ Agree s.phys s'.phys := by
  have hb : ∀ c, c < s.phys.maxBlocks → bit s'.phys c = bit s.phys c := fun c hc => Q.bit_eq (BitVec.le_of_lt hc)
  exact ⟨.of_sameDir Q.toSameDir Q.same hb hu, Q.same, hu, hb⟩

theorem taken_one : Taken a 1 c ↔ a ≠ 0 ∧ c = blockOf a := by
  refine and_congr_right fun _ => ⟨fun h => ?_, fun e => e ▸ inRun_self (by decide)⟩
  exact sub_eq_zero.mp (BitVec.eq_of_toNat_eq (Nat.lt_one_iff.mp h))

theorem same_addEntry (s : Paging) (i t : Word) : Same s.phys (addEntry s i t).phys := ⟨rfl, rfl⟩

/-- A table is made for a directory entry that has none. -/
theorem Layout.newTable_installs (L : Layout s) (F : FreshBlocks s 1) (hi : i.toNat < 1024)
    (hp : ¬ isPresent (pde s i)) (h : (allocateBlocks s.phys 1).1 ≠ 0) :
    Installs s (addEntry (cleared s) i (allocateBlocks s.phys 1).1) {i} ∧
      Agree (allocateBlocks s.phys 1).2 (addEntry (cleared s) i (allocateBlocks s.phys 1).1).phys := by
  obtain ⟨Q, -, hs⟩ := L.cleared_ok F h
  have R := L.heldRun F
  have L₁ := (Q.grows L).layout
  have hp₁ : ¬ isPresent (pde (cleared s) i) := by rwa [Q.pde i hi]
  have hal := aligned_allocateBlocks s.phys 1
  have hn : ¬ InUse (cleared s) (allocateBlocks s.phys 1).1 := by
    rintro (e | ⟨j, hj, hpj, e⟩)
    · exact hs.notInDir (e ▸ inDir_self _)
    · exact hs.notInTable ⟨j, hj, hpj, by rw [e]⟩
  have A := L₁.toTables.addEntry_ok hal hn hi hp₁
  obtain ⟨-, -, hbit⟩ := L₁.addEntry_ok hal hs hi hp₁
  have hbits : ∀ c, c < s.phys.maxBlocks →
      (bit (addEntry (cleared s) i (allocateBlocks s.phys 1).1).phys c ↔
        bit s.phys c ∨ c = blockOf (allocateBlocks s.phys 1).1) := fun c hc => by
    have hle : c ≤ (cleared s).phys.maxBlocks := by
      rw [Q.same.maxBlocks]
      exact BitVec.le_of_lt hc
    rw [hbit c hle, Q.bits c (BitVec.le_of_lt hc), NoBlock, false_or, or_comm, taken_one, and_iff_right h]
  refine ⟨⟨Q.same.trans (same_addEntry _ i _), fun j hj hpj => ?_, fun j => ?_, fun c hc => ?_, ?_⟩, ?_⟩
  · have hji : j ≠ i := fun e => hp (e ▸ hpj)
    rw [A.pde_other j hj hji, Q.pde j hj]
  · rw [Finset.mem_singleton]
    constructor
    · rintro rfl
      exact ⟨hi, hp, A.present_self⟩
    · rintro ⟨hj, hpj, hpj'⟩
      by_contra hji
      rw [A.pde_other j hj hji, Q.pde j hj] at hpj'
      exact hpj hpj'
  · simp only [hbits c hc, Finset.mem_singleton, exists_eq_left, A.frame_self]
  · rw [Finset.card_singleton]
    exact R.usedBlocks.trans (if_neg h)
  · refine ⟨⟨rfl, rfl⟩, rfl, fun c hc => ?_⟩
    have hc : c < s.phys.maxBlocks := R.same.maxBlocks ▸ hc
    rw [Bool.eq_iff_iff, hbits c hc, R.bits, or_comm, taken_one, and_iff_right h]

theorem lacking_succ (s : Paging) (address : Addr) (n : Nat) :
    lacking s address (n + 1) = if isPresent (pde s (PD_INDEX (pageAfter address n))) then lacking s address n
      else insert (PD_INDEX (pageAfter address n)) (lacking s address n) := by
  rw [lacking, Finset.range_add_one, Finset.image_insert, Finset.filter_insert]
  by_cases hp : isPresent (pde s (PD_INDEX (pageAfter address n)))
  · rw [if_neg (not_not.mpr hp), if_pos hp]
    rfl
  · rw [if_pos hp, if_neg hp]
    rfl

theorem lacking_subset (s : Paging) (address : Addr) (n : Nat) : lacking s address n ⊆ lacking s address (n + 1) := by
  rw [lacking_succ]
  split
  · exact Finset.Subset.refl _
  · exact Finset.subset_insert _ _

/-- `map_page` makes a table if there is none, and fails if there is no block for it. -/
theorem Layout.mapPage_installs (L : Layout s) (F : FreshTable s v) (p : Addr) :
    if isPresent (pde s (PD_INDEX v)) then
      (mapPage s p v).1 = true ∧ Installs s (mapPage s p v).2 ∅ ∧ Agree s.phys (mapPage s p v).2.phys
    else if (allocateBlocks s.phys 1).1 = 0 then mapPage s p v = (false, s)
    else (mapPage s p v).1 = true ∧ Installs s (mapPage s p v).2 {PD_INDEX v} ∧
      Agree (allocateBlocks s.phys 1).2 (mapPage s p v).2.phys := by
  split
  · rename_i hp
    rw [mapPage_of_present hp]
    exact ⟨rfl, (L.writePage_ok p v).installs rfl⟩
  rename_i hp
  split
  · rename_i h
    rw [mapPage_of_null hp h, allocateBlocks_of_null h L.maxBlocks.le]
  · rename_i h
    obtain ⟨I, A⟩ := L.newTable_installs (F hp) (PD_INDEX_lt v) hp h
    have g := L.newTable_ok (F hp) (i := PD_INDEX v) (by have := PD_INDEX_lt v; omega) hp
    rw [newTable_eq h] at g
    obtain ⟨I', A'⟩ := (g.layout.writePage_ok p v).installs rfl
    rw [mapPage_of_newTable hp h]
    have hall := I.trans I'
    rw [Finset.union_empty] at hall
    exact ⟨rfl, hall, A.trans A'⟩

/-- A page whose table was made on the way lacks none. -/
theorem Installs.lacking_present (I : Installs s s' (lacking s address n))
    (hp : isPresent (pde s' (PD_INDEX (pageAfter address n)))) : lacking s address (n + 1) = lacking s address n := by
  rw [lacking_succ]
  split
  · rfl
  · rename_i hp₀
    exact Finset.insert_eq_self.mpr ((I.made _).mpr ⟨PD_INDEX_lt _, hp₀, hp⟩)

/-- One whose table was not made lacks one more. -/
theorem Installs.lacking_absent (I : Installs s s' (lacking s address n))
    (hp : ¬ isPresent (pde s' (PD_INDEX (pageAfter address n)))) :
    lacking s address n ∪ {PD_INDEX (pageAfter address n)} = lacking s address (n + 1) ∧
      (lacking s address (n + 1)).card = (lacking s address n).card + 1 := by
  have hp₀ : ¬ isPresent (pde s (PD_INDEX (pageAfter address n))) := fun hp₀ =>
    hp (by rwa [I.kept _ (PD_INDEX_lt _) hp₀])
  have hnot : PD_INDEX (pageAfter address n) ∉ lacking s address n := fun hmem => hp ((I.made _).mp hmem).2.2
  rw [lacking_succ, if_neg hp₀, Finset.card_insert_of_notMem hnot, Finset.union_comm]
  exact ⟨rfl, rfl⟩

/-- The range is mapped if the tables that it lacks get their blocks. -/
theorem Layout.mapPages_installs (L : Layout s) (F : FreshTables s base address n) :
    ∃ new, Installs s (mapPages s base address n).2 new ∧
      if (mapPages s base address n).1 = n then new = lacking s address n ∧
        ∃ phys, singles s.phys new.card = some phys ∧ Agree phys (mapPages s base address n).2.phys
      else singles s.phys (lacking s address n).card = none := by
  induction n with
  | zero => exact ⟨∅, .refl s, rfl, s.phys, rfl, .refl _⟩
  | succ n ih =>
    obtain ⟨new, I, ih⟩ := ih F.init
    have hstep := fun hr => (L.mapPages_ok F.init).layout.mapPage_installs (F n (Nat.lt_succ_self n) hr)
      (pageAfter base n)
    have hle := mapPages_le s base address n
    simp only [mapPages]
    generalize mapPages s base address n = r at *
    by_cases hr : r.1 = n
    swap
    · -- the loop has ended before
      rw [if_neg hr] at ih
      simp only [if_neg hr]
      refine ⟨new, I, ?_⟩
      rw [if_neg (by omega)]
      exact singles_none (Finset.card_le_card (lacking_subset s address n)) ih
    rw [if_pos hr] at ih
    obtain ⟨rfl, phys, hphys, A⟩ := ih
    have hstep := hstep hr
    simp only [if_pos hr]
    by_cases hp : isPresent (pde r.2 (PD_INDEX (pageAfter address n)))
    · rw [if_pos hp] at hstep
      obtain ⟨ht, I', A'⟩ := hstep
      have hall := I.trans I'
      rw [Finset.union_empty] at hall
      refine ⟨_, hall, ?_⟩
      rw [ht, if_pos rfl, if_pos rfl]
      exact ⟨(I.lacking_present hp).symm, phys, hphys, A.trans A'⟩
    -- a table is needed that was not made before
    obtain ⟨hunion, hcard⟩ := I.lacking_absent hp
    have hone := A.allocate
    rw [if_neg hp] at hstep
    split at hstep
    · rename_i h
      refine ⟨_, (congrArg (fun t => Installs s t (lacking s address n)) (congrArg Prod.snd hstep)).mpr I, ?_⟩
      rw [hstep, if_neg Bool.false_ne_true, if_neg (Nat.ne_of_lt (Nat.lt_succ_self n)), hcard, singles, hphys,
        Option.bind_some, if_pos (hone.1 ▸ h)]
    · rename_i h
      obtain ⟨ht, I', A'⟩ := hstep
      refine ⟨_, I.trans I', ?_⟩
      rw [ht, if_pos rfl, if_pos rfl]
      refine ⟨hunion, (allocateBlocks phys 1).2, ?_, hone.2.trans A'⟩
      rw [hunion, hcard, singles, hphys, Option.bind_some, if_neg (hone.1 ▸ h)]

/-! ## Unmapping what was mapped -/

namespace Placed

variable (D : Placed s)

include D

theorem unmapPage_absent (v : Addr) : ¬ present (unmapPage s v) v := by
  by_cases hp : isPresent (pde s (PD_INDEX v))
  · rw [unmapPage_eq, present, D.toTables.entryOf_store hp, if_pos rfl]
    exact not_isPresent_unmapEntry _
  · have R := D.unmapPage_ok v
    rw [present, entryOf, R.pde _ (PD_INDEX_lt v), if_neg hp]
    decide

theorem unmapPages_absent (address : Addr) {i : Nat} (hi : i < n) (hv : page v = page (pageAfter address i)) :
    ¬ present (unmapPages s address n) v := by
  induction n with
  | zero => omega
  | succ n ih =>
    have D' := (D.unmapPages_ok address n).placed
    have hlast := D'.unmapPage_absent (pageAfter address n)
    by_cases he : page v = page (pageAfter address n)
    · rw [present] at hlast ⊢
      rwa [entryOf_congr _ he]
    · have hne : i ≠ n := fun e => he (e ▸ hv)
      rw [present, unmapPages, (D'.unmapPage_ok _).others v he]
      exact ih (by omega)

/-- Entries are written, and no bits. -/
theorem unmapPages_bits (address : Addr) (n : Nat) : (unmapPages s address n).phys.usedBlocks = s.phys.usedBlocks ∧
    ∀ c, c ≤ s.phys.maxBlocks → bit (unmapPages s address n).phys c = bit s.phys c := by
  induction n with
  | zero => exact ⟨rfl, fun _ _ => rfl⟩
  | succ n ih =>
    have R := D.unmapPages_ok address n
    have hmap := R.placed.map
    obtain ⟨hu, hb⟩ := ih
    refine ⟨hu, fun c hc => Eq.trans ?_ (hb c hc)⟩
    rw [unmapPages]
    generalize unmapPages s address n = s₁ at *
    have hentry : ¬ InMap s₁.phys (blockOf (getPage s₁ (pageAfter address n))) := by
      rw [getPage_eq, blockOf_slot (aligned_frame _) (PT_INDEX_lt _)]
      by_cases hp : isPresent (pde s₁ (PD_INDEX (pageAfter address n)))
      · exact (R.placed.notInMap _ (.inr ⟨_, PD_INDEX_lt _, hp, rfl⟩)).1
      · rw [R.placed.absent _ (PD_INDEX_lt _) hp]
        exact R.placed.notZero
    rw [unmapPage_eq]
    refine bit_congr (Mem.load32_store32_of_ne ?_ (wordAt_aligned hmap _) ?_)
    · exact slot_aligned (aligned_frame _) (PT_INDEX_lt _)
    · exact (page_ne_of_inMap hentry (R.same.maxBlocks ▸ hc) rfl).symm

end Placed

/-- Only the pages that the loop maps are changed. -/
theorem Layout.mapPages_unmapped (L : Layout s) (F : FreshTables s base address n)
    (hv : page v ∉ pagesOf address (mapPages s base address n).1) :
    entryOf (mapPages s base address n).2 v = entryOf s v := by
  induction n with
  | zero => rfl
  | succ n ih =>
    have hstep := fun hr => (L.mapPages_ok F.init).layout.mapPage_entries (F n (Nat.lt_succ_self n) hr)
      (pageAfter base n)
    have ih := ih F.init
    simp only [mapPages] at hv ⊢
    generalize mapPages s base address n = r at *
    by_cases hr : r.1 = n
    · simp only [if_pos hr] at hv ⊢
      rcases hstep hr with ⟨ht, he⟩ | ⟨ht, he⟩
      · rw [ht, if_neg Bool.false_ne_true] at hv
        rw [he, ih (hr ▸ hv)]
      · rw [ht, if_pos rfl] at hv
        rw [he, if_neg (fun e => hv (by rw [e]; exact page_mem_pagesOf)), ih]
        rw [hr]
        exact fun h => hv (pagesOf_succ h)
    · simp only [if_neg hr] at hv ⊢
      exact ih hv

/-! ## A call that fails -/

/-- The blocks of the range are released, and the pages unmapped: only the new tables are left, and block 0 is
marked used. -/
theorem Layout.undo_ok {t : Paging} (L : Layout s) (hF : FreshBlocks s nbPage)
    (h0 : (allocateBlocks s.phys nbPage).1 ≠ 0)
    (g : Grows { s with phys := (allocateBlocks s.phys nbPage).2 } t)
    (I : Installs { s with phys := (allocateBlocks s.phys nbPage).2 } t new) (k : Nat)
    (hs' : s' = unmapPages { t with phys := freeBlocks t.phys (allocateBlocks s.phys nbPage).1 nbPage } address k) :
    (∀ i : Word, i.toNat < 1024 → pde s' i = pde t i) ∧ Same s.phys s'.phys ∧
      s'.phys.usedBlocks = s.phys.usedBlocks + BitVec.ofNat 32 new.card ∧
      ∀ c, c < s.phys.maxBlocks →
        (bit s'.phys c ↔ c = 0 ∨ bit s.phys c ∨ ∃ i ∈ new, c = blockOf (frame (pde t i))) := by
  have R := L.heldRun hF
  have hrun := ((L.allocateBlocks_ok hF).2 h0).2
  have hspare : ∀ c, InRun (blockOf (allocateBlocks s.phys nbPage).1) nbPage.toNat c → Spare t c := fun c hc =>
    g.spare (hrun c hc).2
  have F := g.layout.placed.freeBlocks_ok fun c hc => BitVec.le_of_lt (hspare c hc).below
  have U := F.placed.unmapPages_ok address k
  obtain ⟨hu, hb⟩ := F.placed.unmapPages_bits address k
  have hmax : t.phys.maxBlocks = s.phys.maxBlocks := I.same.maxBlocks.trans R.same.maxBlocks
  subst hs'
  refine ⟨fun i hi => (U.pde i hi).trans (F.pde i hi), R.same.trans (I.same.trans (F.same.trans U.same)), ?_,
    fun c hc => ?_⟩
  · have hfree : (freeBlocks t.phys (allocateBlocks s.phys nbPage).1 nbPage).usedBlocks =
        t.phys.usedBlocks - nbPage :=
      congrArg (· - nbPage) (usedBlocks_forBlocks usedBlocks_unsetBlock _ _ _)
    refine hu.trans (hfree.trans ?_)
    rw [I.usedBlocks, R.usedBlocks, if_neg h0, add_sub_right_comm, add_sub_cancel_right]
  have hle : c ≤ (freeBlocks t.phys (allocateBlocks s.phys nbPage).1 nbPage).maxBlocks := by
    rw [F.same.maxBlocks, hmax]
    exact BitVec.le_of_lt hc
  rw [hb c hle, bit_freeBlocks, Bool.or_eq_true, decide_eq_true_iff, Bool.and_eq_true, Bool.not_eq_true',
    decide_eq_false_iff_not, I.bits c (R.same.maxBlocks ▸ hc), R.bits, Taken]
  refine or_congr_right ?_
  by_cases hc' : InRun (blockOf (allocateBlocks s.phys nbPage).1) nbPage.toNat c
  · -- a block of the range was free before, and is not a table's
    have hnot : ¬ InRun ((allocateBlocks s.phys nbPage).1 / BLOCK_SIZE) nbPage.toNat c ↔ False :=
      iff_false_intro (not_not.mpr hc')
    rw [hnot, false_and, (hrun c hc').1, false_iff]
    rintro (h | ⟨i, hi, e⟩)
    · cases h
    · obtain ⟨hi, -, hp⟩ := (I.made i).mp hi
      exact (hspare c hc').notInTable ⟨i, hi, hp, e⟩
  · have hyes : ¬ InRun ((allocateBlocks s.phys nbPage).1 / BLOCK_SIZE) nbPage.toNat c := hc'
    have hno : ((allocateBlocks s.phys nbPage).1 ≠ 0 ∧
        InRun (blockOf (allocateBlocks s.phys nbPage).1) nbPage.toNat c) ↔ False := iff_false_intro fun h => hc' h.2
    rw [and_iff_right hyes, hno, false_or]

theorem Layout.allocated_le (L : Layout s) (F : FreshBlocks s nbPage) (h : (allocateBlocks s.phys nbPage).1 ≠ 0) :
    nbPage.toNat ≤ 2 ^ 20 := by
  by_contra hge
  have := (L.allocated_blocks F h (i := 2 ^ 20) (by omega)).2.1
  rw [page_pageAfter] at this
  omega

theorem allocateNewPage_of_failed {r : Nat × Paging} (h0 : (allocateBlocks s.phys nbPage).1 ≠ 0)
    (hr : mapPages { s with phys := (allocateBlocks s.phys nbPage).2 } (allocateBlocks s.phys nbPage).1 address
      nbPage.toNat = r) (hne : r.1 ≠ nbPage.toNat) : allocateNewPage s address nbPage = (0, unmapPages
        { r.2 with phys := freeBlocks r.2.phys (allocateBlocks s.phys nbPage).1 nbPage } address r.1) := by
  simp only [allocateNewPage]
  rw [if_neg h0, hr, if_neg hne]

/-- A page that was not present is not present again. -/
theorem Layout.failed_absent {r : Nat × Paging} (L : Layout s) (F : FreshAllocation s address nbPage)
    (h0 : (allocateBlocks s.phys nbPage).1 ≠ 0)
    (hr : mapPages { s with phys := (allocateBlocks s.phys nbPage).2 } (allocateBlocks s.phys nbPage).1 address
      nbPage.toNat = r) (hne : r.1 ≠ nbPage.toNat) (hv : ¬ present s v) :
    ¬ present (allocateNewPage s address nbPage).2 v := by
  obtain ⟨g, hrun⟩ := L.allocateNewPage_mapped F h0
  have S := L.allocateBlocks_still F.blocks
  have hmapped : page v ∉ pagesOf address r.1 → entryOf r.2 v = entryOf s v := fun hm => by
    subst hr
    exact (S.layout.mapPages_unmapped (F.tables h0) hm).trans ((L.kept_allocateBlocks F.blocks).entryOf_eq v)
  rw [allocateNewPage_of_failed h0 hr hne]
  rw [hr] at g hrun
  have D := g.layout.placed.freeBlocks_ok fun c hc => BitVec.le_of_lt (hrun c hc).2.below
  by_cases hm : page v ∈ pagesOf address r.1
  · obtain ⟨i, hi, hm⟩ := hm
    exact D.placed.unmapPages_absent address hi hm
  · rw [present, (D.placed.unmapPages_ok address r.1).others v hm, D.others v (Set.notMem_empty _), hmapped hm]
    exact hv

/-- A call that finds no block for a table. -/
theorem Layout.failed_iff {r : Nat × Paging} (L : Layout s) (F : FreshAllocation s address nbPage)
    (h0 : (allocateBlocks s.phys nbPage).1 ≠ 0)
    (hfree : ∀ v, page v ∈ pagesOf address nbPage.toNat → ¬ present s v)
    (hr : mapPages { s with phys := (allocateBlocks s.phys nbPage).2 } (allocateBlocks s.phys nbPage).1 address
      nbPage.toNat = r) (hne : r.1 ≠ nbPage.toNat) :
    (allocateNewPage s address nbPage).1 = 0 ∧ (Undone s (allocateNewPage s address nbPage).2 ↔ bit s.phys 0) := by
  have S := L.allocateBlocks_still F.blocks
  have K := L.kept_allocateBlocks F.blocks
  have FT := F.tables h0
  have g := (S.layout.mapPages_still FT).toGrows
  obtain ⟨new, I, -⟩ := S.layout.mapPages_installs FT
  have habsent : ∀ v, ¬ present s v → ¬ present (allocateNewPage s address nbPage).2 v := fun v hv =>
    L.failed_absent F h0 hr hne hv
  have hothers : ∀ v, page v ∉ pagesOf address nbPage.toNat →
      entryOf (allocateNewPage s address nbPage).2 v = entryOf s v := fun v hv => L.allocateNewPage_others F hv
  have L' := (L.allocateNewPage_ok F).layout
  rw [hr] at g I
  rw [allocateNewPage_of_failed h0 hr hne] at habsent hothers L' ⊢
  obtain ⟨s', hs'⟩ : ∃ s', s' = unmapPages
      { r.2 with phys := freeBlocks r.2.phys (allocateBlocks s.phys nbPage).1 nbPage } address r.1 := ⟨_, rfl⟩
  obtain ⟨hpde, hsame, hused, hbits⟩ := L.undo_ok F.blocks h0 g I r.1 hs'
  rw [← hs'] at habsent hothers L' ⊢
  have hold : ∀ i : Word, i.toNat < 1024 →
      pde { s with phys := (allocateBlocks s.phys nbPage).2 } i = pde s i := K.sameDir.pde
  have hzero : (0 : Word) < s.phys.maxBlocks := by
    have h := (L.dirUsable _ (inDir_self s)).below
    rw [BitVec.lt_def] at h ⊢
    exact Nat.zero_lt_of_lt h
  refine ⟨rfl, fun h => ?_, fun hb => ⟨fun v => ?_, new, hsame, fun i hi hp => ?_, fun i => ?_,
    fun c hc => ?_, hused⟩⟩
  · -- block 0 is no table's
    obtain ⟨-, new', I'⟩ := h
    refine ((I'.bits 0 hzero).mp ((hbits 0 hzero).mpr (.inl rfl))).resolve_right ?_
    rintro ⟨i, hi, h⟩
    obtain ⟨hi, -, hp⟩ := (I'.made i).mp hi
    have := (L'.tableUsable _ ⟨i, hi, hp, h⟩).1.pos
    exact absurd this (by decide)
  · by_cases hv : page v ∈ pagesOf address nbPage.toNat
    · exact ⟨iff_of_false (habsent v (hfree v hv)) (hfree v hv), fun hp => absurd hp (hfree v hv)⟩
    · exact ⟨by rw [present, hothers v hv, present], fun hp => getPhysAddr_congr hp (hothers v hv)⟩
  · rw [hpde i hi, I.kept i hi (by rwa [hold i hi]), hold i hi]
  · rw [I.made]
    refine and_congr_right fun hi => ?_
    rw [hold i hi, hpde i hi]
  · have htable : (∃ i ∈ new, c = blockOf (frame (pde s' i))) ↔ ∃ i ∈ new, c = blockOf (frame (pde r.2 i)) :=
      exists_congr fun i => and_congr_right fun hi => by rw [hpde i ((I.made i).mp hi).1]
    rw [hbits c hc, htable]
    refine or_iff_right_of_imp ?_
    rintro rfl
    exact .inl hb

theorem Kept.lacking_eq (K : Kept s s') : lacking s' address n = lacking s address n := by
  refine Finset.filter_congr fun i hi => ?_
  obtain ⟨j, -, rfl⟩ := Finset.mem_image.mp hi
  rw [K.sameDir.pde _ (PD_INDEX_lt _)]

/-- A call that fails changes no mapping, as long as success is no failure. -/
theorem Layout.undone_iff (L : Layout s) (F : FreshAllocation s address nbPage) (hn : 1 ≤ nbPage.toNat)
    (hfree : ∀ v, page v ∈ pagesOf address nbPage.toNat → ¬ present s v) :
    ((allocateNewPage s address nbPage).1 = 0 → Undone s (allocateNewPage s address nbPage).2) ↔
      Undoable s address nbPage := by
  by_cases h0 : (allocateBlocks s.phys nbPage).1 = 0
  · have e : allocateNewPage s address nbPage = (0, s) := by
      simp only [allocateNewPage]
      rw [if_pos h0, allocateBlocks_of_null h0 L.maxBlocks.le]
    rw [e]
    exact iff_of_true (fun _ => ⟨fun v => ⟨Iff.rfl, fun _ => rfl⟩, ∅, .refl s⟩) fun h => absurd h0 h
  have S := L.allocateBlocks_still F.blocks
  have K := L.kept_allocateBlocks F.blocks
  have FT := F.tables h0
  obtain ⟨new, I, hI⟩ := S.layout.mapPages_installs FT
  rw [K.lacking_eq] at hI
  obtain ⟨r, hr⟩ : ∃ r, mapPages { s with phys := (allocateBlocks s.phys nbPage).2 }
    (allocateBlocks s.phys nbPage).1
    address nbPage.toNat = r := ⟨_, rfl⟩
  rw [hr] at hI
  rw [Undoable, forall_prop_of_true h0]
  by_cases hd : r.1 = nbPage.toNat
  · -- the range is mapped
    rw [if_pos hd] at hI
    obtain ⟨rfl, phys, hp, -⟩ := hI
    rw [hp, Option.isSome_some, if_pos rfl]
    have e : allocateNewPage s address nbPage = (address, r.2) := by
      simp only [allocateNewPage]
      rw [if_neg h0, hr, if_pos hd]
    rw [e]
    constructor
    · rintro h rfl
      obtain ⟨hmap, -⟩ := h rfl
      have hent := S.layout.mapPages_entries FT (L.allocated_le F.blocks h0) (congrArg Prod.fst hr |>.trans hd) hn rfl
      rw [hr] at hent
      apply hfree (pageAfter 0 0) ⟨0, hn, rfl⟩
      apply (hmap _).1.mp
      rw [present, hent]
      exact isPresent_mapEntry _ _
    · exact fun h h' => absurd h' h
  · rw [if_neg hd] at hI
    rw [hI, Option.isSome_none, if_neg Bool.false_ne_true]
    obtain ⟨h1, h2⟩ := L.failed_iff F h0 hfree hr hd
    rw [h1, forall_prop_of_true rfl, h2]

/-- After boot a page of the first 4 MiB is unmapped; block 160 is free. -/
theorem unmapped_somePhys (hv : PD_INDEX v = 0) : ∃ s, Guarded s ∧ bit s.phys 0 ∧
    (allocateBlocks s.phys 1).1 ≠ 0 ∧ isPresent (pde s (PD_INDEX v)) ∧
    ∀ u, page u ∈ pagesOf v (1 : Word).toNat → ¬ present s u := by
  obtain ⟨s₀, h₀, -, L⟩ := boot_somePhys
  have G₀ := (init_ok protected_somePhys h₀).1
  have Q := G₀.toLayout.unmapPage_ok v
  have G := (Q.grows G₀.toLayout).guarded G₀
  have L' : Left (unmapPage s₀ v).phys [160] 5 := L.unmapPage G₀.toLayout v
  obtain ⟨e, -⟩ := L'.allocate [] G.prot 5 1 (by decide) (by decide) (by decide) (by simp)
    (by decide) (by decide)
  refine ⟨unmapPage s₀ v, G, (L'.bits 0 (by decide)).mpr (by decide), ?_, ?_, fun u hu => ?_⟩
  · rw [e]
    decide
  · rw [Q.pde _ (PD_INDEX_lt _), hv]
    exact present_zero_of_init h₀
  · obtain ⟨i, hi, hu⟩ := hu
    obtain rfl : i = 0 := Nat.lt_one_iff.mp hi
    rw [present, entryOf_congr _ (hu.trans (by rw [pageAfter_zero]))]
    exact G₀.toLayout.placed.unmapPage_absent v

/-- After boot the last free block goes to a page for which there is no table. -/
theorem undone_somePhys : ∃ s, (allocateBlocks s.phys 1).1 ≠ 0 ∧ (allocateNewPage s 0x40000000 1).1 = 0 ∧
    Undone s (allocateNewPage s 0x40000000 1).2 := by
  obtain ⟨s, h, hF, L⟩ := boot_somePhys
  have G := (init_ok protected_somePhys h).1
  obtain ⟨e, L₁⟩ := L.allocate [] G.prot 5 1 (by decide) (by decide) (by decide) (by simp)
    (by decide) (by decide)
  have hne : (allocateBlocks s.phys 1).1 ≠ 0 := by
    rw [e]
    decide
  obtain ⟨-, P₁⟩ := G.prot.allocateBlocks_ok 1
  have K := G.toLayout.kept_allocateBlocks (G.freshBlocks 1)
  have hnull : (allocateBlocks (allocateBlocks s.phys 1).2 1).1 = 0 := by
    rw [P₁.allocateBlocks_none fun c hc => (L₁.bits c (L₁.maxBlocks ▸ BitVec.le_of_lt hc)).mpr List.not_mem_nil]
  have hp : ¬ isPresent (pde s (PD_INDEX 0x40000000)) := absent_init hF h (by decide) (by decide) (by decide)
  have hp₁ : ¬ isPresent (pde { s with phys :=
    (allocateBlocks s.phys 1).2 } (PD_INDEX (pageAfter 0x40000000 0))) := by
    rwa [pageAfter_zero, K.sameDir.pde _ (PD_INDEX_lt _)]
  have hm := mapPage_of_null hp₁ hnull (pageAfter (allocateBlocks s.phys 1).1 0)
  have hfail : (allocateNewPage s 0x40000000 1).1 = 0 := by
    simp only [allocateNewPage, mapPages, show (1 : Word).toNat = 0 + 1 from rfl]
    rw [if_neg hne]
    simp only [if_true, hm]
    rfl
  have hfree : ∀ v, page v ∈ pagesOf 0x40000000 (1 : Word).toNat → ¬ present s v := by
    rintro v ⟨i, hi, hv⟩ hpv
    obtain rfl : i = 0 := Nat.lt_one_iff.mp hi
    rw [present, entryOf_congr _ (hv.trans (by rw [pageAfter_zero]))] at hpv
    exact hp (isPresent_pde hpv)
  refine ⟨s, hne, hfail, (G.toLayout.undone_iff (G.freshAllocation _ _) (by decide) hfree).mpr (fun _ => ?_) hfail⟩
  split
  · decide
  · exact (L.bits 0 (by decide)).mpr (by decide)

/-- A page is allocated at address 0, which was not mapped: `NULL` is returned, and it is mapped now. -/
theorem not_undone : ¬ ∀ (s : Paging) (address nbPage : Word), Guarded s → bit s.phys 0 → Aligned address →
    1 ≤ nbPage.toNat → address.toNat + 4096 * nbPage.toNat ≤ 2 ^ 32 →
    (∀ v, page v ∈ pagesOf address nbPage.toNat → ¬ present s v) →
    (allocateNewPage s address nbPage).1 = 0 → Undone s (allocateNewPage s address nbPage).2 := by
  intro h
  obtain ⟨s, G, h0, hne, hp, hfree⟩ := unmapped_somePhys (v := 0) (by decide)
  have hp' : isPresent (pde { s with phys := (allocateBlocks s.phys 1).2 } (PD_INDEX 0)) := by
    rwa [(G.toLayout.kept_allocateBlocks (G.freshBlocks 1)).sameDir.pde _ (PD_INDEX_lt _)]
  have e := allocateNewPage_one hne hp'
  rw [pageAfter_zero, pageAfter_zero] at e
  obtain ⟨hmap, -⟩ := h s 0 1 G h0 (by decide) (by decide) (by decide) hfree (by rw [e])
  apply hfree 0 ⟨0, by decide, by decide⟩
  apply (hmap 0).1.mp
  have T := (G.toLayout.kept_allocateBlocks (G.freshBlocks 1)).sameDir.tables G.toTables
  rw [e, present, (T.writePage_ok hp' _).2.2, if_pos rfl]
  exact isPresent_mapEntry _ _

end

end AlexOS.Virtual
