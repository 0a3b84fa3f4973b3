import AlexOS.Elf.Complete

/-!
# What a load does to the pages of others

`load_elf_file` maps the pages of a segment over what is there. If there is no page
for one, it releases the pages of that segment, once for each program header before
it, and with them blocks from that of a page table on. And it does not look at what
`calloc` returns: without memory, the program headers go to address 0 and on. Pages
that are present stay as they are if `calloc` has memory, no segment goes there
(`Placeable`), and what is released is in the bitmap (`Room`).
-/

namespace AlexOS.Elf

open Physical Virtual

/-- For a segment after the first header, the last blocks of the bitmap, as many as it has pages, are used, and
not for page tables. -/
def Room (file : List Byte) (s : Paging) : Prop :=
  ∀ i, 0 < i → Loads file i → ∀ c, c < s.phys.maxBlocks →
    s.phys.maxBlocks.toNat < c.toNat + (NB_PAGE (segment file i).memsz).toNat → Spare s c

/-- None of the `n` bytes from `a` on is in the directory or in a table. -/
structure Aside (s : Paging) (a : Addr) (n : Nat) : Prop where
  tables : Tables s
  notInUse : ∀ i < n, ∀ t, InUse s t → blockOf t ≠ blockOf (frame (entryOf s (a + BitVec.ofNat 32 i)))

/-- There is memory for the program headers, the segments go where nothing is, and the blocks that are allocated
for them are fresh. -/
structure SafeSegments {ν : Type} (C : Calls ν) (file : List Byte) (k : Kernel ν) : Prop where
  callocs : Callocs C (fileHeader file).tableSize (opened C k).paging
  placeable : Placeable file (C.calloc (fileHeader file).tableSize (opened C k).paging).2
  room : Room file (C.calloc (fileHeader file).tableSize (opened C k).paging).2
  fresh : FreshLoad C file k

/-- The heap leaves the pages that are present, and the file is not loaded, or its segments are safe. -/
def SafeToLoad {ν : Type} (C : Calls ν) (file : List Byte) (k : Kernel ν) : Prop :=
  Dma.KeepsPresent k.paging (opened C k).paging ∧
    (handle C k = -1 ∨ HeaderRefused C k ∨ Dma.KeepsPresent (opened C k).paging (tableBlock C k).2 ∧
      (TableShort C k ∧ Aside (tableBlock C k).2 (tableBlock C k).1 (headerOf C k).tableSize.toNat ∨
        SafeSegments C file k))

section

variable {ν : Type} {C : Calls ν} {file : List Byte} {At : Int → Nat → ν → Prop} {k k' : Kernel ν}
  {s s₁ s₂ s' : Paging} {fd code : Int} {table a v : Addr} {i m n : Nat} {T : Set Nat} {ep : Option Word}
  {bytes : List Byte}

/-- Stores to such bytes change no entry. -/
theorem Aside.storeBytes (A : Aside s a n) (hlen : bytes.length ≤ n) (h : storeBytes s a bytes = some s') :
    Kept s s' := by
  induction bytes generalizing s a n with
  | nil =>
    cases h
    exact ⟨rfl, fun _ _ _ _ => rfl⟩
  | cons b bytes ih =>
    rw [List.length_cons] at hlen
    rw [Virtual.storeBytes] at h
    split at h
    case isFalse => cases h
    rename_i hv
    have K : Kept s (store8 s a b) := A.tables.kept_store8 fun t ht => by
      have := A.notInUse 0 (by omega) t ht
      rwa [BitVec.add_zero, ← blockOf_getPhysAddr hv] at this
    refine K.trans (ih (n := n - 1) ⟨K.sameDir.tables A.tables, fun i hi t ht => ?_⟩ (by omega) h)
    rw [K.entryOf_eq, add_one_ofNat]
    exact A.notInUse (i + 1) (by omega) t (K.sameDir.inUse ht)

/-- The blocks that are released with the pages of the segment are in the bitmap. -/
theorem Room.fits (H : Room file s₁) (hi : 0 < i) (hl : Loads file i) (g : Grows s₁ s) {c : Word}
    (hc : InRun (blockOf (getPage s (segment file i).vaddr)) (NB_PAGE (segment file i).memsz).toNat c) :
    c ≤ s.phys.maxBlocks := by
  have L := g.layout
  have hroom := H i hi hl
  generalize segment file i = d at *
  have hmax := L.maxBlocks
  rw [g.same.maxBlocks] at hmax
  rw [getPage_eq, blockOf_slot (aligned_frame _) (PT_INDEX_lt _)] at hc
  -- the block of the table, or block 0
  have hlast : ∀ b : Word, b < s₁.phys.maxBlocks → ¬ Spare s₁ b →
      b.toNat + (NB_PAGE d.memsz).toNat ≤ s₁.phys.maxBlocks.toNat := fun b hb hn => by
    by_contra hgt
    exact hn (hroom b hb (by omega))
  have hstart : (blockOf (frame (pde s (PD_INDEX d.vaddr)))).toNat + (NB_PAGE d.memsz).toNat ≤
      s₁.phys.maxBlocks.toNat := by
    by_cases hp : isPresent (pde s (PD_INDEX d.vaddr))
    · have ht : InTable s (blockOf (frame (pde s (PD_INDEX d.vaddr)))) := ⟨_, PD_INDEX_lt _, hp, rfl⟩
      have hb := (L.tableUsable _ ht).1.below
      rw [g.same.maxBlocks] at hb
      exact hlast _ hb fun h => (g.spare h).notInTable ht
    · have h0 : blockOf (frame (pde s (PD_INDEX d.vaddr))) = 0 := by
        rw [L.absent _ (PD_INDEX_lt _) hp]
        rfl
      have hd := (L.dirUsable _ (inDir_self s)).below
      rw [g.same.maxBlocks] at hd
      rw [h0]
      refine hlast 0 ?_ fun h => absurd h.pos (by decide)
      rw [BitVec.lt_def] at hd ⊢
      exact Nat.zero_lt_of_lt hd
  have hc32 := c.isLt
  rw [InRun, BitVec.toNat_sub] at hc
  rw [g.same.maxBlocks, BitVec.le_def]
  omega

/-- The rounds of the loop that releases the pages of the segment. -/
theorem undo_ok (hp : Placeable file s₁) (hl : Loads file i) (L : Live s T) (A : TableAt file T s₁ table)
    (hT : ∀ v, page v ∈ T → present s₁ v) (hspace : ∀ v, page v ∈ T → space s v = space s₁ v)
    (hfit : m ≠ 0 → ∀ c,
      InRun (blockOf (getPage s (segment file i).vaddr)) (NB_PAGE (segment file i).memsz).toNat c →
        c ≤ s.phys.maxBlocks)
    (R : Released (segmentPages (segment file i)) s s₂) (h : undo (entryAddr file table i) m s₂ = some s') :
    Released (segmentPages (segment file i)) s s' := by
  induction m generalizing s₂ with
  | zero =>
    cases h
    exact R
  | succ m ih =>
    have hfit := hfit (Nat.succ_ne_zero m)
    have hspace₂ : ∀ v, page v ∈ T → space s₂ v = space s₁ v := fun v hv =>
      (L.released R hv fun h => (hp.free i hl v h).1 (hT v hv)).2.trans (hspace v hv)
    obtain ⟨pVaddr, hv, h⟩ := Option.bind_eq_some_iff.mp h
    obtain ⟨pMemsz, hm, h⟩ := Option.bind_eq_some_iff.mp h
    obtain rfl : _ = (segment file i).vaddr := A.field hp hspace₂ hl.1 (by decide) hv
    obtain rfl : _ = (segment file i).memsz := A.field hp hspace₂ hl.1 (by decide) hm
    refine ih (fun _ => hfit) (R.trans (R.placed.deallocatePage_ok fun c hc => ?_)) h
    rw [R.same.maxBlocks]
    apply hfit c
    rwa [getPage_eq, ← R.pde _ (PD_INDEX_lt _), ← getPage_eq]

/-- A round that finds no page changes the entries of its segment only. -/
theorem Progress.noPage_ok (P : Progress file T s₁ i k.paging) (hp : Placeable file s₁) (hroom : Room file s₁)
    (hl : Loads file i) (F : FreshAllocation k.paging (segment file i).vaddr (NB_PAGE (segment file i).memsz))
    (L : Live s₁ T) (A : TableAt file T s₁ table)
    (h : loadEntry C fd (entryAddr file table i) i k = some (false, k'))
    (hv : page v ∉ segmentPages (segment file i)) : entryOf k'.paging v = entryOf k.paging v := by
  have hT : ∀ v, page v ∈ T → present s₁ v := fun v hv => (L.owned v hv).present
  cases loadEntry_outcome h with
  | noPage hvaddr hmemsz _ hundo =>
    obtain rfl : _ = (segment file i).vaddr := A.field hp P.table hl.1 (by decide) hvaddr
    obtain rfl : _ = (segment file i).memsz := A.field hp P.table hl.1 (by decide) hmemsz
    have S := P.layout.allocateNewPage_still F
    have hothers : ∀ v, page v ∉ segmentPages (segment file i) →
        entryOf (allocateNewPage k.paging (segment file i).vaddr (NB_PAGE (segment file i).memsz)).2 v =
          entryOf k.paging v := fun v hv => P.layout.allocateNewPage_others F hv
    have L' := (P.live.mono Set.subset_union_left).of_entries
      (fun v hv => hothers v fun h => (hp.free i hl v h).1 (hT v hv)) fun _ => S.spare
    have R := undo_ok hp hl L' A hT (fun v hv => P.space_allocated hp hl hT F hv)
      (fun hi c hc => hroom.fits (Nat.pos_of_ne_zero hi) hl (P.toGrows.trans S.toGrows) hc)
      ((Released.refl S.layout.placed).mono (Set.empty_subset _)) hundo
    exact (R.others v hv).trans (hothers v hv)

theorem Room.mono (H : Room file s) (g : Grows s s₁) : Room file s₁ := by
  intro i hi hl c hc hlast
  rw [g.same.maxBlocks] at hc hlast
  exact g.spare (H i hi hl c hc hlast)

/-- However the loop ends, the entries of pages that were present are the same. -/
theorem entries_loop {done : Bool} (X : Exact C file At) (D : Started file T s s₁ table) (hp : Placeable file s)
    (hroom : Room file s) {j : Nat} {files : ν} (hA : At fd j files)
    (F : FreshRounds C fd file table (fileHeader file).prgHeaderTableEntryCount.toNat 0 ⟨s₁, files⟩)
    (h : loadLoop C fd table ((fileHeader file).prgHeaderTableEntrySize.setWidth 32)
      (fileHeader file).prgHeaderTableEntryCount.toNat 0 ⟨s₁, files⟩ = some (done, k'))
    (hv : present s v) : entryOf k'.paging v = entryOf s v := by
  have hp₁ := hp.congr D.entries
  have hv₁ : present s₁ v := by
    rw [present, D.entries]
    exact hv
  have hloop := D.progress.loadLoop_ok (I := fun _ _ => True) hp₁ D.live D.toTableAt X (fun _ _ _ _ _ _ => trivial)
    (fun _ _ _ _ => trivial) trivial hA (Nat.zero_add _) F h
  cases done with
  | true =>
    obtain ⟨P, -⟩ := hloop.1 rfl
    exact (P.others v (hp₁.notMapped hv₁ _)).trans (D.entries v)
  | false =>
    obtain ⟨i, k₁, hl, P, F, hr⟩ := hloop.2 rfl
    have hround := P.noPage_ok hp₁ (hroom.mono D.grows) hl F D.live D.toTableAt hr fun h =>
      (hp₁.free i hl v h).1 hv₁
    exact hround.trans ((P.others v (hp₁.notMapped hv₁ _)).trans (D.entries v))

theorem safe_smallProgram : SafeToLoad (oneFile smallProgram) smallProgram someKernel := by
  have hcount : (fileHeader smallProgram).prgHeaderTableEntryCount.toNat = 1 := by decide
  refine ⟨fun _ _ => rfl, .inr (.inr ⟨fun _ _ => rfl, .inr ⟨callocs_oneFile smallProgram (by decide),
    valid_smallProgram.placeable fits_smallProgram, fun i hi hl => ?_, freshLoad_smallProgram⟩⟩)⟩
  have := hl.1
  omega

/-- A segment at the page at 8 KiB, which is mapped. -/
def usedProgram : List Byte := program [0, 0x20, 0, 0] [4, 0, 0, 0] [4, 0, 0, 0]

end

end AlexOS.Elf
