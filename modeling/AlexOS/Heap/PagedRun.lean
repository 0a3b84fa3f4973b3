import AlexOS.Heap.Paged

/-!
# Runs of the heap through the page tables

From boot on, the kernel calls `malloc` and `free`, the owners of the blocks
store bytes in them, and pages between the first 4 MiB and the heap are mapped,
while `allocate_blocks` returns fresh blocks, and those of the heap below
256 MiB. `Run` keeps what was last written to each address. In every state of a
run (`Sound`), the heap is what a run of the heap with an ideal source of pages
has reached, as the processor sees it, no call and no access of an owner faults,
different bytes of blocks are at different places in memory, in blocks that are
neither the bitmap's nor of the directory or the tables, and what was written is
still there (`paged_run`).

The first block, which boot asks for, is an instance (`firstMalloc_eq`).
-/

namespace AlexOS.Malloc.Paged

open Virtual (Paging LowAllocation FreshAllocation entryOf getPhysAddr Spare blockOf initVirtualMemoryManager)
open Physical (Phys)

/-- The states that a run from `boot` reaches, with the blocks that are live and the bytes that
were written to them. -/
inductive Run (boot : Paging) : State → List Live → (Addr → Option Byte) → Prop
  | start : Run boot ⟨boot, 0, 0⟩ [] fun _ => none
  | malloc {s s' : State} {live : List Live} {written : Addr → Option Byte} {size : Word} {p : Addr}
      (r : Run boot s live written) (F : FreshMalloc s size) (hs : size.toNat ≤ 0x7FFFFFFF)
      (hm : malloc s size = some (p, s')) :
      Run boot s' (if p = 0 then live else ⟨p, size⟩ :: live)
        fun a => if p ≠ 0 ∧ (a - p).toNat < size.toNat then none else written a
  | free {s s' : State} {live : List Live} {written : Addr → Option Byte} {l : Live}
      (r : Run boot s live written) (hl : l ∈ live) (hf : free s l.ptr = some s') : Run boot s' (live.erase l) written
  | store {s s' : State} {live : List Live} {written : Addr → Option Byte} {l : Live} {i : Nat} {b : Byte}
      (r : Run boot s live written) (hl : l ∈ live) (hi : i < l.asked.toNat)
      (hw : s.store8 (l.ptr + BitVec.ofNat 32 i) b = some s') :
      Run boot s' live fun a => if a = l.ptr + BitVec.ofNat 32 i then some b else written a
  | pages {s : State} {live : List Live} {written : Addr → Option Byte} {address : Addr} {n : Word}
      (r : Run boot s live written) (F : FreshAllocation s.paging address n)
      (ha : ∀ k ∈ Virtual.pagesOf address n.toNat, 0x400 ≤ k ∧ k < 0xF0000) :
      Run boot (allocateNewPage s address n).2 live written

structure Sound (s : State) (live : List Live) (written : Addr → Option Byte) : Prop where
  /-- It is a heap with an ideal source of pages, as the processor sees it. -/
  refines : ∃ E e h answers, Malloc.Reachable (source answers) h live ∧ Seen E e s h
  malloc : ∀ size : Word, FreshMalloc s size → size.toNat ≤ 0x7FFFFFFF → ∃ p s', malloc s size = some (p, s')
  free : ∀ l ∈ live, ∃ s', free s l.ptr = some s'
  store : ∀ l ∈ live, ∀ i < l.asked.toNat, ∀ b, ∃ s', s.store8 (l.ptr + BitVec.ofNat 32 i) b = some s'
  /-- The first 4 MiB are mapped to themselves: a table that is there is at its own address. -/
  first : ∀ v : Word, v.toNat < 2 ^ 22 → Virtual.present s.paging v ∧ getPhysAddr s.paging v = v
  /-- A byte of a block is neither in the bitmap nor in the directory or a table, -/
  spare : ∀ l ∈ live, ∀ i < l.asked.toNat,
    Spare s.paging (blockOf (getPhysAddr s.paging (l.ptr + BitVec.ofNat 32 i)))
  /-- nor where another one is, -/
  apart : ∀ l ∈ live, ∀ l' ∈ live, ∀ i < l.asked.toNat, ∀ j < l'.asked.toNat,
    getPhysAddr s.paging (l.ptr + BitVec.ofNat 32 i) = getPhysAddr s.paging (l'.ptr + BitVec.ofNat 32 j) →
    l = l' ∧ i = j
  /-- and is what was written. -/
  contents : ∀ l ∈ live, ∀ i < l.asked.toNat, ∀ b, written (l.ptr + BitVec.ofNat 32 i) = some b →
    s.load8 (l.ptr + BitVec.ofNat 32 i) = some b

/-- What every step keeps. -/
structure Holds (E : Addr → Word) (s : State) (live : List Live) (written : Addr → Option Byte) (e : Nat) (h : Heap)
    (pages frees : List Addr) : Prop extends Backed E e s h pages frees live where
  reachable : Follows 0 h.calls fun answers => Malloc.Reachable (source answers) h live
  contents : ∀ l ∈ live, ∀ i < l.asked.toNat, ∀ b, written (l.ptr + BitVec.ofNat 32 i) = some b →
    h.mem (l.ptr + BitVec.ofNat 32 i) = b

section

variable {E : Addr → Word} {boot : Paging} {phys : Phys} {k : Word} {e : Nat} {s s' : State} {h h' : Heap}
  {pages frees : List Addr} {live : List Live} {written : Addr → Option Byte} {size n : Word} {p : Addr}
  {l : Live} {i : Nat} {b : Byte} {q : Paging}

theorem Holds.sound (H : Holds (entryOf boot) s live written e h pages frees) (M : Virtual.BootMap boot k) :
    Sound s live written where
  refines := by
    obtain ⟨answers, r⟩ := H.reachable.exists_answers
    exact ⟨_, e, h, answers, r, H.toSeen⟩
  malloc size F hs := by
    obtain ⟨p, s', h', M⟩ := H.toBacked.malloc F hs
    exact ⟨p, s', M.run⟩
  free l hl := by
    obtain ⟨s', hf, -⟩ := H.toBacked.free hl
    exact ⟨s', hf⟩
  store l hl i hi b := by
    obtain ⟨s', hst, -⟩ := H.toBacked.store8 hl hi b
    exact ⟨s', hst⟩
  first v hv := by
    obtain ⟨hp, ht⟩ := M.low v hv
    have he : entryOf s.paging v = entryOf boot v := H.first v (by rw [page]; omega)
    exact ⟨by rwa [Virtual.present, he], (Virtual.getPhysAddr_congr hp he).trans ht⟩
  spare l hl i hi := H.pagesLive.spare (H.payload hl hi).2.2
  apart l hl l' hl' i hi j hj heq := by
    refine H.payload_ne hl hl' hi hj ?_
    by_contra hne
    exact H.pagesLive.toPrivate.getPhysAddr_ne (H.payload hl hi).2.2 (H.payload hl' hj).2.2 hne heq
  contents l hl i hi b hb := by
    rw [H.load8 hl hi, H.contents l hl i hi b hb]

/-! ## The steps -/

/-- What the heap does not change is as it was written. -/
theorem Backed.contents_of_frame (B : Backed E e s h pages frees live) (F : Frame live h.mem h'.mem) (hl : l ∈ live)
    (hi : i < l.asked.toNat) : h'.mem (l.ptr + BitVec.ofNat 32 i) = h.mem (l.ptr + BitVec.ofNat 32 i) := by
  obtain ⟨ha, hia, -⟩ := B.payload hl hi
  exact F l hl _ (by omega) (by omega)

theorem Holds.malloc (H : Holds E s live written e h pages frees) (N : FreshMalloc s size)
    (hs : size.toNat ≤ 0x7FFFFFFF) (hm : Paged.malloc s size = some (p, s')) :
    ∃ e' h' pages' frees', Holds E s' (if p = 0 then live else ⟨p, size⟩ :: live)
      (fun a => if p ≠ 0 ∧ (a - p).toNat < size.toNat then none else written a) e' h' pages' frees' := by
  obtain ⟨q, s₁, h', M⟩ := H.toBacked.malloc N hs
  obtain ⟨rfl, rfl⟩ := Prod.mk.inj (Option.some.inj (hm.symm.trans M.run))
  obtain ⟨e', pages', frees', B'⟩ := M.backed
  have F : Frame live h.mem h'.mem := by
    obtain ⟨answers, hideal⟩ := M.ideal.exists_answers
    obtain ⟨q, h₁, -, -, e₁, F, -⟩ := malloc_spec (source answers) H.inv (.inl hs)
    obtain ⟨rfl, rfl⟩ := Prod.mk.inj (Option.some.inj (hideal.symm.trans e₁))
    exact F
  refine ⟨e', h', pages', frees', B', H.reachable.trans M.ideal (Nat.zero_le _) M.calls fun answers r hideal => ?_,
    fun l hl i hi b hb => ?_⟩
  · exact r.malloc hs hideal
  · have hout : ¬ (p ≠ 0 ∧ (l.ptr + BitVec.ofNat 32 i - p).toNat < size.toNat) := fun hin => by
      simp only [if_pos hin, reduceCtorEq] at hb
    simp only [if_neg hout] at hb
    have hold : l ∈ live := by
      by_cases h0 : p = 0
      · rwa [if_pos h0] at hl
      · rw [if_neg h0] at hl
        refine (List.mem_cons.mp hl).resolve_left fun heq => hout ⟨h0, ?_⟩
        subst heq
        rw [add_sub_cancel_left, BitVec.toNat_ofNat]
        exact (Nat.mod_le _ _).trans_lt hi
    rw [H.contents_of_frame F hold hi]
    exact H.contents l hold i hi b hb

theorem Holds.free (H : Holds E s live written e h pages frees) (hl : l ∈ live) (hf : Paged.free s l.ptr = some s') :
    Holds E s' (live.erase l) written e (Malloc.free h l.ptr) pages (l.header :: frees) := by
  obtain ⟨s₁, hf', B'⟩ := H.toBacked.free hl
  obtain rfl := Option.some.inj (hf.symm.trans hf')
  have F : Frame live h.mem (Malloc.free h l.ptr).mem :=
    H.inv.frame_header (Inv.header_live hl) (Nat.le_refl l.header.toNat) (by rw [Live.header]; omega)
  refine ⟨B', H.reachable.imp fun answers r => r.free hl, fun l' hl' i hi b hb => ?_⟩
  have hold := List.mem_of_mem_erase hl'
  rw [H.contents_of_frame F hold hi]
  exact H.contents l' hold i hi b hb

theorem Holds.store (H : Holds E s live written e h pages frees) (hl : l ∈ live) (hi : i < l.asked.toNat)
    (hw : s.store8 (l.ptr + BitVec.ofNat 32 i) b = some s') :
    Holds E s' live (fun a => if a = l.ptr + BitVec.ofNat 32 i then some b else written a) e
      { h with mem := h.mem.store8 (l.ptr + BitVec.ofNat 32 i) b } pages frees := by
  obtain ⟨s₁, hw', B'⟩ := H.toBacked.store8 hl hi b
  obtain rfl := Option.some.inj (hw.symm.trans hw')
  obtain ⟨-, hia, -⟩ := H.payload hl hi
  refine ⟨B', H.reachable.imp fun answers r => r.write hl ?_, fun l' hl' j hj b' hb' => ?_⟩
  · rw [BitVec.lt_def, BitVec.toNat_ofNat]
    exact (Nat.mod_le _ _).trans_lt hia
  · by_cases heq : l'.ptr + BitVec.ofNat 32 j = l.ptr + BitVec.ofNat 32 i
    · rw [if_pos heq] at hb'
      rw [← Option.some.inj hb', heq]
      exact Mem.store8_self _ _ _
    · rw [if_neg heq] at hb'
      exact (Mem.store8_apply heq).trans (H.contents l' hl' j hj b' hb')

/-- Every state of a run is that of a heap. -/
theorem Run.holds (B : ∃ mem, Backed E 0xF0000 ⟨boot, 0, 0⟩ ⟨mem, 0, 0, 0⟩ [] [] [])
    (r : Run boot s live written) :
    ∃ e h pages frees, Holds E s live written e h pages frees := by
  induction r with
  | start =>
    obtain ⟨mem, B⟩ := B
    exact ⟨_, _, _, _, B, .of_forall fun answers => .empty mem, fun l hl => absurd hl List.not_mem_nil⟩
  | malloc r F hs hm ih =>
    obtain ⟨e, h, pages, frees, H⟩ := ih
    exact H.malloc F hs hm
  | free r hl hf ih =>
    obtain ⟨e, h, pages, frees, H⟩ := ih
    exact ⟨_, _, _, _, H.free hl hf⟩
  | store r hl hi hw ih =>
    obtain ⟨e, h, pages, frees, H⟩ := ih
    exact ⟨_, _, _, _, H.store hl hi hw⟩
  | pages r F ha ih =>
    obtain ⟨e, h, pages, frees, H⟩ := ih
    exact ⟨_, _, _, _, H.toBacked.allocateNewPage_below F ha, H.reachable, H.contents⟩

/-! ## Boot -/

theorem maxBlocks_init (h : initVirtualMemoryManager phys k = (true, boot)) : boot.phys.maxBlocks = phys.maxBlocks := by
  obtain ⟨hd, -, -, -⟩ := Virtual.init_eq h
  rw [(Virtual.counts_init h).1]
  refine ((Virtual.same_allocateBlocks _ 1).maxBlocks.trans (Virtual.same_allocateBlocks _ 1).maxBlocks).trans ?_
  rw [(Virtual.makeDirectory_eq hd).2]
  exact (Virtual.same_allocateBlocks phys 3).maxBlocks

/-- After boot there are no pages of the heap. -/
theorem boot_backed (I : Virtual.ClearInit phys) (h : initVirtualMemoryManager phys k = (true, boot)) (mem : Mem) :
    Backed (entryOf boot) 0xF0000 ⟨boot, 0, 0⟩ ⟨mem, 0, 0, 0⟩ [] [] [] := by
  obtain ⟨hd, ht, -, -⟩ := Virtual.init_eq h
  have hnone : ∀ v, page v ∉ Set.Ico 0xF0000 0xF0000 := fun v hv => absurd hv.1 (not_le.mpr hv.2)
  refine ⟨⟨(Virtual.init_grows I h).1.layout,
    ⟨fun v hv => absurd hv (hnone v), fun v v' hv => absurd hv (hnone v)⟩,
    fun v hv => absurd hv (hnone v), le_refl _,
    fun v hv => ?_, fun v hv => absurd hv (hnone v), fun _ _ => rfl, rfl, rfl⟩, ?_, fun _ => rfl,
    fun pre y hy => by simp at hy⟩
  · have hpd : 960 ≤ (Virtual.PD_INDEX v).toNat := by
      rw [page] at hv
      rw [Virtual.toNat_PD_INDEX]
      omega
    have hne : ∀ j : Word, j.toNat < 960 → Virtual.PD_INDEX v ≠ j := fun j hj heq => by
      rw [heq] at hpd
      omega
    have hp : ¬ Virtual.isPresent (Virtual.pde boot (Virtual.PD_INDEX v)) :=
      Virtual.absent_init (I.freshInit hd ht) h (Virtual.PD_INDEX_lt v) (hne 0 (by decide)) (hne 768 (by decide))
    rw [entryOf, if_neg hp]
    decide
  · have r : Malloc.Reachable zeroPages ⟨mem, 0, 0, 0⟩ [] := .empty mem
    obtain ⟨pages, frees, I⟩ := r.inv
    obtain rfl := Chain.start_null.mp I.pageChain
    obtain rfl := Chain.start_null.mp I.freeChain
    exact I

/-! ### The first block -/

/-- The first page of the heap, with no block in it. -/
structure EmptyPage (E : Addr → Word) (q : Paging) (h : Heap) : Prop
    extends Seen E 0xF0001 ⟨q, 0, STARTING_PAGE⟩ h where
  nextPage : h.mem.load32 STARTING_PAGE = 0
  pageSize : h.mem.load32 (STARTING_PAGE + 4) = PAGE_SIZE
  usedSize : h.mem.load32 (STARTING_PAGE + 8) = sizeofPageHeader

/-- The header of the first page is written. -/
theorem Seen.firstHeader (S : Seen E 0xF0001 ⟨q, 0, STARTING_PAGE⟩ h) : ∃ q₁ q₂ q₃ h',
    Virtual.storeWord q (STARTING_PAGE + 4) PAGE_SIZE = some q₁ ∧
    Virtual.storeWord q₁ (STARTING_PAGE + 8) sizeofPageHeader = some q₂ ∧
    Virtual.storeWord q₂ STARTING_PAGE 0 = some q₃ ∧ EmptyPage E q₃ h' := by
  obtain ⟨q₁, k₁, S₁⟩ := S.storeWord (a := STARTING_PAGE + 4) (by decide) (by decide) PAGE_SIZE
  obtain ⟨q₂, k₂, S₂⟩ := S₁.storeWord (a := STARTING_PAGE + 8) (by decide) (by decide) sizeofPageHeader
  obtain ⟨q₃, k₃, S₃⟩ := S₂.storeWord (a := STARTING_PAGE) (by decide) (by decide) 0
  refine ⟨q₁, q₂, q₃, _, k₁, k₂, k₃, S₃, Mem.load32_store32_self _ _ _, ?_, ?_⟩
  · refine (Mem.load32_store32_of_apart (by decide) (by decide)).trans ?_
    exact (Mem.load32_store32_of_apart (by decide) (by decide)).trans (Mem.load32_store32_self _ _ _)
  · exact (Mem.load32_store32_of_apart (by decide) (by decide)).trans (Mem.load32_store32_self _ _ _)

/-- It has room for 16 bytes, and is the last one. -/
theorem EmptyPage.roomy (P : EmptyPage E q h) : noRoom ⟨q, 0, STARTING_PAGE⟩ STARTING_PAGE 16 = some false ∧
    walkM (State.load ⟨q, 0, STARTING_PAGE⟩) (isRoomy ⟨q, 0, STARTING_PAGE⟩ 16) walkFuel STARTING_PAGE =
      some STARTING_PAGE := by
  have l₀ := P.load (a := STARTING_PAGE) (by decide) (by decide)
  have l₄ := P.load (a := STARTING_PAGE + 4) (by decide) (by decide)
  have l₈ := P.load (a := STARTING_PAGE + 8) (by decide) (by decide)
  rw [P.nextPage] at l₀
  rw [P.pageSize] at l₄
  rw [P.usedSize] at l₈
  constructor
  · rw [noRoom, l₄, l₈]
    rfl
  · refine walkM_stop ?_ (by decide)
    rw [isRoomy, l₀]
    rfl

/-- A block of 16 bytes is carved from it. -/
theorem Seen.firstBlock (S : Seen E 0xF0001 ⟨q, 0, STARTING_PAGE⟩ h)
    (hu : h.mem.load32 (STARTING_PAGE + 8) = sizeofPageHeader) :
    ∃ q₁ q₂ q₃ q₄ nbBlock q₅, Virtual.storeWord q (STARTING_PAGE + sizeofPageHeader + 4) 12 = some q₁ ∧
    Virtual.storeWord q₁ (STARTING_PAGE + sizeofPageHeader + 8) 16 = some q₂ ∧
    Virtual.storeWord q₂ (STARTING_PAGE + sizeofPageHeader) 0 = some q₃ ∧
    Virtual.load32 q₃ (STARTING_PAGE + 8) = some sizeofPageHeader ∧
    Virtual.load32 q₃ (STARTING_PAGE + sizeofPageHeader + 8) = some 16 ∧
    Virtual.storeWord q₃ (STARTING_PAGE + 8) (sizeofPageHeader + (sizeofBlkHeader + 16)) = some q₄ ∧
    Virtual.load32 q₄ (STARTING_PAGE + 12) = some nbBlock ∧
    Virtual.storeWord q₄ (STARTING_PAGE + 12) (nbBlock + 1) = some q₅ := by
  obtain ⟨q₁, k₁, S₁⟩ := S.storeWord (a := STARTING_PAGE + sizeofPageHeader + 4) (by decide) (by decide) 12
  obtain ⟨q₂, k₂, S₂⟩ := S₁.storeWord (a := STARTING_PAGE + sizeofPageHeader + 8) (by decide) (by decide) 16
  obtain ⟨q₃, k₃, S₃⟩ := S₂.storeWord (a := STARTING_PAGE + sizeofPageHeader) (by decide) (by decide) 0
  obtain ⟨q₄, k₄, S₄⟩ := S₃.storeWord (a := STARTING_PAGE + 8) (by decide) (by decide)
    (sizeofPageHeader + (sizeofBlkHeader + 16))
  obtain ⟨q₅, k₅, -⟩ := S₄.storeWord (a := STARTING_PAGE + 12) (by decide) (by decide) (_ + 1)
  refine ⟨q₁, q₂, q₃, q₄, _, q₅, k₁, k₂, k₃,
    (S₃.load (a := STARTING_PAGE + 8) (by decide) (by decide)).trans ?_,
    (S₃.load (a := STARTING_PAGE + sizeofPageHeader + 8) (by decide) (by decide)).trans ?_, k₄,
    S₄.load (a := STARTING_PAGE + 12) (by decide) (by decide), k₅⟩
  · refine congrArg some ((Mem.load32_store32_of_apart (by decide) (by decide)).trans ?_)
    refine (Mem.load32_store32_of_apart (by decide) (by decide)).trans ?_
    exact (Mem.load32_store32_of_apart (by decide) (by decide)).trans hu
  · exact congrArg some ((Mem.load32_store32_of_apart (by decide) (by decide)).trans (Mem.load32_store32_self _ _ _))

/-- What `add_page` does on the heap of boot. -/
theorem firstPage_boot {mem : Mem} (B : Backed E 0xF0000 ⟨boot, 0, 0⟩ ⟨mem, 0, 0, 0⟩ [] [] [])
    (F : LowAllocation boot STARTING_PAGE 1 (2 ^ 16)) :
    ((Virtual.allocateNewPage boot STARTING_PAGE 1).1 = 0 ∧
      firstPage ⟨boot, 0, 0⟩ 16 = some (false, ⟨(Virtual.allocateNewPage boot STARTING_PAGE 1).2, 0, 0⟩)) ∨
    (Virtual.allocateNewPage boot STARTING_PAGE 1).1 = STARTING_PAGE ∧ ∃ q₁ q₂ q₃ h,
      Virtual.storeWord (Virtual.allocateNewPage boot STARTING_PAGE 1).2 (STARTING_PAGE + 4) PAGE_SIZE = some q₁ ∧
      Virtual.storeWord q₁ (STARTING_PAGE + 8) sizeofPageHeader = some q₂ ∧
      Virtual.storeWord q₂ STARTING_PAGE 0 = some q₃ ∧ EmptyPage E q₃ h ∧
      firstPage ⟨boot, 0, 0⟩ 16 = some (true, ⟨q₃, 0, STARTING_PAGE⟩) := by
  have h1 : align 16 PAGE_SIZE = PAGE_SIZE := by decide
  have hd : PAGE_SIZE / PAGE_SIZE = 1 := by decide
  rw [firstPage, if_pos rfl, addPage, if_pos rfl, h1, hd]
  have A := B.allocate (a := STARTING_PAGE) rfl F
  rw [allocateNewPage] at A ⊢
  generalize Virtual.allocateNewPage boot STARTING_PAGE 1 = r at A ⊢
  obtain ⟨page, q⟩ := r
  rcases A with ⟨hr, -⟩ | ⟨hr, -, S⟩
  · obtain rfl : page = 0 := hr
    exact .inl ⟨rfl, rfl⟩
  obtain rfl : page = STARTING_PAGE := hr
  have S := S.of_mem (t := ⟨q, 0, STARTING_PAGE⟩) (g := ⟨_, 0, STARTING_PAGE, 0⟩) rfl rfl rfl rfl
  obtain ⟨q₁, q₂, q₃, h, k₁, k₂, k₃, P⟩ := Seen.firstHeader S
  have hinit : initPage ⟨q, 0, STARTING_PAGE⟩ STARTING_PAGE PAGE_SIZE = some ⟨q₃, 0, STARTING_PAGE⟩ := by
    simp only [initPage, State.store, k₁, k₂, k₃, Option.map_some, Option.bind_eq_bind, Option.bind_some]
  refine .inr ⟨rfl, q₁, q₂, q₃, h, k₁, k₂, k₃, P, ?_⟩
  have hne : STARTING_PAGE ≠ 0 := by decide
  simp only [hne, if_false, hinit, Option.map_some]

/-- The first block needs no other page. -/
theorem freshMalloc_boot {mem : Mem} (B : Backed E 0xF0000 ⟨boot, 0, 0⟩ ⟨mem, 0, 0, 0⟩ [] [] [])
    (F : LowAllocation boot STARTING_PAGE 1 (2 ^ 16)) : FreshMalloc ⟨boot, 0, 0⟩ 12 := by
  have h16 : align 12 0x10 = 16 := by decide
  refine ⟨fun _ => ?_, ?_⟩
  · rintro r hr
    rw [h16, asked, if_pos rfl] at hr
    obtain rfl := Option.some.inj hr
    exact F
  · rw [h16]
    intro s₁ s₂ tmp h₁ h₂ hw hno
    rcases firstPage_boot B F with ⟨-, hf⟩ | ⟨-, q₁, q₂, q₃, h, -, -, -, P, ht⟩
    · cases hf.symm.trans h₁
    obtain ⟨-, rfl⟩ := Prod.mk.inj (Option.some.inj (ht.symm.trans h₁))
    obtain ⟨-, rfl⟩ := Prod.mk.inj (Option.some.inj h₂)
    obtain rfl := Option.some.inj (P.roomy.2.symm.trans hw)
    cases P.roomy.1.symm.trans hno

/-- What boot does for its first block is what `malloc` does. -/
theorem firstMalloc_eq {mem : Mem} (B : Backed E 0xF0000 ⟨boot, 0, 0⟩ ⟨mem, 0, 0, 0⟩ [] [] [])
    (F : LowAllocation boot STARTING_PAGE 1 (2 ^ 16)) :
    malloc ⟨boot, 0, 0⟩ 12 = (Virtual.firstMalloc boot).map fun r =>
      (r.1, ⟨r.2, 0, (Virtual.allocateNewPage boot STARTING_PAGE 1).1⟩) := by
  have h16 : align 12 0x10 = 16 := by decide
  rw [malloc_eq (by decide), h16, Virtual.firstMalloc]
  rcases firstPage_boot B F with ⟨h0, hf⟩ | ⟨hr, q₁, q₂, q₃, h, k₁, k₂, k₃, P, ht⟩
  · rw [hf, h0]
    rfl
  obtain ⟨q₄, q₅, q₆, q₇, nbBlock, q₈, k₄, k₅, k₆, l₆, l₆', k₇, l₇, k₈⟩ :=
    P.firstBlock P.usedSize
  have l₈ := P.load (a := STARTING_PAGE + 8) (by decide) (by decide)
  rw [P.usedSize] at l₈
  have hroomy : roomyPage ⟨q₃, 0, STARTING_PAGE⟩ 16 = some
    (true, STARTING_PAGE, ⟨q₃, 0, STARTING_PAGE⟩) := by
    rw [roomyPage, P.roomy.2]
    simp only [Option.bind_eq_bind, Option.bind_some, P.roomy.1, Bool.false_eq_true, if_false]
  have hcarve : carve ⟨q₃, 0, STARTING_PAGE⟩ STARTING_PAGE 12 16 =
      some (STARTING_PAGE + sizeofPageHeader + sizeofBlkHeader, ⟨q₈, 0, STARTING_PAGE⟩) := by
    rw [carve, l₈]
    simp only [State.store, State.load, k₄, k₅, k₆, l₆, l₆', k₇, l₇, k₈, Option.map_some,
      Option.bind_eq_bind,
      Option.bind_some]
  have hne : STARTING_PAGE ≠ 0 := by decide
  rw [ht, hr]
  simp only [Option.bind_some, Bool.not_true, Bool.false_eq_true, if_false, findFreeBlk, if_true, ne_eq,
    not_true_eq_false, hroomy, hcarve, hne]
  rw [show Virtual.PAGE_SIZE = PAGE_SIZE from rfl, k₁]
  simp only [k₂, k₃, k₄, k₅, k₆, k₇, k₈, l₇, Option.bind_eq_bind, Option.bind_some]
  rfl

/-- The block that `calloc` returns is in pages of the heap, if there is one. -/
theorem Backed.calloc {nmenb : Word} (B : Backed E e s h pages frees live) (F : FreshMalloc s (size * nmenb))
    (hs : (size * nmenb).toNat ≤ 0x7FFFFFFF) (hc : calloc s size nmenb = some (p, s')) (h0 : p ≠ 0) :
    Virtual.Layout s'.paging ∧
      Virtual.Live s'.paging {k | ∃ i < (size * nmenb).toNat, k = page (p + BitVec.ofNat 32 i)} := by
  obtain ⟨q, s₁, h', M⟩ := B.malloc F hs
  obtain ⟨⟨p', s₁'⟩, hm, hc⟩ := Option.bind_eq_some_iff.mp hc
  obtain ⟨rfl, rfl⟩ := Prod.mk.inj (Option.some.inj (M.run.symm.trans hm))
  obtain ⟨paging, hst, hc⟩ := Option.bind_eq_some_iff.mp hc
  obtain ⟨rfl, rfl⟩ := Prod.mk.inj (Option.some.inj hc)
  obtain ⟨e', pages', frees', B'⟩ := M.backed
  rw [if_neg h0] at B'
  have hin : ∀ i < (size * nmenb).toNat, page (q + BitVec.ofNat 32 i) ∈ Set.Ico 0xF0000 e' := fun i hi =>
    (B'.payload List.mem_cons_self hi).2.2
  have S := B'.pagesLive.storeBytes_ok B'.layout (by rw [List.length_replicate]; omega)
    (fun i hi _ => hin i (by rwa [List.length_replicate] at hi)) hst
  refine ⟨S.layout, S.live.mono ?_⟩
  rintro _ ⟨i, hi, rfl⟩
  exact hin i hi

/-- The heap of the kernel is sound in every state of a run. -/
theorem paged_run (I : Virtual.ClearInit phys) (hk : Aligned k) (h : initVirtualMemoryManager phys k = (true, boot))
    (r : Run boot s live written) : Sound s live written := by
  obtain ⟨hd, ht, -, -⟩ := Virtual.init_eq h
  have M := Virtual.init_bootMap (I.freshInit hd ht) hk h
  obtain ⟨e, h, pages, frees, H⟩ := r.holds ⟨_, boot_backed I h (Virtual.space boot)⟩
  exact H.sound M

/-- The blocks are those of a machine with 1 MiB. -/
theorem low_roomyPhys (h : initVirtualMemoryManager Virtual.roomyPhys 0x100000 = (true, boot)) :
    LowAllocation boot STARTING_PAGE 1 (2 ^ 16) := by
  have G := (Virtual.init_ok Virtual.protected_roomyPhys h).1
  have hmax : boot.phys.maxBlocks.toNat = 256 := by
    rw [maxBlocks_init h]
    rfl
  refine ⟨G.freshAllocation _ _, fun c hc => ?_⟩
  have := (G.freshBlocks 1).clear c hc |>.1
  rw [BitVec.lt_def, hmax] at this
  omega

/-- The block after boot is the first of the first page. -/
theorem firstMalloc_ptr {r : Addr × Paging} (hnew : (Virtual.allocateNewPage boot STARTING_PAGE 1).1 = STARTING_PAGE)
    (hr : Virtual.firstMalloc boot = some r) : r.1 = 0xF000001C := by
  rw [Virtual.firstMalloc, if_neg (by rw [hnew]; decide), hnew] at hr
  simp only [Option.bind_eq_bind, Option.bind_eq_some_iff] at hr
  obtain ⟨_, -, _, -, _, -, _, -, _, -, _, -, _, -, _, -, _, -, hr⟩ := hr
  rw [← Option.some.inj hr]
  exact show STARTING_PAGE + sizeofPageHeader + sizeofBlkHeader = 0xF000001C by decide

/-- The first block after boot, and a byte that is stored in it. -/
theorem paged_run_roomyPhys : ∃ boot s, initVirtualMemoryManager Virtual.roomyPhys 0x100000 = (true, boot) ∧
    Sound s [⟨0xF000001C, 12⟩] (fun a => if a = 0xF000001C + BitVec.ofNat 32 5 then some 0xAB else
      if (0xF000001C : Addr) ≠ 0 ∧ (a - 0xF000001C).toNat < (12 : Word).toNat then none else none) := by
  obtain ⟨boot, h, -, -, hnew⟩ := Virtual.allocated_roomyPhys
  obtain ⟨hd, -, -, -⟩ := Virtual.init_eq h
  have I := Virtual.protected_roomyPhys.clearInit hd
  have B := boot_backed I h (Virtual.space boot)
  have F := low_roomyPhys h
  have N := freshMalloc_boot B F
  obtain ⟨p, s, h', M⟩ := B.malloc N (show (12 : Word).toNat ≤ 0x7FFFFFFF by decide)
  obtain ⟨r, hr, hpair⟩ := Option.map_eq_some_iff.mp ((firstMalloc_eq B F).symm.trans M.run)
  obtain rfl : p = 0xF000001C :=
    (congrArg Prod.fst hpair).symm.trans (firstMalloc_ptr (B.layout.obtained F.toFreshAllocation hnew).1 hr)
  have r₁ := Run.start.malloc N (by decide) M.run
  rw [if_neg (by decide)] at r₁
  obtain ⟨e, g, pages, frees, H⟩ := r₁.holds ⟨_, B⟩
  obtain ⟨s', hst, -⟩ := H.store8 (l := ⟨0xF000001C, 12⟩) (i := 5) List.mem_cons_self (by decide) 0xAB
  exact ⟨boot, s', h, paged_run I (by decide) h (r₁.store List.mem_cons_self (by decide) hst)⟩

end

end AlexOS.Malloc.Paged
