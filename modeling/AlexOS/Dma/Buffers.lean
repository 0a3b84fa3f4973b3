import AlexOS.Dma.Allocator
import AlexOS.Virtual.FindFree

/-!
# DMA buffers

As long as none is released, each buffer is at the start of pages of its own.
`dma_alloc` looks for a place in the first page's list only, whose block is not
free, and goes on with new pages (`dmaAlloc_ok`). These were not present
before, and those that were present stay as they are (`Gained`), so that
buffers are disjoint.

The frames of the pages are those of the blocks that were allocated, but for
bit 31, where `SET_FRAME` leaves what was in the entry before. So the buffers
are contiguous if that makes the same difference for all pages of each
(`dma_buffers_iff`).
-/

namespace AlexOS.Dma

open Physical Virtual

/-- What a page present keeps. -/
def KeepsPresent (s s' : Paging) : Prop := ∀ v, present s v → entryOf s' v = entryOf s v

/-- The heap gives out blocks that are not given out (`live`), and leaves the pages that are present. -/
structure Calls.Lawful {σ : Type} (C : Calls σ) (live : σ → Set Addr) : Prop where
  guarded : ∀ size h s, Guarded s → Guarded (C.calloc size h s).2.2
  keeps : ∀ size h s, Guarded s → KeepsPresent s (C.calloc size h s).2.2
  fresh : ∀ size h s, (C.calloc size h s).1 ≠ 0 → (C.calloc size h s).1 ∉ live h
  kept : ∀ size h s, live h ⊆ live (C.calloc size h s).2.1
  given : ∀ size h s, (C.calloc size h s).1 ≠ 0 → (C.calloc size h s).1 ∈ live (C.calloc size h s).2.1

/-- A call of `calloc` gives out a block that was not given out, and leaves the pages that are present. -/
structure Hands {σ : Type} (C : Calls σ) (live : σ → Set Addr) (size : Word) (h : σ) (s : Paging) : Prop where
  layout : Layout (C.calloc size h s).2.2
  keeps : KeepsPresent s (C.calloc size h s).2.2
  fresh : (C.calloc size h s).1 ∉ live h
  kept : live h ⊆ live (C.calloc size h s).2.1
  given : (C.calloc size h s).1 ∈ live (C.calloc size h s).2.1

/-- The blocks that `dma_alloc` gets for a number of pages, and the pages. -/
def blocksFor (s : Paging) (n : Word) : Addr := (allocateBlocks s.phys n).1
def searchedFor (s : Paging) (n : Word) : Addr × Paging :=
  findFreePage { s with phys := (allocateBlocks s.phys n).2 } n
def pagesFor (s : Paging) (n : Word) : Addr := (searchedFor s n).1

/-- `allocate_blocks`, `find_free_page` and `map_page` succeed, on fresh blocks. -/
structure Obtains (s : Paging) (n : Word) : Prop where
  blocks : blocksFor s n ≠ 0
  fresh : FreshBlocks s n
  search : FreshSearch { s with phys := (allocateBlocks s.phys n).2 } n.toNat
  tables : FreshTables (searchedFor s n).2 (blocksFor s n) (pagesFor s n) n.toNat
  aligned : Aligned (pagesFor s n)
  fits : (pagesFor s n).toNat + 4096 * n.toNat ≤ 2 ^ 32
  absent : ∀ i < n.toNat, ¬ present s (pageAfter (pagesFor s n) i)
  mapped : (mapPages (searchedFor s n).2 (blocksFor s n) (pagesFor s n) n.toNat).1 = n.toNat

/-- And so does `calloc`, for the header of the pages and for that of the block. -/
structure Succeeds {σ : Type} (C : Calls σ) (live : σ → Set Addr) (s : State σ) (n : Word) : Prop extends
    Obtains s.paging n where
  header : Hands C live sizeofPageHeader s.heap (dmaAllocateNewPage s.paging n).2
  block : Hands C live sizeofBlkHeader (C.calloc sizeofPageHeader s.heap (dmaAllocateNewPage s.paging n).2).2.1
    (C.calloc sizeofPageHeader s.heap (dmaAllocateNewPage s.paging n).2).2.2

/-- Bit 31 is left over in the entry of page `i`, and changes the frame. -/
def LeftOver (s : Paging) (n : Word) (i : Nat) : Prop :=
  (entryOf s (pageAfter (pagesFor s n) i)).getLsbD 31 = true ∧ (pageAfter (blocksFor s n) i).getLsbD 31 = false

instance (s : Paging) (n : Word) (i : Nat) : Decidable (LeftOver s n i) := inferInstanceAs (Decidable (_ ∧ _))

/-- It does for all pages or for none. -/
def Uniform (s : Paging) (n : Word) : Prop := ∀ i < n.toNat, LeftOver s n i ↔ LeftOver s n 0

instance (s : Paging) (n : Word) : Decidable (Uniform s n) :=
  inferInstanceAs (Decidable (∀ i < n.toNat, LeftOver s n i ↔ LeftOver s n 0))

structure Request where
  size : Word
  alignment : Word

structure Request.Valid (r : Request) : Prop where
  pos : 0 < r.size.toNat
  size : r.size.toNat ≤ 0x7FFFFFFF
  alignment : ∃ k ≤ 12, r.alignment.toNat = 2 ^ k

/-- A buffer for a request: at a multiple of its alignment, in pages that are present, and contiguous. -/
structure Sound (s : Paging) (r : Request) (p : Addr) : Prop where
  aligned : p.toNat % r.alignment.toNat = 0
  mapped : ∀ k < r.size.toNat, present s (p + BitVec.ofNat 32 k)
  contiguous : ∀ k < r.size.toNat, getPhysAddr s (p + BitVec.ofNat 32 k) = getPhysAddr s p + BitVec.ofNat 32 k

/-- The buffers of some requests. -/
structure AllSound (s : Paging) (bufs : List (Request × Addr)) : Prop where
  disjoint : bufs.Pairwise fun b c => Disjoint (Mem.range b.2 b.1.size.toNat) (Mem.range c.2 c.1.size.toNat)
  sound : ∀ b ∈ bufs, Sound s b.1 b.2

section

variable {σ : Type} (C : Calls σ)

/-- The buffers for a list of requests. -/
def dmaAllocs (s : State σ) : List Request → Option (List (Request × Addr) × State σ)
  | [] => some ([], s)
  | r :: rs => do
    let (p, s) ← dmaAlloc C s r.size r.alignment
    let (bufs, s) ← dmaAllocs s rs
    some ((r, p) :: bufs, s)

/-- `P` holds of the state, and the number of pages asked for, at each call. -/
def EachCall (P : State σ → Word → Prop) (s : State σ) : List Request → Prop
  | [] => True
  | r :: rs => P s (NB_PAGE r.size) ∧
    ∀ p s', dmaAlloc C s r.size r.alignment = some (p, s') → EachCall P s' rs

end

section

variable {s s' s₁ : Paging} {n : Word} {v base virt : Addr} {r : Request} {p : Addr} {e : Word}

/-! ## New pages -/

/-- Pages from `virt` on, that were not present, are mapped to the blocks from `base` on. -/
structure Gained (s s' : Paging) (base virt : Addr) (n : Nat) : Prop where
  layout : Layout s'
  keeps : KeepsPresent s s'
  absent : ∀ i < n, ¬ present s (pageAfter virt i)
  entries : ∀ i < n, ∀ v, page v = page (pageAfter virt i) →
    entryOf s' v = mapEntry (entryOf s v) (pageAfter base i)

theorem KeepsPresent.trans (h₁ : KeepsPresent s s₁) (h₂ : KeepsPresent s₁ s') : KeepsPresent s s' := by
  intro v hv
  have e := h₁ v hv
  rw [h₂ v (by rwa [present, e]), e]

theorem KeepsPresent.present (h : KeepsPresent s s') (hv : present s v) : present s' v := by
  rw [Virtual.present, h v hv]
  exact hv

theorem mapRange_eq {k : Nat} (h : (mapPages s base virt k).1 = k) :
    mapRange s base virt k = (mapPages s base virt k).2 := by
  induction k with
  | zero => rfl
  | succ k ih =>
    obtain ⟨hk, -, hs⟩ := mapPages_succ h
    rw [mapRange, ih hk, hs]

theorem Obtains.le (S : Obtains s n) : n.toNat ≤ 2 ^ 20 := by
  have := S.fits
  omega

theorem Obtains.eq (S : Obtains s n) : dmaAllocateNewPage s n =
    (pagesFor s n, (mapPages (searchedFor s n).2 (blocksFor s n) (pagesFor s n) n.toNat).2) := by
  rw [← mapRange_eq S.mapped]
  simp only [dmaAllocateNewPage]
  rw [if_neg (show ¬ (allocateBlocks s.phys n).1 = 0 from S.blocks)]
  rfl

/-- The search for the pages maps none. -/
theorem Obtains.searched (S : Obtains s n) (L : Layout s) (hn : 1 ≤ n.toNat) :
    Grows s (searchedFor s n).2 ∧ ∀ v, entryOf (searchedFor s n).2 v = entryOf s v := by
  have g := (L.allocateBlocks_still S.fresh).toGrows
  obtain ⟨g₁, he⟩ := g.layout.findFreePage_ok S.search hn
  exact ⟨g.trans g₁, fun v => (he v).trans ((L.kept_allocateBlocks S.fresh).entryOf_eq v)⟩

theorem Obtains.grows (S : Obtains s n) (L : Layout s) (hn : 1 ≤ n.toNat) : Grows s (dmaAllocateNewPage s n).2 := by
  have g := (S.searched L hn).1
  rw [S.eq]
  exact g.trans (g.layout.mapPages_ok S.tables)

theorem Obtains.gained (S : Obtains s n) (L : Layout s) (hn : 1 ≤ n.toNat) :
    (dmaAllocateNewPage s n).1 = pagesFor s n ∧
      Gained s (dmaAllocateNewPage s n).2 (blocksFor s n) (pagesFor s n) n.toNat := by
  obtain ⟨g, he⟩ := S.searched L hn
  have L' := (S.grows L hn).layout
  rw [S.eq] at L' ⊢
  refine ⟨rfl, L', fun v hv => ?_, S.absent, fun i hi v hv => ?_⟩
  · refine (g.layout.mapPages_others S.tables fun ⟨i, hi, hp⟩ => S.absent i hi ?_).trans (he v)
    rwa [present, ← entryOf_congr s hp]
  · rw [g.layout.mapPages_entries S.tables S.le S.mapped hi hv, he]

/-- The page of a byte. -/
theorem page_byte {k : Nat} (hv : Aligned virt) (hw : virt.toNat + 4096 * n.toNat ≤ 2 ^ 32)
    (hk : k < 4096 * n.toNat) :
    page (virt + BitVec.ofNat 32 k) = page (pageAfter virt (k / 4096)) := by
  have hv : virt.toNat % 4096 = 0 := hv
  rw [page_pageAfter, page, page, Mem.toNat_add_lt hk hw]
  omega

theorem Gained.bytes {k : Nat} (A : Gained s s' base virt n.toNat) (hv : Aligned virt)
    (hw : virt.toNat + 4096 * n.toNat ≤ 2 ^ 32) (hk : k < 4096 * n.toNat) :
    ¬ present s (virt + BitVec.ofNat 32 k) ∧ present s' (virt + BitVec.ofNat 32 k) := by
  have hi : k / 4096 < n.toNat := by omega
  have hp := page_byte hv hw hk
  constructor
  · rw [Virtual.present, entryOf_congr s hp]
    exact A.absent _ hi
  · rw [Virtual.present, A.entries _ hi _ hp]
    exact isPresent_mapEntry _ _

/-! ## Frames -/

/-- Bit 31 that is left over adds 2 GiB. -/
theorem toNat_frame_mapEntry (hp : Aligned p) : (frame (mapEntry e p)).toNat =
    p.toNat + if e.getLsbD 31 = true ∧ p.getLsbD 31 = false then 2 ^ 31 else 0 := by
  split
  · rename_i h
    have hlt : p.toNat < 2 ^ 31 := by
      by_contra hge
      have h31 : p.getLsbD 31 = true := by
        rw [← BitVec.msb_eq_getLsbD_last, BitVec.msb_eq_decide]
        exact decide_eq_true (not_lt.mp hge)
      rw [h.2] at h31
      cases h31
    have hf : frame (mapEntry e p) = BitVec.twoPow 32 31 ||| p := by
      apply BitVec.eq_of_getLsbD_eq
      intro i hi
      rw [getLsbD_frame_mapEntry hp hi, h.1, Bool.and_true, BitVec.getLsbD_or, BitVec.getLsbD_twoPow]
      simp [eq_comm]
    have hor := Nat.two_pow_add_eq_or_of_lt hlt 1
    rw [hf, BitVec.toNat_or, BitVec.toNat_twoPow, Nat.mod_eq_of_lt (by decide), add_comm]
    rwa [Nat.mul_one, eq_comm] at hor
  · rename_i h
    rw [(frame_mapEntry_iff hp).mpr, Nat.add_zero]
    intro he
    by_contra hn
    exact h ⟨he, Bool.not_eq_true _ ▸ hn⟩

/-- Where the bytes of the pages are. -/
theorem Gained.toNat_getPhysAddr (A : Gained s s' base virt n.toNat) (hv : Aligned virt)
    (hb : ∀ i < n.toNat, Aligned (pageAfter base i) ∧ page (pageAfter base i) = page base + i)
    (hw : virt.toNat + 4096 * n.toNat ≤ 2 ^ 32) {k : Nat} (hk : k < 4096 * n.toNat) :
    (getPhysAddr s' (virt + BitVec.ofNat 32 k)).toNat =
      4096 * page base + k + if (entryOf s (pageAfter virt (k / 4096))).getLsbD 31 = true ∧
        (pageAfter base (k / 4096)).getLsbD 31 = false then 2 ^ 31 else 0 := by
  have hi : k / 4096 < n.toNat := by omega
  obtain ⟨hal, hpage⟩ := hb _ hi
  have hp := page_byte hv hw hk
  have hva : virt.toNat % 4096 = 0 := hv
  have hF : (pageAfter base (k / 4096)).toNat = 4096 * (page base + k / 4096) := by
    have hal : (pageAfter base (k / 4096)).toNat % 4096 = 0 := hal
    rw [page] at hpage
    omega
  rw [Virtual.toNat_getPhysAddr (A.bytes hv hw hk).2, A.entries _ hi _ hp, toNat_frame_mapEntry hal,
    Mem.toNat_add_lt hk hw, hF, entryOf_congr s hp]
  omega

/-- Both of two sums, or none, have bit 31 added. -/
theorem eq_add_mod_iff {P Q : Prop} [Decidable P] [Decidable Q] {x y b k : Nat} (hx : x < 2 ^ 32)
    (ex : x = b + k + if P then 2 ^ 31 else 0) (ey : y = b + if Q then 2 ^ 31 else 0) :
    x = (y + k) % 2 ^ 32 ↔ (P ↔ Q) := by
  split at ex <;> rename_i hP <;> split at ey <;> rename_i hQ
  · exact ⟨fun _ => iff_of_true hP hQ, fun _ => by omega⟩
  · exact ⟨fun h => by omega, fun h => absurd (h.mp hP) hQ⟩
  · exact ⟨fun h => by omega, fun h => absurd (h.mpr hQ) hP⟩
  · exact ⟨fun _ => iff_of_false hP hQ, fun _ => by omega⟩

/-- A buffer at the start of its pages. -/
theorem Gained.sound_iff (S : Obtains s (NB_PAGE r.size)) (L : Layout s) (hr : r.Valid)
    (A : Gained s s' (blocksFor s (NB_PAGE r.size)) (pagesFor s (NB_PAGE r.size)) (NB_PAGE r.size).toNat) :
    Sound s' r (pagesFor s (NB_PAGE r.size)) ↔ Uniform s (NB_PAGE r.size) := by
  have hn := toNat_NB_PAGE r.size
  have hpos := hr.pos
  have hb : ∀ i < (NB_PAGE r.size).toNat, Aligned (pageAfter (blocksFor s (NB_PAGE r.size)) i) ∧
      page (pageAfter (blocksFor s (NB_PAGE r.size)) i) = page (blocksFor s (NB_PAGE r.size)) + i := fun i hi =>
    ⟨(L.allocated_blocks S.fresh S.blocks hi).1, (L.allocated_blocks S.fresh S.blocks hi).2.1⟩
  have hphys := fun k (hk : k < r.size.toNat) => A.toNat_getPhysAddr S.aligned hb S.fits (k := k) (by omega)
  have hali : (pagesFor s (NB_PAGE r.size)).toNat % r.alignment.toNat = 0 := by
    obtain ⟨k, hk, e⟩ := hr.alignment
    have hdvd : r.alignment.toNat ∣ 4096 := by
      rw [e]
      exact pow_dvd_pow 2 hk
    exact Nat.mod_eq_zero_of_dvd (hdvd.trans (Nat.dvd_of_mod_eq_zero S.aligned))
  have h0 := hphys 0 hpos
  rw [BitVec.add_zero, Nat.zero_div, Nat.add_zero] at h0
  -- the frames differ by a multiple of the page size, unless bit 31 does
  have key : ∀ k < r.size.toNat, getPhysAddr s' (pagesFor s (NB_PAGE r.size) + BitVec.ofNat 32 k) =
      getPhysAddr s' (pagesFor s (NB_PAGE r.size)) + BitVec.ofNat 32 k ↔
        (LeftOver s (NB_PAGE r.size) (k / 4096) ↔ LeftOver s (NB_PAGE r.size) 0) := by
    intro k hk
    rw [BitVec.toNat_eq, BitVec.toNat_add, BitVec.toNat_ofNat, Nat.mod_eq_of_lt (show k < 2 ^ 32 by omega)]
    exact eq_add_mod_iff (BitVec.isLt _) (hphys k hk) h0
  constructor
  · intro h i hi
    have hk : 4096 * i < r.size.toNat := by omega
    have hi' := (key _ hk).mp (h.contiguous _ hk)
    rwa [Nat.mul_div_cancel_left i (by decide)] at hi'
  · intro h
    exact ⟨hali, fun k hk => (A.bytes S.aligned S.fits (by omega)).2, fun k hk => (key k hk).mpr (h _ (by omega))⟩

theorem Gained.keep (A : Gained s s₁ base virt n.toNat) (L : Layout s') (K : KeepsPresent s₁ s') :
    Gained s s' base virt n.toNat := by
  refine ⟨L, A.keeps.trans K, A.absent, fun i hi v hv => ?_⟩
  have e := A.entries i hi v hv
  rw [K v, e]
  rw [present, e]
  exact isPresent_mapEntry _ _

end

/-! ## One call -/

section

variable {σ : Type} {C : Calls σ} {live : σ → Set Addr} {s s' : State σ}
  {size alignSize position alignment : Word} {a b p page : Addr}

/-- The first page has a block, which is in use, and no other. -/
structure Front (live : σ → Set Addr) (s : State σ) : Prop where
  first : s.firstPage ≠ 0
  firstLive : s.firstPage ∈ live s.heap
  lastBlk : (s.pages s.firstPage).lastBlk ≠ 0
  blkLive : (s.pages s.firstPage).lastBlk ∈ live s.heap
  prev : (s.blks (s.pages s.firstPage).lastBlk).prev = 0
  used : (s.blks (s.pages s.firstPage).lastBlk).free = 0

/-- The search ends at the first page, if it is the last or has no block to use again. -/
theorem search_eq (h : (s.pages page).next = 0 ∨ (s.pages page).lastBlk ≠ 0 ∧
    (s.blks (s.pages page).lastBlk).prev = 0 ∧ (s.blks (s.pages page).lastBlk).free = 0) :
    search alignment alignSize walkFuel ⟨s, page, position, size, 0⟩ = some ⟨s, page, position, size, 0⟩ := by
  rw [show walkFuel = (2 ^ 32 - 1) + 1 from rfl, search]
  by_cases hn : (s.pages page).next = 0
  · exact if_pos hn
  obtain ⟨hlast, hprev, hfree⟩ := h.resolve_left hn
  have hw : ∀ stop : BlkHeader → Bool, stop (s.blks (s.pages page).lastBlk) = false →
      s.findBlk stop (s.pages page).lastBlk = some 0 := by
    intro stop hs
    rw [State.findBlk, show walkFuel = (2 ^ 32 - 2) + 1 + 1 from rfl, walk, walk, hprev, if_neg, if_pos]
    · rfl
    · rw [decide_eq_false hlast, hs]
      decide
  simp only
  rw [if_neg hn, if_neg hlast, hw _ (by rw [hfree]; rfl)]
  rfl

/-- What `calloc` returns, and leaves. -/
structure Given (live : σ → Set Addr) (s s' : State σ) (a : Addr) : Prop where
  ne : a ≠ 0
  fresh : a ∉ live s.heap
  given : a ∈ live s'.heap
  kept : live s.heap ⊆ live s'.heap
  firstPage : s'.firstPage = s.firstPage
  pages : s'.pages = s.pages
  blks : s'.blks = s.blks
  layout : Layout s'.paging
  keeps : KeepsPresent s.paging s'.paging

theorem calloc_ok (V : Hands C live size s.heap s.paging) (h : calloc C s size = some (a, s')) :
    Given live s s' a ∧ s'.heap = (C.calloc size s.heap s.paging).2.1 ∧
      s'.paging = (C.calloc size s.heap s.paging).2.2 := by
  rw [calloc] at h
  split at h
  · cases h
  · rename_i h0
    cases h
    exact ⟨⟨h0, V.fresh, V.given, V.kept, rfl, rfl, rfl, V.layout, V.keeps⟩, rfl, rfl⟩

/-- New pages, with a header of their own. -/
structure Added (live : σ → Set Addr) (s s' : State σ) (size : Word) (a : Addr) : Prop where
  gained : Gained s.paging s'.paging (blocksFor s.paging (NB_PAGE size)) (pagesFor s.paging (NB_PAGE size))
    (NB_PAGE size).toNat
  ne : a ≠ 0
  fresh : a ∉ live s.heap
  given : a ∈ live s'.heap
  kept : live s.heap ⊆ live s'.heap
  firstPage : s'.firstPage = s.firstPage
  blks : s'.blks = s.blks
  others : ∀ x ≠ a, s'.pages x = s.pages x
  next : (s'.pages a).next = 0
  lastBlk : (s'.pages a).lastBlk = 0
  page : (s'.pages a).page = pagesFor s.paging (NB_PAGE size)
  size : (s'.pages a).size = NB_PAGE size * PAGE_SIZE

theorem newPage_ok (S : Succeeds C live s (NB_PAGE size)) (L : Layout s.paging) (hn : 1 ≤ (NB_PAGE size).toNat)
    (h : newPage C s size = some (a, s')) :
    Added live s s' size a ∧
      (s'.heap, s'.paging) = (C.calloc sizeofPageHeader s.heap (dmaAllocateNewPage s.paging (NB_PAGE size)).2).2 := by
  obtain ⟨hp, A⟩ := S.gained L hn
  obtain ⟨⟨a', t⟩, hc, h⟩ := Option.bind_eq_some_iff.mp h
  obtain ⟨V, hheap, hpaging⟩ :=
    calloc_ok (s := { s with paging := (dmaAllocateNewPage s.paging (NB_PAGE size)).2 }) S.header hc
  cases h
  have e : ((t.setPage a ⟨0, NB_PAGE size * PAGE_SIZE, 0,
      getPhysAddr t.paging (dmaAllocateNewPage s.paging (NB_PAGE size)).1,
      (dmaAllocateNewPage s.paging (NB_PAGE size)).1, 0⟩).pages a).page = pagesFor s.paging (NB_PAGE size) :=
    (congrArg PageHeader.page (if_pos rfl)).trans hp
  refine ⟨⟨A.keep V.layout V.keeps, V.ne, V.fresh, V.given, V.kept, V.firstPage, V.blks, fun x hx => ?_,
    congrArg PageHeader.next (if_pos rfl), congrArg PageHeader.lastBlk (if_pos rfl), e,
    congrArg PageHeader.size (if_pos rfl)⟩, ?_⟩
  · exact (if_neg hx).trans (congrFun V.pages x)
  · exact Prod.ext hheap hpaging

/-- A new block, at the end of a page's list. -/
structure Placed (live : σ → Set Addr) (s s' : State σ) (page : Addr) (b : Addr) : Prop where
  ne : b ≠ 0
  fresh : b ∉ live s.heap
  given : b ∈ live s'.heap
  kept : live s.heap ⊆ live s'.heap
  firstPage : s'.firstPage = s.firstPage
  pages : ∀ x, s'.pages x = if x = page then { s.pages page with lastBlk := b } else s.pages x
  others : ∀ x ≠ b, s'.blks x = s.blks x
  prev : (s'.blks b).prev = (s.pages page).lastBlk
  free : (s'.blks b).free = 0
  layout : Layout s'.paging
  keeps : KeepsPresent s.paging s'.paging

theorem newBlk_ok (V : Hands C live sizeofBlkHeader s.heap s.paging)
    (h : newBlk C s page position size alignSize = some (p, s')) :
    p = (s.pages page).page + position ∧ s'.paging = (C.calloc sizeofBlkHeader s.heap s.paging).2.2 ∧
      ∃ b, Placed live s s' page b := by
  obtain ⟨⟨b, t⟩, hc, h⟩ := Option.bind_eq_some_iff.mp h
  obtain ⟨V, -, hpaging⟩ := calloc_ok V hc
  cases h
  refine ⟨by rw [V.pages], hpaging, b, V.ne, V.fresh, V.given, V.kept, V.firstPage, fun x => ?_,
    fun x hx => ?_, ?_, ?_, V.layout, V.keeps⟩
  · rw [← V.pages]
    rfl
  · exact (if_neg hx).trans (congrFun V.blks x)
  · rw [← V.pages]
    exact congrArg BlkHeader.prev (if_pos rfl)
  · exact congrArg BlkHeader.free (if_pos rfl)

/-- The pages are as many as a block of the size needs. -/
theorem size_ne_zero (hr : 0 < size.toNat) (hr' : size.toNat ≤ 0x7FFFFFFF) : NB_PAGE size * PAGE_SIZE ≠ 0 := by
  intro e
  have h := congrArg BitVec.toNat e
  rw [BitVec.toNat_mul, toNat_NB_PAGE, show PAGE_SIZE.toNat = 4096 from rfl, show (0 : Word).toNat = 0 from rfl] at h
  omega

/-- The first block of the first page. -/
theorem Placed.front (P : Placed live s s' s.firstPage b) (h : s.firstPage ≠ 0) (hl : s.firstPage ∈ live s.heap)
    (h0 : (s.pages s.firstPage).lastBlk = 0) : Front live s' := by
  have hlast : (s'.pages s'.firstPage).lastBlk = b := by
    rw [P.firstPage, P.pages, if_pos rfl]
  refine ⟨P.firstPage ▸ h, P.firstPage ▸ P.kept hl, ?_, ?_, ?_, ?_⟩ <;> rw [hlast]
  · exact P.ne
  · exact P.given
  · rw [P.prev, h0]
  · exact P.free

/-- The block of the first page stays. -/
theorem Front.congr (F : Front live s) (hf : s'.firstPage = s.firstPage)
    (hl : (s'.pages s.firstPage).lastBlk = (s.pages s.firstPage).lastBlk)
    (hb : s'.blks (s.pages s.firstPage).lastBlk = s.blks (s.pages s.firstPage).lastBlk)
    (hk : live s.heap ⊆ live s'.heap) : Front live s' := by
  refine ⟨hf ▸ F.first, hf ▸ hk F.firstLive, ?_, ?_, ?_, ?_⟩ <;> rw [hf, hl]
  · exact F.lastBlk
  · exact hk F.blkLive
  · rw [hb, F.prev]
  · rw [hb, F.used]

/-- A block of another page. -/
theorem Placed.front_others (P : Placed live s s' page b) (F : Front live s) (h : page ≠ s.firstPage) :
    Front live s' :=
  F.congr P.firstPage (by rw [P.pages, if_neg h.symm]) (P.others _ fun e => P.fresh (e ▸ F.blkLive)) P.kept

/-- New pages, in the list after the first. -/
theorem Added.front_linked (A : Added live s s' size a) (F : Front live s) :
    Front live (s'.setPage s.firstPage { s'.pages s.firstPage with next := a }) := by
  refine F.congr A.firstPage ?_ (congrFun A.blks _) A.kept
  have hpage : s'.pages s.firstPage = s.pages s.firstPage := A.others _ fun e => A.fresh (e ▸ F.firstLive)
  have hlast := congrArg PageHeader.lastBlk hpage
  exact (congrArg PageHeader.lastBlk (if_pos rfl)).trans hlast

/-- The heap and the page tables after a call, as long as none was released. -/
def afterCall (C : Calls σ) (s : State σ) (n : Word) : σ × Paging :=
  let c := C.calloc sizeofPageHeader s.heap (dmaAllocateNewPage s.paging n).2
  (C.calloc sizeofBlkHeader c.2.1 c.2.2).2

/-- A call, as long as none was released: the buffer is at the start of new pages. -/
theorem dmaAlloc_ok {r : Request} (L : Layout s.paging) (R : s.firstPage = 0 ∨ Front live s) (hr : r.Valid)
    (S : Succeeds C live s (NB_PAGE r.size)) (h : dmaAlloc C s r.size r.alignment = some (p, s')) :
    p = pagesFor s.paging (NB_PAGE r.size) ∧ Front live s' ∧ s'.paging = (afterCall C s (NB_PAGE r.size)).2 ∧
      Gained s.paging s'.paging (blocksFor s.paging (NB_PAGE r.size)) (pagesFor s.paging (NB_PAGE r.size))
        (NB_PAGE r.size).toNat := by
  have hsize := size_ne_zero hr.pos hr.size
  have hn : 1 ≤ (NB_PAGE r.size).toNat := by
    have := toNat_NB_PAGE r.size
    have := hr.pos
    omega
  by_cases h0 : s.firstPage = 0
  · simp only [dmaAlloc, h0, if_true, bind] at h
    obtain ⟨⟨a, t⟩, ha, h⟩ := Option.bind_eq_some_iff.mp h
    obtain ⟨A, hc⟩ := newPage_ok S L hn ha
    rw [Option.bind_some, search_eq (s := { t with firstPage := a }) (.inl A.next), Option.bind_some] at h
    dsimp only at h
    have V := S.block
    rw [← hc] at V
    rw [if_neg (not_not.mpr rfl), if_neg] at h
    · obtain ⟨hp, hpaging, b, P⟩ := newBlk_ok (s := { t with firstPage := a }) V h
      refine ⟨?_, P.front A.ne A.given A.lastBlk, ?_, A.gained.keep P.layout P.keeps⟩
      · rw [hp]
        exact (BitVec.add_zero _).trans A.page
      · rw [hpaging, afterCall, ← hc]
    · rw [A.size]
      exact fun e => hsize (BitVec.le_zero_iff.mp e)
  · simp only [dmaAlloc, h0, if_false, bind] at h
    have F := R.resolve_left h0
    rw [Option.bind_some, search_eq (.inr ⟨F.lastBlk, F.prev, F.used⟩), Option.bind_some] at h
    dsimp only at h
    rw [if_neg (not_not.mpr rfl), if_pos (show _ ≤ (-1 : Word) from Nat.le_of_lt_succ (BitVec.isLt _))] at h
    obtain ⟨⟨a, t⟩, ha, h⟩ := Option.bind_eq_some_iff.mp h
    obtain ⟨A, hc⟩ := newPage_ok S L hn ha
    have V := S.block
    rw [← hc] at V
    have hne : a ≠ s.firstPage := fun e => A.fresh (e ▸ F.firstLive)
    obtain ⟨hp, hpaging, b, P⟩ := newBlk_ok (s := t.setPage s.firstPage _) V h
    have F' := A.front_linked F
    refine ⟨?_, P.front_others F' (A.firstPage ▸ hne), ?_, A.gained.keep P.layout P.keeps⟩
    · exact hp.trans ((BitVec.add_zero _).trans ((congrArg PageHeader.page (if_neg hne)).trans A.page))
    · rw [hpaging, afterCall, ← hc]
      rfl

/-- A heap that always does is lawful here, if it has memory. -/
theorem Calls.Lawful.hands {h : σ} {s : Paging} (H : C.Lawful live) (G : Guarded s)
    (h0 : (C.calloc size h s).1 ≠ 0) :
    Hands C live size h s :=
  ⟨(H.guarded size h s G).toLayout, H.keeps size h s G, H.fresh size h s h0, H.kept size h s, H.given size h s h0⟩

theorem Calls.Lawful.succeeds {n : Word} (H : C.Lawful live) (G : Guarded s.paging) (S : Obtains s.paging n)
    (hn : 1 ≤ n.toNat) (h₁ : (C.calloc sizeofPageHeader s.heap (dmaAllocateNewPage s.paging n).2).1 ≠ 0)
    (h₂ : (C.calloc sizeofBlkHeader (C.calloc sizeofPageHeader s.heap (dmaAllocateNewPage s.paging n).2).2.1
      (C.calloc sizeofPageHeader s.heap (dmaAllocateNewPage s.paging n).2).2.2).1 ≠ 0) :
    Succeeds C live s n ∧ Guarded (afterCall C s n).2 := by
  have G₁ := (S.grows G.toLayout hn).guarded G
  have G₂ := H.guarded sizeofPageHeader s.heap _ G₁
  exact ⟨⟨S, H.hands G₁ h₁, H.hands G₂ h₂⟩, H.guarded _ _ _ G₂⟩

/-- With the blocks in use marked used, the blocks are fresh. -/
theorem Obtains.of_guarded {s : Paging} {n : Word} (G : Guarded s) (hn : 1 ≤ n.toNat) (hb : blocksFor s n ≠ 0)
    (hal : Aligned (pagesFor s n)) (hfits : (pagesFor s n).toNat + 4096 * n.toNat ≤ 2 ^ 32)
    (ha : ∀ i < n.toNat, ¬ present s (pageAfter (pagesFor s n) i))
    (hm : (mapPages (searchedFor s n).2 (blocksFor s n) (pagesFor s n) n.toNat).1 = n.toNat) : Obtains s n := by
  have g := (G.toLayout.allocateBlocks_still (G.freshBlocks n)).toGrows
  have F := (g.guarded G).freshSearch n.toNat
  have g₁ := (g.layout.findFreePage_ok F hn).1
  exact ⟨hb, G.freshBlocks n, F, (g₁.guarded (g.guarded G)).freshTables _ _ _, hal, hfits, ha, hm⟩

end

/-! ## Sequences of calls -/

section

variable {σ : Type} {C : Calls σ} {live : σ → Set Addr} {s s' : State σ} {rs : List Request}
  {bufs : List (Request × Addr)}

/-- What some calls do, as long as no buffer was released. -/
structure Allocated (s s' : Paging) (bufs : List (Request × Addr)) : Prop where
  layout : Layout s'
  keeps : KeepsPresent s s'
  fits : ∀ b ∈ bufs, b.2.toNat + b.1.size.toNat ≤ 2 ^ 32
  absent : ∀ b ∈ bufs, ∀ k < b.1.size.toNat, ¬ present s (b.2 + BitVec.ofNat 32 k)
  disjoint : bufs.Pairwise fun b c => Disjoint (Mem.range b.2 b.1.size.toNat) (Mem.range c.2 c.1.size.toNat)

/-- A buffer before others, whose bytes were not present then. -/
theorem Allocated.cons {s s₁ s' : Paging} {r : Request} {p : Addr} (A : Allocated s₁ s' bufs)
    (K : KeepsPresent s s₁) (hw : p.toNat + r.size.toNat ≤ 2 ^ 32)
    (hp : ∀ k < r.size.toNat, ¬ present s (p + BitVec.ofNat 32 k) ∧ present s₁ (p + BitVec.ofNat 32 k)) :
    Allocated s s' ((r, p) :: bufs) := by
  refine ⟨A.layout, K.trans A.keeps, ?_, ?_, List.pairwise_cons.mpr ⟨fun c hc => ?_, A.disjoint⟩⟩
  · exact List.forall_mem_cons.mpr ⟨hw, A.fits⟩
  · exact List.forall_mem_cons.mpr ⟨fun k hk => (hp k hk).1, fun c hc k hk h => A.absent c hc k hk (K.present h)⟩
  · apply Set.disjoint_left.mpr
    intro x hx hx'
    obtain ⟨h1, h2⟩ := Mem.mem_range.mp hx
    obtain ⟨h3, h4⟩ := Mem.mem_range.mp hx'
    dsimp only at h1 h2
    have hcw := A.fits c hc
    -- the byte is the same in both
    have e : c.2 + BitVec.ofNat 32 (x - c.2.toNat) = p + BitVec.ofNat 32 (x - p.toNat) := by
      apply BitVec.eq_of_toNat_eq
      rw [Mem.toNat_add_lt (n := c.1.size.toNat) (by omega) hcw, Mem.toNat_add_lt (n := r.size.toNat) (by omega) hw]
      omega
    have hn := A.absent c hc (x - c.2.toNat) (by omega)
    rw [e] at hn
    exact hn (hp _ (by omega)).2

theorem eachCall_cons {P : State σ → Word → Prop} {r : Request} {t : Addr × State σ}
    (h : dmaAlloc C s r.size r.alignment = some t) :
    EachCall C P s (r :: rs) ↔ P s (NB_PAGE r.size) ∧ EachCall C P t.2 rs := by
  rw [EachCall, h]
  refine and_congr_right fun _ => ⟨fun H => H t.1 t.2 rfl, fun H p s' e => ?_⟩
  cases e
  exact H

theorem allocs_ok (L : Layout s.paging) (R : s.firstPage = 0 ∨ Front live s) (hr : ∀ r ∈ rs, r.Valid)
    (S : EachCall C (Succeeds C live) s rs) (h : dmaAllocs C s rs = some (bufs, s')) :
    Allocated s.paging s'.paging bufs ∧
      ((∀ b ∈ bufs, Sound s'.paging b.1 b.2) ↔ EachCall C (fun s n => Uniform s.paging n) s rs) := by
  induction rs generalizing s bufs with
  | nil =>
    cases h
    refine ⟨⟨L, fun v _ => rfl, ?_, ?_, List.Pairwise.nil⟩, iff_of_true ?_ trivial⟩ <;>
      exact fun b hb => absurd hb List.not_mem_nil
  | cons r rs ih =>
    obtain ⟨⟨p, s₁⟩, ha, h⟩ := Option.bind_eq_some_iff.mp h
    obtain ⟨⟨bufs', s₂⟩, hs, h⟩ := Option.bind_eq_some_iff.mp h
    cases h
    have hr₀ := hr r List.mem_cons_self
    obtain ⟨hp, F, -, A⟩ := dmaAlloc_ok L R hr₀ S.1 ha
    obtain ⟨B, hB⟩ := ih A.layout (.inr F) (fun r' h' => hr r' (List.mem_cons_of_mem r h')) (S.2 p s₁ ha) hs
    have hn := toNat_NB_PAGE r.size
    have hfits := S.1.fits
    refine ⟨B.cons A.keeps (by rw [hp]; omega) fun k hk => ?_, ?_⟩
    · rw [hp]
      exact A.bytes S.1.aligned hfits (by omega)
    rw [List.forall_mem_cons, hB, eachCall_cons ha]
    have hsound := (A.keep B.layout B.keeps).sound_iff S.1.toObtains L hr₀
    rw [← hp] at hsound
    exact and_congr_left' hsound

/-- The buffers are disjoint, aligned, mapped and contiguous if and only if the frames of the pages of
each differ from its blocks in the same way. -/
theorem dma_buffers_iff (L : Layout s.paging) (h0 : s.firstPage = 0) (hr : ∀ r ∈ rs, r.Valid)
    (S : EachCall C (Succeeds C live) s rs) (h : dmaAllocs C s rs = some (bufs, s')) :
    AllSound s'.paging bufs ↔ EachCall C (fun s n => Uniform s.paging n) s rs := by
  obtain ⟨A, hA⟩ := allocs_ok L (.inl h0) hr S h
  rw [← hA]
  exact ⟨fun H => H.sound, fun H => ⟨A.disjoint, H⟩⟩

/-- A map with blocks 64 to 69 free, a directory with one table, and the table, which is empty. -/
def someByte (x : Addr) : Byte :=
  if 0x30000 ≤ x ∧ x < 0x30024 then if x = 0x30008 then 0xC0 else 0xFF
  else if x = 0x50000 then 0x03 else if x = 0x50001 then 0x30 else if x = 0x50002 then 0x05
  else if 0x50000 ≤ x ∧ x < 0x51000 ∧ x % 4 = 0 then 0x02
  else 0

def somePaging : Paging := ⟨⟨someByte, 0x30000, 256, 250⟩, 0x50000⟩

/-- The bytes of the directory after its first entry. -/
theorem someByte_dir {x : Addr} (h : 0x50003 ≤ x.toNat) (h' : x.toNat < 0x51000) :
    someByte x = if x.toNat % 4 = 0 then 2 else 0 := by
  have hmap : ¬ (0x30000 ≤ x ∧ x < 0x30024) := fun ⟨_, hx⟩ => by
    have hx : x.toNat < 0x30024 := hx
    omega
  have hne : ∀ k : Word, k.toNat < 0x50003 → x ≠ k := fun k hk e => by
    rw [e] at h
    omega
  have hmod : x % 4 = 0 ↔ x.toNat % 4 = 0 := by
    rw [← BitVec.toNat_inj, BitVec.toNat_umod]
    rfl
  rw [someByte, if_neg hmap, if_neg (hne _ (by decide)), if_neg (hne _ (by decide)), if_neg (hne _ (by decide))]
  refine if_congr ⟨fun hx => hmod.mp hx.2.2, fun hx => ⟨?_, h', hmod.mpr hx⟩⟩ rfl rfl
  exact show 0x50000 ≤ x.toNat by omega

theorem pde_somePaging {i : Word} (hi : i.toNat < 1024) : pde somePaging i = if i = 0 then 0x53003 else 2 := by
  split
  · rename_i h0
    rw [h0]
    decide
  rename_i h0
  have hpos : i.toNat ≠ 0 := fun e => h0 (BitVec.eq_of_toNat_eq e)
  have hs : (slot 0x50000 i).toNat = 0x50000 + 4 * i.toNat := toNat_slot (by decide) hi
  have byte : ∀ k : Word, k.toNat < 4 → someByte (slot 0x50000 i + k) = if k.toNat = 0 then 2 else 0 :=
    fun k hk => by
    have e : (slot 0x50000 i + k).toNat = 0x50000 + 4 * i.toNat + k.toNat := by
      rw [BitVec.toNat_add, hs]
      omega
    rw [someByte_dir (by omega) (by omega), e]
    exact if_congr (by omega) rfl rfl
  have b0 := byte 0 (by decide)
  rw [show slot 0x50000 i + 0 = slot 0x50000 i from BitVec.add_zero _] at b0
  show someByte (slot 0x50000 i + 3) ++ someByte (slot 0x50000 i + 2) ++ someByte (slot 0x50000 i + 1) ++
    someByte (slot 0x50000 i) = (2 : Word)
  rw [byte 3 (by decide), byte 2 (by decide), byte 1 (by decide), b0]
  decide

theorem isPresent_somePaging {i : Word} (hi : i.toNat < 1024) (h : isPresent (pde somePaging i)) : i = 0 := by
  by_contra h0
  rw [pde_somePaging hi, if_neg h0] at h
  exact absurd h (by decide)

theorem held_somePaging {c : Word} (h : 80 ≤ c.toNat ∧ c.toNat < 84) : Held somePaging.phys c := by
  have hb : ∀ k : Fin 4, bit somePaging.phys (BitVec.ofNat 32 (80 + k)) = true := by decide
  have hb := hb ⟨c.toNat - 80, by omega⟩
  rw [show 80 + (c.toNat - 80) = c.toNat by omega, BitVec.ofNat_toNat, BitVec.setWidth_eq] at hb
  have hlt : c.toNat < 256 := by omega
  refine ⟨⟨by omega, hlt, fun hm => ?_⟩, hb⟩
  rw [inMap_block48 rfl rfl hm] at h
  exact absurd h (by decide)

theorem guarded_somePaging : Guarded somePaging := by
  have h0 : frame (pde somePaging 0) = 0x53000 := by decide
  have hdir : ∀ c, InDir somePaging c → 80 ≤ c.toNat ∧ c.toNat < 83 := by
    intro c hc
    have hc : (c - 80).toNat < 3 := hc
    rw [BitVec.toNat_sub, show (80 : Word).toNat = 80 from rfl] at hc
    omega
  have htable : ∀ c, InTable somePaging c → c = 83 := by
    rintro c ⟨i, hi, hp, rfl⟩
    rw [isPresent_somePaging hi hp, h0]
    decide
  have hprot : Protected somePaging.phys := .of_block48 rfl rfl (by decide) (by decide)
  refine ⟨⟨⟨by decide, fun i hi hp => ?_, fun i j hi hj hp hp' _ => ?_, fun i hi hp => ?_⟩, hprot.map,
    hprot.maxBlocks,
    hprot.notZero, fun c hc => (held_somePaging ?_).toUsable,
    fun c hc => ⟨(held_somePaging ?_).toUsable, fun hd => ?_⟩⟩,
    hprot, fun c hc => (held_somePaging ?_).used, fun c hc => (held_somePaging ?_).used⟩
  · rw [isPresent_somePaging hi hp, h0]
    decide
  · rw [isPresent_somePaging hi hp, isPresent_somePaging hj hp']
  · rw [pde_somePaging hi]
    refine if_neg fun e => hp ?_
    rw [e, pde_somePaging (by decide)]
    decide
  · have := hdir c hc
    omega
  · rw [htable c hc]
    decide
  · rw [htable c hc] at hd
    exact absurd (hdir _ hd) (by decide)
  · have := hdir c hc
    omega
  · rw [htable c hc]
    decide

theorem spare_somePaging : Spare somePaging 0x5A := by
  refine ⟨⟨⟨by decide, by decide, fun h => ?_⟩, by decide⟩, fun h => ?_, ?_⟩
  · exact absurd (inMap_block48 rfl rfl h) (by decide)
  · exact absurd (show ((0x5A : Word) - 0x50).toNat < 3 from h) (by decide)
  · rintro ⟨i, hi, h, e⟩
    rw [isPresent_somePaging hi h] at e
    exact absurd e (by decide)

/-- A heap that hands out one block after the other, in pages mapped before. -/
def someCalls : Calls Nat where
  calloc _ n s := if n < 2 ^ 22 then (BitVec.ofNat 32 (0xF0000000 + 32 * (n + 1)), n + 1, s) else (0, n, s)
  free _ n s := (n, s)

def someState : State Nat := ⟨somePaging, 0, 0, fun _ => ⟨0, 0, 0, 0, 0, 0⟩, fun _ => ⟨0, 0, 0, 0, 0⟩⟩

theorem calloc_someCalls (size : Word) (n : Nat) (s : Paging) : someCalls.calloc size n s = (0, n, s) ∨
    ∃ a : Addr, a.toNat = 0xF0000000 + 32 * (n + 1) ∧ someCalls.calloc size n s = (a, n + 1, s) := by
  by_cases hn : n < 2 ^ 22
  · refine .inr ⟨BitVec.ofNat 32 (0xF0000000 + 32 * (n + 1)), ?_, if_pos hn⟩
    rw [BitVec.toNat_ofNat]
    omega
  · exact .inl (if_neg hn)

theorem lawful_someCalls : someCalls.Lawful fun n => {a | a.toNat ≤ 0xF0000000 + 32 * n} := by
  refine ⟨fun size n s G => ?_, fun size n s _ => ?_, fun size n s h0 => ?_, fun size n s => ?_,
    fun size n s h0 => ?_⟩ <;> obtain e | ⟨a, ha, e⟩ := calloc_someCalls size n s
  · rwa [e]
  · rwa [e]
  · rw [e]
    exact fun _ _ => rfl
  · rw [e]
    exact fun _ _ => rfl
  · exact absurd (by rw [e]) h0
  · rw [e]
    show ¬ a.toNat ≤ _
    omega
  · rw [e]
  · rw [e]
    intro x (hx : x.toNat ≤ _)
    show x.toNat ≤ 0xF0000000 + 32 * (n + 1)
    omega
  · exact absurd (by rw [e]) h0
  · rw [e]
    exact ha.le

def someAlloc (s : State Nat) (r : Request) : Addr × State Nat :=
  (dmaAlloc someCalls s r.size r.alignment).getD (0, s)

theorem dmaAlloc_some {s : State Nat} {r : Request} (h : (dmaAlloc someCalls s r.size r.alignment).isSome) :
    dmaAlloc someCalls s r.size r.alignment = some (someAlloc s r) := by
  obtain ⟨t, e⟩ := Option.isSome_iff_exists.mp h
  rw [someAlloc, e, Option.getD_some]

def twoPages : Request := ⟨8192, 4096⟩
def somePart : Request := ⟨100, 16⟩

theorem valid_twoPages : twoPages.Valid := ⟨by decide, by decide, 12, by decide, rfl⟩
theorem valid_somePart : somePart.Valid := ⟨by decide, by decide, 4, by decide, rfl⟩

theorem obtains_twoPages : Obtains somePaging (NB_PAGE twoPages.size) :=
  .of_guarded guarded_somePaging (by decide) (by decide) (by decide) (by decide) (by decide) (by decide)

theorem dma_buffers_twoPages : ∃ bufs s', dmaAllocs someCalls someState [twoPages, somePart] = some (bufs, s') ∧
    AllSound s'.paging bufs := by
  have e₁ := dmaAlloc_some (s := someState) (r := twoPages) (by decide)
  have e₂ := dmaAlloc_some (s := (someAlloc someState twoPages).2) (r := somePart) (by decide)
  obtain ⟨S₁, G₁⟩ := lawful_someCalls.succeeds (s := someState) guarded_somePaging obtains_twoPages (by decide)
    (by decide) (by decide)
  obtain ⟨-, -, hpaging, -⟩ := dmaAlloc_ok guarded_somePaging.toLayout (.inl rfl) valid_twoPages S₁ e₁
  rw [← hpaging] at G₁
  have O₂ : Obtains (someAlloc someState twoPages).2.paging (NB_PAGE somePart.size) :=
    .of_guarded G₁ (by decide) (by decide) (by decide) (by decide) (by decide) (by decide)
  obtain ⟨S₂, -⟩ := lawful_someCalls.succeeds G₁ O₂ (by decide) (by decide) (by decide)
  have S : EachCall someCalls (Succeeds someCalls _) someState [twoPages, somePart] :=
    (eachCall_cons e₁).mpr ⟨S₁, (eachCall_cons e₂).mpr ⟨S₂, trivial⟩⟩
  have U : EachCall someCalls (fun s n => Uniform s.paging n) someState [twoPages, somePart] :=
    (eachCall_cons e₁).mpr ⟨by decide, (eachCall_cons e₂).mpr ⟨by decide, trivial⟩⟩
  have h : (dmaAllocs someCalls someState [twoPages, somePart]).isSome := by decide
  obtain ⟨⟨bufs, s'⟩, h⟩ := Option.isSome_iff_exists.mp h
  have hr : ∀ r ∈ [twoPages, somePart], r.Valid :=
    List.forall_mem_cons.mpr ⟨valid_twoPages, List.forall_mem_singleton.mpr valid_somePart⟩
  exact ⟨bufs, s', h, (dma_buffers_iff guarded_somePaging.toLayout rfl hr S h).mpr U⟩

def usedPaging : Paging := unmapPage (mapPage somePaging 0x80000000 0x2000).2 0x2000
def usedState : State Nat := { someState with paging := usedPaging }

theorem guarded_usedPaging : Guarded usedPaging := by
  have g := guarded_somePaging.mapPage_ok 0x80000000 0x2000
  exact (g.trans ((g.layout.unmapPage_ok 0x2000).grows g.layout)).guarded guarded_somePaging

/-- Two pages, the second of which was mapped to a frame from 2 GiB on before: it is not next to the first. -/
theorem dma_buffers_not_contiguous : ¬ ∀ (σ : Type) (C : Calls σ) (live : σ → Set Addr) (s s' : State σ)
    (rs : List Request) (bufs : List (Request × Addr)), C.Lawful live → Guarded s.paging → s.firstPage = 0 →
      (∀ r ∈ rs, r.Valid) → EachCall C (Succeeds C live) s rs → dmaAllocs C s rs = some (bufs, s') →
        AllSound s'.paging bufs := by
  intro H
  have e := dmaAlloc_some (s := usedState) (r := twoPages) (by decide)
  have O : Obtains usedPaging (NB_PAGE twoPages.size) :=
    .of_guarded guarded_usedPaging (by decide) (by decide) (by decide) (by decide) (by decide) (by decide)
  obtain ⟨S, -⟩ := lawful_someCalls.succeeds
    (s := usedState) guarded_usedPaging O (by decide) (by decide) (by decide)
  have hs : dmaAllocs someCalls usedState [twoPages] =
      some ([(twoPages, (someAlloc usedState twoPages).1)], (someAlloc usedState twoPages).2) := by
    rw [dmaAllocs, e]
    rfl
  have A := H Nat someCalls _ usedState _ [twoPages] _ lawful_someCalls guarded_usedPaging rfl
    (List.forall_mem_singleton.mpr valid_twoPages) ((eachCall_cons e).mpr ⟨S, trivial⟩) hs
  have hc := (A.sound _ List.mem_cons_self).contiguous 4096 (by decide)
  exact absurd hc (by decide)

end

end AlexOS.Dma
