import AlexOS.Virtual.Boot

/-!
# The page tables stay reserved

Calls of the virtual memory manager, and of the functions that allocate ranges
of pages, after boot. All but one keep the blocks of the directory and of the
tables marked used: `deallocate_page` releases as many blocks as the range has
pages, from the block that holds the *entry* of the first page on. Runs in
which such calls are `Harmless` are guarded throughout (`Guarded.run`,
`tables_reserved`).
-/

namespace AlexOS.Virtual

open Physical

section

variable {s : Paging} {phys : Phys} {c n v : Word} {a : Addr}

/-! ## The calls on ranges of pages -/

/-- Releasing blocks below `max_blocks` does not write to the directory. -/
theorem Layout.sameDir_freeBlocks (L : Layout s)
    (h : ∀ c, InRun (blockOf a) n.toNat c → c ≤ s.phys.maxBlocks) :
    SameDir s { s with phys := freeBlocks s.phys a n } := by
  have hd := (L.dirUsable _ (inDir_self s)).notInMap
  refine ⟨rfl, fun i hi => load_freeBlocks L.map (slot_aligned L.dir hi) ?_ fun b hb => ?_⟩
  · exact page_ne_of_inMap hd (Nat.zero_le _) (page_slot L.dir hi)
  · exact page_ne_of_inMap hd (h b hb) (page_slot L.dir hi)

theorem Layout.freeBlocks_ok (L : Layout s)
    (h : ∀ c, InRun (blockOf a) n.toNat c → c ≤ s.phys.maxBlocks) :
    Layout { s with phys := freeBlocks s.phys a n } :=
  (L.sameDir_freeBlocks h).layout L (same_freeBlocks s.phys a n)

/-- Blocks that are not released are as before, and so is block 0 if it was used. -/
theorem bit_freeBlocks_kept (h : InRun (blockOf a) n.toNat c → c = 0) (hb : bit phys c) :
    bit (freeBlocks phys a n) c := by
  rw [bit_freeBlocks, hb, Bool.and_true, Bool.or_eq_true, decide_eq_true_iff]
  by_cases hr : InRun (blockOf a) n.toNat c
  · exact .inl (h hr)
  · have hr : ¬ InRun (a / BLOCK_SIZE) n.toNat c := hr
    exact .inr (by rw [decide_eq_false hr]; rfl)

/-- Blocks that nothing needs are released. -/
theorem Guarded.freeBlocks_ok (G : Guarded s)
    (h : ∀ c, InRun (blockOf a) n.toNat c → c ≠ 0 → c < s.phys.maxBlocks ∧ ¬ InMap s.phys c ∧
      ¬ InDir s c ∧ ¬ InTable s c) :
    Guarded { s with phys := freeBlocks s.phys a n } := by
  have P := G.prot
  have S := same_freeBlocks s.phys a n
  have hle : ∀ b, InRun (blockOf a) n.toNat b → b ≤ s.phys.maxBlocks := fun b hb => by
    by_cases h0 : b = 0
    · rw [h0]
      exact Nat.zero_le _
    · exact BitVec.le_of_lt (h b hb h0).1
  have D := G.sameDir_freeBlocks hle
  refine ⟨G.toLayout.freeBlocks_ok hle, ⟨S.memoryMap ▸ P.map, S.maxBlocks ▸ P.maxBlocks, ?_,
    fun c hc hm => ?_, fun hm => P.notZero ((inMap_same S).mp hm)⟩, fun c hc => ?_, fun c hc => ?_⟩
  · refine S.maxBlocks ▸ bit_freeBlocks_kept (fun hr => ?_) P.last
    by_contra h0
    exact absurd (h _ hr h0).1 (BitVec.lt_irrefl _)
  · have hm := (inMap_same S).mp hm
    refine bit_freeBlocks_kept (fun hr => ?_) (P.own c (S.maxBlocks ▸ hc) hm)
    by_contra h0
    exact (h c hr h0).2.1 hm
  · refine bit_freeBlocks_kept (fun hr => ?_) (G.dirUsed c hc)
    by_contra h0
    exact (h c hr h0).2.2.1 hc
  · have hc := D.inTable hc
    refine bit_freeBlocks_kept (fun hr => ?_) (G.tableUsed c hc)
    by_contra h0
    exact (h c hr h0).2.2.2 hc

/-- Blocks that were free are released. -/
theorem Grows.freeBlocks {s' : Paging} (g : Grows s s')
    (h : ∀ c, InRun (blockOf a) n.toNat c → bit s.phys c = false ∧ Spare s' c) :
    Grows s { s' with phys := Physical.freeBlocks s'.phys a n } := by
  have hle : ∀ c, InRun (blockOf a) n.toNat c → c ≤ s'.phys.maxBlocks := fun c hc =>
    BitVec.le_of_lt (h c hc).2.below
  have D := g.layout.sameDir_freeBlocks hle
  refine ⟨g.layout.freeBlocks_ok hle, g.dir, g.same.trans (same_freeBlocks _ _ _), fun c hc hb => ?_,
    fun c hc => ?_⟩
  · refine bit_freeBlocks_kept (fun hr => ?_) (g.used c hc hb)
    exact absurd hb (Bool.eq_false_iff.mp (h c hr).1)
  · have hc := D.inTable hc
    refine (g.tables c hc).imp_right fun hnew => ⟨hnew.1, ?_⟩
    exact bit_freeBlocks_kept (fun hr => absurd hc (h c hr).2.notInTable) hnew.2

/-- What happens in `allocate_new_page` up to the release after a failure. -/
theorem Layout.allocateNewPage_mapped {address nbPage : Word} (L : Layout s)
    (F : FreshAllocation s address nbPage) (h : (allocateBlocks s.phys nbPage).1 ≠ 0) :
    Grows s (mapPages { s with phys := (allocateBlocks s.phys nbPage).2 }
      (allocateBlocks s.phys nbPage).1 address nbPage.toNat).2 ∧
    ∀ c, InRun (blockOf (allocateBlocks s.phys nbPage).1) nbPage.toNat c → bit s.phys c = false ∧
      Spare (mapPages { s with phys := (allocateBlocks s.phys nbPage).2 }
        (allocateBlocks s.phys nbPage).1 address nbPage.toNat).2 c := by
  obtain ⟨Q, hrun⟩ := L.allocateBlocks_ok F.blocks
  have g := Q.grows L
  have g' := g.layout.mapPages_ok (F.tables h)
  exact ⟨g.trans g', fun c hc => ⟨((hrun h).2 c hc).1, g'.spare ((hrun h).2 c hc).2⟩⟩

/-- Whether it maps the range or gives it back. -/
theorem Layout.allocateNewPage_ok {address nbPage : Word} (L : Layout s)
    (F : FreshAllocation s address nbPage) : Grows s (allocateNewPage s address nbPage).2 := by
  simp only [allocateNewPage]
  split
  · exact (L.allocateBlocks_ok F.blocks).1.grows L
  rename_i h0
  obtain ⟨g, hrun⟩ := L.allocateNewPage_mapped F h0
  split
  · exact g
  · have g' := g.freeBlocks hrun
    exact g'.trans (g'.layout.unmapPages_ok address _)

theorem Guarded.allocateNewPage_ok (G : Guarded s) (address nbPage : Word) :
    Grows s (allocateNewPage s address nbPage).2 :=
  G.toLayout.allocateNewPage_ok (G.freshAllocation address nbPage)

/-- What `deallocate_page` releases: the range's number of blocks, from the block that
holds the entry of its first page on. Nothing needs them, except for block 0, which is
marked used again. -/
def Harmless (s : Paging) (address nbPage : Word) : Prop :=
  ∀ c, InRun (blockOf (getPage s address)) nbPage.toNat c → c ≠ 0 →
    c < s.phys.maxBlocks ∧ ¬ InMap s.phys c ∧ ¬ InDir s c ∧ ¬ InTable s c

theorem Guarded.deallocatePage_ok (G : Guarded s) {address nbPage : Word}
    (h : Harmless s address nbPage) : Guarded (deallocatePage s address nbPage) :=
  ((G.freeBlocks_ok h).toLayout.unmapPages_ok address nbPage.toNat).guarded (G.freeBlocks_ok h)

theorem Guarded.mmap_ok (G : Guarded s) (address len : Word) : Guarded (mmap s address len).2 := by
  rw [mmap]
  generalize hf : (if address = 0 then findFreePage s 1 else (address, s)) = f
  have G' : Guarded f.2 := by
    rw [← hf]
    split
    · exact (G.findFreePage_ok 1).guarded G
    · exact G
  split
  · exact G'
  · exact (G'.allocateNewPage_ok _ _).guarded G'

/-! ## Runs -/

inductive Call
  | mapPage (physicalAddress virtualAddress : Word)
  | unmapPage (virtualAddress : Word)
  | findFreePage (nbPage : Word)
  | allocateNewPage (address nbPage : Word)
  | deallocatePage (address nbPage : Word)
  | mmap (address len : Word)
  | munmap (address len : Word)

/-- A range of pages that a call returned. -/
structure PageRange where
  address : Word
  nbPage : Word
deriving DecidableEq

/-- The state after a call, and the ranges that are live then. -/
def Call.exec (s : Paging) (live : List PageRange) : Call → Paging × List PageRange
  | .mapPage p v => ((Virtual.mapPage s p v).2, live)
  | .unmapPage v => (Virtual.unmapPage s v, live)
  | .findFreePage n => ((Virtual.findFreePage s n).2, live)
  | .allocateNewPage a n =>
    let r := Virtual.allocateNewPage s a n
    (r.2, if r.1 = 0 then live else ⟨r.1, n⟩ :: live)
  | .deallocatePage a n => (Virtual.deallocatePage s a n, live.erase ⟨a, n⟩)
  | .mmap a len =>
    let r := Virtual.mmap s a len
    (r.2, if r.1 = 0 then live else ⟨r.1, NB_PAGE len⟩ :: live)
  | .munmap a len => (Virtual.munmap s a len, live.erase ⟨a, NB_PAGE len⟩)

/-- The range that a call releases. -/
def Call.released : Call → Option PageRange
  | .deallocatePage a n => some ⟨a, n⟩
  | .munmap a len => some ⟨a, NB_PAGE len⟩
  | _ => none

/-- Runs of calls that release live ranges only, and only in states in which `ok` holds. -/
inductive Run (ok : Paging → PageRange → Prop) (s₀ : Paging) : Paging → List PageRange → Prop
  | init : Run ok s₀ s₀ []
  | step {s : Paging} {live : List PageRange} (r : Run ok s₀ s live) (call : Call)
      (hlive : ∀ x ∈ call.released, x ∈ live) (hok : ∀ x ∈ call.released, ok s x) :
      Run ok s₀ (call.exec s live).1 (call.exec s live).2

theorem Guarded.call (G : Guarded s) (live : List PageRange) (call : Call)
    (h : ∀ x ∈ call.released, Harmless s x.address x.nbPage) : Guarded (call.exec s live).1 := by
  cases call with
  | mapPage p v => exact (G.mapPage_ok p v).guarded G
  | unmapPage v => exact ((G.toLayout.unmapPage_ok v).grows G.toLayout).guarded G
  | findFreePage n => exact (G.findFreePage_ok n).guarded G
  | allocateNewPage a n => exact (G.allocateNewPage_ok a n).guarded G
  | deallocatePage a n =>
    have hn : Harmless s a n := h ⟨a, n⟩ rfl
    exact G.deallocatePage_ok hn
  | mmap a len => exact G.mmap_ok a len
  | munmap a len =>
    have hn : Harmless s a (NB_PAGE len) := h ⟨a, NB_PAGE len⟩ rfl
    exact G.deallocatePage_ok hn

theorem Guarded.run {s₀ : Paging} {live : List PageRange} (G : Guarded s₀)
    (r : Run (fun s x => Harmless s x.address x.nbPage) s₀ s live) : Guarded s := by
  induction r with
  | init => exact G
  | step r call _ hok ih => exact ih.call _ call hok

/-- The blocks of the directory and of the tables that it refers to are marked used. -/
def TablesUsed (s : Paging) : Prop :=
  bit s.phys (blockOf s.currentPageDir) ∧ ∀ c, InTable s c → bit s.phys c

theorem Guarded.tablesUsed (G : Guarded s) : TablesUsed s := ⟨G.dirUsed _ (inDir_self s), G.tableUsed⟩

/-- If the bitmap protects itself before boot, and each call that releases a range is harmless,
the page tables are marked used in every state, and no allocation contains one. -/
theorem tables_reserved {phys : Phys} {k : Word} {s₀ : Paging} {live : List PageRange}
    (P : Protected phys) (h : initVirtualMemoryManager phys k = (true, s₀))
    (r : Run (fun s x => Harmless s x.address x.nbPage) s₀ s live) :
    TablesUsed s ∧ ∀ n c, Taken (allocateBlocks s.phys n).1 n c →
      c ≠ blockOf s.currentPageDir ∧ ¬ InTable s c := by
  have G := (init_ok P h).1.run r
  refine ⟨G.tablesUsed, fun n c hc => ?_⟩
  obtain ⟨hd, ht⟩ := (G.freshBlocks n).notInUse c hc
  exact ⟨fun e => hd (e ▸ inDir_self s), ht⟩

theorem live_allocateNewPage {address n : Word} (live : List PageRange) (h : address ≠ 0)
    (e : (allocateNewPage s address n).1 = address) :
    (Call.exec s live (.allocateNewPage address n)).2 = ⟨address, n⟩ :: live := by
  have h' : (allocateNewPage s address n).1 ≠ 0 := by rwa [e]
  exact (if_neg h').trans (by rw [e])

theorem live_mmap {address : Word} (h : address ≠ 0) (s : Paging) (live : List PageRange) (len : Word) :
    (Call.exec s live (.mmap address len)).2 = ⟨address, NB_PAGE len⟩ :: live := by
  have e : (mmap s address len).1 = address := by rw [mmap, if_neg h, if_neg h]
  have h' : (mmap s address len).1 ≠ 0 := by rwa [e]
  exact (if_neg h').trans (by rw [e])

/-- `map_page` for the first page of a new table. -/
theorem Layout.mapPage_newTable (L : Layout s) (F : FreshBlocks s 1) (h : (allocateBlocks s.phys 1).1 ≠ 0)
    (hp : ¬ isPresent (pde s (PD_INDEX v))) (p : Word) :
    InTable (mapPage s p v).2 (blockOf (allocateBlocks s.phys 1).1) ∧
      (∀ i : Word, i.toNat < 1024 → i ≠ PD_INDEX v → pde (mapPage s p v).2 i = pde s i) ∧
      ∀ c, c ≤ s.phys.maxBlocks → bit (mapPage s p v).2.phys c = bit (allocateBlocks s.phys 1).2 c := by
  obtain ⟨Q, -, hs⟩ := L.cleared_ok F h
  have L₁ := (Q.grows L).layout
  have hp₁ : ¬ isPresent (pde (cleared s) (PD_INDEX v)) := by rwa [Q.pde _ (PD_INDEX_lt v)]
  have hal := aligned_allocateBlocks s.phys 1
  have hn : ¬ InUse (cleared s) (allocateBlocks s.phys 1).1 := by
    rintro (e | ⟨j, hj, hpj, e⟩)
    · exact hs.notInDir (e ▸ inDir_self (cleared s))
    · exact hs.notInTable ⟨j, hj, hpj, congrArg blockOf e⟩
  have A := L₁.toTables.addEntry_ok hal hn (PD_INDEX_lt v) hp₁
  obtain ⟨L₂, -, hbit⟩ := L₁.addEntry_ok hal hs (PD_INDEX_lt v) hp₁
  have W := L₂.writePage_ok p v
  rw [mapPage_of_newTable hp h]
  refine ⟨⟨PD_INDEX v, PD_INDEX_lt v, ?_, ?_⟩, fun i hi hne => ?_, fun c hc => ?_⟩
  · rw [W.pde _ (PD_INDEX_lt v)]
    exact A.present_self
  · rw [W.pde _ (PD_INDEX_lt v), A.frame_self]
  · rw [W.pde i hi, A.pde_other i hi hne, Q.pde i hi]
  · have hw := W.bits c (Q.same.maxBlocks ▸ hc)
    have hq := Q.bits c hc
    rw [NoBlock, false_or] at hw hq
    rw [Bool.eq_iff_iff, hw, hbit c (Q.same.maxBlocks ▸ hc), hq, (L.heldRun F).bits]

theorem unmapPages_one (s : Paging) (address : Addr) : unmapPages s address 1 = unmapPage s address := by
  rw [unmapPages, unmapPages, pageAfter_zero]

/-- The last free block is that of a table. -/
theorem lastTable_somePhys : ∃ s₀ s₁, initVirtualMemoryManager somePhys 0x100000 = (true, s₀) ∧
    Guarded s₁ ∧ s₁ = (mapPage s₀ 0x5000 0x40000000).2 ∧ ¬ InTable s₀ 160 ∧ InTable s₁ 160 ∧
      allocateBlocks s₁.phys 1 = (0, s₁.phys) ∧ ¬ isPresent (pde s₁ (PD_INDEX 0x80000000)) := by
  obtain ⟨s₀, h, F, L⟩ := boot_somePhys
  have G := (init_ok protected_somePhys h).1
  obtain ⟨e, L₁⟩ := L.allocate [] G.prot 5 1 (by decide) (by decide) (by decide) (by simp)
    (by decide) (by decide)
  have hne : (allocateBlocks s₀.phys 1).1 ≠ 0 := by
    rw [e]
    decide
  have habsent : ∀ i : Word, i.toNat < 1024 → i ≠ 0 → i ≠ 768 → ¬ isPresent (pde s₀ i) :=
    fun i hi h0 h768 => absent_init F h hi h0 h768
  obtain ⟨htable, hpde, hbit⟩ := G.toLayout.mapPage_newTable (G.freshBlocks 1) hne (v := 0x40000000)
    (habsent _ (by decide) (by decide) (by decide)) 0x5000
  have g := G.mapPage_ok 0x5000 0x40000000
  have G₁ := g.guarded G
  rw [e] at htable
  refine ⟨s₀, _, h, G₁, rfl, fun ht => ?_, htable, ?_, ?_⟩
  · exact absurd (G.tableUsed _ ht) (by rw [L.bits 160 (by decide)]; simp)
  · refine G₁.prot.allocateBlocks_none (fun c hc => ?_) 1
    rw [g.same.maxBlocks] at hc
    rw [hbit c (BitVec.le_of_lt hc)]
    exact (L₁.bits c (L.maxBlocks ▸ BitVec.le_of_lt hc)).mpr List.not_mem_nil
  · rw [hpde _ (by decide) (by decide)]
    exact habsent _ (by decide) (by decide) (by decide)

/-- So `mmap` returns an address at which nothing is mapped. It is given back, which is harmless as there is no
table for it. -/
theorem tables_reserved_somePhys : ∃ s₀ s, initVirtualMemoryManager somePhys 0x100000 = (true, s₀) ∧
    Run (fun s x => Harmless s x.address x.nbPage) s₀ s [] ∧ ¬ InTable s₀ 160 ∧ InTable s 160 ∧
    TablesUsed s := by
  obtain ⟨s₀, s₁, h, G₁, hs₁, hbefore, htable, hnull, hp⟩ := lastTable_somePhys
  have hmap : (Call.exec s₁ [] (.mmap 0x80000000 0x1000)).1 = s₁ := by
    have h1 : NB_PAGE 0x1000 = 1 := by decide
    show (mmap s₁ 0x80000000 0x1000).2 = s₁
    rw [mmap, if_neg (show (0x80000000 : Word) ≠ 0 by decide), if_neg (show (0x80000000 : Word) ≠ 0 by decide),
      h1, allocateNewPage, hnull]
    rfl
  have hblock : blockOf (getPage s₁ 0x80000000) = 0 := by
    rw [getPage_eq, blockOf_slot (aligned_frame _) (PT_INDEX_lt _), G₁.absent _ (by decide) hp]
    rfl
  have hzero : ∀ c, InRun (blockOf (getPage s₁ 0x80000000)) (1 : Word).toNat c → c = 0 := fun c hc => by
    rw [hblock] at hc
    exact sub_eq_zero.mp (BitVec.eq_of_toNat_eq (Nat.lt_one_iff.mp hc))
  have hharm : Harmless s₁ 0x80000000 1 := fun c hc h0 => absurd (hzero c hc) h0
  have r := (@Run.init (fun s x => Harmless s x.address x.nbPage) s₀).step
    (.mapPage 0x5000 0x40000000) (by simp [Call.released]) (by simp [Call.released])
  have r := r.step (.mmap 0x80000000 0x1000) (by simp [Call.released]) (by simp [Call.released])
  have hexec : Call.exec s₀ [] (.mapPage 0x5000 0x40000000) = (s₁, []) := by
    rw [hs₁]
    rfl
  rw [hexec, live_mmap (by decide), hmap] at r
  have r := r.step (.munmap 0x80000000 0x1000) (by simp [Call.released, NB_PAGE]) (by
    rintro x ⟨⟩
    exact hharm)
  have hnil : [(⟨0x80000000, NB_PAGE 0x1000⟩ : PageRange)].erase ⟨0x80000000, NB_PAGE 0x1000⟩ = [] := by decide
  rw [show ∀ s live, (Call.exec s live (.munmap 0x80000000 0x1000)).2 = live.erase ⟨0x80000000, NB_PAGE 0x1000⟩
    from fun _ _ => rfl, hnil] at r
  refine ⟨s₀, _, h, r, hbefore, ?_, (tables_reserved protected_somePhys h r).1⟩
  have D := G₁.sameDir_freeBlocks (a := getPage s₁ 0x80000000) (n := 1) fun c hc => by
    rw [hzero c hc]
    exact Nat.zero_le _
  have L₂ := D.layout G₁.toLayout (same_freeBlocks _ _ _)
  have Q := L₂.unmapPage_ok 0x80000000
  obtain ⟨i, hi, hp, hi'⟩ := htable
  show InTable (unmapPages { s₁ with phys := freeBlocks s₁.phys (getPage s₁ 0x80000000) 1 } 0x80000000 1) 160
  rw [unmapPages_one]
  refine ⟨i, hi, ?_, ?_⟩
  · rwa [Q.pde i hi, D.pde i hi]
  · rw [Q.pde i hi, D.pde i hi]
    exact hi'

/-- A write to a page's entry, after a release. -/
theorem Layout.store_other (L : Layout s) {s₁ : Paging} (D : SameDir s s₁) (S : Same s.phys s₁.phys)
    (a : Addr) (w : Word) :
    (∀ i : Word, i.toNat < 1024 →
      pde (s₁.withMem (s₁.mem.store32 (getPage s a) w)) i = pde s i) ∧
    ∀ c, c ≤ s.phys.maxBlocks →
      bit (s₁.withMem (s₁.mem.store32 (getPage s a) w)).phys c = bit s₁.phys c := by
  obtain ⟨ha, hm, hd⟩ := L.getPage_ok a
  have hmap : s₁.phys.memoryMap.toNat % 4 = 0 := S.memoryMap ▸ L.map
  have hd₁ : Aligned s₁.currentPageDir := D.dir ▸ L.dir
  refine ⟨fun i hi => Eq.trans ?_ (D.pde i hi), fun c hc => bit_congr ?_⟩
  · refine Mem.load32_store32_of_ne ha (slot_aligned hd₁ hi) fun e => hd ?_
    have e : getPage s a = slot s₁.currentPageDir i := e
    rw [e, page_slot hd₁ hi, D.dir]
  · refine Mem.load32_store32_of_ne ha (wordAt_aligned hmap _) fun e => hm ⟨c, hc, ?_⟩
    have e : getPage s a = wordAt s₁.phys.memoryMap c := e
    rw [e, S.memoryMap]

/-- Where a page has a table, giving it back releases the table. -/
theorem Guarded.deallocatePage_one (G : Guarded s) (hp : isPresent (pde s (PD_INDEX a))) :
    ¬ TablesUsed (deallocatePage s a 1) := by
  have hpt := PT_INDEX_lt a
  have hin : InTable s (blockOf (frame (pde s (PD_INDEX a)))) := ⟨_, PD_INDEX_lt a, hp, rfl⟩
  obtain ⟨hh, -⟩ := G.tableUsable _ hin
  have hblock : blockOf (getPage s a) = blockOf (frame (pde s (PD_INDEX a))) :=
    blockOf_slot (aligned_frame _) hpt
  have hle : blockOf (getPage s a) ≤ s.phys.maxBlocks := hblock ▸ BitVec.le_of_lt hh.below
  have hrun : ∀ c, InRun (blockOf (getPage s a)) (1 : Word).toNat c → c = blockOf (getPage s a) := by
    intro c hc
    exact sub_eq_zero.mp (BitVec.eq_of_toNat_eq (Nat.lt_one_iff.mp hc))
  -- the state between the release and the write to the page's entry
  obtain ⟨s₁, hs₁⟩ : ∃ s₁, s₁ = { s with phys := freeBlocks s.phys (getPage s a) 1 } := ⟨_, rfl⟩
  have S : Same s.phys s₁.phys := hs₁ ▸ same_freeBlocks _ _ _
  have D : SameDir s s₁ := hs₁ ▸ G.sameDir_freeBlocks fun c hc => hrun c hc ▸ hle
  have hfree : bit s₁.phys (blockOf (getPage s a)) = false := by
    have h0 : blockOf (getPage s a) ≠ 0 := fun e => by
      have := hh.pos
      rw [← hblock, e] at this
      exact absurd this (by decide)
    have hself : InRun (getPage s a / BLOCK_SIZE) (1 : Word).toNat (blockOf (getPage s a)) :=
      inRun_self (by decide)
    rw [hs₁, bit_freeBlocks, decide_eq_false h0, decide_eq_true hself]
    rfl
  have hget : getPage s₁ a = getPage s a := by
    rw [getPage_eq, getPage_eq, D.pde _ (PD_INDEX_lt a)]
  have e : deallocatePage s a 1 = s₁.withMem (s₁.mem.store32 (getPage s a)
      (unmapEntry (s₁.mem.load32 (getPage s a)))) := by
    rw [deallocatePage, ← hs₁]
    exact (unmapPages_one s₁ a).trans (hget ▸ unmapPage_eq s₁ a)
  obtain ⟨hpde, hbit⟩ := G.toLayout.store_other D S a (unmapEntry (s₁.mem.load32 (getPage s a)))
  have hpde := hpde _ (PD_INDEX_lt a)
  have hbit := (hbit _ hle).trans hfree
  rw [← e] at hpde hbit
  intro hused
  refine Bool.eq_false_iff.mp hbit (hused.2 _ ⟨PD_INDEX a, PD_INDEX_lt a, ?_⟩)
  rw [hpde]
  exact ⟨hp, hblock⟩

/-- A page that has a table needs no more than the block. -/
theorem allocateNewPage_one (h : (allocateBlocks s.phys 1).1 ≠ 0)
    (hp : isPresent (pde { s with phys := (allocateBlocks s.phys 1).2 } (PD_INDEX a))) :
    allocateNewPage s a 1 = (a, writePage { s with phys := (allocateBlocks s.phys 1).2 }
      (pageAfter (allocateBlocks s.phys 1).1 0) (pageAfter a 0)) := by
  have hm : mapPages { s with phys := (allocateBlocks s.phys 1).2 } (allocateBlocks s.phys 1).1 a
      (1 : Word).toNat = (1, writePage { s with phys := (allocateBlocks s.phys 1).2 }
        (pageAfter (allocateBlocks s.phys 1).1 0) (pageAfter a 0)) := by
    rw [show (1 : Word).toNat = 0 + 1 from rfl, mapPages, mapPages]
    rw [mapPage_of_present (by rwa [pageAfter_zero])]
    rfl
  simp only [allocateNewPage]
  rw [if_neg h, hm]
  rfl

/-- The first page table is there after boot. -/
theorem present_zero_of_init {k : Word} (h : initVirtualMemoryManager phys k = (true, s)) :
    isPresent (pde s 0) := by
  obtain ⟨-, -, -, rfl⟩ := init_eq h
  rw [pde, show ∀ s t, (addEntry s 0 t).currentPageDir = s.currentPageDir from fun _ _ => rfl]
  have e : ∀ s t, (addEntry s 0 t).mem.load32 (slot s.currentPageDir 0) = tableEntry (pde s 0) t :=
    fun s t => Mem.load32_store32_self _ _ _
  rw [e]
  exact isPresent_tableEntry _ _

/-- A page is allocated after boot, and given back: the block of the first page table, which holds
the page's entry, is free then, and the directory still refers to it. -/
theorem tables_not_reserved : ¬ ∀ (phys : Phys) (k : Word) (s₀ s : Paging) (live : List PageRange),
    Protected phys → initVirtualMemoryManager phys k = (true, s₀) → Run (fun _ _ => True) s₀ s live →
      TablesUsed s := by
  intro h
  obtain ⟨s₀, h₀, -, L⟩ := boot_somePhys
  have G₀ := (init_ok protected_somePhys h₀).1
  obtain ⟨e, -⟩ := L.allocate [] G₀.prot 5 1 (by decide) (by decide) (by decide) (by simp)
    (by decide) (by decide)
  have hne : (allocateBlocks s₀.phys 1).1 ≠ 0 := by
    rw [e]
    decide
  have D := (G₀.toLayout.allocateBlocks_ok (G₀.freshBlocks 1)).1
  have hp : isPresent (pde { s₀ with phys := (allocateBlocks s₀.phys 1).2 } (PD_INDEX 0x1000)) := by
    rw [D.pde _ (PD_INDEX_lt _)]
    exact present_zero_of_init h₀
  have ha := allocateNewPage_one hne hp
  have G₁ := G₀.call [] (.allocateNewPage 0x1000 1) (by simp [Call.released])
  have hp₁ : isPresent (pde (Call.exec s₀ [] (.allocateNewPage 0x1000 1)).1 (PD_INDEX 0x1000)) := by
    have D' := (D.grows G₀.toLayout).layout.writePage_ok (pageAfter (allocateBlocks s₀.phys 1).1 0)
      (pageAfter 0x1000 0)
    rw [show (Call.exec s₀ [] (.allocateNewPage 0x1000 1)).1 = (allocateNewPage s₀ 0x1000 1).2 from rfl,
      ha, D'.pde _ (PD_INDEX_lt _)]
    exact hp
  have hfst : (allocateNewPage s₀ 0x1000 1).1 = 0x1000 := by rw [ha]
  have hlive := live_allocateNewPage [] (by decide) hfst
  have r := (@Run.init (fun _ _ => True) s₀).step (.allocateNewPage 0x1000 1)
    (by simp [Call.released]) (by simp)
  rw [hlive] at r
  have r := r.step (.deallocatePage 0x1000 1) (by simp [Call.released]) (by simp)
  rw [show ∀ s live, (Call.exec s live (.deallocatePage 0x1000 1)).1 = deallocatePage s 0x1000 1
    from fun _ _ => rfl] at r
  exact G₁.deallocatePage_one hp₁ (h somePhys 0x100000 s₀ _ _ protected_somePhys h₀ r)

end

end AlexOS.Virtual
