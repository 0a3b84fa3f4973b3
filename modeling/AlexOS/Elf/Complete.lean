import AlexOS.Elf.Segments

/-!
# Loading a program in the kernel

`load_elf_file` on files that are read exactly. It maps as many pages as `p_memsz`
bytes need from the start of a page on, wherever in the first one they begin, does
not clear what the file has no bytes for, and maps the pages of one segment over
those of another. Where none of this matters (`Fits`), all segments are loaded
(`segments_loaded`).
-/

namespace AlexOS.Elf

open Physical Virtual

/-- The segment is in memory, at pages that are present. -/
structure SegmentLoaded (file : List Byte) (g : Segment) (s : Paging) : Prop where
  mapped : ∀ x < g.memsz.toNat, present s (g.vaddr + BitVec.ofNat 32 x)
  loaded : g.LoadedIn (Buffer.ofList file) (space s)

/-- A program with disjoint segments, where nothing is mapped. -/
structure Valid (file : List Byte) (s : Paging) : Prop where
  entrySize : 32 ≤ (fileHeader file).prgHeaderTableEntrySize.toNat
  inFile : ∀ i, Loads file i → (segment file i).offset.toNat + (segment file i).filesz.toNat ≤ file.length
  sizes : ∀ i, Loads file i → (segment file i).filesz.toNat ≤ (segment file i).memsz.toNat
  noWrap : ∀ i, Loads file i → (segment file i).vaddr.toNat + (segment file i).memsz.toNat ≤ 2 ^ 32
  disjoint : ∀ i j, Loads file i → Loads file j → i < j →
    Disjoint (segment file i).addresses (segment file j).addresses
  unmapped : ∀ i, Loads file i → ∀ x < (segment file i).memsz.toNat,
    ¬ present s ((segment file i).vaddr + BitVec.ofNat 32 x)

/-- Nothing was mapped for the heap where the segments go. All bytes of each segment are in the file; it ends in
the last page that is counted, and these pages are not mapped for another one; no entry has its highest bit left
over. -/
structure Fits (file : List Byte) (s : Paging) : Prop where
  unmapped : ∀ i, Loads file i → ∀ x < (segment file i).memsz.toNat,
    ¬ present s ((segment file i).vaddr + BitVec.ofNat 32 x)
  whole : ∀ i, Loads file i → (segment file i).filesz = (segment file i).memsz
  counted : ∀ i, Loads file i → (segment file i).vaddr.toNat % 4096 + (segment file i).memsz.toNat ≤
    4096 * (NB_PAGE (segment file i).memsz).toNat
  apart : ∀ i j, Loads file i → Loads file j → i < j →
    Disjoint (segmentPages (segment file i)) (segmentPages (segment file j))
  clean : ∀ i, Loads file i → ∀ v, page v ∈ segmentPages (segment file i) → (entryOf s v).getLsbD 31 = false

section

variable {ν : Type} {C : Calls ν} {file : List Byte} {At : Int → Nat → ν → Prop} {k k' : Kernel ν}
  {s s₁ : Paging} {g : Segment} {v : Addr} {x : Nat} {ep : Option Word}

/-! ## The pages of a segment -/

/-- A page that is mapped for a segment holds a byte of it. -/
theorem touched (h : page v ∈ segmentPages g) :
    ∃ x < g.memsz.toNat, page v = page (g.vaddr + BitVec.ofNat 32 x) := by
  obtain ⟨i, hi, e⟩ := h
  rw [toNat_NB_PAGE] at hi
  exact ⟨4096 * i, by omega, by rw [e, pageAfter_eq]⟩

/-- A byte of a segment that ends in the last page that is counted. -/
theorem mem_segmentPages (h : g.vaddr.toNat % 4096 + g.memsz.toNat ≤ 4096 * (NB_PAGE g.memsz).toNat)
    (hx : x < g.memsz.toNat) : page (g.vaddr + BitVec.ofNat 32 x) ∈ segmentPages g := by
  refine ⟨(g.vaddr.toNat % 4096 + x) / 4096, by omega, ?_⟩
  have := g.memsz.isLt; have := g.vaddr.isLt
  rw [page_pageAfter, page, page, BitVec.toNat_add, BitVec.toNat_ofNat]
  omega

/-- The segments can be placed. -/
theorem Valid.placeable (V : Valid file s₁) (F : Fits file s) : Placeable file s where
  entrySize _ := by
    have := V.entrySize
    omega
  free i hl v hv := by
    obtain ⟨x, hx, e⟩ := touched hv
    refine ⟨fun hp => F.unmapped i hl x hx ?_, F.clean i hl v hv⟩
    rwa [present, ← entryOf_congr s e]
  bytes i hl x hx := F.unmapped i hl x (hx.trans_le (V.sizes i hl))
  apart := F.apart

/-- What is in memory already when a round starts. -/
def LoadedBefore (file : List Byte) (i : Nat) (s : Paging) : Prop :=
  ∀ j < i, Loads file j → (segment file j).LoadedIn (Buffer.ofList file) (space s)

theorem Fits.round {i : Nat} {s' s₂ : Paging} (V : Valid file s₂) (F : Fits file s₁) (hl : Loads file i)
    (hfilled : Filled file (mappedBefore file i) (segment file i) s s') (hI : LoadedBefore file i s) :
    LoadedBefore file (i + 1) s' := by
  intro j hj hlj x hx
  have hlen : (segmentBytes file (segment file i)).length = (segment file i).memsz.toNat := by
    have := V.inFile i hl
    rw [segmentBytes, Buffer.length_slice, ← F.whole i hl]
    omega
  have hpage := mem_segmentPages (F.counted j hlj) hx
  rcases Nat.lt_succ_iff_lt_or_eq.mp hj with hlt | rfl
  · rw [hfilled.others _ ⟨j, hlt, hlj, hpage⟩, Mem.write_other]
    · exact hI j hlt hlj x hx
    · -- the bytes that are stored are in pages of their own
      intro y hy e
      rw [e] at hpage
      exact Set.disjoint_left.mp (F.apart j i hlj hl hlt) hpage (mem_segmentPages (F.counted i hl) (hlen ▸ hy))
  · rw [hfilled.bytes x (hlen ▸ hx) hpage, Segment.byte, if_pos]
    rwa [F.whole j hlj]

theorem loadedBefore_skip {i : Nat} (h : ¬ Loads file i) (hI : LoadedBefore file i s) :
    LoadedBefore file (i + 1) s := by
  intro j hj hlj
  rcases Nat.lt_succ_iff_lt_or_eq.mp hj with hlt | rfl
  · exact hI j hlt hlj
  · exact absurd hlj h

/-- The program is loaded when the call returns 0. -/
theorem segments_loaded (X : Exact C file At) (V : Valid file k.paging)
    (M : Callocs C (fileHeader file).tableSize (opened C k).paging)
    (F : Fits file (C.calloc (fileHeader file).tableSize (opened C k).paging).2) (N : FreshLoad C file k)
    (h : loadElfFile C k = some (0, ep, k')) : ∀ i, Loads file i →
      SegmentLoaded file (segment file i) k'.paging := by
  have O := loadElfFile_outcome h
  generalize hcode : (0 : Int) = code at O
  cases O with
  | notFound => exact absurd hcode (by decide)
  | refused _ _ h0 => exact absurd hcode.symm h0
  | short => exact absurd hcode (by decide)
  | noPage => exact absurd hcode (by decide)
  | loaded hfd hr hs hst hl =>
    have hheader := (X.header_ok hfd hr).1
    have D := X.started M hfd hr hs hst
    obtain ⟨-, j, hA⟩ := X.table_ok hfd hr hs
    have hblock : tableBlock C k = C.calloc (fileHeader file).tableSize (opened C k).paging := by
      rw [tableBlock, hheader]
    rw [segmentLoop, hheader] at hl
    rw [← hblock] at F
    have hp := (V.placeable F).congr D.entries
    have hloop := D.progress.loadLoop_ok (I := LoadedBefore file) hp D.live D.toTableAt X
      (fun i s s' hl hfilled hI => F.round V hl hfilled hI) (fun i s hl hI => loadedBefore_skip hl hI)
      (fun j hj => absurd hj (Nat.not_lt_zero j)) hA (Nat.zero_add _) (N _ hst) hl
    obtain ⟨P, hI⟩ := hloop.1 rfl
    intro i hi
    have hlt : i < 0 + (fileHeader file).prgHeaderTableEntryCount.toNat := by
      rw [Nat.zero_add]
      exact hi.1
    refine ⟨fun x hx => ?_, hI i hlt hi⟩
    exact (P.live.owned _ (.inr ⟨i, hlt, hi, mem_segmentPages (F.counted i hi) hx⟩)).present

/-! ## A program of one segment -/

theorem exact_oneFile (file : List Byte) : Exact (oneFile file) file fun _ i f => f = some i where
  opens _ _ _ := rfl
  reads _ f i count hf := by
    subst hf
    have hlt : min count.toNat (file.length - i) < 2 ^ 32 := (Nat.min_le_left _ _).trans_lt count.isLt
    exact ⟨Nat.mod_eq_of_lt hlt, rfl, rfl⟩
  seeks _ _ _ _ hf := by rw [hf]; rfl

theorem valid_of_segment (hsize : (fileHeader file).prgHeaderTableEntrySize = 32)
    (hcount : (fileHeader file).prgHeaderTableEntryCount = 1) (hg : segment file 0 = g)
    (hin : g.offset.toNat + g.filesz.toNat ≤ file.length) (hs : g.filesz.toNat ≤ g.memsz.toNat)
    (hw : g.vaddr.toNat + g.memsz.toNat ≤ 2 ^ 32)
    (hu : ∀ x < g.memsz.toNat, ¬ present s (g.vaddr + BitVec.ofNat 32 x)) : Valid file s := by
  have h0 : ∀ i, Loads file i → i = 0 := fun i hl => by
    have := hl.1
    rw [hcount] at this
    exact Nat.lt_one_iff.mp this
  have hseg : ∀ i, Loads file i → segment file i = g := fun i hl => by rw [h0 i hl, hg]
  refine ⟨by rw [hsize]; decide, fun i hl => ?_, fun i hl => ?_, fun i hl => ?_, fun i j hl hl' hij => ?_,
    fun i hl => ?_⟩
  · rwa [hseg i hl]
  · rwa [hseg i hl]
  · rwa [hseg i hl]
  · rw [h0 i hl, h0 j hl'] at hij
    exact absurd hij (Nat.lt_irrefl 0)
  · rwa [hseg i hl]

/-- A segment of 4 bytes at the start of a page. -/
def smallProgram : List Byte := program [0, 0x30, 0, 0] [4, 0, 0, 0] [4, 0, 0, 0]

theorem segment_smallProgram : segment smallProgram 0 = ⟨84, 0x3000, 4, 4⟩ := by decide

theorem valid_smallProgram : Valid smallProgram somePages :=
  valid_of_segment (by decide) (by decide) segment_smallProgram (by decide) (by decide) (by decide)
    (by decide)

theorem fits_smallProgram : Fits smallProgram somePages := by
  have hcount : (fileHeader smallProgram).prgHeaderTableEntryCount.toNat = 1 := by decide
  have h0 : ∀ i, Loads smallProgram i → i = 0 := fun i hl => by
    have := hl.1
    omega
  have hclean : ∀ x < 4, (entryOf somePages (0x3000 + BitVec.ofNat 32 x)).getLsbD 31 = false := by decide
  refine ⟨valid_smallProgram.unmapped, fun i hl => ?_, fun i hl => ?_, fun i j hl hl' hij => ?_,
    fun i hl v hv => ?_⟩
  · rw [h0 i hl, segment_smallProgram]
  · rw [h0 i hl, segment_smallProgram]
    decide
  · rw [h0 i hl, h0 j hl'] at hij
    exact absurd hij (Nat.lt_irrefl 0)
  · rw [h0 i hl, segment_smallProgram] at hv
    obtain ⟨x, hx, e⟩ := touched hv
    rw [entryOf_congr _ e]
    exact hclean x hx

/-- A run that returns 0, and what is asked of the pages it leaves. -/
theorem exists_run {α : Type} {f : Paging → α} {y : α}
    (h : (loadElfFile C k).map (fun r => (r.1, f r.2.2.paging)) = some (0, y)) :
    ∃ ep k', loadElfFile C k = some (0, ep, k') ∧ f k'.paging = y := by
  obtain ⟨⟨code, ep, k'⟩, hrun, e⟩ := Option.map_eq_some_iff.mp h
  simp only [Prod.mk.injEq] at e
  obtain ⟨rfl, e⟩ := e
  exact ⟨ep, k', hrun, e⟩

theorem run_smallProgram : ∃ ep k', loadElfFile (oneFile smallProgram) someKernel = some (0, ep, k') := by
  obtain ⟨ep, k', hrun, -⟩ := exists_run (C := oneFile smallProgram) (k := someKernel) (f := fun _ => ()) (y := ())
    (by decide +kernel)
  exact ⟨ep, k', hrun⟩

/-- The only allocation is the first. -/
theorem freshLoad_smallProgram : FreshLoad (oneFile smallProgram) smallProgram someKernel := by
  have hcount : (fileHeader smallProgram).prgHeaderTableEntryCount.toNat = 1 := by decide
  intro s hs
  rw [hcount]
  have S := tableStored_ok (k := someKernel) (callocs_oneFile smallProgram (by decide)) (by decide) hs
  exact ⟨fun _ => (S.toGrows.guarded guarded_somePages).freshAllocation _ _, fun _ _ => trivial⟩

theorem segments_loaded_smallProgram : ∃ ep k', loadElfFile (oneFile smallProgram) someKernel = some (0, ep, k') ∧
    ∀ i, Loads smallProgram i → SegmentLoaded smallProgram (segment smallProgram i) k'.paging := by
  obtain ⟨ep, k', hrun⟩ := run_smallProgram
  exact ⟨ep, k', hrun, segments_loaded (k := someKernel) (exact_oneFile smallProgram) valid_smallProgram
    (callocs_oneFile smallProgram (by decide)) fits_smallProgram freshLoad_smallProgram hrun⟩

/-- A segment of 8 bytes, over the end of a page, of which 4 are in the file. -/
def splitProgram : List Byte := program [0xFC, 0x3F, 0, 0] [4, 0, 0, 0] [8, 0, 0, 0]

/-- The second page is not mapped. -/
theorem segments_not_loaded : ¬ ∀ (ν : Type) (C : Calls ν) (file : List Byte) (At : Int → Nat → ν → Prop)
    (k k' : Kernel ν) (ep : Option Word), Exact C file At → Guarded k.paging →
      Callocs C (fileHeader file).tableSize (opened C k).paging → Valid file k.paging →
        Valid file (C.calloc (fileHeader file).tableSize (opened C k).paging).2 →
          loadElfFile C k = some (0, ep, k') →
            ∀ i, Loads file i → SegmentLoaded file (segment file i) k'.paging := by
  intro H
  obtain ⟨ep, k', hrun, hpage⟩ := exists_run (C := oneFile splitProgram) (k := someKernel)
    (f := fun s => decide (present s (0x3FFC + BitVec.ofNat 32 4))) (y := false) (by decide +kernel)
  have hseg : segment splitProgram 0 = ⟨84, 0x3FFC, 4, 8⟩ := by decide
  have hvalid : Valid splitProgram somePages :=
    valid_of_segment (by decide) (by decide) hseg (by decide) (by decide) (by decide)
      (by decide)
  have hloads : Loads splitProgram 0 := ⟨by decide, by decide⟩
  have S := H _ _ _ _ someKernel k' ep (exact_oneFile splitProgram) guarded_somePages
    (callocs_oneFile splitProgram (by decide)) hvalid hvalid hrun 0 hloads
  rw [hseg] at S
  exact of_decide_eq_false hpage (S.mapped 4 (by decide))

end

end AlexOS.Elf
