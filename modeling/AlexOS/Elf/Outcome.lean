import AlexOS.Elf.Loader

/-!
# How the loader ends

`load_elf_file` ends in one of five ways (`Outcome`): there is no such file, the
header is refused, the program headers are cut off, the segments are loaded, or
there is no page for one of them. The conditions of all but the last two are on
what is read of the file. A round of the loop over the program headers ends in
one of two ways (`EntryOutcome`).
-/

namespace AlexOS.Elf

open Virtual

section

variable {ν : Type} (C : Calls ν) (k : Kernel ν)

/-- The handle. -/
def handle : Int := (C.openFile k.files k.paging).1

/-- What `open` leaves. -/
def opened : Kernel ν := ⟨(C.openFile k.files k.paging).2.2, (C.openFile k.files k.paging).2.1⟩

/-- The read of the header. -/
def headerRead : Word × List Byte × ν := C.read (handle C k) (opened C k).files sizeofElfHdr

/-- The header, as it is read. -/
def headerOf : ElfHdr := ElfHdr.ofBuffer (Buffer.ofList (headerRead C k).2.1)

/-- The header is cut off, or not one of an executable for this machine. -/
def HeaderRefused : Prop := (headerRead C k).1 < sizeofElfHdr ∨ checkHeader (headerOf C k) ≠ none

/-- The address of the program headers, and the memory when there is room for them. -/
def tableBlock : Addr × Paging := C.calloc (headerOf C k).tableSize (opened C k).paging

/-- The read of the program headers. -/
def tableRead : Word × List Byte × ν :=
  C.read (handle C k) (C.seek (handle C k) (headerOf C k).prgHeaderTableOffset (headerRead C k).2.2)
    (headerOf C k).tableSize

/-- The program headers are cut off. -/
def TableShort : Prop := (tableRead C k).1 < (headerOf C k).tableSize

/-- The memory is `s` when the program headers have been read. -/
def TableStored (s : Paging) : Prop :=
  storeBytes (tableBlock C k).2 (tableBlock C k).1 (tableRead C k).2.1 = some s

/-- The loop over the program headers. -/
def segmentLoop (s : Paging) : Option (Bool × Kernel ν) :=
  loadLoop C (handle C k) (tableBlock C k).1 ((headerOf C k).prgHeaderTableEntrySize.setWidth 32)
    (headerOf C k).prgHeaderTableEntryCount.toNat 0 ⟨s, (tableRead C k).2.2⟩

/-- What a call returns, and leaves. -/
inductive Outcome : Int → Kernel ν → Prop
  | notFound : handle C k = -1 → Outcome (-1) (opened C k)
  | refused {code : Int} : handle C k ≠ -1 → HeaderRefused C k → code ≠ 0 →
      Outcome code ⟨(opened C k).paging, C.close (handle C k) (headerRead C k).2.2⟩
  | short {s : Paging} : handle C k ≠ -1 → ¬ HeaderRefused C k → TableShort C k → TableStored C k s →
      Outcome (-2) ⟨s, C.close (handle C k) (tableRead C k).2.2⟩
  | loaded {s : Paging} {k' : Kernel ν} : handle C k ≠ -1 → ¬ HeaderRefused C k → ¬ TableShort C k →
      TableStored C k s → segmentLoop C k s = some (true, k') → Outcome 0 (k'.close C (handle C k))
  | noPage {s : Paging} {k' : Kernel ν} : handle C k ≠ -1 → ¬ HeaderRefused C k → ¬ TableShort C k →
      TableStored C k s → segmentLoop C k s = some (false, k') → Outcome (-9) k'

/-- What a round for an entry of type LOAD does. -/
inductive EntryOutcome (fd : Int) (entry : Addr) (i : Nat) : Bool → Kernel ν → Prop
  | noPage {pVaddr pMemsz : Word} {s : Paging} : load32 k.paging (entry + 8) = some pVaddr →
      load32 k.paging (entry + 20) = some pMemsz →
      (allocateNewPage k.paging pVaddr (NB_PAGE pMemsz)).1 = 0 →
      undo entry i (allocateNewPage k.paging pVaddr (NB_PAGE pMemsz)).2 = some s →
      EntryOutcome fd entry i false { k with paging := s }
  | loaded {pVaddr pMemsz pOffset pFilez : Word} {s : Paging} : load32 k.paging (entry + 8) = some pVaddr →
      load32 k.paging (entry + 20) = some pMemsz →
      (allocateNewPage k.paging pVaddr (NB_PAGE pMemsz)).1 ≠ 0 →
      load32 (allocateNewPage k.paging pVaddr (NB_PAGE pMemsz)).2 (entry + 4) = some pOffset →
      load32 (allocateNewPage k.paging pVaddr (NB_PAGE pMemsz)).2 (entry + 16) = some pFilez →
      storeBytes (allocateNewPage k.paging pVaddr (NB_PAGE pMemsz)).2
        (allocateNewPage k.paging pVaddr (NB_PAGE pMemsz)).1
        (C.read fd (C.seek fd pOffset k.files) pFilez).2.1 = some s →
      EntryOutcome fd entry i true ⟨s, (C.read fd (C.seek fd pOffset k.files) pFilez).2.2⟩

end

section

variable {ν : Type} {C : Calls ν} {k k' : Kernel ν} {code fd : Int} {header : ElfHdr} {entry : Addr} {i : Nat}
  {done : Bool}

theorem loadEntry_outcome (h : loadEntry C fd entry i k = some (done, k')) : EntryOutcome C k fd entry i done k' := by
  simp only [loadEntry] at h
  obtain ⟨pVaddr, hv, h⟩ := Option.bind_eq_some_iff.mp h
  obtain ⟨pMemsz, hm, h⟩ := Option.bind_eq_some_iff.mp h
  split at h
  · rename_i h0
    obtain ⟨s, hs, h⟩ := Option.bind_eq_some_iff.mp h
    cases h
    exact .noPage hv hm h0 hs
  · rename_i h0
    obtain ⟨pOffset, ho, h⟩ := Option.bind_eq_some_iff.mp h
    obtain ⟨pFilez, hf, h⟩ := Option.bind_eq_some_iff.mp h
    obtain ⟨r, hr, h⟩ := Option.bind_eq_some_iff.mp h
    obtain ⟨s, hs, hr⟩ := Option.bind_eq_some_iff.mp hr
    cases hr
    cases h
    exact .loaded hv hm h0 ho hf hs

theorem checkHeader_ne_zero (h : checkHeader header = some code) : code ≠ 0 := by
  unfold checkHeader at h
  split_ifs at h <;> simp only [Option.some.injEq] at h <;> omega

theorem readHeader_refused (h : HeaderRefused C k) : ∃ code, code ≠ 0 ∧
    readHeader C (handle C k) (opened C k) =
      (.error code, ⟨(opened C k).paging, C.close (handle C k) (headerRead C k).2.2⟩) := by
  by_cases hshort : (headerRead C k).1 < sizeofElfHdr
  · exact ⟨-2, by decide, if_pos hshort⟩
  obtain ⟨code, hc⟩ := Option.ne_none_iff_exists'.mp (h.resolve_left hshort)
  refine ⟨code, checkHeader_ne_zero hc, (if_neg hshort).trans ?_⟩
  unfold headerOf headerRead at hc
  rw [hc]
  rfl

theorem readHeader_ok (h : ¬ HeaderRefused C k) :
    readHeader C (handle C k) (opened C k) = (.ok (headerOf C k), ⟨(opened C k).paging, (headerRead C k).2.2⟩) := by
  obtain ⟨hshort, hcheck⟩ := not_or.mp h
  apply (if_neg hshort).trans
  have hcheck := not_not.mp hcheck
  unfold headerOf headerRead at hcheck
  rw [hcheck]
  rfl

theorem readTable_eq : readTable C (handle C k) (headerOf C k) ⟨(opened C k).paging, (headerRead C k).2.2⟩ =
    (storeBytes (tableBlock C k).2 (tableBlock C k).1 (tableRead C k).2.1).map fun s =>
      if (tableRead C k).1 < (headerOf C k).tableSize then
        (.error (-2), ⟨s, C.close (handle C k) (tableRead C k).2.2⟩)
      else (.ok (tableBlock C k).1, ⟨s, (tableRead C k).2.2⟩) := by
  cases h : storeBytes (tableBlock C k).2 (tableBlock C k).1 (tableRead C k).2.1 with
  | none =>
    simp only [tableBlock, tableRead] at h
    simp only [readTable, Kernel.read, h]
    rfl
  | some s =>
    have h' := h
    simp only [tableBlock, tableRead] at h'
    simp only [readTable, Kernel.read, h']
    rfl

/-- What comes after the table is read, if the stores to it do not fault. -/
theorem readTable_bind {α : Type} {f : Except Int Addr × Kernel ν → Option α} {r : α}
    (h : (readTable C (handle C k) (headerOf C k) ⟨(opened C k).paging, (headerRead C k).2.2⟩).bind f = some r) :
    ∃ s, storeBytes (tableBlock C k).2 (tableBlock C k).1 (tableRead C k).2.1 = some s ∧
      ((TableShort C k ∧ f (.error (-2), ⟨s, C.close (handle C k) (tableRead C k).2.2⟩) = some r) ∨
        (¬ TableShort C k ∧ f (.ok (tableBlock C k).1, ⟨s, (tableRead C k).2.2⟩) = some r)) := by
  rw [readTable_eq] at h
  obtain ⟨x, ht, h⟩ := Option.bind_eq_some_iff.mp h
  obtain ⟨s, hs, rfl⟩ := Option.map_eq_some_iff.mp ht
  refine ⟨s, hs, ?_⟩
  by_cases hshort : TableShort C k
  · exact .inl ⟨hshort, by rwa [if_pos (show (tableRead C k).1 < (headerOf C k).tableSize from hshort)] at h⟩
  · exact .inr ⟨hshort, by rwa [if_neg (show ¬ (tableRead C k).1 < (headerOf C k).tableSize from hshort)] at h⟩

theorem loadElfFile_outcome {ep : Option Word} (h : loadElfFile C k = some (code, ep, k')) : Outcome C k code k' := by
  simp only [loadElfFile] at h
  by_cases hfd : handle C k = -1
  · simp only [if_pos (show (C.openFile k.files k.paging).1 = -1 from hfd)] at h
    cases h
    exact .notFound hfd
  simp only [if_neg (show ¬ (C.openFile k.files k.paging).1 = -1 from hfd)] at h
  by_cases hr : HeaderRefused C k
  · obtain ⟨code', h0, e⟩ := readHeader_refused hr
    simp only [handle, opened] at e
    simp only [e] at h
    cases h
    exact .refused hfd hr h0
  have e := readHeader_ok hr
  simp only [handle, opened] at e
  simp only [e] at h
  obtain ⟨s, hs, ⟨hshort, h⟩ | ⟨hshort, h⟩⟩ := readTable_bind h
  · cases h
    exact .short hfd hr hshort hs
  obtain ⟨⟨done, k₃⟩, hl, h⟩ := Option.bind_eq_some_iff.mp h
  cases done with
  | true =>
    cases h
    exact .loaded hfd hr hshort hs hl
  | false =>
    cases h
    exact .noPage hfd hr hshort hs hl

end

end AlexOS.Elf
