import AlexOS.Lib.Table
import AlexOS.Elf.Failure
import AlexOS.Stage2.Elf

/-!
# The program headers

`load_elf_file`, `unload_elf_file` and `ELF_read` look at 32 bytes of each
entry, in a table that is read to a block of `entrySize * count` bytes. None of
them checks the size of the entries, nor `ELF_read` that the table fits its
buffer: they stay inside if the entries are of 32 bytes or more, and otherwise
only if the loop ends before (`headers_inside_iff`).
-/

namespace AlexOS

open Virtual

/-- `sizeof(elf_pgr_hdr_entry_t)`. -/
def sizeofElfPgrHdrEntry : Nat := 32

/-- The size of the table. -/
def tableBytes (entrySize count : BitVec 16) : Word := entrySize.setWidth 32 * count.setWidth 32

/-- The address of entry `i`. -/
def hdrEntryAt (table : Addr) (entrySize : BitVec 16) (i : Nat) : Addr :=
  table + BitVec.ofNat 32 i * entrySize.setWidth 32

/-- The entry lies in the bytes of the block. -/
def InBlock (block : Addr) (size : Word) (entry : Addr) : Prop :=
  (entry - block).toNat + sizeofElfPgrHdrEntry ≤ size.toNat

/-- There are no entries, or they are of the full size. -/
def FullEntries (entrySize count : BitVec 16) : Prop := count = 0 ∨ 32 ≤ entrySize.toNat

/-- How many of the entries lie in the table. -/
def wholeEntries (entrySize count : BitVec 16) : Nat :=
  Table.whole sizeofElfPgrHdrEntry entrySize.toNat count.toNat

section

variable {σ : Type} {step : Nat → σ → Option σ} {s : σ} {table : Addr} {entrySize count : BitVec 16} {i : Nat}

theorem toNat_tableBytes : (tableBytes entrySize count).toNat = entrySize.toNat * count.toNat := by
  have := Nat.mul_le_mul (Nat.le_of_lt_succ entrySize.isLt) (Nat.le_of_lt_succ count.isLt)
  rw [tableBytes, BitVec.toNat_mul, BitVec.toNat_setWidth_of_le (by decide), BitVec.toNat_setWidth_of_le (by decide),
    Nat.mod_eq_of_lt (by omega)]

/-- The address of an entry does not wrap around. -/
theorem inBlock_iff (hi : i < count.toNat) :
    InBlock table (tableBytes entrySize count) (hdrEntryAt table entrySize i) ↔
    i * entrySize.toNat + sizeofElfPgrHdrEntry ≤ entrySize.toNat * count.toNat := by
  have hlt := count.isLt
  have := Nat.mul_le_mul (show i ≤ 2 ^ 16 - 1 by omega) (Nat.le_of_lt_succ entrySize.isLt)
  rw [InBlock, toNat_tableBytes, hdrEntryAt, add_sub_cancel_left, BitVec.toNat_mul, BitVec.toNat_ofNat,
    BitVec.toNat_setWidth_of_le (by decide), Nat.mod_eq_of_lt (a := i) (by omega), Nat.mod_eq_of_lt (by omega)]

/-- A loop over the entries. -/
theorem rounds_inside_iff : (∀ i < count.toNat, (Table.rounds step i 0 s).isSome →
      InBlock table (tableBytes entrySize count) (hdrEntryAt table entrySize i)) ↔
    FullEntries entrySize count ∨ Table.rounds step (wholeEntries entrySize count) 0 s = none := by
  have hcount : count = 0 ↔ count.toNat = 0 := BitVec.toNat_eq
  rw [FullEntries, hcount, or_assoc]
  refine Iff.trans ?_ (Table.inside_iff (show 0 < sizeofElfPgrHdrEntry by decide))
  exact forall₂_congr fun i hi => imp_congr_right fun _ => inBlock_iff hi

end

namespace Elf

section

variable {ν : Type} (C : Calls ν)

/-- The loop of `unload_elf_file`, from `i` on. -/
def unloadLoop (table : Addr) (entrySize : Word) : Nat → Nat → Paging → Option Paging
  | 0, _, s => some s
  | n + 1, i, s => do
    let entry := table + BitVec.ofNat 32 i * entrySize
    let type ← load32 s entry
    if type = ELF_PROGRAM_TYPE_LOAD then
      let pVaddr ← load32 s (entry + 8)
      let pMemsz ← load32 s (entry + 20)
      unloadLoop table entrySize n (i + 1) (deallocatePage s pVaddr (NB_PAGE pMemsz))
    else unloadLoop table entrySize n (i + 1) s

/-- It reads the header and the program headers as `load_elf_file` does. -/
def unloadElfFile (k : Kernel ν) : Option (Int × Kernel ν) :=
  let f := C.openFile k.files k.paging
  let fd := f.1
  let k : Kernel ν := ⟨f.2.2, f.2.1⟩
  if fd = -1 then some (-1, k) else
  match readHeader C fd k with
  | (.error code, k) => some (code, k)
  | (.ok header, k) => do
    match ← readTable C fd header k with
    | (.error code, k) => return (code, k)
    | (.ok table, k) =>
      let s ← unloadLoop table (header.prgHeaderTableEntrySize.setWidth 32)
        header.prgHeaderTableEntryCount.toNat 0 k.paging
      return (0, Kernel.close C { k with paging := s } fd)

variable (k : Kernel ν)

/-- A call gets to its loop, with this memory. -/
structure GetsToLoop (s : Paging) : Prop where
  opened : handle C k ≠ -1
  accepted : ¬ HeaderRefused C k
  complete : ¬ TableShort C k
  stored : TableStored C k s

/-- The first `n` rounds of the loop of `load_elf_file`. -/
def loadRounds (s : Paging) (n : Nat) : Option (Bool × Kernel ν) :=
  loadLoop C (handle C k) (tableBlock C k).1 ((headerOf C k).prgHeaderTableEntrySize.setWidth 32) n 0
    ⟨s, (tableRead C k).2.2⟩

/-- The first `n` rounds of the loop of `unload_elf_file`. -/
def unloadRounds (s : Paging) (n : Nat) : Option Paging :=
  unloadLoop (tableBlock C k).1 ((headerOf C k).prgHeaderTableEntrySize.setWidth 32) n 0 s

/-- An entry is in the block that `calloc` gave. -/
def EntryInside (i : Nat) : Prop :=
  InBlock (tableBlock C k).1 (headerOf C k).tableSize
    (hdrEntryAt (tableBlock C k).1 (headerOf C k).prgHeaderTableEntrySize i)

/-- The entries that `load_elf_file` looks at, when the rounds before have all found pages, are in the block. -/
def LoadInside : Prop := ∀ s, GetsToLoop C k s → ∀ i < (headerOf C k).prgHeaderTableEntryCount.toNat,
  (∃ k', loadRounds C k s i = some (true, k')) → EntryInside C k i

/-- The entries that `unload_elf_file` looks at are in the block. -/
def UnloadInside : Prop := ∀ s, GetsToLoop C k s → ∀ i < (headerOf C k).prgHeaderTableEntryCount.toNat,
  (∃ s', unloadRounds C k s i = some s') → EntryInside C k i

/-- The program headers are of the full size, or there are none. -/
def HeadersFull : Prop := FullEntries (headerOf C k).prgHeaderTableEntrySize (headerOf C k).prgHeaderTableEntryCount

/-- How many of the program headers lie in the table. -/
def headersWhole : Nat := wholeEntries (headerOf C k).prgHeaderTableEntrySize (headerOf C k).prgHeaderTableEntryCount

end

section

variable {ν : Type} {C : Calls ν} {k k' : Kernel ν} {s s' : Paging} {fd : Int} {table : Addr} {entrySize : Word}
  {i n : Nat}

/-! ## The loops -/

/-- A round of `load_elf_file`. -/
def loadStep (C : Calls ν) (fd : Int) (table : Addr) (entrySize : Word) (i : Nat) (k : Kernel ν) :
    Option (Kernel ν) := do
  let entry := table + BitVec.ofNat 32 i * entrySize
  let type ← load32 k.paging entry
  if type = ELF_PROGRAM_TYPE_LOAD then
    let r ← loadEntry C fd entry i k
    if r.1 then some r.2 else none
  else some k

/-- A round of `unload_elf_file`. -/
def unloadStep (table : Addr) (entrySize : Word) (i : Nat) (s : Paging) : Option Paging := do
  let entry := table + BitVec.ofNat 32 i * entrySize
  let type ← load32 s entry
  if type = ELF_PROGRAM_TYPE_LOAD then
    let pVaddr ← load32 s (entry + 8)
    let pMemsz ← load32 s (entry + 20)
    return deallocatePage s pVaddr (NB_PAGE pMemsz)
  else some s

theorem loadLoop_true_iff : loadLoop C fd table entrySize n i k = some (true, k') ↔
    Table.rounds (loadStep C fd table entrySize) n i k = some k' := by
  induction n generalizing i k with
  | zero => simp [loadLoop, Table.rounds]
  | succ n ih =>
    rw [loadLoop, Table.rounds, loadStep]
    cases load32 k.paging (table + BitVec.ofNat 32 i * entrySize) with
    | none => exact iff_of_false (by simp) (by simp)
    | some type =>
      simp only [Option.bind_eq_bind, Option.bind_some]
      split
      · cases loadEntry C fd (table + BitVec.ofNat 32 i * entrySize) i k with
        | none => exact iff_of_false (by simp) (by simp)
        | some r =>
          obtain ⟨found, k₁⟩ := r
          cases found with
          | false => exact iff_of_false (by simp) (by simp)
          | true => exact ih
      · exact ih

theorem unloadLoop_eq_rounds :
    unloadLoop table entrySize n i s = Table.rounds (unloadStep table entrySize) n i s := by
  induction n generalizing i s with
  | zero => rfl
  | succ n ih =>
    rw [unloadLoop, Table.rounds, unloadStep]
    cases load32 s (table + BitVec.ofNat 32 i * entrySize) with
    | none => rfl
    | some type =>
      simp only [Option.bind_eq_bind, Option.bind_some]
      split
      · cases load32 s (table + BitVec.ofNat 32 i * entrySize + 8) with
        | none => rfl
        | some pVaddr =>
          cases load32 s (table + BitVec.ofNat 32 i * entrySize + 20) with
          | none => rfl
          | some pMemsz => exact ih
      · exact ih

theorem readTable_ok (G : GetsToLoop C k s) :
    readTable C (handle C k) (headerOf C k) ⟨(opened C k).paging, (headerRead C k).2.2⟩ =
      some (.ok (tableBlock C k).1, ⟨s, (tableRead C k).2.2⟩) := by
  rw [readTable_eq, show storeBytes _ _ _ = some s from G.stored, Option.map_some,
    if_neg (show ¬ (tableRead C k).1 < (headerOf C k).tableSize from G.complete)]

/-- The loop of `load_elf_file`, if a call gets there. -/
theorem loadElfFile_getsToLoop (G : GetsToLoop C k s) : loadElfFile C k =
    (loadRounds C k s (headerOf C k).prgHeaderTableEntryCount.toNat).map fun r =>
      if r.1 then (0, some (headerOf C k).prgEntryOffset, r.2.close C (handle C k))
      else (-9, some (headerOf C k).prgEntryOffset, r.2) := by
  have e := readHeader_ok G.accepted
  have et := readTable_ok G
  simp only [handle, opened] at e et
  simp only [loadElfFile, if_neg (show ¬ (C.openFile k.files k.paging).1 = -1 from G.opened), e, et]
  simp only [loadRounds, handle, Option.bind_eq_bind, Option.bind_some]
  cases loadLoop C _ (tableBlock C k).1 _ _ 0 _ <;> rfl

/-- The loop of `unload_elf_file`, if a call gets there. -/
theorem unloadElfFile_getsToLoop (G : GetsToLoop C k s) : unloadElfFile C k =
    (unloadRounds C k s (headerOf C k).prgHeaderTableEntryCount.toNat).map fun s' =>
      (0, ⟨s', C.close (handle C k) (tableRead C k).2.2⟩) := by
  have e := readHeader_ok G.accepted
  have et := readTable_ok G
  simp only [handle, opened] at e et
  simp only [unloadElfFile, if_neg (show ¬ (C.openFile k.files k.paging).1 = -1 from G.opened), e, et]
  simp only [unloadRounds, handle, Option.bind_eq_bind, Option.bind_some]
  cases unloadLoop (tableBlock C k).1 _ _ 0 _ <;> rfl

/-- A call of `unload_elf_file` that does not get to the loop is refused, or page faults. -/
theorem unloadElfFile_refused {code : Int} (hG : ∀ s, ¬ GetsToLoop C k s) (h : unloadElfFile C k = some (code, k')) :
    code ≠ 0 := by
  simp only [unloadElfFile] at h
  by_cases hfd : handle C k = -1
  · rw [if_pos (show (C.openFile k.files k.paging).1 = -1 from hfd)] at h
    cases h
    decide
  rw [if_neg (show ¬ (C.openFile k.files k.paging).1 = -1 from hfd)] at h
  by_cases hr : HeaderRefused C k
  · obtain ⟨code', h0, e⟩ := readHeader_refused hr
    simp only [handle, opened] at e
    simp only [e] at h
    cases h
    exact h0
  have e := readHeader_ok hr
  simp only [handle, opened] at e
  simp only [e] at h
  obtain ⟨s, hs, ⟨hshort, h⟩ | ⟨hshort, h⟩⟩ := readTable_bind h
  · cases h
    decide
  · exact absurd ⟨hfd, hr, hshort, hs⟩ (hG s)

/-! ## The entries -/

theorem loadInside_iff : LoadInside C k ↔
    ∀ s, GetsToLoop C k s → HeadersFull C k ∨
      ∀ k', loadRounds C k s (headersWhole C k) ≠ some (true, k') := by
  refine forall₂_congr fun s _ => ?_
  have hreads : ∀ n, (∃ k', loadRounds C k s n = some (true, k')) ↔ (Table.rounds (loadStep C (handle C k)
      (tableBlock C k).1 ((headerOf C k).prgHeaderTableEntrySize.setWidth 32)) n 0
        ⟨s, (tableRead C k).2.2⟩).isSome :=
    fun n => (exists_congr fun k' => loadLoop_true_iff).trans Option.isSome_iff_exists.symm
  rw [← not_exists, hreads, Option.not_isSome_iff_eq_none]
  simp only [hreads]
  exact rounds_inside_iff

theorem unloadInside_iff : UnloadInside C k ↔
    ∀ s, GetsToLoop C k s → HeadersFull C k ∨ unloadRounds C k s (headersWhole C k) = none := by
  refine forall₂_congr fun s _ => ?_
  simp only [unloadRounds, unloadLoop_eq_rounds, ← Option.isSome_iff_exists]
  exact rounds_inside_iff

end

end Elf

namespace Stage2

section

variable {σ φ : Type} (D : Files σ φ) (M : Machine σ)

/-- `prg_hdr_size`. -/
def ElfHdr.tableSize (header : ElfHdr) : Word :=
  tableBytes header.prgHeaderTableEntrySize header.prgHeaderTableEntryCount

/-- `ELF_read` gets to its loop, with this header. -/
inductive GetsToLoop : ElfHdr → Machine σ → Prop
  | intro {fd : φ} {files : σ} {r s t : Word × Machine σ} {header : ElfHdr} :
      D.fatOpen M.files = (some fd, files) →
      Machine.read D { M with files := files } fd sizeofElfHdr MEMORY_ELF_ADDR = r → r.1 = sizeofElfHdr →
      ElfHdr.ofBuffer (r.2.mem.view MEMORY_ELF_ADDR) = header → elfValidateHeader header →
      r.2.read D fd (header.headerTable - r.1) MEMORY_ELF_ADDR = s →
      s.2.read D fd header.tableSize MEMORY_ELF_ADDR = t → t.1 = header.tableSize →
      GetsToLoop header (t.2.close D fd)

/-- The first `n` rounds of the loop. -/
def loadRounds (header : ElfHdr) (n : Nat) (M : Machine σ) : Option (Bool × Machine σ) :=
  loadSegments D (header.prgHeaderTableEntrySize.setWidth 32) n 0 M

/-- The table fits the buffer, and the entries that `ELF_read` looks at, when the rounds before have all loaded their
segments, are in it. -/
def LoadInside : Prop := ∀ header M', GetsToLoop D M header M' → header.tableSize.toNat ≤ 0x10000 ∧
  ∀ i < header.prgHeaderTableEntryCount.toNat, (∃ M'', loadRounds D header i M' = some (true, M'')) →
    InBlock MEMORY_ELF_ADDR header.tableSize (hdrEntryAt MEMORY_ELF_ADDR header.prgHeaderTableEntrySize i)

/-- How many of the program headers lie in the table. -/
def ElfHdr.whole (header : ElfHdr) : Nat :=
  wholeEntries header.prgHeaderTableEntrySize header.prgHeaderTableEntryCount

end

section

variable {σ φ : Type} {D : Files σ φ} {M M' : Machine σ} {header : ElfHdr} {entrySize : Word} {i n : Nat}

/-- The loop of `ELF_read`, if a call gets there. -/
theorem elfRead_getsToLoop (G : GetsToLoop D M header M') : elfRead D M =
    (loadRounds D header header.prgHeaderTableEntryCount.toNat M').map fun r =>
      (if r.1 then 1 else 0, some header.programEntry, r.2) := by
  obtain ⟨hopen, hread, hr, hheader, hv, hskip, htable, ht⟩ := G
  simp only [ElfHdr.tableSize, tableBytes] at htable ht
  simp only [elfRead, hopen, hread]
  rw [if_neg (not_not.mpr hr)]
  simp only [hheader, hskip, htable]
  rw [if_neg (not_not.mpr hv), if_neg (not_not.mpr ht), loadRounds]
  cases loadSegments D _ _ 0 _ <;> rfl

/-- A call that does not get to its loop loads nothing. -/
theorem elfRead_refused (hG : ∀ header M', ¬ GetsToLoop D M header M') :
    ∃ ep M', elfRead D M = some (0, ep, M') := by
  unfold elfRead
  split
  · exact ⟨_, _, rfl⟩
  rename_i fd files hopen
  extract_lets r header entryPoint entrySize prgHdrSize s t
  by_cases hr : r.1 = sizeofElfHdr
  swap
  · exact ⟨_, _, if_pos hr⟩
  rw [if_neg (not_not.mpr hr)]
  by_cases hv : elfValidateHeader header
  swap
  · exact ⟨_, _, if_pos hv⟩
  rw [if_neg (not_not.mpr hv)]
  by_cases ht : t.1 = prgHdrSize
  · exact absurd (.intro hopen rfl hr rfl hv rfl rfl ht) (hG header _)
  · exact ⟨_, _, if_pos ht⟩

/-- A round. -/
def segmentStep (D : Files σ φ) (entrySize : Word) (i : Nat) (M : Machine σ) : Option (Machine σ) := do
  let prgHeader := MEMORY_ELF_ADDR + BitVec.ofNat 32 i * entrySize
  if M.mem.load32 prgHeader = PT_LOAD then
    let r ← loadSegment D M prgHeader
    if r.1 then some r.2 else none
  else some M

theorem loadSegments_true_iff : loadSegments D entrySize n (BitVec.ofNat 32 i) M = some (true, M') ↔
    Table.rounds (segmentStep D entrySize) n i M = some M' := by
  induction n generalizing i M with
  | zero => simp [loadSegments, Table.rounds]
  | succ n ih =>
    have hnext : BitVec.ofNat 32 i + 1 = BitVec.ofNat 32 (i + 1) := (BitVec.ofNat_add i 1).symm
    rw [loadSegments, Table.rounds, segmentStep, hnext]
    split
    · cases loadSegment D M (MEMORY_ELF_ADDR + BitVec.ofNat 32 i * entrySize) with
      | none => exact iff_of_false (by simp) (by simp)
      | some r =>
        obtain ⟨loaded, M₁⟩ := r
        cases loaded with
        | false => exact iff_of_false (by simp) (by simp)
        | true => exact ih
    · exact ih

theorem loadInside_iff : LoadInside D M ↔ ∀ header M', GetsToLoop D M header M' →
    header.prgHeaderTableEntrySize.toNat * header.prgHeaderTableEntryCount.toNat ≤ 0x10000 ∧
      (FullEntries header.prgHeaderTableEntrySize header.prgHeaderTableEntryCount ∨
        ∀ M'', loadRounds D header header.whole M' ≠ some (true, M'')) := by
  refine forall_congr' fun header => forall₂_congr fun M' _ => ?_
  have hreads : ∀ n, (∃ M'', loadRounds D header n M' = some (true, M'')) ↔ (Table.rounds (segmentStep D
      (header.prgHeaderTableEntrySize.setWidth 32)) n 0 M').isSome :=
    fun n => (exists_congr fun M'' => loadSegments_true_iff).trans Option.isSome_iff_exists.symm
  rw [← not_exists, hreads, Option.not_isSome_iff_eq_none, ElfHdr.tableSize, toNat_tableBytes]
  simp only [hreads]
  exact and_congr_right fun _ => rounds_inside_iff

end

end Stage2

/-! ## All three -/

/-- The entries that are looked at lie inside the table, and the table of the bootloader in its buffer, iff the entries
are of the full size, or the loop ends at one of those that do, and the table is of 64 KiB at most. -/
theorem headers_inside_iff {ν σ φ : Type} (C : Elf.Calls ν) (k : Elf.Kernel ν) (D : Stage2.Files σ φ)
    (M : Stage2.Machine σ) :
    (Elf.LoadInside C k ↔ ∀ s, Elf.GetsToLoop C k s →
      Elf.HeadersFull C k ∨ ∀ k', Elf.loadRounds C k s (Elf.headersWhole C k) ≠ some (true, k')) ∧
    (Elf.UnloadInside C k ↔ ∀ s, Elf.GetsToLoop C k s →
      Elf.HeadersFull C k ∨ Elf.unloadRounds C k s (Elf.headersWhole C k) = none) ∧
    (Stage2.LoadInside D M ↔ ∀ header M', Stage2.GetsToLoop D M header M' →
      header.prgHeaderTableEntrySize.toNat * header.prgHeaderTableEntryCount.toNat ≤ 0x10000 ∧
        (FullEntries header.prgHeaderTableEntrySize header.prgHeaderTableEntryCount ∨
          ∀ M'', Stage2.loadRounds D header header.whole M' ≠ some (true, M''))) :=
  ⟨Elf.loadInside_iff, Elf.unloadInside_iff, Stage2.loadInside_iff⟩

/-- An executable with one program header of 16 bytes. -/
def shortEntry : List Byte :=
  [0x7F, 0x45, 0x4C, 0x46, 1, 1, 1, 0, 0, 0, 0, 0, 0, 0, 0, 0, 2, 0, 3, 0, 1, 0, 0, 0, 0, 0, 0x10, 0,
    52, 0, 0, 0, 0, 0, 0, 0, 0, 0, 0, 0, 52, 0, 16, 0, 1, 0, 0, 0, 0, 0, 0, 0, 1, 0, 0, 0, 84, 0, 0, 0,
    0, 0, 0, 0, 0, 0, 0, 0]

/-- Its program header is looked at past the end of the table. -/
theorem headers_not_inside : ¬ ∀ (ν σ φ : Type) (C : Elf.Calls ν) (k : Elf.Kernel ν) (D : Stage2.Files σ φ)
    (M : Stage2.Machine σ), Elf.LoadInside C k ∧ Elf.UnloadInside C k ∧ Stage2.LoadInside D M := by
  intro H
  let C := Elf.oneFile shortEntry
  let k := Elf.someKernel
  obtain ⟨s, hs⟩ := Option.isSome_iff_exists.mp (show (storeBytes (Elf.tableBlock C k).2 (Elf.tableBlock C k).1
    (Elf.tableRead C k).2.1).isSome by decide)
  have G : Elf.GetsToLoop C k s :=
    ⟨by decide, not_or.mpr ⟨by decide, by decide⟩, by unfold Elf.TableShort; decide, hs⟩
  have hin := (H _ Unit Unit C k ⟨fun _ => (none, ()), fun _ _ _ => (0, [], ()), fun _ _ => ()⟩
    ⟨fun _ => 0, ()⟩).1 s G 0 (by decide) ⟨_, rfl⟩
  revert hin
  unfold Elf.EntryInside InBlock
  decide

end AlexOS
