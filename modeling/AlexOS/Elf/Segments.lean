import AlexOS.Elf.Failure

/-!
# The loop over the program headers

Where nothing is mapped yet at the pages of the segments, and no two segments have a
page in common (`Placeable`), a round of the loop maps the pages of its segment, to
fresh blocks, and nothing else, and stores the bytes of the file there
(`Progress.loadEntry_ok`). The program headers stay as they were read (`Progress`).
-/

namespace AlexOS.Elf

open Physical Virtual

/-- The file is opened at its start, and read at its position; a seek sets the position. -/
structure Exact {ν : Type} (C : Calls ν) (file : List Byte) (At : Int → Nat → ν → Prop) : Prop where
  opens : ∀ f s, (C.openFile f s).1 ≠ -1 → At (C.openFile f s).1 0 (C.openFile f s).2.1
  reads : ∀ fd, Stream.Delivers (C.read fd) (Buffer.ofList file) file.length (At fd)
  seeks : ∀ fd i p f, At fd i f → At fd p.toNat (C.seek fd p f)

/-- The header of a file. -/
def fileHeader (file : List Byte) : ElfHdr := ElfHdr.ofBuffer (Buffer.ofList file)

/-- Program header `i` of a file. -/
def programHeader (file : List Byte) (i : Nat) : ProgramHeader :=
  ProgramHeader.ofBuffer (Buffer.ofList file)
    ((fileHeader file).prgHeaderTableOffset.toNat + i * (fileHeader file).prgHeaderTableEntrySize.toNat)

/-- Program header `i` is of type LOAD. -/
def Loads (file : List Byte) (i : Nat) : Prop :=
  i < (fileHeader file).prgHeaderTableEntryCount.toNat ∧ (programHeader file i).type = ELF_PROGRAM_TYPE_LOAD

/-- The segment of program header `i`. -/
def segment (file : List Byte) (i : Nat) : Segment := (programHeader file i).segment

/-- The pages that are mapped for a segment. -/
def segmentPages (g : Segment) : Set Nat := pagesOf g.vaddr (NB_PAGE g.memsz).toNat

/-- The pages of the segments before program header `i`. -/
def mappedBefore (file : List Byte) (i : Nat) : Set Nat :=
  {p | ∃ j < i, Loads file j ∧ p ∈ segmentPages (segment file j)}

/-- Nothing is mapped where the segments go, and no page is mapped for two segments. An entry that is
not present can have its highest bit left over, which `map_page` does not clear. -/
structure Placeable (file : List Byte) (s : Paging) : Prop where
  entrySize : (fileHeader file).prgHeaderTableEntryCount.toNat ≠ 0 →
    24 ≤ (fileHeader file).prgHeaderTableEntrySize.toNat
  free : ∀ i, Loads file i → ∀ v, page v ∈ segmentPages (segment file i) →
    ¬ present s v ∧ (entryOf s v).getLsbD 31 = false
  bytes : ∀ i, Loads file i → ∀ x < (segment file i).filesz.toNat,
    ¬ present s ((segment file i).vaddr + BitVec.ofNat 32 x)
  apart : ∀ i j, Loads file i → Loads file j → i < j →
    Disjoint (segmentPages (segment file i)) (segmentPages (segment file j))

/-- The program headers are in memory, in the pages `T`. -/
structure TableAt (file : List Byte) (T : Set Nat) (s : Paging) (table : Addr) : Prop where
  pages : ∀ x < (fileHeader file).tableSize.toNat, page (table + BitVec.ofNat 32 x) ∈ T
  bytes : ∀ x < (fileHeader file).tableSize.toNat, space s (table + BitVec.ofNat 32 x) =
    Buffer.ofList file ((fileHeader file).prgHeaderTableOffset.toNat + x)

/-- The state before round `i` of the loop, which starts with `s₁`. -/
structure Progress (file : List Byte) (T : Set Nat) (s₁ : Paging) (i : Nat) (s : Paging) : Prop
    extends Grows s₁ s where
  live : Live s (T ∪ mappedBefore file i)
  others : ∀ v, page v ∉ mappedBefore file i → entryOf s v = entryOf s₁ v
  table : ∀ v, page v ∈ T → space s v = space s₁ v

/-- The address of program header `i`. -/
def entryAddr (file : List Byte) (table : Addr) (i : Nat) : Addr :=
  table + BitVec.ofNat 32 i * (fileHeader file).prgHeaderTableEntrySize.setWidth 32

/-- The blocks that are allocated for a segment are fresh, in each of `n` rounds from `i` on. -/
def FreshRounds {ν : Type} (C : Calls ν) (fd : Int) (file : List Byte) (table : Addr) :
    Nat → Nat → Kernel ν → Prop
  | 0, _, _ => True
  | n + 1, i, k =>
    (Loads file i → FreshAllocation k.paging (segment file i).vaddr (NB_PAGE (segment file i).memsz)) ∧
    ∀ k', loadLoop C fd table ((fileHeader file).prgHeaderTableEntrySize.setWidth 32) 1 i k = some (true, k') →
      FreshRounds C fd file table n (i + 1) k'

/-- They are when the program headers have been read. -/
def FreshLoad {ν : Type} (C : Calls ν) (file : List Byte) (k : Kernel ν) : Prop :=
  ∀ s, TableStored C k s → FreshRounds C (handle C k) file (tableBlock C k).1
    (fileHeader file).prgHeaderTableEntryCount.toNat 0 ⟨s, (tableRead C k).2.2⟩

section

variable {ν : Type} {C : Calls ν} {file : List Byte} {At : Int → Nat → ν → Prop} {k k' : Kernel ν}
  {s s₁ s' : Paging} {fd : Int} {table v : Addr} {i x : Nat} {w : Word} {T : Set Nat}

theorem load32_eq (h : Virtual.load32 s v = some w) : w = (space s).load32 v := by
  unfold Virtual.load32 at h
  split at h
  · exact (Option.some.inj h).symm
  · cases h

/-- The size of the program headers does not overflow. -/
theorem toNat_tableSize (header : ElfHdr) : header.tableSize.toNat =
    header.prgHeaderTableEntrySize.toNat * header.prgHeaderTableEntryCount.toNat := by
  have h1 := header.prgHeaderTableEntrySize.isLt
  have h2 := header.prgHeaderTableEntryCount.isLt
  have hlt : header.prgHeaderTableEntrySize.toNat * header.prgHeaderTableEntryCount.toNat < 2 ^ 16 * 2 ^ 16 :=
    Nat.mul_lt_mul'' h1 h2
  rw [ElfHdr.tableSize, BitVec.toNat_mul, BitVec.toNat_setWidth, BitVec.toNat_setWidth,
    Nat.mod_eq_of_lt (h1.trans (by decide)), Nat.mod_eq_of_lt (h2.trans (by decide)),
    Nat.mod_eq_of_lt (hlt.trans_eq (by decide))]

theorem entryAddr_add (file : List Byte) (table : Addr) (i x : Nat) : entryAddr file table i + BitVec.ofNat 32 x =
    table + BitVec.ofNat 32 (i * (fileHeader file).prgHeaderTableEntrySize.toNat + x) := by
  rw [entryAddr, ← BitVec.ofNat_toNat, BitVec.add_assoc, ← BitVec.ofNat_mul, ← BitVec.ofNat_add]

/-- A field of program header `i`, as the loop loads it. -/
theorem TableAt.field (A : TableAt file T s₁ table) (P : Placeable file s')
    (hT : ∀ v, page v ∈ T → space s v = space s₁ v) (hi : i < (fileHeader file).prgHeaderTableEntryCount.toNat)
    (hx : x + 4 ≤ 24) (h : Virtual.load32 s (entryAddr file table i + BitVec.ofNat 32 x) = some w) :
    w = (Buffer.ofList file).load32 ((fileHeader file).prgHeaderTableOffset.toNat +
      i * (fileHeader file).prgHeaderTableEntrySize.toNat + x) := by
  have he := P.entrySize (by omega)
  have hle := Nat.mul_le_mul_left (fileHeader file).prgHeaderTableEntrySize.toNat (Nat.succ_le_of_lt hi)
  rw [← toNat_tableSize, Nat.mul_succ, Nat.mul_comm] at hle
  rw [load32_eq h, entryAddr_add, ← Mem.load32_view]
  refine Buffer.load32_congr fun j hj => ?_
  have hin : i * (fileHeader file).prgHeaderTableEntrySize.toNat + x + j < (fileHeader file).tableSize.toNat := by
    omega
  rw [Mem.view, hT _ (A.pages _ hin), A.bytes _ hin]
  congr 1
  omega

theorem mappedBefore_succ (h : Loads file i) :
    mappedBefore file (i + 1) = mappedBefore file i ∪ segmentPages (segment file i) := by
  ext p
  constructor
  · rintro ⟨j, hj, hl, hp⟩
    rcases Nat.lt_succ_iff_lt_or_eq.mp hj with hlt | rfl
    · exact .inl ⟨j, hlt, hl, hp⟩
    · exact .inr hp
  · rintro (⟨j, hj, hl, hp⟩ | hp)
    · exact ⟨j, Nat.lt_succ_of_lt hj, hl, hp⟩
    · exact ⟨i, Nat.lt_succ_self i, h, hp⟩

theorem mappedBefore_skip (h : ¬ Loads file i) : mappedBefore file (i + 1) = mappedBefore file i := by
  ext p
  constructor
  · rintro ⟨j, hj, hl, hp⟩
    rcases Nat.lt_succ_iff_lt_or_eq.mp hj with hlt | rfl
    · exact ⟨j, hlt, hl, hp⟩
    · exact absurd hl h
  · rintro ⟨j, hj, hl, hp⟩
    exact ⟨j, Nat.lt_succ_of_lt hj, hl, hp⟩

/-- A page that was present is not mapped for a segment. -/
theorem Placeable.notMapped (P : Placeable file s₁) (h : present s₁ v) (i : Nat) :
    page v ∉ mappedBefore file i := by
  rintro ⟨j, -, hl, hp⟩
  exact (P.free j hl v hp).1 h

/-! ## A round -/

/-- The bytes of the file for a segment. -/
def segmentBytes (file : List Byte) (g : Segment) : List Byte :=
  (Buffer.ofList file).slice g.offset.toNat (min g.filesz.toNat (file.length - g.offset.toNat))

/-- What a round for segment `g` does to the live pages. -/
structure Filled (file : List Byte) (P : Set Nat) (g : Segment) (s s' : Paging) : Prop where
  others : ∀ v, page v ∈ P → space s' v = (space s).write g.vaddr (segmentBytes file g) v
  bytes : ∀ x < (segmentBytes file g).length, page (g.vaddr + BitVec.ofNat 32 x) ∈ segmentPages g →
    space s' (g.vaddr + BitVec.ofNat 32 x) = Buffer.ofList file (g.offset.toNat + x)

namespace Progress

variable (P : Progress file T s₁ i s)

include P

theorem filled (hp : Placeable file s₁) (hl : Loads file i) (hT : ∀ v, page v ∈ T → present s₁ v)
    (F : FreshAllocation s (segment file i).vaddr (NB_PAGE (segment file i).memsz))
    (h : (allocateNewPage s (segment file i).vaddr (NB_PAGE (segment file i).memsz)).1 ≠ 0)
    (hs : storeBytes (allocateNewPage s (segment file i).vaddr (NB_PAGE (segment file i).memsz)).2
      (segment file i).vaddr (segmentBytes file (segment file i)) = some s') :
    Progress file T s₁ (i + 1) s' ∧ Filled file (mappedBefore file i) (segment file i) s s' := by
  have hsuf := mappedBefore_succ hl
  have hfree := hp.free i hl
  have hbytes := hp.bytes i hl
  -- the range is unmapped before the round
  have hclear : ∀ v, page v ∈ segmentPages (segment file i) → page v ∉ mappedBefore file i := by
    rintro v hv ⟨j, hj, hlj, hpj⟩
    exact Set.disjoint_left.mp (hp.apart j i hlj hl hj) hpj hv
  generalize segment file i = g at *
  have O := (P.layout.obtained F h).2
  generalize (allocateNewPage s g.vaddr (NB_PAGE g.memsz)).2 = s₂ at *
  have hlen : (segmentBytes file g).length ≤ g.filesz.toNat := by
    rw [segmentBytes, Buffer.length_slice]
    exact Nat.min_le_left _ _
  have hlen32 := hlen.trans g.filesz.isLt.le
  obtain ⟨L, hold⟩ := P.live.obtained O fun v hv => by
    rw [P.others v (hclear v hv)]
    exact (hfree v hv).2
  -- where a page is present, and not one that was mapped, it was present at first
  have hfirst : ∀ v, page v ∉ mappedBefore file i → page v ∉ segmentPages g →
    entryOf s₂ v = entryOf s₁ v :=
    fun v hm hr => (O.others v hr).trans (P.others v hm)
  have S := L.storeBytes_ok O.layout hlen32 (fun x hx hpres => by
    by_contra hnot
    apply hbytes x (hx.trans_le hlen)
    rw [present, ← hfirst _ (fun h => hnot (.inl (.inr h))) fun h => hnot (.inr h)]
    exact hpres) hs
  refine ⟨⟨P.toGrows.trans (O.toGrows.trans S.toGrows), ?_, fun v hv => ?_, fun v hv => ?_⟩, fun v hv => ?_,
    fun x hx hr => ?_⟩
  · rw [hsuf, ← Set.union_assoc]
    exact S.live
  · rw [hsuf] at hv
    exact (S.entries v).trans (hfirst v (fun h => hv (.inl h)) fun h => hv (.inr h))
  · have hr : page v ∉ segmentPages g := fun h => (hfree v h).1 (hT v hv)
    rw [S.space v (.inl (.inl hv)), Mem.write_other, hold v (.inl hv) hr, P.table v hv]
    rintro x hx rfl
    exact hbytes x (hx.trans_le hlen) (hT _ hv)
  · rw [S.space v (.inl (.inr hv))]
    exact Mem.write_congr (hold v (.inr hv) fun h => hclear v h hv)
  · have hlen' : x < min g.filesz.toNat (file.length - g.offset.toNat) := by
      rwa [segmentBytes, Buffer.length_slice] at hx
    rw [S.space _ (.inr hr), Mem.write_byte hx hlen32, segmentBytes, Buffer.getD_slice hlen']

/-- The program headers, whether there were pages for the segment or not. -/
theorem space_allocated (hp : Placeable file s₁) (hl : Loads file i) (hT : ∀ v, page v ∈ T → present s₁ v)
    (F : FreshAllocation s (segment file i).vaddr (NB_PAGE (segment file i).memsz))
    (hv : page v ∈ T) :
    space (allocateNewPage s (segment file i).vaddr (NB_PAGE (segment file i).memsz)).2 v = space s₁ v := by
  have hr : page v ∉ segmentPages (segment file i) := fun h => (hp.free i hl v h).1 (hT v hv)
  have S := P.layout.allocateNewPage_still F
  rw [← P.table v hv]
  exact space_congr (P.live.owned v (.inl hv)).present (P.layout.allocateNewPage_others F hr)
    (S.byte (P.live.spare (.inl hv)))

end Progress

/-- A seek and a read, for the bytes of a segment. -/
theorem Exact.segment_ok (X : Exact C file At) {j : Nat} (hA : At fd j k.files) (g : Segment) :
    (C.read fd (C.seek fd g.offset k.files) g.filesz).2.1 = segmentBytes file g ∧
      ∃ j', At fd j' (C.read fd (C.seek fd g.offset k.files) g.filesz).2.2 := by
  obtain ⟨-, hout, hat⟩ := X.reads fd _ _ g.filesz (X.seeks fd j g.offset k.files hA)
  exact ⟨hout, _, hat⟩

/-- A round for a segment that there are pages for. -/
theorem Progress.loadEntry_ok (P : Progress file T s₁ i k.paging) (hp : Placeable file s₁) (hl : Loads file i)
    (F : FreshAllocation k.paging (segment file i).vaddr (NB_PAGE (segment file i).memsz))
    (L : Live s₁ T) (A : TableAt file T s₁ table) (X : Exact C file At) {j : Nat} (hA : At fd j k.files)
    (h : loadEntry C fd (entryAddr file table i) i k = some (true, k')) :
    Progress file T s₁ (i + 1) k'.paging ∧ Filled file (mappedBefore file i) (segment file i) k.paging k'.paging ∧
      ∃ j', At fd j' k'.files := by
  have hT : ∀ v, page v ∈ T → present s₁ v := fun v hv => (L.owned v hv).present
  cases loadEntry_outcome h with
  | loaded hv hm h0 ho hf hs =>
    obtain rfl : _ = (segment file i).vaddr := A.field hp P.table hl.1 (by decide) hv
    obtain rfl : _ = (segment file i).memsz := A.field hp P.table hl.1 (by decide) hm
    have hspace : ∀ v, page v ∈ T → _ := fun v hv => P.space_allocated hp hl hT F hv
    obtain rfl : _ = (segment file i).offset := A.field hp hspace hl.1 (by decide) ho
    obtain rfl : _ = (segment file i).filesz := A.field hp hspace hl.1 (by decide) hf
    obtain ⟨hout, hat⟩ := X.segment_ok hA (segment file i)
    have hbuffer := (P.layout.obtained F h0).1
    rw [hbuffer, hout] at hs
    obtain ⟨P', hfilled⟩ := P.filled hp hl hT F h0 hs
    exact ⟨P', hfilled, hat⟩

/-! ## The loop -/

/-- The rounds from `i` on: they keep what each round keeps (`I`), up to the first segment there are no pages
for. -/
theorem Progress.loadLoop_ok {I : Nat → Paging → Prop} {n : Nat} {done : Bool} (hp : Placeable file s₁)
    (L : Live s₁ T) (A : TableAt file T s₁ table) (X : Exact C file At)
    (hround : ∀ i s s', Loads file i → Filled file (mappedBefore file i) (segment file i) s s' →
      I i s → I (i + 1) s')
    (hskip : ∀ i s, ¬ Loads file i → I i s → I (i + 1) s) (P : Progress file T s₁ i k.paging)
    (hI : I i k.paging) {j : Nat} (hA : At fd j k.files)
    (hn : i + n = (fileHeader file).prgHeaderTableEntryCount.toNat) (F : FreshRounds C fd file table n i k)
    (h : loadLoop C fd table ((fileHeader file).prgHeaderTableEntrySize.setWidth 32) n i k = some (done, k')) :
    (done = true → Progress file T s₁ (i + n) k'.paging ∧ I (i + n) k'.paging) ∧
      (done = false → ∃ l k₁, Loads file l ∧ Progress file T s₁ l k₁.paging ∧
        FreshAllocation k₁.paging (segment file l).vaddr (NB_PAGE (segment file l).memsz) ∧
        loadEntry C fd (entryAddr file table l) l k₁ = some (false, k')) := by
  induction n generalizing i j k with
  | zero =>
    cases h
    exact ⟨fun _ => ⟨P, hI⟩, fun hd => absurd hd Bool.true_eq_false.mp⟩
  | succ n ih =>
    obtain ⟨type, ht, h⟩ := Option.bind_eq_some_iff.mp h
    have htype : type = (programHeader file i).type := by
      have e : entryAddr file table i + BitVec.ofNat 32 0 = entryAddr file table i := BitVec.add_zero _
      exact A.field hp P.table (x := 0) (by omega) (by decide) (by rw [e]; exact ht)
    have hnext : i + 1 + n = i + (n + 1) := by omega
    rw [← hnext] at hn ⊢
    split at h
    · rename_i hload
      have hl : Loads file i := ⟨by omega, htype ▸ hload⟩
      obtain ⟨⟨found, k₁⟩, hr, h⟩ := Option.bind_eq_some_iff.mp h
      cases found with
      | true =>
        obtain ⟨P', hfilled, _, hA'⟩ := P.loadEntry_ok hp hl (F.1 hl) L A X hA hr
        have F' := F.2 k₁ (by
          simp only [loadLoop, ht, Option.bind_eq_bind, Option.bind_some, if_pos hload]
          rw [show loadEntry C fd _ i k = some (true, k₁) from hr]
          rfl)
        exact ih P' (hround i _ _ hl hfilled hI) hA' hn F' h
      | false =>
        cases h
        exact ⟨fun hd => absurd hd Bool.false_ne_true, fun _ => ⟨i, k, hl, P, F.1 hl, hr⟩⟩
    · rename_i hload
      have hl : ¬ Loads file i := fun hl => hload (htype.trans hl.2)
      have F' := F.2 k (by simp only [loadLoop, ht, Option.bind_eq_bind, Option.bind_some, if_neg hload])
      refine ih ⟨P.toGrows, ?_, fun v hv => P.others v ?_, P.table⟩ (hskip i _ hl hI) hA hn F' h
      · rw [mappedBefore_skip hl]
        exact P.live
      · rwa [← mappedBefore_skip hl]

/-! ## The state when the program headers have been read -/

/-- A header of which the first 52 bytes are the file's. -/
theorem fileHeader_eq {b : Buffer} (h : ∀ i < 52, b i = Buffer.ofList file i) :
    ElfHdr.ofBuffer b = fileHeader file := by
  have h16 : ∀ i, i + 2 ≤ 52 → b.load16 i = (Buffer.ofList file).load16 i := fun i hi =>
    Buffer.load16_congr fun j hj => h _ (by omega)
  have h32 : ∀ i, i + 4 ≤ 52 → b.load32 i = (Buffer.ofList file).load32 i := fun i hi =>
    Buffer.load32_congr fun j hj => h _ (by omega)
  have h4 : b.slice 0 4 = (Buffer.ofList file).slice 0 4 := Buffer.slice_congr fun j hj => h _ (by omega)
  simp only [fileHeader, ElfHdr.ofBuffer, h4, h 4 (by decide), h 6 (by decide), h16 16 (by decide), h16 18 (by decide),
    h16 42 (by decide), h16 44 (by decide), h32 20 (by decide), h32 24 (by decide), h32 28 (by decide)]

theorem Exact.header_ok (X : Exact C file At) (hfd : handle C k ≠ -1) (hr : ¬ HeaderRefused C k) :
    headerOf C k = fileHeader file ∧ ∃ j, At (handle C k) j (headerRead C k).2.2 := by
  obtain ⟨hret, hout, hat⟩ := X.reads (handle C k) _ 0 sizeofElfHdr (X.opens k.files k.paging hfd)
  refine ⟨fileHeader_eq fun i hi => ?_, _, hat⟩
  have hlong : ¬ (headerRead C k).1 < sizeofElfHdr := (not_or.mp hr).1
  rw [BitVec.lt_def, show (headerRead C k).1.toNat = _ from hret] at hlong
  rw [show (headerRead C k).2.1 = _ from hout, Buffer.ofList, Buffer.getD_slice, Nat.zero_add]
  have h52 : sizeofElfHdr.toNat = 52 := rfl
  omega

theorem Exact.table_ok (X : Exact C file At) (hfd : handle C k ≠ -1) (hr : ¬ HeaderRefused C k)
    (hs : ¬ TableShort C k) :
    (tableRead C k).2.1 = (Buffer.ofList file).slice (fileHeader file).prgHeaderTableOffset.toNat
        (fileHeader file).tableSize.toNat ∧
      ∃ j, At (handle C k) j (tableRead C k).2.2 := by
  obtain ⟨hheader, j, hj⟩ := X.header_ok hfd hr
  obtain ⟨hret, hout, hat⟩ := X.reads (handle C k) _ _ (headerOf C k).tableSize
    (X.seeks (handle C k) j (headerOf C k).prgHeaderTableOffset _ hj)
  have hlong : ¬ (tableRead C k).1 < (headerOf C k).tableSize := hs
  rw [BitVec.lt_def, show (tableRead C k).1.toNat = _ from hret] at hlong
  refine ⟨(show (tableRead C k).2.1 = _ from hout).trans ?_, _, hat⟩
  rw [← hheader]
  congr 1
  omega

/-- The reads return no more than they are asked for. -/
theorem Exact.length_le (X : Exact C file At) (hfd : handle C k ≠ -1) (hr : ¬ HeaderRefused C k) :
    (tableRead C k).2.1.length ≤ (headerOf C k).tableSize.toNat := by
  obtain ⟨-, j, hj⟩ := X.header_ok hfd hr
  obtain ⟨-, hout, -⟩ := X.reads (handle C k) _ _ (headerOf C k).tableSize
    (X.seeks (handle C k) j (headerOf C k).prgHeaderTableOffset _ hj)
  rw [show (tableRead C k).2.1 = _ from hout, Buffer.length_slice]
  exact Nat.min_le_left _ _

/-- Only the entries matter. -/
theorem Placeable.congr (P : Placeable file s) (h : ∀ v, entryOf s₁ v = entryOf s v) : Placeable file s₁ where
  entrySize := P.entrySize
  free i hl v hv := by
    rw [present, h]
    exact P.free i hl v hv
  bytes i hl x hx := by
    rw [present, h]
    exact P.bytes i hl x hx
  apart := P.apart

/-- The program headers have been read to the pages `T`, and the entries are as `calloc` left them. -/
structure Started (file : List Byte) (T : Set Nat) (s₀ s : Paging) (table : Addr) : Prop extends
    TableAt file T s table where
  live : Live s T
  entries : ∀ v, entryOf s v = entryOf s₀ v
  grows : Grows s₀ s

theorem Exact.started (X : Exact C file At) (M : Callocs C (fileHeader file).tableSize (opened C k).paging)
    (hfd : handle C k ≠ -1) (hr : ¬ HeaderRefused C k) (hs : ¬ TableShort C k) (h : TableStored C k s) :
    Started file (pagesOfBytes (tableBlock C k).1 (fileHeader file).tableSize.toNat) (tableBlock C k).2 s
      (tableBlock C k).1 := by
  have hheader := (X.header_ok hfd hr).1
  have S := tableStored_ok (hheader ▸ M) (X.length_le hfd hr) h
  rw [hheader, (X.table_ok hfd hr hs).1] at S
  have h32 := (fileHeader file).tableSize.isLt
  refine ⟨⟨fun x hx => ⟨x, hx, rfl⟩, fun x hx => ?_⟩, S.live, S.entries, S.toGrows⟩
  rw [S.space _ ⟨x, hx, rfl⟩]
  exact Mem.view_write_slice hx h32.le

theorem Started.progress {s₀ : Paging} (D : Started file T s₀ s table) : Progress file T s 0 s := by
  have hnone : mappedBefore file 0 = ∅ := Set.eq_empty_of_forall_notMem fun p hp => by
    obtain ⟨j, hj, -⟩ := hp
    exact Nat.not_lt_zero j hj
  refine ⟨Grows.refl D.grows.layout, ?_, fun _ _ => rfl, fun _ _ => rfl⟩
  rw [hnone, Set.union_empty]
  exact D.live

end

end AlexOS.Elf
