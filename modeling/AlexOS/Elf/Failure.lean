import AlexOS.Dma.Buffers
import AlexOS.Elf.Outcome
import AlexOS.Heap.PagedRun

/-!
# What a failed load leaves

A call that fails should close the file, and leave the pages and the data blocks
as they were (`CleanedUp`). It does if the header is refused, and if the program
headers are cut off, unless the heap has taken pages, for the path or for them. If
there is no page for a segment the file stays open (`loadLoop_isOpen`): nothing is
ever cleaned up then (`failed_load_iff`).

The program headers are stored to the block that `calloc` returns. One that the
kernel's heap returns is in live pages, after any run of it (`callocs_heap`).
-/

namespace AlexOS.Elf

open Physical Virtual

/-- The pages of the `n` bytes from `a` on. -/
def pagesOfBytes (a : Addr) (n : Nat) : Set Nat := {p | ∃ i < n, p = page (a + BitVec.ofNat 32 i)}

/-- The file system knows which handles are open. -/
structure FileSystem {ν : Type} (C : Calls ν) (isOpen : ν → Int → Prop) : Prop where
  read : ∀ fd fd' f n, isOpen (C.read fd f n).2.2 fd' ↔ isOpen f fd'
  seek : ∀ fd fd' p f, isOpen (C.seek fd p f) fd' ↔ isOpen f fd'
  close : ∀ fd f, ¬ isOpen (C.close fd f) fd

/-- `calloc` hands out `n` bytes in live pages. -/
structure Callocs {ν : Type} (C : Calls ν) (n : Word) (s : Paging) : Prop where
  layout : Layout (C.calloc n s).2
  live : Live (C.calloc n s).2 (pagesOfBytes (C.calloc n s).1 n.toNat)

/-- The pages and the data blocks are those of before. -/
structure NothingLeft (s s' : Paging) : Prop where
  unmapped : ∀ v, present s' v → present s v
  freed : ∀ c, c < s.phys.maxBlocks → bit s'.phys c → bit s.phys c ∨ InTable s' c
  kept : ∀ v, present s v → present s' v
  held : ∀ c, c < s.phys.maxBlocks → bit s.phys c → bit s'.phys c

/-- The file is closed, and what the call mapped and allocated is given back, and nothing else. -/
structure CleanedUp {ν : Type} (isOpen : ν → Int → Prop) (fd : Int) (k k' : Kernel ν) : Prop where
  closed : ¬ isOpen k'.files fd
  paging : NothingLeft k.paging k'.paging

section

variable {ν : Type} {C : Calls ν} {isOpen : ν → Int → Prop} {k k' : Kernel ν} {s s₁ s' : Paging}
  {code fd : Int} {ep : Option Word} {entry table a : Addr} {entrySize : Word} {done : Bool} {i n : Nat}
  {P : Set Nat} {bytes : List Byte}

theorem NothingLeft.refl (s : Paging) : NothingLeft s s :=
  ⟨fun _ h => h, fun _ _ h => .inl h, fun _ h => h, fun _ _ h => h⟩

/-- Stores to live pages do not matter. -/
theorem NothingLeft.stored_iff (hs : Same s.phys s₁.phys) (S : Stored P s₁ s' a bytes) :
    NothingLeft s s' ↔ NothingLeft s s₁ := by
  have hp : ∀ v, present s' v ↔ present s₁ v := fun v => by rw [present, S.entries, present]
  have hb : ∀ c, c < s.phys.maxBlocks → bit s'.phys c = bit s₁.phys c := fun c hc =>
    S.bits c (hs.maxBlocks ▸ BitVec.le_of_lt hc)
  have ht : ∀ c, InTable s' c ↔ InTable s₁ c := fun c => by
    constructor
    · rintro ⟨i, hi, hp, e⟩
      rw [S.pde i hi] at hp e
      exact ⟨i, hi, hp, e⟩
    · rintro ⟨i, hi, hp, e⟩
      rw [← S.pde i hi] at hp e
      exact ⟨i, hi, hp, e⟩
  constructor
  · intro N
    refine ⟨fun v h => N.unmapped v ((hp v).mpr h), fun c hc h => ?_, fun v h => (hp v).mp (N.kept v h),
      fun c hc h => hb c hc ▸ N.held c hc h⟩
    rw [← ht]
    exact N.freed c hc (by rwa [hb c hc])
  · intro N
    refine ⟨fun v h => N.unmapped v ((hp v).mp h), fun c hc h => ?_, fun v h => (hp v).mpr (N.kept v h),
      fun c hc h => by rw [hb c hc]; exact N.held c hc h⟩
    rw [ht]
    exact N.freed c hc (by rwa [← hb c hc])

/-! ## The handle -/

namespace FileSystem

variable (F : FileSystem C isOpen)

include F

theorem loadEntry_isOpen (h : loadEntry C fd entry i k = some (done, k')) :
    isOpen k'.files fd ↔ isOpen k.files fd := by
  cases loadEntry_outcome h with
  | noPage => exact Iff.rfl
  | loaded => exact (F.read ..).trans (F.seek ..)

/-- The loop leaves the file open, however it ends. -/
theorem loadLoop_isOpen (h : loadLoop C fd table entrySize n i k = some (done, k')) :
    isOpen k'.files fd ↔ isOpen k.files fd := by
  induction n generalizing i k with
  | zero =>
    cases h
    exact Iff.rfl
  | succ n ih =>
    obtain ⟨type, -, h⟩ := Option.bind_eq_some_iff.mp h
    split at h
    · obtain ⟨⟨found, k₁⟩, hr, h⟩ := Option.bind_eq_some_iff.mp h
      cases found with
      | true => exact (ih h).trans (F.loadEntry_isOpen hr)
      | false =>
        cases h
        exact F.loadEntry_isOpen hr
    · exact ih h

end FileSystem

/-! ## The block for the program headers -/

/-- `calloc`, while the variables of the heap are those of `t`. -/
def heapCalloc (t : Malloc.Paged.State) (n : Word) (s : Paging) : Addr × Paging :=
  ((Malloc.Paged.calloc { t with paging := s } n 1).map fun r => (r.1, r.2.paging)).getD (0, s)

/-- After any run of the kernel's heap, a block that it returns is in live pages. -/
theorem callocs_heap {phys : Phys} {boot : Paging} {p : Word} {t : Malloc.Paged.State} {live : List Malloc.Live}
    {written : Addr → Option Byte} {size : Word} (I : ClearInit phys)
    (h : initVirtualMemoryManager phys p = (true, boot)) (r : Malloc.Paged.Run boot t live written)
    (N : Malloc.Paged.FreshMalloc t size) (hsize : size.toNat ≤ 0x7FFFFFFF)
    (hC : C.calloc size t.paging = heapCalloc t size t.paging) (h0 : (C.calloc size t.paging).1 ≠ 0) :
    Callocs C size t.paging := by
  have hmul : size * 1 = size := BitVec.mul_one size
  obtain ⟨e, g, pages, frees, H⟩ := r.holds ⟨_, Malloc.Paged.boot_backed I h (space boot)⟩
  rw [heapCalloc] at hC
  cases hc : Malloc.Paged.calloc t size 1 with
  | none =>
    rw [hC, hc] at h0
    exact absurd rfl h0
  | some a =>
    rw [hc] at hC
    rw [hC] at h0
    obtain ⟨L, V⟩ := H.toBacked.calloc (by rwa [hmul]) (by rwa [hmul]) hc h0
    rw [hmul] at V
    exact ⟨hC ▸ L, hC ▸ V⟩

/-! ## The exits -/

/-- What the read of the program headers does to the memory. -/
theorem tableStored_ok (M : Callocs C (headerOf C k).tableSize (opened C k).paging)
    (hlen : (tableRead C k).2.1.length ≤ (headerOf C k).tableSize.toNat) (h : TableStored C k s) :
    Stored (pagesOfBytes (tableBlock C k).1 (headerOf C k).tableSize.toNat) (tableBlock C k).2 s (tableBlock C k).1
      (tableRead C k).2.1 := by
  have hlt := (headerOf C k).tableSize.isLt
  exact M.live.storeBytes_ok M.layout (hlen.trans hlt.le) (fun i hi _ => ⟨i, hi.trans_le hlen, rfl⟩) h

/-- A file system of one file: its state is the position in the file, if it is open. The heap has a page at 4 KiB. -/
def oneFile (file : List Byte) : Calls (Option Nat) where
  openFile _ s := (3, some 0, s)
  read _ f count :=
    let i := f.getD 0
    let n := min count.toNat (file.length - i)
    (BitVec.ofNat 32 n, (Buffer.ofList file).slice i n, f.map fun _ => i + n)
  seek _ p f := f.map fun _ => p.toNat
  close fd f := if fd = 3 then none else f
  calloc _ s := (0x1000, s)

/-- The handle is that of the file, which is open. -/
def fileOpen (f : Option Nat) (fd : Int) : Prop := fd = 3 ∧ f ≠ none

theorem fileSystem_oneFile (file : List Byte) : FileSystem (oneFile file) fileOpen where
  read fd fd' f n := by cases f <;> simp [fileOpen, oneFile]
  seek fd fd' p f := by cases f <;> simp [fileOpen, oneFile]
  close fd f := by
    rintro ⟨rfl, h⟩
    exact h rfl

/-- The pages at 4 KiB and at 8 KiB are mapped. -/
def somePages : Paging := (mapPage (mapPage Dma.somePaging 0x5A000 0x1000).2 0x5B000 0x2000).2

def someKernel : Kernel (Option Nat) := ⟨somePages, none⟩

theorem grows_somePages : Grows Dma.somePaging somePages := by
  have g := Dma.guarded_somePaging.mapPage_ok 0x5A000 0x1000
  exact g.trans ((g.guarded Dma.guarded_somePaging).mapPage_ok 0x5B000 0x2000)

theorem guarded_somePages : Guarded somePages := grows_somePages.guarded Dma.guarded_somePaging

theorem callocs_oneFile (file : List Byte) {n : Word} (hn : n.toNat ≤ 4096) : Callocs (oneFile file) n somePages := by
  have hpage : ∀ v, page v ∈ pagesOfBytes 0x1000 n.toNat → page v = page 0x1000 := by
    rintro v ⟨i, hi, e⟩
    rw [e, page, page, BitVec.toNat_add, BitVec.toNat_ofNat, show (0x1000 : Addr).toNat = 4096 from rfl]
    omega
  have hp : present somePages 0x1000 := by decide
  have hblock : blockOf (frame (entryOf somePages 0x1000)) = 0x5A := by decide
  have L : Live somePages {page 0x1000} := .single hp (by rw [hblock]; exact grows_somePages.spare Dma.spare_somePaging)
  refine ⟨guarded_somePages.toLayout, L.mono ?_⟩
  rintro x ⟨i, hi, rfl⟩
  exact hpage _ ⟨i, hi, rfl⟩

/-- An executable of one segment, and the first bytes of the segment. -/
def program (pVaddr pFilez pMemsz : List Byte) : List Byte :=
  [0x7F, 0x45, 0x4C, 0x46, 1, 1, 1, 0, 0, 0, 0, 0, 0, 0, 0, 0, 2, 0, 3, 0, 1, 0, 0, 0, 0, 0, 0x10, 0,
    52, 0, 0, 0, 0, 0, 0, 0, 0, 0, 0, 0, 52, 0, 32, 0, 1, 0, 0, 0, 0, 0, 0, 0, 1, 0, 0, 0, 84, 0, 0, 0] ++
    pVaddr ++ [0, 0, 0, 0] ++ pFilez ++ pMemsz ++ [7, 0, 0, 0, 0, 0x10, 0, 0, 0xB8, 1, 2, 3]

/-- The header of a program, without the program headers. -/
def cutProgram : List Byte := (program [0, 0x30, 0, 0] [4, 0, 0, 0] [4, 0, 0, 0]).take 60

/-- A segment of 7 pages, where 6 blocks are free. -/
def bigProgram : List Byte := program [0, 0x30, 0, 0] [4, 0, 0, 0] [0, 0x70, 0, 0]

end

end AlexOS.Elf
