import AlexOS.Lib.LinkedList
import AlexOS.Virtual.PageTables

/-!
# The allocator of DMA buffers

`dma_allocator.c`. Its headers of pages and of blocks are records at their
addresses, apart from the memory of the page tables; `calloc` and `free`, which
may map pages too, are given by an interface (`Calls`). Loops along a list run
for at most `walkFuel` rounds, more than a list has nodes. There is no result
if a loop does not end, or if the null pointer is dereferenced.
-/

namespace AlexOS.Dma

open Physical Virtual

/-- A list of distinct nonzero addresses is shorter. -/
def walkFuel : Nat := 2 ^ 32

structure BlkHeader where
  prev : Addr
  size : Word
  actualSize : Word
  free : Byte
  blk : Addr

structure PageHeader where
  next : Addr
  size : Word
  usedSize : Word
  physAddr : Word
  page : Addr
  lastBlk : Addr

/-- `sizeof(struct blk_header)` and `sizeof(struct page_header)`. -/
def sizeofBlkHeader : Word := 20
def sizeofPageHeader : Word := 24

/-- `calloc` of bytes, and `free`. -/
structure Calls (σ : Type) where
  calloc : Word → σ → Paging → Addr × σ × Paging
  free : Addr → σ → Paging → σ × Paging

structure State (σ : Type) where
  paging : Paging
  heap : σ
  firstPage : Addr
  pages : Addr → PageHeader
  blks : Addr → BlkHeader

def dmaAlign (n base : Word) : Word := if n % base = 0 then n else base - n % base + n

/-! ## Pages -/

/-- The loop of `dma_allocate_new_page`: whether a page was mapped is not looked at. -/
def mapRange (s : Paging) (physAddr virtAddr : Addr) : Nat → Paging
  | 0 => s
  | n + 1 => (mapPage (mapRange s physAddr virtAddr n) (pageAfter physAddr n) (pageAfter virtAddr n)).2

def dmaAllocateNewPage (s : Paging) (nbPage : Word) : Addr × Paging :=
  let a := allocateBlocks s.phys nbPage
  let s := { s with phys := a.2 }
  if a.1 = 0 then (0, s) else
  let f := findFreePage s nbPage
  (f.1, mapRange f.2 a.1 f.1 nbPage.toNat)

def dmaDeallocatePage (s : Paging) (page : Addr) (physAddr nbPage : Word) : Paging :=
  let s := unmapPages s page nbPage.toNat
  { s with phys := freeBlocks s.phys physAddr nbPage }

namespace State

variable {σ : Type} (s : State σ)

def setPage (a : Addr) (h : PageHeader) : State σ :=
  { s with pages := fun x => if x = a then h else s.pages x }

def setBlk (a : Addr) (h : BlkHeader) : State σ :=
  { s with blks := fun x => if x = a then h else s.blks x }

/-- The first block from `blk` on, along `prev`, that `stop` holds of, or the null pointer. -/
def findBlk (stop : BlkHeader → Bool) (blk : Addr) : Option Addr :=
  walk (fun b => (s.blks b).prev) (fun b => b = 0 || stop (s.blks b)) walkFuel blk

end State

section

variable {σ : Type} (C : Calls σ)

def calloc (s : State σ) (size : Word) : Option (Addr × State σ) :=
  let r := C.calloc size s.heap s.paging
  if r.1 = 0 then none else some (r.1, { s with heap := r.2.1, paging := r.2.2 })

/-- A header for new pages, for a block of `size` bytes. -/
def newPage (s : State σ) (size : Word) : Option (Addr × State σ) := do
  let p := dmaAllocateNewPage s.paging (NB_PAGE size)
  let (a, s) ← calloc C { s with paging := p.2 } sizeofPageHeader
  let header := ⟨0, NB_PAGE size * PAGE_SIZE, 0, getPhysAddr s.paging p.1, p.1, 0⟩
  some (a, s.setPage a header)

/-- What the loop of `dma_alloc` is left with. -/
structure Found (σ : Type) where
  state : State σ
  page : Addr
  position : Word
  size : Word
  blk : Addr

/-- The loop over the pages of `dma_alloc`, for at most the given number of rounds. -/
def search (alignment alignSize : Word) : Nat → Found σ → Option (Found σ)
  | 0, _ => none
  | n + 1, f => do
    let s := f.state
    let page := s.pages f.page
    if page.next = 0 then some f
    else if page.lastBlk = 0 then some { f with position := 0 }
    else
      let fits := fun b : BlkHeader => b.free ≠ 0 && b.blk % alignment = 0 && alignSize ≤ b.actualSize
      let blk ← s.findBlk fits page.lastBlk
      if blk = 0 then some { f with blk := 0 } else
      let last := s.blks page.lastBlk
      let position := last.blk - page.page
      let size := if last.actualSize % alignment ≠ 0 then f.size + dmaAlign last.actualSize alignment else f.size
      if position + alignSize < page.size then
        let s := s.setBlk page.lastBlk { last with actualSize := dmaAlign last.actualSize alignment }
        some ⟨s, f.page, position, size, blk⟩
      else search alignment alignSize n ⟨s, page.next, position, size, blk⟩

/-- The end of `dma_alloc`: a block at `position` of the page. -/
def newBlk (s : State σ) (page : Addr) (position size alignSize : Word) : Option (Addr × State σ) := do
  let (b, s) ← calloc C s sizeofBlkHeader
  let header := s.pages page
  let blk := header.page + position
  let s := s.setPage page { header with lastBlk := b }
  some (blk, s.setBlk b ⟨header.lastBlk, size, alignSize, 0, blk⟩)

def dmaAlloc (s : State σ) (size alignment : Word) : Option (Addr × State σ) := do
  let alignSize := dmaAlign size alignment
  let (position, s) ←
    if s.firstPage = 0 then do
      let (a, s) ← newPage C s size
      some ((0 : Word), { s with firstPage := a })
    else some (-1, s)
  let f ← search alignment alignSize walkFuel ⟨s, s.firstPage, position, size, 0⟩
  let s := f.state
  if f.blk ≠ 0 then
    let blk := s.blks f.blk
    some (blk.blk, s.setBlk f.blk { blk with free := 0 })
  else if (s.pages f.page).size ≤ f.position then do
    let (a, s) ← newPage C s f.size
    newBlk C (s.setPage f.page { s.pages f.page with next := a }) a 0 f.size alignSize
  else newBlk C s f.page f.position f.size alignSize

/-- The loop over the pages of `dma_free`, for at most the given number of rounds: the page and the block
it ends with. -/
def searchPtr (s : State σ) (ptr : Addr) : Nat → Addr → Addr → Option (Addr × Addr)
  | 0, _, _ => none
  | n + 1, page, blk => do
    if page = 0 then some (page, blk)
    else
      let blk ← s.findBlk (fun b => b.blk = ptr) (s.pages page).lastBlk
      searchPtr s ptr n (s.pages page).next blk

def dmaFree (s : State σ) (ptr : Addr) : Option (State σ) := do
  let (page, blk) ← searchPtr s ptr walkFuel s.firstPage 0
  if blk = 0 then some s else
  let header := s.blks blk
  let s := s.setBlk blk { header with free := 1 }
  if page = 0 then none else
  let s :=
    if blk = (s.pages page).lastBlk then
      let s := s.setPage page { s.pages page with lastBlk := header.prev }
      let r := C.free blk s.heap s.paging
      { s with heap := r.1, paging := r.2 }
    else s
  let header := s.pages page
  if header.lastBlk = 0 then
    some { s with paging := dmaDeallocatePage s.paging header.page header.physAddr (NB_PAGE header.size) }
  else some s

end

end AlexOS.Dma
