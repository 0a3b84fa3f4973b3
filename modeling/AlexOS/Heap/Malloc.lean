import AlexOS.Lib.LinkedList
import AlexOS.Lib.Mem

/-!
# The kernel heap

`malloc.c`: `malloc` and `free` over a list of pages and a list of free blocks,
both linked through the memory they manage. A page header holds `next`, `size`,
`used_size` and `nb_block`, a block header `next`, `size` and `actual_size`,
each four bytes, in this order.

`allocate_new_page` is outside the heap: a `PageSource` says what each of its
calls returns. A loop along a list runs for at most `walkFuel` rounds, more
than a list has nodes; `none` is a loop that does not end.
-/

namespace AlexOS.Malloc

def PAGE_SIZE : Word := 4096
def STARTING_PAGE : Addr := 0xF0000000

/-- `sizeof(struct blk_header)` and `sizeof(struct page_header)`. -/
def sizeofBlkHeader : Word := 12
def sizeofPageHeader : Word := 16

/-- A list of distinct nonzero addresses is shorter. -/
def walkFuel : Nat := 2 ^ 32

/-- The fields of a page header and of a block header; `next` is the first of both. -/
def next (m : Mem) (p : Addr) : Addr := m.load32 p
def pageSize (m : Mem) (p : Addr) : Word := m.load32 (p + 4)
def usedSize (m : Mem) (p : Addr) : Word := m.load32 (p + 8)
def nbBlock (m : Mem) (p : Addr) : Word := m.load32 (p + 12)
def actualSize (m : Mem) (b : Addr) : Word := m.load32 (b + 8)

/-- What the calls of `allocate_new_page` return: for the `k`-th, of `n` pages
at `addr`, `NULL` or the bytes these pages hold. A range it maps does not pass
the end of the address space. -/
structure PageSource where
  answer : Nat → Addr → Word → Option (Addr → Byte)
  fits : ∀ {k addr n bytes}, answer k addr n = some bytes → addr.toNat + 4096 * n.toNat ≤ 2 ^ 32

structure Heap where
  mem : Mem
  freeList : Addr
  pageList : Addr
  /-- How often `allocate_new_page` has been called. -/
  calls : Nat

/-- A store through a pointer. -/
def Heap.store (h : Heap) (a : Addr) (v : Word) : Heap := { h with mem := h.mem.store32 a v }

def allocateNewPage (src : PageSource) (h : Heap) (address : Addr) (nbPage : Word) : Addr × Heap :=
  match src.answer h.calls address nbPage with
  | some bytes =>
    (address, { h with
      mem := h.mem.splice address (4096 * nbPage.toNat) bytes
      calls := h.calls + 1 })
  | none => (0, { h with calls := h.calls + 1 })

def align (n base : Word) : Word :=
  if n % base = 0 then n else base - n % base + n

/-- The header `add_page` writes: `size`, `used_size`, `next`. -/
def initPage (h : Heap) (page : Addr) (alignSize : Word) : Heap :=
  ((h.store (page + 4) alignSize).store (page + 8) sizeofPageHeader).store page 0

def addPage (src : PageSource) (h : Heap) (size : Word) : Option (Bool × Heap) :=
  let alignSize := align size PAGE_SIZE
  if h.pageList = 0 then
    let (page, h) := allocateNewPage src h STARTING_PAGE (alignSize / PAGE_SIZE)
    let h := { h with pageList := page }
    if page = 0 then some (false, h) else some (true, initPage h page alignSize)
  else do
    let tmp ← walk (next h.mem) (fun p => next h.mem p = 0) walkFuel h.pageList
    let (page, h) := allocateNewPage src h (tmp + pageSize h.mem tmp) (alignSize / PAGE_SIZE)
    let h := h.store tmp page
    if page = 0 then return (false, h) else return (true, initPage h page alignSize)

/-- The block found and taken off the list, or `NULL`. -/
def findFreeBlk (h : Heap) (size : Word) : Option (Addr × Heap) :=
  if h.freeList = 0 then
    some (0, h)
  else if actualSize h.mem h.freeList > size then
    some (h.freeList, { h with freeList := next h.mem h.freeList })
  else do
    let freeBlk ← walk (next h.mem)
      (fun b => !(next h.mem b ≠ 0 && actualSize h.mem (next h.mem b) < size)) walkFuel h.freeList
    let tmp := next h.mem freeBlk
    if tmp ≠ 0 then return (tmp, h.store freeBlk (next h.mem tmp)) else return (0, h)

/-- Whether a page has no room for a block of `alignSize` bytes. -/
def noRoom (m : Mem) (page : Addr) (alignSize : Word) : Bool :=
  pageSize m page - usedSize m page < alignSize + sizeofBlkHeader

/-- A new block at the end of the used part of `page`. -/
def carve (h : Heap) (page : Addr) (size alignSize : Word) : Addr × Heap :=
  let header := page + usedSize h.mem page
  let h := h.store (header + 4) size
  let h := h.store (header + 8) alignSize
  let h := h.store header 0
  let h := h.store (page + 8) (usedSize h.mem page + (sizeofBlkHeader + actualSize h.mem header))
  let h := h.store (page + 12) (nbBlock h.mem page + 1)
  (header + sizeofBlkHeader, h)

/-- The page that the new block is carved from, added if no page has room. -/
def roomyPage (src : PageSource) (h : Heap) (alignSize : Word) : Option (Bool × Addr × Heap) := do
  let tmp ← walk (next h.mem) (fun p => !(next h.mem p ≠ 0 && noRoom h.mem p alignSize)) walkFuel
    h.pageList
  if noRoom h.mem tmp alignSize then
    let (ok, h) ← addPage src h (alignSize + sizeofBlkHeader + sizeofPageHeader)
    if ok then return (true, next h.mem tmp, h) else return (false, tmp, h)
  else return (true, tmp, h)

/-- The first page, if there is none. -/
def firstPage (src : PageSource) (h : Heap) (alignSize : Word) : Option (Bool × Heap) :=
  if h.pageList = 0 then addPage src h alignSize else some (true, h)

def malloc (src : PageSource) (h : Heap) (size : Word) : Option (Addr × Heap) :=
  if size = 0 then
    some (0, h)
  else do
    let alignSize := align size 0x10
    let (ok, h) ← firstPage src h alignSize
    if !ok then return (0, h) else
    let (header, h) ← findFreeBlk h alignSize
    if header ≠ 0 then return (header + sizeofBlkHeader, h.store (header + 4) size) else
    let (ok, tmp, h) ← roomyPage src h alignSize
    if ok then return carve h tmp size alignSize else return (0, h)

def free (h : Heap) (ptr : Addr) : Heap :=
  let header := ptr - sizeofBlkHeader
  let h := h.store header h.freeList
  { h with freeList := header }

end AlexOS.Malloc
