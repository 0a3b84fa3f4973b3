import AlexOS.Physical.Blocks
import AlexOS.Lib.Page

/-!
# The page tables

`virtual_memory_manager.c`, and the functions of `memory_management.c` that
call it. The directory and the page tables are read and written at their
physical addresses, in the memory that the bitmap of blocks is also in. The
`printf`s, the registers of the processor and the vector of directories, which
no function reads, are left out.

`map_page` and `find_free_page` make a page table the same way, as `newTable`.
-/

namespace AlexOS.Virtual

open Physical

def PAGES_PER_TABLE : Nat := 1024
def TABLE_PER_DIRECTORY : Nat := 1024
def PAGE_SIZE : Word := 4096

def PD_INDEX (virtAddr : Word) : Word := virtAddr >>> 22
def PT_INDEX (virtAddr : Word) : Word := (virtAddr >>> 12) &&& 0x3FF

def PAGE_TABLE_ENTRY_PRESENT : Word := 0x01
def PAGE_TABLE_ENTRY_READ_WRITE : Word := 0x02
def PAGE_DIR_ENTRY_PRESENT : Word := 0x01
def PAGE_DIR_ENTRY_READ_WRITE : Word := 0x02

/-! The macros on an entry, given by its address. -/

def pagePhysAddr (m : Mem) (entry : Addr) : Word := m.load32 entry &&& ~~~0xFFF
def setAttribute (m : Mem) (entry : Addr) (attr : Word) : Mem := m.store32 entry (m.load32 entry ||| attr)
def unsetAttribute (m : Mem) (entry : Addr) (attr : Word) : Mem :=
  m.store32 entry (m.load32 entry &&& ~~~attr)
def tstAttribute (m : Mem) (entry : Addr) (attr : Word) : Word := m.load32 entry &&& attr
def setFrame (m : Mem) (entry : Addr) (addr : Word) : Mem :=
  m.store32 entry ((m.load32 entry &&& ~~~0x7FFFF000) ||| addr)

/-- The three macros that put a table into a directory entry. -/
def setEntry (m : Mem) (entry table : Addr) : Mem :=
  setFrame (setAttribute (setAttribute m entry PAGE_DIR_ENTRY_PRESENT) entry PAGE_DIR_ENTRY_READ_WRITE)
    entry table

/-- The physical memory, and `current_page_dir`. -/
structure Paging where
  phys : Phys
  currentPageDir : Addr

namespace Paging

def mem (s : Paging) : Mem := s.phys.mem
def withMem (s : Paging) (m : Mem) : Paging := { s with phys := { s.phys with mem := m } }

/-- The directory entry of an address. -/
def entry (s : Paging) (virtualAddress : Word) : Addr := slot s.currentPageDir (PD_INDEX virtualAddress)

end Paging

/-- The address of the page's entry. -/
def getPage (s : Paging) (virtualAddress : Word) : Addr :=
  slot (pagePhysAddr s.mem (s.entry virtualAddress)) (PT_INDEX virtualAddress)

/-- A block is allocated for a page table, cleared, and put into the directory entry; `NULL`
if there is none. -/
def newTable (s : Paging) (entry : Addr) : Addr × Paging :=
  let a := allocateBlocks s.phys 1
  let s := { s with phys := a.2 }
  if a.1 = 0 then (0, s) else
  (a.1, s.withMem (setEntry (s.mem.memset a.1 0 4096) entry a.1))

/-- The end of `map_page`: the page's entry, in a table that exists. -/
def writePage (s : Paging) (physicalAddress virtualAddress : Word) : Paging :=
  let page := getPage s virtualAddress
  let m := setFrame s.mem page physicalAddress
  s.withMem (setAttribute m page PAGE_TABLE_ENTRY_PRESENT)

/-- Whether the page was mapped. -/
def mapPage (s : Paging) (physicalAddress virtualAddress : Word) : Bool × Paging :=
  if tstAttribute s.mem (s.entry virtualAddress) PAGE_TABLE_ENTRY_PRESENT = 0 then
    let t := newTable s (s.entry virtualAddress)
    if t.1 = 0 then (false, t.2) else (true, writePage t.2 physicalAddress virtualAddress)
  else (true, writePage s physicalAddress virtualAddress)

def unmapPage (s : Paging) (virtualAddress : Word) : Paging :=
  let page := getPage s virtualAddress
  let m := setFrame s.mem page 0
  s.withMem (unsetAttribute m page PAGE_TABLE_ENTRY_PRESENT)

def getPhysAddr (s : Paging) (virtAddr : Word) : Word :=
  pagePhysAddr s.mem (getPage s virtAddr) + (virtAddr &&& 0xFFF)

/-! ## The search for pages -/

/-- The loop over `j`, from `j` on: `return base_addr` is an error, else `base_addr` and `count`
are carried on. -/
def scanTable (m : Mem) (table : Addr) (nbPage i : Word) : Nat → Word → Addr → Word →
    Except Addr (Addr × Word)
  | 0, _, baseAddr, count => .ok (baseAddr, count)
  | n + 1, j, baseAddr, count =>
    if tstAttribute m (slot table j) PAGE_TABLE_ENTRY_PRESENT = 0 then
      let baseAddr := if baseAddr = 0 then i <<< 22 ||| j <<< 12 else baseAddr
      if count = nbPage then .error baseAddr
      else scanTable m table nbPage i n (j + 1) baseAddr (count + 1)
    else scanTable m table nbPage i n (j + 1) 0 0

/-- The table of entry `i`, made if it is not present. -/
def tableAt (s : Paging) (i : Word) : Addr × Paging :=
  let entry := slot s.currentPageDir i
  if tstAttribute s.mem entry PAGE_TABLE_ENTRY_PRESENT = 0 then newTable s entry
  else (pagePhysAddr s.mem entry, s)

/-- The loop over `i`, from `i` on. It ends with `NULL` when a table cannot be made. -/
def scanDirectory (nbPage : Word) : Nat → Paging → Word → Addr → Word → Addr × Paging
  | 0, s, _, _, _ => (0, s)
  | n + 1, s, i, baseAddr, count =>
    let present := tstAttribute s.mem (slot s.currentPageDir i) PAGE_TABLE_ENTRY_PRESENT ≠ 0
    let t := tableAt s i
    if ¬ present ∧ t.1 = 0 then (0, t.2) else
    match scanTable t.2.mem t.1 nbPage i 1024 0 baseAddr count with
    | .error baseAddr => (baseAddr, t.2)
    | .ok (baseAddr, count) => scanDirectory nbPage n t.2 (i + 1) baseAddr count

/-- The loop runs over three times the entries of the directory. -/
def findFreePage (s : Paging) (nbPage : Word) : Addr × Paging := scanDirectory nbPage 3072 s 0 0 0

/-! ## Ranges of pages -/

/-- The address `i` pages after `a`. -/
def pageAfter (a : Addr) (i : Nat) : Addr := a + PAGE_SIZE * BitVec.ofNat 32 i

/-- The first `n` rounds of the loop of `allocate_new_page`, and how many mapped a page. -/
def mapPages (s : Paging) (base address : Addr) : Nat → Nat × Paging
  | 0 => (0, s)
  | n + 1 =>
    let r := mapPages s base address n
    if r.1 = n then
      let t := mapPage r.2 (pageAfter base n) (pageAfter address n)
      (if t.1 then n + 1 else n, t.2)
    else r

/-- The loop that unmaps `n` pages from `address` on. -/
def unmapPages (s : Paging) (address : Addr) : Nat → Paging
  | 0 => s
  | n + 1 => unmapPage (unmapPages s address n) (pageAfter address n)

/-- `address`, or `NULL`. -/
def allocateNewPage (s : Paging) (address nbPage : Word) : Addr × Paging :=
  let a := allocateBlocks s.phys nbPage
  let s := { s with phys := a.2 }
  if a.1 = 0 then (0, s) else
  let r := mapPages s a.1 address nbPage.toNat
  if r.1 = nbPage.toNat then (address, r.2) else
  let s := { r.2 with phys := freeBlocks r.2.phys a.1 nbPage }
  (0, unmapPages s address r.1)

def deallocatePage (s : Paging) (address nbPage : Word) : Paging :=
  let baseAddress := getPage s address
  let s := { s with phys := freeBlocks s.phys baseAddress nbPage }
  unmapPages s address nbPage.toNat

def NB_PAGE (size : Word) : Word := size / PAGE_SIZE + if size % PAGE_SIZE = 0 then 0 else 1

/-- The address, whatever `allocate_new_page` returns. -/
def mmap (s : Paging) (address len : Word) : Addr × Paging :=
  let f := if address = 0 then findFreePage s 1 else (address, s)
  if f.1 = 0 then (0, f.2) else (f.1, (allocateNewPage f.2 f.1 (NB_PAGE len)).2)

def munmap (s : Paging) (address len : Word) : Paging := deallocatePage s address (NB_PAGE len)

/-! ## Boot -/

/-- `SET_ATTRIBUTE(&dir->entries[i], PAGE_DIR_ENTRY_READ_WRITE)` for the first `n` entries. -/
def clearDirectory (m : Mem) (dir : Addr) : Nat → Mem
  | 0 => m
  | n + 1 => setAttribute (clearDirectory m dir n) (slot dir (BitVec.ofNat 32 n)) PAGE_DIR_ENTRY_READ_WRITE

/-- The local `page` of the loops that fill a table. -/
def pageEntry (frame : Word) : Word :=
  ((0 ||| PAGE_TABLE_ENTRY_PRESENT ||| PAGE_TABLE_ENTRY_READ_WRITE) &&& ~~~0x7FFFF000) ||| frame

/-- The first `n` rounds of the loop that fills the table for the pages from `virt` on. -/
def fillTable (m : Mem) (table : Addr) (frame virt : Word) : Nat → Mem
  | 0 => m
  | n + 1 => (fillTable m table frame virt n).store32 (slot table (PT_INDEX (pageAfter virt n)))
      (pageEntry (pageAfter frame n))

/-- The directory, of three blocks; `NULL` if there is no room. -/
def makeDirectory (phys : Phys) : Addr × Phys :=
  let d := allocateBlocks phys 3
  if d.1 = 0 then (0, d.2) else
  (d.1, { d.2 with mem := clearDirectory (d.2.mem.memset d.1 0 4096) d.1 TABLE_PER_DIRECTORY })

/-- The two page tables made at boot: the first 4 MiB of memory, and the kernel's at 3 GiB. -/
def fillTables (m : Mem) (table tableHigherHalf kernelAddress : Addr) : Mem :=
  let m := (m.memset table 0 4096).memset tableHigherHalf 0 4096
  let m := fillTable m tableHigherHalf 0 0 PAGES_PER_TABLE
  fillTable m table kernelAddress 0xC0000000 PAGES_PER_TABLE

/-- Whether it succeeds; else `current_page_dir` stays `NULL`. -/
def initVirtualMemoryManager (phys : Phys) (kernelAddress : Word) : Bool × Paging :=
  let d := makeDirectory phys
  if d.1 = 0 then (false, ⟨d.2, 0⟩) else
  let t := allocateBlocks d.2 1
  if t.1 = 0 then (false, ⟨t.2, 0⟩) else
  let h := allocateBlocks t.2 1
  if h.1 = 0 then (false, ⟨h.2, 0⟩) else
  let m := fillTables h.2.mem t.1 h.1 kernelAddress
  let m := setEntry m (slot d.1 (PD_INDEX 0xC0000000)) t.1
  let m := setEntry m (slot d.1 (PD_INDEX 0)) h.1
  (true, ⟨{ h.2 with mem := m }, d.1⟩)

end AlexOS.Virtual
