import AlexOS.Lib.Segment
import AlexOS.Virtual.Access

/-!
# The loader of the kernel

`load_elf_file`, in `kernel/ELF/ELF.c`. It calls the functions of `vfs.c`, and
`calloc`, by an interface (`Calls`): a read gives the bytes that are stored to
the address it is given. The heap is in memory, and `open` uses it too, for a
copy of the path. The program headers are in a block of the heap, and are loaded
from there whenever the loader looks at them. There is no result after a page
fault. The `printf`s are left out.
-/

namespace AlexOS.Elf

open Virtual

/-- `sizeof(elf_hdr_t)`. -/
def sizeofElfHdr : Word := 52

structure ElfHdr where
  signature : List Byte
  bitness : Byte
  headerVersion : Byte
  type : BitVec 16
  instructionSet : BitVec 16
  elfVersion : Word
  prgEntryOffset : Word
  prgHeaderTableOffset : Word
  prgHeaderTableEntrySize : BitVec 16
  prgHeaderTableEntryCount : BitVec 16

/-- The fields, at their offsets in the packed structure. -/
def ElfHdr.ofBuffer (b : Buffer) : ElfHdr where
  signature := b.slice 0 4
  bitness := b 4
  headerVersion := b 6
  type := b.load16 16
  instructionSet := b.load16 18
  elfVersion := b.load32 20
  prgEntryOffset := b.load32 24
  prgHeaderTableOffset := b.load32 28
  prgHeaderTableEntrySize := b.load16 42
  prgHeaderTableEntryCount := b.load16 44

def magic : List Byte := [0x7F, 0x45, 0x4C, 0x46]
def ELF_BITNESS_32 : Byte := 1
def ELF_TYPE_EXECUTABLE : BitVec 16 := 2
def ELF_INSTRUCTION_SET_X86 : BitVec 16 := 3
def ELF_PROGRAM_TYPE_LOAD : Word := 1

/-- What the call returns if the header is not one of an executable for this machine. -/
def checkHeader (header : ElfHdr) : Option Int :=
  if header.signature ≠ magic then some (-3)
  else if header.bitness ≠ ELF_BITNESS_32 then some (-4)
  else if header.headerVersion ≠ 1 then some (-5)
  else if header.elfVersion ≠ 1 then some (-6)
  else if header.type ≠ ELF_TYPE_EXECUTABLE then some (-7)
  else if header.instructionSet ≠ ELF_INSTRUCTION_SET_X86 then some (-8)
  else none

/-- `prg_header_table_size`. -/
def ElfHdr.tableSize (header : ElfHdr) : Word :=
  header.prgHeaderTableEntrySize.setWidth 32 * header.prgHeaderTableEntryCount.setWidth 32

/-- `open` of the file, `read`, `seek` to a position from the start, `close`, and `calloc` of bytes. -/
structure Calls (ν : Type) where
  openFile : ν → Paging → Int × ν × Paging
  read : Int → Stream.Read ν
  seek : Int → Word → ν → ν
  close : Int → ν → ν
  calloc : Word → Paging → Addr × Paging

/-- Memory with the page tables, and what the file system keeps. -/
structure Kernel (ν : Type) where
  paging : Paging
  files : ν

section

variable {ν : Type} (C : Calls ν)

/-- `read(fd, size, a)`. -/
def Kernel.read (k : Kernel ν) (fd : Int) (size : Word) (a : Addr) : Option (Word × Kernel ν) := do
  let r := C.read fd k.files size
  let s ← storeBytes k.paging a r.2.1
  return (r.1, ⟨s, r.2.2⟩)

def Kernel.close (k : Kernel ν) (fd : Int) : Kernel ν := { k with files := C.close fd k.files }

/-- The header, or the error that the call returns. -/
def readHeader (fd : Int) (k : Kernel ν) : Except Int ElfHdr × Kernel ν :=
  let r := C.read fd k.files sizeofElfHdr
  let k := { k with files := r.2.2 }
  if r.1 < sizeofElfHdr then (.error (-2), k.close C fd) else
  let header := ElfHdr.ofBuffer (Buffer.ofList r.2.1)
  match checkHeader header with
  | some code => (.error code, k.close C fd)
  | none => (.ok header, k)

/-- The address of the program headers, or the error. -/
def readTable (fd : Int) (header : ElfHdr) (k : Kernel ν) : Option (Except Int Addr × Kernel ν) := do
  let files := C.seek fd header.prgHeaderTableOffset k.files
  let a := C.calloc header.tableSize k.paging
  let r ← Kernel.read C ⟨a.2, files⟩ fd header.tableSize a.1
  return if r.1 < header.tableSize then (.error (-2), r.2.close C fd) else (.ok a.1, r.2)

/-- The loop over `j`, for the given number of rounds. It looks at the same entry in each. -/
def undo (entry : Addr) : Nat → Paging → Option Paging
  | 0, s => some s
  | n + 1, s => do
    let pVaddr ← load32 s (entry + 8)
    let pMemsz ← load32 s (entry + 20)
    undo entry n (deallocatePage s pVaddr (NB_PAGE pMemsz))

/-- The body of the loop, for an entry of type LOAD with index `i`: whether there was a page for it. -/
def loadEntry (fd : Int) (entry : Addr) (i : Nat) (k : Kernel ν) : Option (Bool × Kernel ν) := do
  let pVaddr ← load32 k.paging (entry + 8)
  let pMemsz ← load32 k.paging (entry + 20)
  let buffer := allocateNewPage k.paging pVaddr (NB_PAGE pMemsz)
  if buffer.1 = 0 then
    let s ← undo entry i buffer.2
    return (false, { k with paging := s })
  else
    let pOffset ← load32 buffer.2 (entry + 4)
    let pFilez ← load32 buffer.2 (entry + 16)
    let r ← Kernel.read C ⟨buffer.2, C.seek fd pOffset k.files⟩ fd pFilez buffer.1
    return (true, r.2)

/-- The loop over the program headers, from `i` on. -/
def loadLoop (fd : Int) (table : Addr) (entrySize : Word) : Nat → Nat → Kernel ν → Option (Bool × Kernel ν)
  | 0, _, k => some (true, k)
  | n + 1, i, k => do
    let entry := table + BitVec.ofNat 32 i * entrySize
    let type ← load32 k.paging entry
    if type = ELF_PROGRAM_TYPE_LOAD then
      let r ← loadEntry C fd entry i k
      if r.1 then loadLoop fd table entrySize n (i + 1) r.2 else some r
    else loadLoop fd table entrySize n (i + 1) k

/-- What it returns, and what is stored to `*entry_point`. If there is no page for an entry, the
file is not closed. -/
def loadElfFile (k : Kernel ν) : Option (Int × Option Word × Kernel ν) :=
  let f := C.openFile k.files k.paging
  let fd := f.1
  let k : Kernel ν := ⟨f.2.2, f.2.1⟩
  if fd = -1 then some (-1, none, k) else
  match readHeader C fd k with
  | (.error code, k) => some (code, none, k)
  | (.ok header, k) => do
    let entryPoint := some header.prgEntryOffset
    match ← readTable C fd header k with
    | (.error code, k) => return (code, entryPoint, k)
    | (.ok table, k) =>
      let r ← loadLoop C fd table (header.prgHeaderTableEntrySize.setWidth 32)
        header.prgHeaderTableEntryCount.toNat 0 k
      return if r.1 then (0, entryPoint, r.2.close C fd) else (-9, entryPoint, r.2)

end

end AlexOS.Elf
