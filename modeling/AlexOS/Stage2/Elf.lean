import AlexOS.Lib.Segment

/-!
# The loader of the bootloader

`ELF_read`, in `bootloader/stage2/elf.c`. Files are read by an interface of
which the loader uses three functions (`Files`); what they read is written to
memory. The program headers are in memory too, and the loops that seek and load
count down their fields. The loops are given the number of rounds that the
field allows, and there is no result if they are not done by then, or if a file
that was opened before is not opened again.
-/

namespace AlexOS.Stage2

def MEMORY_ELF_ADDR : Addr := 0x30000
def MEMORY_LOAD_KERNEL : Addr := 0x40000
def MEMORY_LOAD_SIZE : Word := 0x10000

/-- `sizeof(elf_hdr_t)`. -/
def sizeofElfHdr : Word := 52

structure ElfHdr where
  signature : List Byte
  bitness : Byte
  endianness : Byte
  version : Byte
  type : BitVec 16
  instructionSet : BitVec 16
  elfVersion : Word
  programEntry : Word
  headerTable : Word
  prgHeaderTableEntrySize : BitVec 16
  prgHeaderTableEntryCount : BitVec 16

/-- The fields, at their offsets in the packed structure. -/
def ElfHdr.ofBuffer (b : Buffer) : ElfHdr where
  signature := b.slice 0 4
  bitness := b 4
  endianness := b 5
  version := b 6
  type := b.load16 16
  instructionSet := b.load16 18
  elfVersion := b.load32 20
  programEntry := b.load32 24
  headerTable := b.load32 28
  prgHeaderTableEntrySize := b.load16 42
  prgHeaderTableEntryCount := b.load16 44

def ELF_MAGIC : List Byte := [0x7F, 0x45, 0x4C, 0x46]
def ELF_BITNESS_32 : Byte := 1
def ELF_LITTLE_ENDIAN : Byte := 1
def ELF_TYPE_EXECUTABLE : BitVec 16 := 2
def ELF_INSTRUCTION_SET_X86 : BitVec 16 := 3

def elfValidateHeader (header : ElfHdr) : Bool :=
  header.signature = ELF_MAGIC ∧ header.bitness = ELF_BITNESS_32 ∧
    header.endianness = ELF_LITTLE_ENDIAN ∧ header.version = 1 ∧ header.elfVersion = 1 ∧
      header.type = ELF_TYPE_EXECUTABLE ∧ header.instructionSet = ELF_INSTRUCTION_SET_X86

/-- `FAT_Open` of the file to load, `FAT_Read` and `FAT_Close`. -/
structure Files (σ φ : Type) where
  fatOpen : σ → Option φ × σ
  fatRead : φ → Stream.Read σ
  fatClose : σ → φ → σ

structure Machine (σ : Type) where
  mem : Mem
  files : σ

section

variable {σ φ : Type} (D : Files σ φ)

/-- `FAT_Read(part, fd, count, a)`. -/
def Machine.read (M : Machine σ) (fd : φ) (count : Word) (a : Addr) : Word × Machine σ :=
  let r := D.fatRead fd M.files count
  (r.1, ⟨M.mem.write a r.2.1, r.2.2⟩)

def Machine.close (M : Machine σ) (fd : φ) : Machine σ := { M with files := D.fatClose M.files fd }

/-- `MIN(x, MEMORY_LOAD_SIZE)`. -/
def minLoadSize (x : Word) : Word := if x > MEMORY_LOAD_SIZE then MEMORY_LOAD_SIZE else x

/-- The loop that seeks to `p_offset`. -/
def skipLoop (fd : φ) (prgHeader : Addr) : Nat → Machine σ → Option (Bool × Machine σ)
  | 0, M => if M.mem.load32 (prgHeader + 4) > 0 then none else some (true, M)
  | n + 1, M =>
    let pOffset := M.mem.load32 (prgHeader + 4)
    if pOffset > 0 then
      let r := M.read D fd (minLoadSize pOffset) MEMORY_LOAD_KERNEL
      if r.1 ≠ minLoadSize pOffset then some (false, r.2.close D fd)
      else
        skipLoop fd prgHeader n { r.2 with
          mem := r.2.mem.store32 (prgHeader + 4) (r.2.mem.load32 (prgHeader + 4) - r.1) }
    else some (true, M)

/-- The loop that loads `p_filez` bytes. The length of `memcpy` has 16 bits. -/
def loadLoop (fd : φ) (prgHeader : Addr) : Nat → Machine σ → Addr → Option (Bool × Machine σ)
  | 0, M, _ => if M.mem.load32 (prgHeader + 16) > 0 then none else some (true, M)
  | n + 1, M, virtAddr =>
    let pFilez := M.mem.load32 (prgHeader + 16)
    if pFilez > 0 then
      let r := M.read D fd (minLoadSize pFilez) MEMORY_LOAD_KERNEL
      if r.1 ≠ minLoadSize pFilez then some (false, r.2.close D fd)
      else
        let m := r.2.mem.store32 (prgHeader + 16) (r.2.mem.load32 (prgHeader + 16) - r.1)
        loadLoop fd prgHeader n
          { r.2 with mem := m.memcpy virtAddr MEMORY_LOAD_KERNEL (r.1.setWidth 16).toNat } (virtAddr + r.1)
    else some (true, M)

/-- The body of the loop over the program headers, for a segment to load. The length of `memset`
has 16 bits. -/
def loadSegment (M : Machine σ) (prgHeader : Addr) : Option (Bool × Machine σ) :=
  let virtAddr := M.mem.load32 (prgHeader + 8)
  let pMemsz := M.mem.load32 (prgHeader + 20)
  let M := { M with mem := M.mem.memset virtAddr 0 (pMemsz.setWidth 16).toNat }
  match D.fatOpen M.files with
  | (none, _) => none
  | (some fd, files) => do
    let r ← skipLoop D fd prgHeader (M.mem.load32 (prgHeader + 4)).toNat { M with files := files }
    if ¬ r.1 then some r else
    let r ← loadLoop D fd prgHeader (r.2.mem.load32 (prgHeader + 16)).toNat r.2 virtAddr
    if ¬ r.1 then some r else some (true, r.2.close D fd)

/-- The loop over the program headers, from `i` on. -/
def loadSegments (entrySize : Word) : Nat → Word → Machine σ → Option (Bool × Machine σ)
  | 0, _, M => some (true, M)
  | n + 1, i, M =>
    let prgHeader := MEMORY_ELF_ADDR + i * entrySize
    if M.mem.load32 prgHeader = PT_LOAD then do
      let r ← loadSegment D M prgHeader
      if r.1 then loadSegments entrySize n (i + 1) r.2 else some r
    else loadSegments entrySize n (i + 1) M

/-- What it returns, and what is stored to `*entry_point`. -/
def elfRead (M : Machine σ) : Option (Word × Option Word × Machine σ) :=
  match D.fatOpen M.files with
  | (none, files) => some (0, none, { M with files := files })
  | (some fd, files) =>
    let r := Machine.read D { M with files := files } fd sizeofElfHdr MEMORY_ELF_ADDR
    if r.1 ≠ sizeofElfHdr then some (0, none, r.2.close D fd) else
    let header := ElfHdr.ofBuffer (r.2.mem.view MEMORY_ELF_ADDR)
    if ¬ elfValidateHeader header then some (0, none, r.2.close D fd) else
    let entryPoint := some header.programEntry
    let entrySize := header.prgHeaderTableEntrySize.setWidth 32
    let prgHdrSize := entrySize * header.prgHeaderTableEntryCount.setWidth 32
    let s := r.2.read D fd (header.headerTable - r.1) MEMORY_ELF_ADDR
    let t := s.2.read D fd prgHdrSize MEMORY_ELF_ADDR
    if t.1 ≠ prgHdrSize then some (0, entryPoint, t.2.close D fd) else
    match loadSegments D entrySize header.prgHeaderTableEntryCount.toNat 0 (t.2.close D fd) with
    | none => none
    | some (loaded, M) => some (if loaded then 1 else 0, entryPoint, M)

end

end AlexOS.Stage2
