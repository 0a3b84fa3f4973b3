import AlexOS.Lib.Region

/-!
# Segments of a program

A program header gives a segment: bytes of a file that belong at an address,
and zeros after them, up to the size of the segment in memory. A segment is
loaded if the memory is so (`Segment.LoadedIn`).
-/

namespace AlexOS

/-- `PT_LOAD`. -/
def PT_LOAD : Word := 1

structure Segment where
  offset : Word
  vaddr : Word
  filesz : Word
  memsz : Word
deriving DecidableEq

/-- The fields of a program header that loaders use, and the type. -/
structure ProgramHeader where
  type : Word
  segment : Segment

/-- The header at offset `i`. -/
def ProgramHeader.ofBuffer (b : Buffer) (i : Nat) : ProgramHeader :=
  ⟨b.load32 i, b.load32 (i + 4), b.load32 (i + 8), b.load32 (i + 16), b.load32 (i + 20)⟩

namespace Segment

/-- Byte `k` of the segment. -/
def byte (g : Segment) (file : Buffer) (k : Nat) : Byte :=
  if k < g.filesz.toNat then file (g.offset.toNat + k) else 0

/-- The segment is in memory. -/
def LoadedIn (g : Segment) (file : Buffer) (m : Addr → Byte) : Prop :=
  ∀ k < g.memsz.toNat, m (g.vaddr + BitVec.ofNat 32 k) = g.byte file k

/-- The addresses of the segment. -/
def addresses (g : Segment) : Set Nat := Mem.range g.vaddr g.memsz.toNat

end Segment

/-- The segments to load of a table of `count` headers of `size` bytes at `offset`. -/
def loadSegmentsOf (file : Buffer) (offset size count : Nat) : List Segment :=
  (List.range count).filterMap fun i =>
    let header := ProgramHeader.ofBuffer file (offset + i * size)
    if header.type = PT_LOAD then some header.segment else none

end AlexOS
