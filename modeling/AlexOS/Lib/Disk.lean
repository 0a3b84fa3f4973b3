import AlexOS.Lib.Mem

/-!
# Buffers and disks

A buffer is what a pointer to bytes gives access to: byte `i` is `i` bytes on,
and the bytes of an array are the first ones. A disk has sectors of 512 bytes.
Reads and writes of a sector fail or do their work, and a write changes no
other sector (`Disk.sector_write_of_ne`).
-/

namespace AlexOS

abbrev Buffer := Nat → Byte

namespace Buffer

/-- The little-endian word of two bytes at `i`. -/
def load16 (b : Buffer) (i : Nat) : BitVec 16 := b (i + 1) ++ b i

def load32 (b : Buffer) (i : Nat) : Word := b (i + 3) ++ b (i + 2) ++ b (i + 1) ++ b i

def store16 (b : Buffer) (i : Nat) (v : BitVec 16) : Buffer := fun x =>
  if i ≤ x ∧ x < i + 2 then v.extractLsb' (8 * (x - i)) 8 else b x

def store32 (b : Buffer) (i : Nat) (v : Word) : Buffer := fun x =>
  if i ≤ x ∧ x < i + 4 then v.extractLsb' (8 * (x - i)) 8 else b x

/-- `memcpy(b + i, src, n)`. -/
def copy (b : Buffer) (i : Nat) (src : Buffer) (n : Nat) : Buffer := fun x =>
  if i ≤ x ∧ x < i + n then src (x - i) else b x

/-- `memset(b + i, v, n)`. -/
def fill (b : Buffer) (i : Nat) (v : Byte) (n : Nat) : Buffer := fun x =>
  if i ≤ x ∧ x < i + n then v else b x

/-- The `n` bytes at `i`. -/
def slice (b : Buffer) (i n : Nat) : List Byte := (List.range n).map fun j => b (i + j)

/-- The bytes of a list, then zeros. -/
def ofList (xs : List Byte) : Buffer := fun i => xs.getD i 0

end Buffer

def SECTOR_SIZE : Nat := 512

structure Disk where
  sector : Word → Buffer
  readFails : Word → Bool
  writeFails : Word → Bool

namespace Disk

/-- Whether it failed, and what is in the buffer after. -/
def read (d : Disk) (lba : Word) (out : Buffer) : Bool × Buffer :=
  if d.readFails lba then (true, out) else (false, out.copy 0 (d.sector lba) SECTOR_SIZE)

def write (d : Disk) (lba : Word) (data : Buffer) : Bool × Disk :=
  if d.writeFails lba then (true, d)
  else (false, { d with sector := fun l =>
    if l = lba then (d.sector lba).copy 0 data SECTOR_SIZE else d.sector l })

theorem sector_write_of_ne {d : Disk} {lba l : Word} {data : Buffer} (h : l ≠ lba) :
    (d.write lba data).2.sector l = d.sector l := by
  rw [write]
  split
  · rfl
  · exact if_neg h

theorem write_of_fails {d : Disk} {lba : Word} {data : Buffer} (h : d.writeFails lba = true) :
    d.write lba data = (true, d) := by
  rw [write, if_pos h]

theorem sector_write_self {d : Disk} {lba : Word} {data : Buffer} {i : Nat} (h : d.writeFails lba = false)
    (hi : i < 512) : (d.write lba data).2.sector lba i = data i := by
  rw [write, if_neg (Bool.eq_false_iff.mp h)]
  show (if lba = lba then (d.sector lba).copy 0 data SECTOR_SIZE else d.sector lba) i = data i
  rw [if_pos rfl, Buffer.copy, if_pos ⟨Nat.zero_le i, by rw [SECTOR_SIZE]; omega⟩, Nat.sub_zero]

theorem writeFails_write (d : Disk) (lba : Word) (data : Buffer) :
    (d.write lba data).2.writeFails = d.writeFails := by
  rw [write]
  split <;> rfl

theorem readFails_write (d : Disk) (lba : Word) (data : Buffer) :
    (d.write lba data).2.readFails = d.readFails := by
  rw [write]
  split <;> rfl

end Disk

end AlexOS
