import AlexOS.Lib.Trap

/-!
# Segment descriptors and gates

The entries of 64 bits of the two tables of an i386, as the CPU takes them
apart, and an interrupt that goes through them.
-/

namespace AlexOS.I386

/-! ## Segments -/

namespace Descriptor

def base (d : BitVec 64) : Addr := d.extractLsb' 56 8 ++ d.extractLsb' 16 24

def limit (d : BitVec 64) : BitVec 20 := d.extractLsb' 48 4 ++ d.extractLsb' 0 16

def access (d : BitVec 64) : Byte := d.extractLsb' 40 8

def flags (d : BitVec 64) : BitVec 4 := d.extractLsb' 52 4

/-- The last offset, with the limit in bytes or pages. -/
def last (d : BitVec 64) : Nat := if (flags d).getLsbD 3 then 4096 * (limit d).toNat + 4095 else (limit d).toNat

/-- A present segment of code, with the privilege of the kernel. -/
def IsKernelCode (d : BitVec 64) : Prop := access d &&& 0xF8 = 0x98

instance (d : BitVec 64) : Decidable (IsKernelCode d) := inferInstanceAs (Decidable (_ = _))

/-- An address is an offset into the segment, whatever the offset. -/
structure Flat (d : BitVec 64) : Prop where
  base : base d = 0
  last : last d = 2 ^ 32 - 1

end Descriptor

/-! ## Gates -/

namespace Gate

def offset (g : BitVec 64) : Addr := g.extractLsb' 48 16 ++ g.extractLsb' 0 16

def selector (g : BitVec 64) : BitVec 16 := g.extractLsb' 16 16

def access (g : BitVec 64) : Byte := g.extractLsb' 40 8

/-- A present interrupt gate of 32 bits, of any privilege. -/
def Open (g : BitVec 64) : Prop := access g &&& 0x9F = 0x8E

instance (g : BitVec 64) : Decidable (Open g) := inferInstanceAs (Decidable (_ = _))

end Gate

/-- Vector `v` is delivered to code of the kernel; `none` is a fault. -/
def Core.deliver (gdt : List (BitVec 64)) (idt : Byte → BitVec 64) (c : Core) (v : Byte) (error : Option Word) :
    Option Core :=
  let g := idt v
  match gdt[(Gate.selector g).toNat / 8]? with
  | some d =>
    if Gate.Open g ∧ Descriptor.IsKernelCode d ∧ (Gate.offset g).toNat ≤ Descriptor.last d then
      some (c.interrupt (Gate.selector g) (Descriptor.base d + Gate.offset g) error)
    else none
  | none => none

section

variable {gdt : List (BitVec 64)} {idt : Byte → BitVec 64} {c : Core} {v : Byte} {error : Option Word} {d : BitVec 64}

/-- In a flat segment, the code of an open gate is at its offset. -/
theorem Core.deliver_of_open (hd : gdt[(Gate.selector (idt v)).toNat / 8]? = some d) (hc : Descriptor.IsKernelCode d)
    (hf : Descriptor.Flat d) (ho : Gate.Open (idt v)) :
    c.deliver gdt idt v error = some (c.interrupt (Gate.selector (idt v)) (Gate.offset (idt v)) error) := by
  have hle : (Gate.offset (idt v)).toNat ≤ Descriptor.last d := by
    have := (Gate.offset (idt v)).isLt
    rw [hf.last]
    omega
  simp only [deliver, hd]
  rw [if_pos ⟨ho, hc, hle⟩, hf.base, zero_add]

theorem Core.deliver_of_not_open (ho : ¬ Gate.Open (idt v)) : c.deliver gdt idt v error = none := by
  simp only [deliver]
  split
  · rw [if_neg fun h => ho h.1]
  · rfl

end

end AlexOS.I386
