import Mathlib.Data.Nat.Init
import Mathlib.Tactic.Linarith

/-!
# Cylinders, heads and sectors

The sectors of a disk are numbered by cylinder, head and sector, the last from
1 on, or one after another (`Geometry.lba`). Division gives the triple of a
number (`Geometry.chs`), which is valid and leads back to it
(`Geometry.lba_chs`).
-/

namespace AlexOS

structure Chs where
  cylinder : Nat
  head : Nat
  sector : Nat
deriving DecidableEq

structure Geometry where
  heads : Nat
  sectors : Nat

namespace Geometry

/-- The number of a sector. -/
def lba (g : Geometry) (a : Chs) : Nat := (a.cylinder * g.heads + a.head) * g.sectors + a.sector - 1

/-- The disk has this head, and this sector. -/
structure Valid (g : Geometry) (a : Chs) : Prop where
  head_lt : a.head < g.heads
  sector_pos : 1 ≤ a.sector
  sector_le : a.sector ≤ g.sectors

/-- Sector `n`. -/
def chs (g : Geometry) (n : Nat) : Chs := ⟨n / (g.sectors * g.heads), n / g.sectors % g.heads, n % g.sectors + 1⟩

section

variable {g : Geometry} {a b : Chs} {n : Nat}

theorem valid_chs (hh : 0 < g.heads) (hs : 0 < g.sectors) : g.Valid (g.chs n) :=
  ⟨Nat.mod_lt _ hh, Nat.le_add_left .., Nat.mod_lt _ hs⟩

theorem lba_chs : g.lba (g.chs n) = n := by
  rw [lba, chs, ← Nat.div_div_eq_div_mul, Nat.div_add_mod', ← Nat.add_assoc, Nat.add_sub_cancel, Nat.div_add_mod']

/-- The cylinders before the last of a disk. -/
theorem cylinder_lt {c : Nat} (h : n < c * g.heads * g.sectors) : (g.chs n).cylinder < c := by
  refine Nat.div_lt_of_lt_mul ?_
  rwa [Nat.mul_comm, Nat.mul_comm g.sectors, ← Nat.mul_assoc]

end

end Geometry

end AlexOS
