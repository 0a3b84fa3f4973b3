import AlexOS.Lib.Geometry
import AlexOS.Lib.Region

/-!
# Disk services of the BIOS

Interrupt 13h in real mode: a drive is reset, or sectors are read to memory at
a segment and an offset. What a call comes to is not known, but by what the
services promise (`Bios.Lawful`): a read that succeeds has brought the sectors,
and any read changes its destination and the memory that is the BIOS's own, and
nothing else.

A read is tried a number of times, with a reset after each that fails
(`Bios.retry`). It succeeds if one of these reads does, and all resets before it
(`Bios.retry_iff`), and then the sectors are there (`Bios.retry_ok`).
-/

namespace AlexOS

/-- `segment:offset`. -/
structure FarPointer where
  segment : BitVec 16
  offset : BitVec 16

namespace FarPointer

def linear (p : FarPointer) : Nat := p.segment.toNat * 16 + p.offset.toNat

def address (p : FarPointer) : Addr := BitVec.ofNat 32 p.linear

/-- The addresses of some sectors. -/
def region (p : FarPointer) (count : Nat) : Set Nat := Mem.range p.address (512 * count)

end FarPointer

/-- A drive, with the geometry that the BIOS numbers its sectors by. -/
structure Drive where
  sector : Nat → Buffer
  geometry : Geometry

/-- The bytes of the drive from a sector on. -/
def Drive.bytes (d : Drive) (lba i : Nat) : Byte := d.sector (lba + i / 512) (i % 512)

namespace Bios

/-- A service, with its arguments. -/
inductive Service
  | reset
  /-- Function 02h. -/
  | read (a : Chs) (count : Nat) (dst : FarPointer)
  /-- Function 42h. -/
  | extendedRead (lba count : Nat) (dst : FarPointer)

/-- The number of calls made, and the memory. -/
structure Machine where
  calls : Nat
  mem : Mem

/-- What each call comes to: carry, and the memory. -/
abbrev Int13 := Nat → Service → Mem → Bool × Mem

/-- Whether it fails. -/
def call (int13 : Int13) (f : Service) (s : Machine) : Bool × Machine :=
  let r := int13 s.calls f s.mem
  (r.1, ⟨s.calls + 1, r.2⟩)

/-- The sectors that a service reads, and where to. -/
def Transfers (d : Drive) : Service → Nat → Nat → FarPointer → Prop
  | .reset, _, _, _ => False
  | .read a count dst, lba, count', dst' =>
    d.geometry.Valid a ∧ d.geometry.lba a = lba ∧ count = count' ∧ dst = dst'
  | .extendedRead lba count dst, lba', count', dst' => lba = lba' ∧ count = count' ∧ dst = dst'

/-- Within a segment, and below 1 MiB. -/
structure Fits (dst : FarPointer) (count : Nat) : Prop where
  offset : dst.offset.toNat + 512 * count ≤ 2 ^ 16
  linear : dst.linear + 512 * count ≤ 2 ^ 20

/-- The sectors are at an address. -/
def Holds (d : Drive) (lba count : Nat) (a : Addr) (m : Mem) : Prop :=
  ∀ i < 512 * count, m (a + BitVec.ofNat 32 i) = d.bytes lba i

/-- What the services promise, where the memory `W` is the BIOS's own. -/
structure Lawful (int13 : Int13) (d : Drive) (W : Set Nat) : Prop where
  reset : ∀ n m, Mem.Changes W m (int13 n .reset m).2
  changes : ∀ n f lba count dst m, Transfers d f lba count dst → Fits dst count →
    Mem.Changes (W ∪ dst.region count) m (int13 n f m).2
  holds : ∀ n f lba count dst m, Transfers d f lba count dst → Fits dst count →
    (∀ k ∈ dst.region count, k ∉ W) →
    (int13 n f m).1 = false → Holds d lba count dst.address (int13 n f m).2

/-- A read, tried `n` times. -/
def retry (int13 : Int13) (f : Service) : Nat → Machine → Bool × Machine
  | 0, s => (false, s)
  | n + 1, s =>
    let r := call int13 f s
    if r.1 then
      let r := call int13 .reset r.2
      if r.1 then (false, r.2) else retry int13 f n r.2
    else (true, r.2)

/-- A read that fails, and the reset. -/
def failure (int13 : Int13) (f : Service) (s : Machine) : Machine := (call int13 .reset (call int13 f s).2).2

section

variable {int13 : Int13} {d : Drive} {W : Set Nat} {f : Service} {lba count n : Nat} {dst : FarPointer} {s : Machine}

theorem retry_changes (L : Lawful int13 d W) (T : Transfers d f lba count dst) (F : Fits dst count) (n : Nat)
    (s : Machine) : Mem.Changes (W ∪ dst.region count) s.mem (retry int13 f n s).2.mem := by
  induction n generalizing s with
  | zero => exact .refl _ _
  | succ n ih =>
    have hread := L.changes s.calls f lba count dst s.mem T F
    have hreset := (L.reset (s.calls + 1) (int13 s.calls f s.mem).2).mono (Set.subset_union_left
      (t := dst.region count))
    unfold retry
    dsimp only
    split
    · split
      · exact hread.trans hreset
      · exact (hread.trans hreset).trans (ih _)
    · exact hread

/-- After a read that succeeds, the sectors are in memory. -/
theorem retry_ok (L : Lawful int13 d W) (T : Transfers d f lba count dst) (F : Fits dst count)
    (hW : ∀ k ∈ dst.region count, k ∉ W) (h : (retry int13 f n s).1 = true) :
    Holds d lba count dst.address (retry int13 f n s).2.mem := by
  induction n generalizing s with
  | zero => cases h
  | succ n ih =>
    unfold retry at h ⊢
    dsimp only at h ⊢
    split at h
    · rename_i hread
      rw [if_pos hread]
      split at h
      · cases h
      · rename_i hreset
        rw [if_neg hreset]
        exact ih h
    · rename_i hread
      rw [if_neg hread]
      exact L.holds _ _ _ _ _ _ T F hW (Bool.eq_false_iff.mpr hread)

/-- It succeeds if one of the reads does, and all resets before. -/
theorem retry_iff : (retry int13 f n s).1 = true ↔ ∃ k < n, (call int13 f ((failure int13 f)^[k] s)).1 = false ∧
    ∀ j < k, (call int13 f ((failure int13 f)^[j] s)).1 = true ∧
      (call int13 .reset (call int13 f ((failure int13 f)^[j] s)).2).1 = false := by
  induction n generalizing s with
  | zero => simp [retry]
  | succ n ih =>
    have hnext : retry int13 f (n + 1) s =
        if (call int13 f s).1 then
          if (call int13 .reset (call int13 f s).2).1 then (false, failure int13 f s)
          else retry int13 f n (failure int13 f s)
        else (true, (call int13 f s).2) := rfl
    rw [hnext]
    cases hread : (call int13 f s).1 with
    | false =>
      simp only [Bool.false_eq_true, if_false, true_iff]
      exact ⟨0, Nat.succ_pos n, hread, fun j hj => absurd hj (Nat.not_lt_zero j)⟩
    | true =>
      cases hreset : (call int13 .reset (call int13 f s).2).1 with
      | true =>
        simp only [if_true, Bool.false_eq_true, false_iff]
        intro hex
        obtain ⟨k, -, hk, hbefore⟩ := hex
        cases k with
        | zero => exact absurd (hread.symm.trans hk) (by simp)
        | succ k => exact absurd (hreset.symm.trans (hbefore 0 (Nat.succ_pos k)).2) (by simp)
      | false =>
        simp only [if_true, Bool.false_eq_true, if_false]
        rw [ih]
        constructor
        · intro hex
          obtain ⟨k, hkn, hk, hbefore⟩ := hex
          refine ⟨k + 1, Nat.succ_lt_succ hkn, hk, fun j hj => ?_⟩
          cases j with
          | zero => exact ⟨hread, hreset⟩
          | succ j => exact hbefore j (Nat.lt_of_succ_lt_succ hj)
        · intro hex
          obtain ⟨k, hkn, hk, hbefore⟩ := hex
          cases k with
          | zero => exact absurd (hread.symm.trans hk) (by simp)
          | succ k =>
            exact ⟨k, Nat.lt_of_succ_lt_succ hkn, hk, fun j hj => hbefore (j + 1) (Nat.succ_lt_succ hj)⟩

end

end Bios

end AlexOS
