import AlexOS.Physical.Blocks
import Mathlib.Data.List.Pairwise

/-!
# Runs of allocations and releases

`Reachable s₀ s live`: calls of `allocate_blocks`, and releases of live
allocations, lead from `s₀` to `s`, where `live` are the allocations not yet
released. `Runs` is what such calls preserve (`Runs.allocate`, `Runs.free`),
so it holds of every reachable state (`Reachable.runs`): the blocks of the live
allocations are apart, are marked used, and were free in the first bitmap
(`no_double_allocation`).

The addresses `allocate_blocks` returns are those of the blocks only while
these are below `2 ^ 20`.
-/

namespace AlexOS.Physical

/-- A call's return value, and the count it was given. -/
structure Allocation where
  addr : Addr
  count : Word
deriving DecidableEq

/-- Block `b` is one of the allocation's. -/
def Allocation.Has (a : Allocation) (b : Word) : Prop := InRun (a.addr / BLOCK_SIZE) a.count.toNat b

instance (a : Allocation) (b : Word) : Decidable (a.Has b) := inferInstanceAs (Decidable (InRun _ _ _))

def Allocation.Apart (a a' : Allocation) : Prop := ∀ b, a.Has b → ¬ a'.Has b

theorem Allocation.Apart.symm {a a' : Allocation} (h : a.Apart a') : a'.Apart a :=
  fun b h' h'' => h b h'' h'

inductive Reachable (s₀ : Phys) : Phys → List Allocation → Prop
  | init : Reachable s₀ s₀ []
  | allocate {s : Phys} {live : List Allocation} (r : Reachable s₀ s live) (n : Word)
      (h : (allocateBlocks s n).1 ≠ 0) :
      Reachable s₀ (allocateBlocks s n).2 (⟨(allocateBlocks s n).1, n⟩ :: live)
  | fail {s : Phys} {live : List Allocation} (r : Reachable s₀ s live) (n : Word)
      (h : (allocateBlocks s n).1 = 0) : Reachable s₀ (allocateBlocks s n).2 live
  | free {s : Phys} {live : List Allocation} {a : Allocation} (r : Reachable s₀ s live)
      (h : a ∈ live) : Reachable s₀ (freeBlocks s a.addr a.count) (live.erase a)

section

variable {s₀ s : Phys} {live : List Allocation} {a : Allocation} {n start : Word}

/-- The block an address names is the one it was made from. -/
theorem block_div (h : start.toNat < 2 ^ 20) : start * BLOCK_SIZE / BLOCK_SIZE = start := by
  apply BitVec.eq_of_toNat_eq
  have e : (BLOCK_SIZE).toNat = 4096 := rfl
  rw [BitVec.toNat_udiv, BitVec.toNat_mul, e]
  omega

theorem block_ne_zero (h0 : 0 < start.toNat) (h : start.toNat < 2 ^ 20) : start * BLOCK_SIZE ≠ 0 := by
  intro h'
  have e := congrArg BitVec.toNat h'
  rw [BitVec.toNat_mul, show (BLOCK_SIZE).toNat = 4096 from rfl] at e
  have : (0 : Word).toNat = 0 := rfl
  omega

/-- What calls preserve, from the first state `s₀` on. -/
structure Runs (s₀ s : Phys) (live : List Allocation) : Prop where
  same : Same s₀ s
  /-- A run starts where the search looks. -/
  place : ∀ a ∈ live, 32 ≤ (a.addr / BLOCK_SIZE).toNat ∧
    (a.addr / BLOCK_SIZE).toNat < 32 * (s₀.maxBlocks.toNat / 32) ∧
    Passes (fun b => bit s₀ b = false) (a.addr / BLOCK_SIZE)
  /-- The blocks of the live allocations are marked, -/
  used : ∀ a ∈ live, ∀ b, a.Has b → bit s b
  /-- were free at first, -/
  fresh : ∀ a ∈ live, ∀ b, a.Has b → bit s₀ b = false
  /-- and belong to one allocation each. -/
  apart : live.Pairwise Allocation.Apart
  /-- Nothing else is released. -/
  keep : ∀ b, bit s₀ b → bit s b

namespace Runs

theorem init (s₀ : Phys) : Runs s₀ s₀ [] :=
  ⟨Same.refl s₀, by simp, by simp, by simp, List.Pairwise.nil, fun _ h => h⟩

/-- A run found is marked. -/
theorem allocated {s' : Phys} (R : Runs s₀ s live) (hm : s₀.maxBlocks.toNat ≤ 2 ^ 20)
    (A : Allocated s n start s') : Runs s₀ s' (⟨start * BLOCK_SIZE, n⟩ :: live) := by
  have hlt := A.below
  rw [R.same.maxBlocks] at hlt
  have hd : start * BLOCK_SIZE / BLOCK_SIZE = start := block_div (by omega)
  have hfree : ∀ b, (⟨start * BLOCK_SIZE, n⟩ : Allocation).Has b → bit s b = false := fun b hb => by
    rw [Allocation.Has, hd] at hb
    exact A.free b hb
  have hfree₀ : ∀ b, bit s b = false → bit s₀ b = false := fun b hb =>
    Bool.eq_false_iff.mpr fun h => Bool.eq_false_iff.mp hb (R.keep b h)
  have hkeep : ∀ b, bit s b → bit s' b := fun b hb => by rw [A.bits, hb, Bool.or_true]
  refine ⟨R.same.trans A.same, fun a ha => ?_, fun a ha b hb => ?_, fun a ha b hb => ?_,
    List.pairwise_cons.mpr ⟨fun a ha b hb hb' => ?_, R.apart⟩, fun b hb => hkeep b (R.keep b hb)⟩
  · rcases List.mem_cons.mp ha with rfl | ha
    · rw [hd]
      exact ⟨A.first, hlt, fun b hb ht => hfree₀ b (A.passes b hb ht)⟩
    · exact R.place a ha
  · rcases List.mem_cons.mp ha with rfl | ha
    · rw [Allocation.Has, hd] at hb
      rw [A.bits, decide_eq_true hb, Bool.true_or]
    · exact hkeep b (R.used a ha b hb)
  · rcases List.mem_cons.mp ha with rfl | ha
    · exact hfree₀ b (hfree b hb)
    · exact R.fresh a ha b hb
  · exact Bool.eq_false_iff.mp (hfree b hb) (R.used a ha b hb')

theorem free (R : Runs s₀ s live) (ha : a ∈ live) :
    Runs s₀ (freeBlocks s a.addr a.count) (live.erase a) := by
  have hp : (a :: live.erase a).Pairwise Allocation.Apart :=
    (List.perm_cons_erase ha).pairwise R.apart fun h => h.symm
  have hother := (List.pairwise_cons.mp hp).1
  have hkeep : ∀ b, ¬ a.Has b → bit s b → bit (freeBlocks s a.addr a.count) b := fun b hn hb => by
    rw [Allocation.Has] at hn
    rw [bit_freeBlocks, hb, Bool.and_true, decide_eq_false hn, Bool.not_false, Bool.or_true]
  have hmem : ∀ a' ∈ live.erase a, a' ∈ live := fun _ h => List.mem_of_mem_erase h
  refine ⟨R.same.trans (same_freeBlocks _ _ _), fun a' ha' => R.place a' (hmem a' ha'),
    fun a' ha' b hb => ?_, fun a' ha' => R.fresh a' (hmem a' ha'), (List.pairwise_cons.mp hp).2, fun b hb => ?_⟩
  · exact hkeep b (fun h => hother a' ha' b h hb) (R.used a' (hmem a' ha') b hb)
  · refine hkeep b (fun h => ?_) (R.keep b hb)
    exact Bool.eq_false_iff.mp (R.fresh a ha b h) hb

end Runs

/-- Every reachable state keeps the runs apart. -/
theorem Reachable.runs (r : Reachable s₀ s live) (hm : s₀.maxBlocks.toNat ≤ 2 ^ 20) :
    Runs s₀ s live := by
  induction r with
  | init => exact Runs.init s₀
  | allocate r n h ih =>
    rcases allocateBlocks_cases _ n with e | ⟨start, ha, A⟩
    · exact absurd (by rw [e]) h
    · rw [ha]
      exact ih.allocated hm A
  | @fail s live r n h ih =>
    rcases allocateBlocks_cases s n with e | ⟨start, ha, A⟩
    · rwa [e]
    · have hlt := A.below
      rw [ih.same.maxBlocks] at hlt
      have := A.first
      exact absurd (ha.symm.trans h) (block_ne_zero (by omega) (by omega))
  | free r h ih => exact ih.free h

/-- The blocks of distinct live allocations are distinct, and none was used at first. -/
theorem no_double_allocation (r : Reachable s₀ s live) (hm : s₀.maxBlocks ≤ 0x100000) :
    live.Pairwise Allocation.Apart ∧ ∀ a ∈ live, ∀ b, a.Has b → bit s₀ b = false :=
  have R := r.runs hm
  ⟨R.apart, R.fresh⟩

/-- 1024 free blocks, of which three and two are allocated, the three are released,
and one is allocated. -/
def someBlocks₀ : Phys := ⟨fun _ => 0, 0, 1024, 0⟩
def someBlocks₁ : Phys := (allocateBlocks someBlocks₀ 3).2
def someBlocks₂ : Phys := (allocateBlocks someBlocks₁ 2).2
def someBlocks₃ : Phys := freeBlocks someBlocks₂ 0x20000 3
def someBlocks : Phys := (allocateBlocks someBlocks₃ 1).2

theorem reachable_allocate {p : Addr} (r : Reachable s₀ s live) (h : (allocateBlocks s n).1 = p)
    (h0 : p ≠ 0) : Reachable s₀ (allocateBlocks s n).2 (⟨p, n⟩ :: live) := by
  subst h
  exact r.allocate n h0

theorem no_double_allocation_someBlocks :
    [⟨0x20000, 1⟩, ⟨0x28000, 2⟩].Pairwise Allocation.Apart ∧
      ∀ a ∈ [(⟨0x20000, 1⟩ : Allocation), ⟨0x28000, 2⟩], ∀ b, a.Has b →
        bit someBlocks₀ b = false := by
  have r₁ : Reachable someBlocks₀ someBlocks₁ [⟨0x20000, 3⟩] :=
    reachable_allocate .init (by decide) (by decide)
  have r₂ : Reachable someBlocks₀ someBlocks₂ [⟨0x28000, 2⟩, ⟨0x20000, 3⟩] :=
    reachable_allocate r₁ (by decide) (by decide)
  have r₃ : Reachable someBlocks₀ someBlocks₃ [⟨0x28000, 2⟩] :=
    r₂.free (a := ⟨0x20000, 3⟩) (by decide)
  have r₄ : Reachable someBlocks₀ someBlocks [⟨0x20000, 1⟩, ⟨0x28000, 2⟩] :=
    reachable_allocate r₃ (by decide) (by decide)
  exact no_double_allocation r₄ (by decide)

end

end AlexOS.Physical
