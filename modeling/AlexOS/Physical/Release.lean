import AlexOS.Physical.Runs

/-!
# Releasing what was allocated

While other runs are allocated and released, a run stays marked, and so does
block 0 (`Others.marked`). Releasing the run clears its blocks and no others,
and just after `allocate_blocks` the bitmap and `used_blocks` are as before
(`free_allocate`).
-/

namespace AlexOS.Physical

/-- Calls of `allocate_blocks`, and of `free_blocks` for runs apart from `a`, lead from one state to another. -/
inductive Others (a : Allocation) (s : Phys) : Phys → Prop
  | refl : Others a s s
  | allocate {t : Phys} (h : Others a s t) (n : Word) : Others a s (allocateBlocks t n).2
  | free {t : Phys} (h : Others a s t) (a' : Allocation) (hapart : a.Apart a') :
      Others a s (freeBlocks t a'.addr a'.count)

section

variable {s t : Phys} {a : Allocation} {b n start : Word}

theorem bit_allocateBlocks (h : bit s b) : bit (allocateBlocks s n).2 b := by
  rcases allocateBlocks_cases s n with e | ⟨start, -, A⟩
  · rwa [e]
  · rw [A.bits, h, Bool.or_true]

theorem bit_freeBlocks_zero (p : Addr) : bit (freeBlocks s p n) 0 = true := by
  rw [bit_freeBlocks, decide_eq_true rfl, Bool.true_or]

theorem bit_freeBlocks_apart {a' : Allocation} (hapart : a.Apart a') (hb : a.Has b) (h : bit s b) :
    bit (freeBlocks s a'.addr a'.count) b := by
  have hout : ¬ InRun (a'.addr / BLOCK_SIZE) a'.count.toNat b := hapart b hb
  rw [bit_freeBlocks, h, decide_eq_false hout]
  simp

/-- What stays marked. -/
theorem Others.marked (h : Others a s t) (h0 : bit s 0) (ha : ∀ b, a.Has b → bit s b) :
    bit t 0 ∧ ∀ b, a.Has b → bit t b := by
  induction h with
  | refl => exact ⟨h0, ha⟩
  | allocate _ n ih => exact ⟨bit_allocateBlocks ih.1, fun b hb => bit_allocateBlocks (ih.2 b hb)⟩
  | free _ a' hapart ih => exact ⟨bit_freeBlocks_zero _, fun b hb => bit_freeBlocks_apart hapart hb (ih.2 b hb)⟩

/-- What a run that was allocated is. -/
theorem allocated_of_ne_zero (h : (allocateBlocks s n).1 ≠ 0) (hm : s.maxBlocks.toNat ≤ 2 ^ 20) :
    ∃ start, Allocated s n start (allocateBlocks s n).2 ∧ (allocateBlocks s n).1 / BLOCK_SIZE = start := by
  rcases allocateBlocks_cases s n with e | ⟨start, ha, A⟩
  · exact absurd (by rw [e]) h
  · have hlt := A.below
    exact ⟨start, A, by rw [ha, block_div (by omega)]⟩

/-- Releasing a run, while block 0 is marked. -/
theorem bit_freeBlocks_has (h0 : bit s 0) (hzero : ¬ a.Has 0) :
    bit (freeBlocks s a.addr a.count) b = (!decide (a.Has b) && bit s b) := by
  rw [bit_freeBlocks]
  by_cases hb : b = 0
  · subst hb
    rw [decide_eq_true rfl, decide_eq_false hzero, h0]
    rfl
  · rw [decide_eq_false hb, Bool.false_or]
    rfl

/-- A run that was allocated is clear again once it is released, and nothing else is changed. Released at once, all is
as it was before. -/
theorem free_allocate {s : Phys} {n : Word} (h0 : bit s 0) (hm : s.maxBlocks.toNat ≤ 2 ^ 20)
    (h : (allocateBlocks s n).1 ≠ 0) :
    (∀ t, Others ⟨(allocateBlocks s n).1, n⟩ (allocateBlocks s n).2 t →
      ∀ b, if (⟨(allocateBlocks s n).1, n⟩ : Allocation).Has b then
          bit t b = true ∧ bit (freeBlocks t (allocateBlocks s n).1 n) b = false
        else bit (freeBlocks t (allocateBlocks s n).1 n) b = bit t b) ∧
      (∀ b, bit (freeBlocks (allocateBlocks s n).2 (allocateBlocks s n).1 n) b = bit s b) ∧
      (freeBlocks (allocateBlocks s n).2 (allocateBlocks s n).1 n).usedBlocks = s.usedBlocks := by
  obtain ⟨start, A, hstart⟩ := allocated_of_ne_zero h hm
  generalize ha : (⟨(allocateBlocks s n).1, n⟩ : Allocation) = a
  have haddr : (allocateBlocks s n).1 = a.addr := by rw [← ha]
  have hcount : n = a.count := by rw [← ha]
  have hhas : ∀ b, a.Has b ↔ InRun start n.toNat b := by
    intro b
    rw [Allocation.Has, ← haddr, ← hcount, hstart]
  have hzero : ¬ a.Has 0 := fun hz => by
    rw [A.free 0 ((hhas 0).mp hz)] at h0
    cases h0
  have h0' : bit (allocateBlocks s n).2 0 := bit_allocateBlocks h0
  have hmarked : ∀ b, a.Has b → bit (allocateBlocks s n).2 b := by
    intro b hb
    rw [A.bits, decide_eq_true ((hhas b).mp hb), Bool.true_or]
  rw [haddr]
  refine ⟨fun t ht b => ?_, fun b => ?_, ?_⟩
  · obtain ⟨ht0, htm⟩ := ht.marked h0' hmarked
    have hfree : bit (freeBlocks t a.addr n) b = (!decide (a.Has b) && bit t b) := by
      rw [hcount]
      exact bit_freeBlocks_has ht0 hzero
    split
    · rename_i hb
      simp [hfree, hb, htm b hb]
    · rename_i hb
      simp [hfree, hb]
  · have hfree : bit (freeBlocks (allocateBlocks s n).2 a.addr n) b =
        (!decide (a.Has b) && bit (allocateBlocks s n).2 b) := by
      rw [hcount]
      rw [hcount] at h0'
      exact bit_freeBlocks_has h0' hzero
    rw [hfree, A.bits]
    by_cases hb : InRun start n.toNat b
    · simp [(hhas b).mpr hb, A.free b hb]
    · simp [mt (hhas b).mp hb, hb]
  · have hu : (freeBlocks (allocateBlocks s n).2 a.addr n).usedBlocks = (allocateBlocks s n).2.usedBlocks - n :=
      congrArg (· - n) (usedBlocks_forBlocks usedBlocks_unsetBlock _ _ _)
    rw [hu, A.usedBlocks, add_sub_cancel_right]

/-- Of 1024 blocks all but block 0 are free; three are allocated, then two, and the three are released. -/
def zeroUsed : Phys := setBlock someBlocks₀ 0

theorem free_allocate_zeroUsed :
    (∀ b, (⟨(allocateBlocks zeroUsed 3).1, 3⟩ : Allocation).Has b →
      bit (freeBlocks (allocateBlocks (allocateBlocks zeroUsed 3).2 2).2 (allocateBlocks zeroUsed 3).1 3) b = false) ∧
    ∀ b, bit (freeBlocks (allocateBlocks zeroUsed 3).2 (allocateBlocks zeroUsed 3).1 3) b = bit zeroUsed b := by
  obtain ⟨hlater, hnow, -⟩ := free_allocate (s := zeroUsed) (n := 3) (by decide) (by decide) (by decide)
  refine ⟨fun b hb => ?_, hnow⟩
  have h := hlater _ (.allocate .refl 2) b
  rw [if_pos hb] at h
  exact h.2

end

end AlexOS.Physical
