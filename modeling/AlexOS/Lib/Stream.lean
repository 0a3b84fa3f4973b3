import AlexOS.Lib.Disk
import Mathlib.Data.List.GetD

/-!
# Streams

A reader is asked for a number of bytes, and returns a number and the bytes. It
delivers a content up to a limit if each read continues where the one before it
ended, and is cut off at the limit (`Delivers`). However the reads are split,
the bytes of all of them are then a prefix of what is left
(`Delivers.flatten_reads`).
-/

namespace AlexOS

namespace Buffer

variable {b : Buffer}

@[simp] theorem length_slice (b : Buffer) (i n : Nat) : (b.slice i n).length = n := by
  rw [slice, List.length_map, List.length_range]

@[simp] theorem slice_zero (b : Buffer) (i : Nat) : b.slice i 0 = [] := rfl

theorem slice_append (b : Buffer) (i m n : Nat) :
    b.slice i m ++ b.slice (i + m) n = b.slice i (m + n) := by
  rw [slice, slice, slice, List.range_add, List.map_append, List.map_map]
  congr 1
  apply List.map_congr_left
  intro j _
  rw [Function.comp_apply, Nat.add_assoc]

theorem getD_slice {i n j : Nat} (hj : j < n) (v : Byte) : (b.slice i n).getD j v = b (i + j) := by
  rw [slice, List.getD_eq_getElem _ _ (by rwa [List.length_map, List.length_range])]
  simp

/-- The slices of two buffers that agree there. -/
theorem slice_congr {b' : Buffer} {i i' n : Nat} (h : ∀ j < n, b' (i' + j) = b (i + j)) :
    b'.slice i' n = b.slice i n :=
  List.map_congr_left fun j hj => h j (List.mem_range.mp hj)

theorem load16_congr {b' : Buffer} {i i' : Nat} (h : ∀ j < 2, b' (i' + j) = b (i + j)) :
    b'.load16 i' = b.load16 i := by
  rw [load16, load16, h 1 (by decide), show b' i' = b i from h 0 (by decide)]

theorem load32_congr {b' : Buffer} {i i' : Nat} (h : ∀ j < 4, b' (i' + j) = b (i + j)) :
    b'.load32 i' = b.load32 i := by
  rw [load32, load32, h 1 (by decide), h 2 (by decide), h 3 (by decide),
    show b' i' = b i from h 0 (by decide)]

end Buffer

namespace Stream

/-- A read: what it returns, and the bytes. -/
abbrev Read (σ : Type) : Type := σ → Word → Word × List Byte × σ

/-- What each read of a sequence returns. -/
def reads {σ : Type} (read : Read σ) : σ → List Word → List (Word × List Byte)
  | _, [] => []
  | s, count :: counts =>
    ((read s count).1, (read s count).2.1) :: reads read (read s count).2.2 counts

/-- Reads at position `i`, where `At i` holds of the state, continue with byte `i` of `content`, up
to `limit`. -/
def Delivers {σ : Type} (read : Read σ) (content : Buffer) (limit : Nat) (At : Nat → σ → Prop) : Prop :=
  ∀ s i count, At i s → (read s count).1.toNat = min count.toNat (limit - i) ∧
    (read s count).2.1 = content.slice i (min count.toNat (limit - i)) ∧
      At (i + min count.toNat (limit - i)) (read s count).2.2

namespace Delivers

variable {σ : Type} {read : Read σ} {content : Buffer} {limit i : Nat} {At : Nat → σ → Prop} {s : σ}

/-- The bytes of all reads are those of one read. -/
theorem flatten_reads (D : Delivers read content limit At) (hs : At i s) (counts : List Word) :
    ((reads read s counts).map Prod.snd).flatten =
      content.slice i (min (counts.map BitVec.toNat).sum (limit - i)) := by
  induction counts generalizing i s with
  | nil => rw [List.map_nil, List.sum_nil, Nat.zero_min]; rfl
  | cons count counts ih =>
    obtain ⟨-, hout, hat⟩ := D s i count hs
    rw [reads, List.map_cons, List.flatten_cons, ih hat, hout, Buffer.slice_append, List.map_cons,
      List.sum_cons]
    congr 1
    omega

/-- Each read returns the number of its bytes. -/
theorem returned_reads (D : Delivers read content limit At) (hs : At i s) (counts : List Word) :
    ∀ r ∈ reads read s counts, r.1.toNat = r.2.length := by
  induction counts generalizing i s with
  | nil => exact fun r hr => absurd hr List.not_mem_nil
  | cons count counts ih =>
    obtain ⟨hret, hout, hat⟩ := D s i count hs
    rintro r hr
    rcases List.mem_cons.mp hr with rfl | hr
    · rw [hret, hout, Buffer.length_slice]
    · exact ih hat r hr

end Delivers

end Stream

end AlexOS
