import AlexOS.Lib.Stream
import Mathlib.Data.Set.BooleanAlgebra
import Mathlib.Order.CompletePartialOrder
import Mathlib.Order.Interval.Set.Defs

/-!
# What changes in memory

`Changes S m m'`: the memories `m` and `m'` differ at addresses of `S` only.
Each way of writing to memory changes the range that it is given, if that does
not wrap, and what it leaves in the range is a function of the bytes that were
there before (`memcpy_byte`, `write_byte`). A word is as it was if none of its
bytes is in `S` (`Changes.load32`).
-/

namespace AlexOS

namespace Mem

/-- The first `n` rounds of the loop of `memcpy`. -/
def memcpy (m : Mem) (dst src : Addr) : Nat → Mem
  | 0 => m
  | n + 1 => (memcpy m dst src n).store8 (dst + BitVec.ofNat 32 n)
      (memcpy m dst src n (src + BitVec.ofNat 32 n))

/-- Bytes are written from `a` on. -/
def write (m : Mem) (a : Addr) (bytes : List Byte) : Mem :=
  m.splice a bytes.length fun x => bytes.getD (x - a).toNat 0

/-- The bytes from `a` on. -/
def view (m : Mem) (a : Addr) : Buffer := fun i => m (a + BitVec.ofNat 32 i)

/-- `m'` is `m` but for the addresses in `S`. -/
def Changes (S : Set Nat) (m m' : Mem) : Prop := ∀ x : Addr, x.toNat ∉ S → m' x = m x

/-- The addresses of `n` bytes at `a`. -/
def range (a : Addr) (n : Nat) : Set Nat := Set.Ico a.toNat (a.toNat + n)

section

variable {m m₁ m₂ : Mem} {S T : Set Nat} {a b x dst src : Addr} {i n : Nat} {v : Word} {bytes : List Byte}

@[simp] theorem mem_range {k : Nat} : k ∈ range a n ↔ a.toNat ≤ k ∧ k < a.toNat + n := Iff.rfl

namespace Changes

theorem refl (S : Set Nat) (m : Mem) : Changes S m m := fun _ _ => rfl

theorem trans (h₁ : Changes S m m₁) (h₂ : Changes S m₁ m₂) : Changes S m m₂ :=
  fun x hx => (h₂ x hx).trans (h₁ x hx)

theorem mono (h : Changes S m m₁) (hS : S ⊆ T) : Changes T m m₁ := fun x hx => h x fun hS' => hx (hS hS')

/-- A word with no byte in `S` is as it was. -/
theorem load32 (h : Changes S m m₁) (hw : a.toNat + 4 ≤ 2 ^ 32) (ha : ∀ i < 4, a.toNat + i ∉ S) :
    m₁.load32 a = m.load32 a := by
  refine load32_congr fun i hi => h _ ?_
  rw [toNat_add_lt hi hw]
  exact ha i hi

end Changes

/-- The offset of an address in a range that does not wrap. -/
theorem sub_lt_iff (hw : a.toNat + n ≤ 2 ^ 32) : (x - a).toNat < n ↔ x.toNat ∈ range a n := by
  have := x.isLt
  rw [mem_range, BitVec.toNat_sub]
  omega

theorem splice_changes {f : Addr → Byte} (hw : a.toNat + n ≤ 2 ^ 32) :
    Changes (range a n) m (m.splice a n f) := by
  intro x hx
  rw [splice, if_neg fun h => hx ((sub_lt_iff hw).mp h)]

theorem write_changes (hw : a.toNat + bytes.length ≤ 2 ^ 32) :
    Changes (range a bytes.length) m (m.write a bytes) := splice_changes hw

theorem write_byte (hi : i < bytes.length) (hw : bytes.length ≤ 2 ^ 32) :
    m.write a bytes (a + BitVec.ofNat 32 i) = bytes.getD i 0 := by
  have hs : (a + BitVec.ofNat 32 i - a).toNat = i := by
    rw [add_sub_cancel_left, BitVec.toNat_ofNat]
    exact Nat.mod_eq_of_lt (by omega)
  rw [write, splice, hs, if_pos hi]

/-- A slice that was written. -/
theorem view_write_slice {b : Buffer} {k : Nat} (hk : k < n) (hn : n ≤ 2 ^ 32) :
    (m.write a (b.slice i n)).view a k = b (i + k) := by
  rw [view, write_byte (by rwa [Buffer.length_slice]) (by rwa [Buffer.length_slice]), Buffer.getD_slice hk]

/-- Nothing is written at other addresses, even if the range wraps. -/
theorem write_other (h : ∀ i < bytes.length, x ≠ a + BitVec.ofNat 32 i) : m.write a bytes x = m x := by
  rw [write, splice, if_neg]
  intro hlt
  apply h _ hlt
  rw [BitVec.ofNat_toNat, BitVec.setWidth_eq, add_sub_cancel]

/-- What is written does not depend on what was there. -/
theorem write_congr (h : m₁ x = m x) : m₁.write a bytes x = m.write a bytes x := by
  simp only [write, splice, h]

/-- The first byte is stored before the others. -/
theorem write_cons {b : Byte} (hw : bytes.length < 2 ^ 32) :
    m.write a (b :: bytes) = (m.store8 a b).write (a + 1) bytes := by
  funext x
  have := x.isLt; have := a.isLt
  have e : (x - (a + 1)).toNat = ((x - a).toNat + (2 ^ 32 - 1)) % 2 ^ 32 := by
    rw [BitVec.toNat_sub, BitVec.toNat_sub, BitVec.toNat_add, show (1 : Addr).toNat = 1 from rfl]
    omega
  simp only [write, splice, List.length_cons]
  by_cases hx : x = a
  · subst hx
    rw [e, BitVec.sub_self, show (0#32).toNat = 0 from rfl, if_pos (by omega), if_neg (by omega), store8_self]
    rfl
  · have hpos : 0 < (x - a).toNat := Nat.pos_of_ne_zero fun h => hx (sub_eq_zero.mp (BitVec.eq_of_toNat_eq h))
    rw [e, show ((x - a).toNat + (2 ^ 32 - 1)) % 2 ^ 32 = (x - a).toNat - 1 by have := (x - a).isLt; omega,
      store8_apply hx]
    obtain ⟨k, hk⟩ := Nat.exists_eq_add_of_le' hpos
    rw [hk, Nat.add_sub_cancel, List.getD_cons_succ]
    exact if_congr (by omega) rfl rfl

/-- The bytes of a word. -/
theorem write_word : m.write a [v.extractLsb' 0 8, v.extractLsb' 8 8, v.extractLsb' 16 8, v.extractLsb' 24 8] =
    m.store32 a v := by
  funext x
  rw [write, splice, store32]
  change (if (x - a).toNat < 4 then _ else _) = _
  by_cases hx : (x - a).toNat < 4
  · rw [if_pos hx, if_pos hx]
    generalize (x - a).toNat = k at hx
    obtain rfl | rfl | rfl | rfl : k = 0 ∨ k = 1 ∨ k = 2 ∨ k = 3 := by omega
    all_goals rfl
  · rw [if_neg hx, if_neg hx]

theorem memset_changes {byte : Byte} (hw : a.toNat + n ≤ 2 ^ 32) :
    Changes (range a n) m (m.memset a byte n) := by
  intro x hx
  rw [memset_apply _ _ _ _ (by omega), if_neg fun h => hx ((sub_lt_iff hw).mp h)]

/-- A word of zeros. -/
theorem load32_eq_zero (hw : a.toNat + 4 ≤ 2 ^ 32) (h : ∀ x : Addr, x.toNat ∈ range a 4 → m x = 0) :
    m.load32 a = 0 := by
  have h0 : load32 (fun _ => 0) a = 0 := show (0 ++ 0 ++ 0 ++ 0 : BitVec (8 + 8 + 8 + 8)) = 0 by decide
  rw [← h0]
  refine load32_congr fun i hi => h _ ?_
  rw [mem_range, toNat_add_lt hi hw]
  omega

theorem store32_changes (hw : a.toNat + 4 ≤ 2 ^ 32) : Changes (range a 4) m (m.store32 a v) := by
  intro x hx
  refine store32_apply (not_lt.mp fun h => hx ((sub_lt_iff hw).mp h))

theorem store8_changes {byte : Byte} : Changes (range a 1) m (m.store8 a byte) := by
  intro x hx
  refine store8_apply fun e => hx ?_
  rw [e, mem_range]
  omega

theorem memcpy_changes (hw : dst.toNat + n ≤ 2 ^ 32) : Changes (range dst n) m (m.memcpy dst src n) := by
  induction n with
  | zero => exact .refl _ _
  | succ n ih =>
    have hsub : range dst n ⊆ range dst (n + 1) := fun k hk => by
      rw [mem_range] at hk ⊢
      omega
    refine ((ih (by omega)).mono hsub).trans (store8_changes.mono fun k hk => ?_)
    rw [mem_range, toNat_add_lt (n := n + 1) (by omega) hw] at hk
    rw [mem_range]
    omega

/-- What is copied from a range that the copy does not change. -/
theorem memcpy_byte (hw : dst.toNat + n ≤ 2 ^ 32) (hsrc : src.toNat + n ≤ 2 ^ 32)
    (hd : dst.toNat + n ≤ src.toNat ∨ src.toNat + n ≤ dst.toNat) (hi : i < n) :
    m.memcpy dst src n (dst + BitVec.ofNat 32 i) = m (src + BitVec.ofNat 32 i) := by
  induction n with
  | zero => omega
  | succ n ih =>
    rw [memcpy]
    rcases Nat.lt_succ_iff_lt_or_eq.mp hi with hlt | rfl
    · rw [store8_apply, ih (by omega) (by omega) (by omega) hlt]
      intro e
      have h1 := toNat_add_lt (n := n + 1) hi hw
      have h2 := toNat_add_lt (n := n + 1) (show n < n + 1 by omega) hw
      rw [e, h2] at h1
      omega
    · rw [store8_self]
      apply memcpy_changes (by omega) _
      rw [mem_range, toNat_add_lt (n := i + 1) (by omega) hsrc]
      omega

theorem load32_view : (m.view a).load32 i = m.load32 (a + BitVec.ofNat 32 i) := by
  simp only [Buffer.load32, view, load32, BitVec.ofNat_add, BitVec.add_assoc]
  rfl

end

end Mem

end AlexOS
