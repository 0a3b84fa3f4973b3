import AlexOS.Lib.Mem
import Mathlib.Algebra.Order.Group.Nat

/-!
# Pages of words

A page is 4 KiB of memory at an address that is a multiple of 4096 (`Aligned`),
and holds 1024 words (`slot`). Words at addresses that are multiples of four
are the same or apart (`load32_store32_of_ne`). A page filled with a byte is
filled in each of its words, and no word of another page changes
(`load32_memset_page`, `load32_memset_other`).
-/

namespace AlexOS

/-- `a` is the address of a page. -/
def Aligned (a : Addr) : Prop := a.toNat % 4096 = 0

instance (a : Addr) : Decidable (Aligned a) := inferInstanceAs (Decidable (_ = _))

/-- The number of the page that `a` lies in. -/
def page (a : Addr) : Nat := a.toNat / 4096

/-- The address of word `i` of the page at `t`. -/
def slot (t : Addr) (i : Word) : Addr := t + 4 * i

section

variable {m : Mem} {a b t u : Addr} {i j v : Word} {c : Byte}

theorem toNat_slot (ht : Aligned t) (hi : i.toNat < 1024) : (slot t i).toNat = t.toNat + 4 * i.toNat := by
  have := t.isLt
  rw [Aligned] at ht
  rw [slot, BitVec.toNat_add, BitVec.toNat_mul, show (4 : Word).toNat = 4 from rfl]
  omega

theorem page_slot (ht : Aligned t) (hi : i.toNat < 1024) : page (slot t i) = page t := by
  rw [Aligned] at ht
  rw [page, page, toNat_slot ht hi]
  omega

theorem slot_aligned (ht : Aligned t) (hi : i.toNat < 1024) : (slot t i).toNat % 4 = 0 := by
  rw [Aligned] at ht
  rw [toNat_slot ht hi]
  omega

theorem eq_of_page_eq (ht : Aligned t) (hu : Aligned u) (h : page t = page u) : t = u := by
  rw [Aligned] at ht hu
  rw [page, page] at h
  exact BitVec.eq_of_toNat_eq (by omega)

theorem slot_ne (ht : Aligned t) (hi : i.toNat < 1024) (hj : j.toNat < 1024) (h : i ≠ j) :
    slot t i ≠ slot t j := by
  intro e
  have e := congrArg BitVec.toNat e
  rw [toNat_slot ht hi, toNat_slot ht hj] at e
  exact h (BitVec.eq_of_toNat_eq (by omega))

theorem slot_ne_of_page (ht : Aligned t) (hu : Aligned u) (hi : i.toNat < 1024)
    (hj : j.toNat < 1024) (h : t ≠ u) : slot t i ≠ slot u j := by
  intro e
  have e := congrArg page e
  rw [page_slot ht hi, page_slot hu hj] at e
  exact h (eq_of_page_eq ht hu e)

namespace Mem

/-- Words at addresses that are multiples of four. -/
theorem load32_store32_of_ne (ha : a.toNat % 4 = 0) (hb : b.toNat % 4 = 0) (h : a ≠ b) :
    (m.store32 a v).load32 b = m.load32 b := by
  have hne : a.toNat ≠ b.toNat := fun e => h (BitVec.eq_of_toNat_eq e)
  have := a.isLt; have := b.isLt
  refine load32_store32_of_apart ?_ ?_ <;>
  · rw [BitVec.toNat_sub]
    omega

theorem toNat_add_of_aligned {k : Nat} (ha : a.toNat % 4 = 0) (hk : k < 4) :
    (a + BitVec.ofNat 32 k).toNat = a.toNat + k := by
  have := a.isLt
  rw [BitVec.toNat_add, BitVec.toNat_ofNat]
  omega

theorem load32_memset_page (ht : Aligned t) (ha : a.toNat % 4 = 0) (h : page a = page t) :
    (m.memset t 0 4096).load32 a = 0 := by
  rw [Aligned] at ht
  rw [page, page] at h
  have hz : ∀ k < 4, m.memset t 0 4096 (a + BitVec.ofNat 32 k) = 0 := fun k hk => by
    have e := toNat_add_of_aligned ha hk
    have := t.isLt
    exact memset_byte (by omega) (by omega) (by omega)
  rw [load32_congr (m := fun _ => 0) hz, load32]
  decide

theorem load32_memset_other (ht : Aligned t) (ha : a.toNat % 4 = 0) (h : page a ≠ page t) :
    (m.memset t c 4096).load32 a = m.load32 a := by
  rw [Aligned] at ht
  rw [page, page] at h
  refine load32_congr fun k hk => ?_
  have e := toNat_add_of_aligned ha hk
  have := t.isLt; have := a.isLt
  rw [memset_apply _ _ _ _ (by omega), if_neg]
  rw [BitVec.toNat_sub, e]
  omega

end Mem

end

end AlexOS
