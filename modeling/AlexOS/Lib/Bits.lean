import Mathlib.Algebra.Group.Nat.Defs
import Mathlib.Data.Nat.Init

/-!
# Fields of a word

Fields that are put side by side with `|||` add up (`toNat_or_of_dvd`), and so
are read back by division. A field that is written by clearing its bits and
setting the new ones changes no other bit (`getLsbD_merge`).
-/

namespace AlexOS

section

variable {w k : Nat} {x y : BitVec w}

/-- A field below the bits of another. -/
theorem toNat_or_of_dvd (hx : 2 ^ k ∣ x.toNat) (hy : y.toNat < 2 ^ k) : (x ||| y).toNat = x.toNat + y.toNat := by
  obtain ⟨q, hq⟩ := hx
  rw [BitVec.toNat_or, hq, Nat.two_pow_add_eq_or_of_lt hy]

theorem toNat_shiftLeft_of_lt (h : x.toNat * 2 ^ k < 2 ^ w) : (x <<< k).toNat = x.toNat * 2 ^ k := by
  rw [BitVec.toNat_shiftLeft, Nat.shiftLeft_eq, Nat.mod_eq_of_lt h]

theorem toNat_shiftLeft_or (h : x.toNat * 2 ^ k < 2 ^ w) (hy : y.toNat < 2 ^ k) :
    (x <<< k ||| y).toNat = x.toNat * 2 ^ k + y.toNat := by
  rw [toNat_or_of_dvd (k := k) _ hy, toNat_shiftLeft_of_lt h]
  exact toNat_shiftLeft_of_lt h ▸ Nat.dvd_mul_left ..

/-- The bits from bit `k` on. -/
theorem toNat_and_high (x : BitVec w) (k : Nat) : (x &&& BitVec.allOnes w <<< k).toNat = x.toNat / 2 ^ k * 2 ^ k := by
  have h : x &&& BitVec.allOnes w <<< k = x >>> k <<< k := by
    apply BitVec.eq_of_getLsbD_eq
    intro i hi
    rw [BitVec.getLsbD_and, BitVec.getLsbD_shiftLeft, BitVec.getLsbD_shiftLeft, BitVec.getLsbD_ushiftRight]
    by_cases hk : i < k
    · simp [hk]
    · rw [show k + (i - k) = i by omega, BitVec.getLsbD_allOnes]
      simp [hi, hk, show i - k < w by omega]
  have hx : (x >>> k).toNat = x.toNat / 2 ^ k := by rw [BitVec.toNat_ushiftRight, Nat.shiftRight_eq_div_pow]
  rw [h, toNat_shiftLeft_of_lt (by rw [hx]; exact Nat.lt_of_le_of_lt (Nat.div_mul_le_self ..) x.isLt), hx]

/-- A multiple of `2 ^ k` has no bits before bit `k`. -/
theorem getLsbD_of_dvd {i : Nat} (h : 2 ^ k ∣ x.toNat) (hi : i < k) : x.getLsbD i = false := by
  obtain ⟨q, hq⟩ := h
  rw [← BitVec.testBit_toNat, hq, Nat.testBit_two_pow_mul, decide_eq_false (Nat.not_le.mpr hi), Bool.false_and]

theorem and_high_of_dvd (h : 2 ^ k ∣ x.toNat) : x &&& BitVec.allOnes w <<< k = x := by
  apply BitVec.eq_of_toNat_eq
  rw [toNat_and_high, Nat.div_mul_cancel h]

theorem toNat_allOnes_shiftLeft (hk : k ≤ w) : (BitVec.allOnes w <<< k).toNat = 2 ^ w - 2 ^ k := by
  have hpow : 2 ^ w = 2 ^ (w - k) * 2 ^ k := by rw [← Nat.pow_add, Nat.sub_add_cancel hk]
  have hpos := Nat.two_pow_pos k
  have hq := Nat.two_pow_pos (w - k)
  have hdiv : (2 ^ w - 1) / 2 ^ k = 2 ^ (w - k) - 1 := by
    have hle : 2 ^ k ≤ 2 ^ (w - k) * 2 ^ k := Nat.le_mul_of_pos_left _ hq
    apply Nat.div_eq_of_lt_le
    · rw [Nat.sub_mul, Nat.one_mul, hpow]
      omega
    · rw [Nat.sub_add_cancel hq, hpow]
      omega
  rw [← BitVec.allOnes_and (x := BitVec.allOnes w <<< k), toNat_and_high, BitVec.toNat_allOnes, hdiv, Nat.sub_mul,
    Nat.one_mul, hpow]

/-- The bits before bit `k`. -/
theorem toNat_and_low (x : BitVec w) (hk : k ≤ w) : (x &&& ~~~ (BitVec.allOnes w <<< k)).toNat = x.toNat % 2 ^ k := by
  have h : x &&& ~~~ (BitVec.allOnes w <<< k) = (x.setWidth k).setWidth w := by
    apply BitVec.eq_of_getLsbD_eq
    intro i hi
    rw [BitVec.getLsbD_and, BitVec.getLsbD_not, BitVec.getLsbD_shiftLeft, BitVec.getLsbD_setWidth,
      BitVec.getLsbD_setWidth, BitVec.getLsbD_allOnes]
    by_cases hik : i < k
    · simp [hi, hik]
    · simp [hi, hik, show i - k < w by omega]
  rw [h, BitVec.toNat_setWidth_of_le hk, BitVec.toNat_setWidth]

/-- `n` bits of `v` at bit `k` of the word. -/
def merge (old mask v : BitVec w) (k : Nat) : BitVec w := old &&& ~~~ (mask <<< k) ||| (v &&& mask) <<< k

/-- The bits of the field are those of the value, the others are as before. -/
theorem getLsbD_merge {old mask v : BitVec w} {n i : Nat} (hm : ∀ i < w, mask.getLsbD i = decide (i < n))
    (hi : i < w) : (merge old mask v k).getLsbD i =
      if k ≤ i ∧ i < k + n then v.getLsbD (i - k) else old.getLsbD i := by
  rw [merge, BitVec.getLsbD_or, BitVec.getLsbD_and, BitVec.getLsbD_not, BitVec.getLsbD_shiftLeft,
    BitVec.getLsbD_shiftLeft, BitVec.getLsbD_and]
  by_cases hk : k ≤ i
  · have hlt : i - k < w := by omega
    by_cases hn : i < k + n
    · simp [hi, hk, hn, hm _ hlt, show i - k < n by omega, Nat.not_lt.mpr hk]
    · simp [hi, hk, hn, hm _ hlt, show ¬ i - k < n by omega, Nat.not_lt.mpr hk]
  · simp [hi, hk, Nat.lt_of_not_le hk]

end

end AlexOS
