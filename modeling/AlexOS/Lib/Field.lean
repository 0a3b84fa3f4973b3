import AlexOS.Lib.Disk

/-!
# Bit fields of a buffer

Bit `k` of a buffer is bit `k % 8` of its byte `k / 8`, so that little-endian
words are runs of bits (`getLsbD_load16`, `bit_store16`). `field b k w` is the
word of the `w` bits from bit `k` on, `setField` puts one there. A field that
is read back is the one that was put (`field_setField_self`), and a field apart
from it is as it was (`field_setField_of_disjoint`).
-/

namespace AlexOS.Buffer

def bit (b : Buffer) (k : Nat) : Bool := (b (k / 8)).getLsbD (k % 8)

/-- The first `w` of some bits, least significant first. -/
def ofBits (bits : Nat → Bool) (w n : Nat) : BitVec n :=
  (BitVec.ofBoolListLE ((List.range w).map bits)).setWidth n

/-- The `w` bits from bit `k` on. -/
def field (b : Buffer) (k w : Nat) : Word := ofBits (fun j => b.bit (k + j)) w 32

/-- The `w` bits from bit `k` on become those of `v`. -/
def setField (b : Buffer) (k w : Nat) (v : Word) : Buffer := fun i => ofBits (fun j =>
  if k ≤ 8 * i + j ∧ 8 * i + j < k + w then v.getLsbD (8 * i + j - k) else (b i).getLsbD j) 8 8

section

variable {b b' : Buffer} {k w k' w' i j : Nat} {v : Word}

theorem bit_byte (hj : j < 8) : b.bit (8 * i + j) = (b i).getLsbD j := by
  rw [bit, show (8 * i + j) / 8 = i by omega, show (8 * i + j) % 8 = j by omega]

theorem ext_bit (h : ∀ k, b.bit k = b'.bit k) : b = b' := by
  funext i
  apply BitVec.eq_of_getLsbD_eq
  intro j hj
  rw [← bit_byte hj, ← bit_byte hj, h]

theorem bit_congr (h : b (k / 8) = b' (k / 8)) : b.bit k = b'.bit k := by
  rw [bit, bit, h]

theorem getLsbD_ofBits (bits : Nat → Bool) {n : Nat} (hn : w ≤ n) :
    (ofBits bits w n).getLsbD j = (decide (j < w) && bits j) := by
  rw [ofBits, BitVec.getLsbD_setWidth, BitVec.getLsbD_ofBoolListLE, List.getD_eq_getElem?_getD,
    List.getElem?_map]
  by_cases hj : j < w
  · rw [List.getElem?_range hj, decide_eq_true hj, decide_eq_true (show j < n by omega)]
    rfl
  · rw [List.getElem?_eq_none (by rw [List.length_range]; omega), decide_eq_false hj]
    exact Bool.and_false _

theorem getLsbD_field (hw : w ≤ 32) : (b.field k w).getLsbD j = (decide (j < w) && b.bit (k + j)) :=
  getLsbD_ofBits _ hw

theorem bit_setField : (b.setField k w v).bit i =
    if k ≤ i ∧ i < k + w then v.getLsbD (i - k) else b.bit i := by
  rw [bit, setField, getLsbD_ofBits _ (le_refl 8), decide_eq_true (Nat.mod_lt i (by decide)), Bool.true_and,
    bit]
  simp only [show 8 * (i / 8) + i % 8 = i by omega]

theorem setWidth_field (hw : w ≤ 32) : ((b.field k w).setWidth w).setWidth 32 = b.field k w := by
  apply BitVec.eq_of_getLsbD_eq
  intro j hj
  rw [BitVec.getLsbD_setWidth, BitVec.getLsbD_setWidth, getLsbD_field hw, decide_eq_true hj, Bool.true_and,
    ← Bool.and_assoc, Bool.and_self]

/-! ## Reading back -/

theorem field_congr (hw : w ≤ 32) (h : ∀ j < w, b.bit (k + j) = b'.bit (k + j)) :
    b.field k w = b'.field k w := by
  apply BitVec.eq_of_getLsbD_eq
  intro j _
  rw [getLsbD_field hw, getLsbD_field hw]
  by_cases hj : j < w
  · rw [h j hj]
  · rw [decide_eq_false hj, Bool.false_and, Bool.false_and]

theorem field_setField_self (hw : w ≤ 32) : (b.setField k w v).field k w = (v.setWidth w).setWidth 32 := by
  apply BitVec.eq_of_getLsbD_eq
  intro j hj
  rw [getLsbD_field hw, bit_setField, BitVec.getLsbD_setWidth, BitVec.getLsbD_setWidth, decide_eq_true hj,
    Bool.true_and, Nat.add_sub_cancel_left]
  by_cases hj' : j < w
  · rw [if_pos ⟨by omega, by omega⟩]
  · rw [decide_eq_false hj', Bool.false_and, Bool.false_and]

theorem field_setField_of_disjoint (hw : w' ≤ 32) (h : k + w ≤ k' ∨ k' + w' ≤ k) :
    (b.setField k w v).field k' w' = b.field k' w' := by
  apply field_congr hw
  intro j hj
  rw [bit_setField, if_neg (by omega)]

/-! ## Words of bytes -/

theorem getLsbD_load16 : (b.load16 i).getLsbD j = (decide (j < 16) && b.bit (8 * i + j)) := by
  rw [load16, BitVec.getLsbD_append]
  by_cases h : j < 8
  · rw [if_pos h, ← bit_byte h, decide_eq_true (show j < 16 by omega), Bool.true_and]
  · rw [if_neg h]
    by_cases h' : j < 16
    · rw [← bit_byte (show j - 8 < 8 by omega), show 8 * (i + 1) + (j - 8) = 8 * i + j by omega,
        decide_eq_true h', Bool.true_and]
    · rw [BitVec.getLsbD_of_ge _ _ (by omega), decide_eq_false h', Bool.false_and]

theorem getLsbD_load32 : (b.load32 i).getLsbD j = (decide (j < 32) && b.bit (8 * i + j)) := by
  have e : b.load32 i = (b.load16 (i + 2) ++ b.load16 i : BitVec 32) := by
    rw [load32, load16, load16]
    apply BitVec.eq_of_getLsbD_eq
    intro k hk
    simp only [BitVec.getLsbD_append]
    grind
  rw [e, BitVec.getLsbD_append, getLsbD_load16, getLsbD_load16]
  by_cases h : j < 16
  · rw [if_pos h, decide_eq_true h, decide_eq_true (show j < 32 by omega)]
  · rw [if_neg h, show 8 * (i + 2) + (j - 16) = 8 * i + j by omega]
    congr 1
    exact decide_eq_decide.mpr (by omega)

theorem bit_store16 {v : BitVec 16} : (b.store16 i v).bit k =
    if 8 * i ≤ k ∧ k < 8 * i + 16 then v.getLsbD (k - 8 * i) else b.bit k := by
  rw [bit, store16]
  by_cases h : 8 * i ≤ k ∧ k < 8 * i + 16
  · rw [if_pos ⟨by omega, by omega⟩, if_pos h, BitVec.getLsbD_extractLsb',
      decide_eq_true (Nat.mod_lt _ (by decide)), Bool.true_and]
    congr 1
    omega
  · rw [if_neg (by omega), if_neg h, bit]

theorem bit_store32 : (b.store32 i v).bit k =
    if 8 * i ≤ k ∧ k < 8 * i + 32 then v.getLsbD (k - 8 * i) else b.bit k := by
  rw [bit, store32]
  by_cases h : 8 * i ≤ k ∧ k < 8 * i + 32
  · rw [if_pos ⟨by omega, by omega⟩, if_pos h, BitVec.getLsbD_extractLsb',
      decide_eq_true (Nat.mod_lt _ (by decide)), Bool.true_and]
    congr 1
    omega
  · rw [if_neg (by omega), if_neg h, bit]

end

end AlexOS.Buffer
