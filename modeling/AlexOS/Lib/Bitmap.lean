import AlexOS.Lib.Mem
import Mathlib.Algebra.Order.Group.Nat

/-!
# Bitmaps in memory

A bitmap at `base` keeps bit `b` in bit `b % 32` of its word `b / 32`, for
every 32-bit `b`. `wordAt` is the address of that word, `Mem.bit` the bit. A
word is set, cleared or tested through the mask `1 << (b % 32)`; storing the
result changes this bit and no other (`bit_set`, `bit_clear`). The bits of a
bitmap depend on its words only (`bit_congr`), and are the bits of its bytes
(`bit_byte`), so that filling bytes with ones sets them (`bit_memset`).
-/

namespace AlexOS

/-! ## Masks of one bit -/

namespace Word

variable (w : Word) {j : Nat}

theorem getLsbD_one_shl {k : Nat} (hk : k < 32) : ((1 : Word) <<< k).getLsbD j = decide (j = k) := by
  rw [BitVec.getLsbD_shiftLeft, BitVec.ofNat_eq_ofNat, BitVec.getLsbD_one]
  simp only [Nat.zero_lt_succ, decide_true, Bool.true_and]
  by_cases h : j = k
  · subst h; simp [hk]
  · simp only [h, decide_false]
    by_cases h' : j < k
    · simp [h']
    · simp [show ¬ j - k = 0 by omega]

theorem getLsbD_set {k : Nat} (hk : k < 32) :
    (w ||| (1 : Word) <<< k).getLsbD j = (decide (j = k) || w.getLsbD j) := by
  rw [BitVec.getLsbD_or, getLsbD_one_shl hk, Bool.or_comm]

theorem getLsbD_clear {k : Nat} (hk : k < 32) (hj : j < 32) :
    (w &&& ~~~((1 : Word) <<< k)).getLsbD j = (!decide (j = k) && w.getLsbD j) := by
  rw [BitVec.getLsbD_and, BitVec.getLsbD_not, getLsbD_one_shl hk, Bool.and_comm]
  simp [hj]

theorem and_one_shl_eq_zero {k : Nat} (hk : k < 32) :
    w &&& (1 : Word) <<< k = 0 ↔ w.getLsbD k = false := by
  constructor
  · intro h
    have e : (w &&& (1 : Word) <<< k).getLsbD k = (0 : Word).getLsbD k := by rw [h]
    rw [BitVec.getLsbD_and, getLsbD_one_shl hk] at e
    simpa using e
  · intro h
    apply BitVec.eq_of_getLsbD_eq
    intro i hi
    rw [BitVec.getLsbD_and, getLsbD_one_shl hk]
    by_cases e : i = k
    · subst e; simp [h]
    · simp [e]

end Word

/-! ## Bits in memory -/

/-- The address of the word that holds bit `b`. -/
def wordAt (base : Addr) (b : Word) : Addr := base + 4 * (b / 32)

namespace Mem

/-- Bit `b` of the bitmap at `base`. -/
def bit (m : Mem) (base : Addr) (b : Word) : Bool := (m.load32 (wordAt base b)).getLsbD (b.toNat % 32)

end Mem

section

variable {m m' : Mem} {base : Addr} {b c : Word} {v : Word}

theorem toNat_word (b : Word) : (4 * (b / 32)).toNat = 4 * (b.toNat / 32) := by
  have := b.isLt
  have e : (b / 32).toNat = b.toNat / 32 := BitVec.toNat_udiv
  have h4 : (4 : Word).toNat = 4 := rfl
  rw [BitVec.toNat_mul, e, h4]
  omega

theorem wordAt_congr (h : b.toNat / 32 = c.toNat / 32) : wordAt base b = wordAt base c := by
  have e : 4 * (b / 32) = 4 * (c / 32) := BitVec.eq_of_toNat_eq (by rw [toNat_word, toNat_word, h])
  rw [wordAt, wordAt, e]

/-- The words of different indices do not overlap. -/
theorem load_other_word (h : b.toNat / 32 ≠ c.toNat / 32) :
    (m.store32 (wordAt base b) v).load32 (wordAt base c) = m.load32 (wordAt base c) := by
  have := b.isLt; have := c.isLt
  refine Mem.load32_store32_offset _ _ ?_ ?_ <;>
  · rw [BitVec.toNat_sub, toNat_word, toNat_word]
    omega

/-- Storing one word of a bitmap: the bits of that word are those stored. -/
theorem bit_store : (m.store32 (wordAt base b) v).bit base c =
    if c.toNat / 32 = b.toNat / 32 then v.getLsbD (c.toNat % 32) else m.bit base c := by
  unfold Mem.bit
  split
  · rename_i h
    rw [wordAt_congr h, Mem.load32_store32_self]
  · rename_i h
    rw [load_other_word (Ne.symm h)]

theorem eq_of_div_mod (h : c.toNat / 32 = b.toNat / 32) :
    c = b ↔ c.toNat % 32 = b.toNat % 32 := by
  rw [BitVec.toNat_eq]
  omega

/-- Setting bit `b`. -/
theorem bit_set : (m.store32 (wordAt base b)
    (m.load32 (wordAt base b) ||| (1 : Word) <<< (b.toNat % 32))).bit base c =
      (decide (c = b) || m.bit base c) := by
  rw [bit_store]
  split
  · rename_i h
    rw [Word.getLsbD_set _ (Nat.mod_lt _ (by decide)), Mem.bit, wordAt_congr h,
      decide_eq_decide.mpr (eq_of_div_mod h)]
  · rename_i h
    rw [decide_eq_false (fun e => h (by rw [e])), Bool.false_or]

/-- Clearing bit `b`. -/
theorem bit_clear : (m.store32 (wordAt base b)
    (m.load32 (wordAt base b) &&& ~~~((1 : Word) <<< (b.toNat % 32)))).bit base c =
      (!decide (c = b) && m.bit base c) := by
  rw [bit_store]
  split
  · rename_i h
    rw [Word.getLsbD_clear _ (Nat.mod_lt _ (by decide)) (Nat.mod_lt _ (by decide)), Mem.bit,
      wordAt_congr h, decide_eq_decide.mpr (eq_of_div_mod h)]
  · rename_i h
    rw [decide_eq_false (fun e => h (by rw [e])), Bool.not_false, Bool.true_and]

/-- A bitmap is its words. -/
theorem bit_congr (h : m'.load32 (wordAt base b) = m.load32 (wordAt base b)) :
    m'.bit base b = m.bit base b := by
  rw [Mem.bit, Mem.bit, h]

/-! ## Bytes of a bitmap -/

theorem getLsbD_load32 (m : Mem) (a : Addr) {i : Nat} (hi : i < 32) :
    (m.load32 a).getLsbD i = (m (a + BitVec.ofNat 32 (i / 8))).getLsbD (i % 8) := by
  simp only [Mem.load32, BitVec.getLsbD_append]
  rcases (by omega : i / 8 = 0 ∨ i / 8 = 1 ∨ i / 8 = 2 ∨ i / 8 = 3) with h | h | h | h <;> rw [h]
  · rw [if_pos (by omega), BitVec.add_zero, show i % 8 = i by omega]
  · rw [if_neg (by omega), if_pos (by omega), show i % 8 = i - 8 by omega]
    rfl
  · rw [if_neg (by omega), if_neg (by omega), if_pos (by omega), show i % 8 = i - 8 - 8 by omega]
    rfl
  · rw [if_neg (by omega), if_neg (by omega), if_neg (by omega),
      show i % 8 = i - 8 - 8 - 8 by omega]
    rfl

/-- Bit `b` is a bit of byte `b / 8`. -/
theorem bit_byte (m : Mem) (base : Addr) (b : Word) :
    m.bit base b = (m (base + BitVec.ofNat 32 (b.toNat / 8))).getLsbD (b.toNat % 8) := by
  have := b.isLt
  have e : wordAt base b + BitVec.ofNat 32 (b.toNat % 32 / 8) =
      base + BitVec.ofNat 32 (b.toNat / 8) := by
    rw [wordAt, add_assoc]
    refine congrArg (base + ·) (BitVec.eq_of_toNat_eq ?_)
    rw [BitVec.toNat_add, toNat_word, BitVec.toNat_ofNat, BitVec.toNat_ofNat]
    omega
  rw [Mem.bit, getLsbD_load32 _ _ (Nat.mod_lt _ (by decide)), e]
  congr 1
  omega

/-- Filling the first `n` bytes of a bitmap with ones. -/
theorem bit_memset {n : Nat} (hn : n ≤ 2 ^ 29) :
    (m.memset base 0xFF n).bit base b = (decide (b.toNat < 8 * n) || m.bit base b) := by
  have := b.isLt
  have e : (BitVec.ofNat 32 (b.toNat / 8)).toNat = b.toNat / 8 := by
    rw [BitVec.toNat_ofNat, Nat.mod_eq_of_lt (by omega)]
  rw [bit_byte, bit_byte, Mem.memset_apply _ _ _ _ (by omega), add_sub_cancel_left, e]
  by_cases h : b.toNat / 8 < n
  · rw [if_pos h, decide_eq_true (by omega), Bool.true_or]
    have hj : b.toNat % 8 < 8 := Nat.mod_lt _ (by decide)
    revert hj
    generalize b.toNat % 8 = j
    revert j
    decide
  · rw [if_neg h, decide_eq_false (by omega), Bool.false_or]

end

/-! ## Runs of bits -/

/-- `b` is one of the `n` bits from `start` on (around the 32-bit indices). -/
def InRun (start : Word) (n : Nat) (b : Word) : Prop := (b - start).toNat < n

instance (start : Word) (n : Nat) (b : Word) : Decidable (InRun start n b) :=
  inferInstanceAs (Decidable (_ < _))

theorem inRun_self {b : Word} {n : Nat} (h : 0 < n) : InRun b n b := by
  rwa [InRun, sub_self]

/-- A run that does not wrap is an interval. -/
theorem inRun_iff_lt {start b : Word} {n : Nat} (h : start.toNat + n ≤ 2 ^ 32) :
    InRun start n b ↔ start.toNat ≤ b.toNat ∧ b.toNat < start.toNat + n := by
  have := b.isLt; have := start.isLt
  rw [InRun, BitVec.toNat_sub]
  omega

theorem inRun_succ {start b : Word} {n : Nat} (hn : n < 2 ^ 32) :
    InRun start (n + 1) b ↔ b = start + BitVec.ofNat 32 n ∨ InRun start n b := by
  have := b.isLt; have := start.isLt
  rw [InRun, InRun, BitVec.toNat_eq, BitVec.toNat_add, BitVec.toNat_sub, BitVec.toNat_ofNat]
  omega

end AlexOS
