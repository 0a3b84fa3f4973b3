import Mathlib.Data.BitVec

/-!
# Memory with 32-bit addresses

A memory is a function from 32-bit addresses to bytes. Words are four bytes,
little-endian, at any alignment (`load32`, `store32`); `memset`
is the byte loop of `memory.c`.

Two memories are compared by ranges of addresses (`EqOn lo n`, the bytes from
`lo` to `lo + n`). A word read depends on its four bytes only (`load32_congr`),
and a store changes the four bytes it is given (`store32_eqOn`), so that a
read after a store somewhere else is the read before it
(`load32_store32_of_disjoint`).
-/

namespace AlexOS

abbrev Byte := BitVec 8
abbrev Word := BitVec 32
abbrev Addr := BitVec 32
abbrev Mem := Addr → Byte

instance : LawfulBEq Byte := inferInstance

namespace Mem

/-- The little-endian word at `a`. -/
def load32 (m : Mem) (a : Addr) : Word := m (a + 3) ++ m (a + 2) ++ m (a + 1) ++ m a

/-- `*a = v`. -/
def store32 (m : Mem) (a : Addr) (v : Word) : Mem := fun x =>
  if (x - a).toNat < 4 then v.extractLsb' (8 * (x - a).toNat) 8 else m x

/-- `*a = v`, for one byte. -/
def store8 (m : Mem) (a : Addr) (v : Byte) : Mem := fun x => if x = a then v else m x

/-- The first `n` rounds of the loop of `memset`. -/
def memset (m : Mem) (a : Addr) (v : Byte) : Nat → Mem
  | 0 => m
  | n + 1 => (memset m a v n).store8 (a + BitVec.ofNat 32 n) v

/-- The `n` bytes at `a` are replaced by those of `bytes`. -/
def splice (m : Mem) (a : Addr) (n : Nat) (bytes : Addr → Byte) : Mem := fun x =>
  if (x - a).toNat < n then bytes x else m x

/-- `m'` agrees with `m` on the addresses from `lo` to `lo + n`. -/
def EqOn (lo n : Nat) (m m' : Mem) : Prop :=
  ∀ x : Addr, lo ≤ x.toNat → x.toNat < lo + n → m' x = m x

theorem EqOn.refl (lo n : Nat) (m : Mem) : EqOn lo n m m := fun _ _ _ => rfl

theorem EqOn.trans {lo n : Nat} {m₁ m₂ m₃ : Mem} (h₁ : EqOn lo n m₁ m₂) (h₂ : EqOn lo n m₂ m₃) :
    EqOn lo n m₁ m₃ := fun x hl hx => (h₂ x hl hx).trans (h₁ x hl hx)

theorem EqOn.mono {lo n lo' n' : Nat} {m m' : Mem} (h : EqOn lo n m m') (hl : lo ≤ lo')
    (hn : lo' + n' ≤ lo + n) : EqOn lo' n' m m' :=
  fun x hx hx' => h x (hl.trans hx) (by omega)

/-! ## Words -/

theorem bytes_append (v : Word) :
    v.extractLsb' 24 8 ++ v.extractLsb' 16 8 ++ v.extractLsb' 8 8 ++ v.extractLsb' 0 8 = v := by
  ext i hi
  simp only [BitVec.getLsbD_append, BitVec.getLsbD_extractLsb', ← BitVec.getLsbD_eq_getElem]
  grind

theorem load32_store32_self (m : Mem) (a : Addr) (v : Word) : (m.store32 a v).load32 a = v := by
  simp [load32, store32, bytes_append]

theorem store32_store32 (m : Mem) (a : Addr) (v w : Word) :
    (m.store32 a v).store32 a w = m.store32 a w := by
  funext x
  simp only [store32]
  split <;> rfl

/-- An address `x` lies outside the four bytes at `a`. -/
theorem store32_apply {m : Mem} {a x : Addr} {v : Word} (h : 4 ≤ (x - a).toNat) :
    m.store32 a v x = m x := by
  simp only [store32, show ¬ (x - a).toNat < 4 by omega, ite_false]

theorem store8_self (m : Mem) (a : Addr) (v : Byte) : m.store8 a v a = v := by
  simp [store8]

theorem store8_apply {m : Mem} {a x : Addr} {v : Byte} (h : x ≠ a) : m.store8 a v x = m x := by
  simp [store8, h]

theorem load32_congr {m m' : Mem} {a : Addr}
    (h : ∀ i < 4, m' (a + BitVec.ofNat 32 i) = m (a + BitVec.ofNat 32 i)) :
    m'.load32 a = m.load32 a := by
  have h0 := h 0 (by omega)
  rw [BitVec.add_zero] at h0
  simp only [load32, h0]
  rw [show m' (a + 1) = m (a + 1) from h 1 (by omega), show m' (a + 2) = m (a + 2) from h 2 (by omega),
    show m' (a + 3) = m (a + 3) from h 3 (by omega)]

/-- Two words at addresses at least four bytes apart, in either direction
around the address space. -/
theorem load32_store32_of_apart {m : Mem} {a b : Addr} {v : Word} (h : 4 ≤ (b - a).toNat)
    (h' : 4 ≤ (a - b).toNat) : (m.store32 a v).load32 b = m.load32 b := by
  refine load32_congr fun i hi => store32_apply ?_
  have := a.isLt; have := b.isLt
  simp only [BitVec.toNat_sub, BitVec.toNat_add, BitVec.toNat_ofNat] at *
  omega

/-- Two words at constant offsets from the same address. -/
theorem load32_store32_offset {m : Mem} {a : Addr} {v : Word} (j k : Word) (h : 4 ≤ (k - j).toNat)
    (h' : 4 ≤ (j - k).toNat) : (m.store32 (a + j) v).load32 (a + k) = m.load32 (a + k) := by
  refine load32_store32_of_apart ?_ ?_
  · rwa [add_sub_add_left_eq_sub]
  · rwa [add_sub_add_left_eq_sub]

/-- The bytes of a word that is read. -/
theorem load32_byte {m : Mem} {a : Addr} {k : Nat} (hk : k < 4) :
    (m.load32 a).extractLsb' (8 * k) 8 = m (a + BitVec.ofNat 32 k) := by
  have h0 : a + 0#32 = a := BitVec.add_zero a
  match k, hk with
  | 0, _ | 1, _ | 2, _ | 3, _ =>
    ext i hi
    simp only [load32, ← BitVec.getLsbD_eq_getElem, h0]
    grind

theorem store32_load32 (m : Mem) (a : Addr) : m.store32 a (m.load32 a) = m := by
  funext x
  by_cases hx : (x - a).toNat < 4
  · rw [store32, if_pos hx, load32_byte hx, BitVec.ofNat_toNat, BitVec.setWidth_eq, add_sub_cancel]
  · exact store32_apply (not_lt.mp hx)

/-! ## Ranges that do not wrap -/

/-- The address `i` bytes after `a`, in a range that does not wrap. -/
theorem toNat_add_lt {a : Addr} {i n : Nat} (hi : i < n) (hn : a.toNat + n ≤ 2 ^ 32) :
    (a + BitVec.ofNat 32 i).toNat = a.toNat + i := by
  rw [BitVec.toNat_add, BitVec.toNat_ofNat]
  omega

theorem EqOn.load32 {lo n : Nat} {m m' : Mem} (h : EqOn lo n m m') {a : Addr} (hl : lo ≤ a.toNat)
    (hn : a.toNat + 4 ≤ lo + n) (hw : a.toNat + 4 ≤ 2 ^ 32) : m'.load32 a = m.load32 a := by
  refine load32_congr fun i hi => ?_
  have e := toNat_add_lt hi hw
  exact h _ (by omega) (by omega)

theorem store32_outside {m : Mem} {a x : Addr} {v : Word} (hw : a.toNat + 4 ≤ 2 ^ 32)
    (hx : x.toNat < a.toNat ∨ a.toNat + 4 ≤ x.toNat) : m.store32 a v x = m x := by
  apply store32_apply
  have := x.isLt
  rw [BitVec.toNat_sub]
  omega

theorem store32_eqOn {m : Mem} {a : Addr} {v : Word} {lo n : Nat} (hw : a.toNat + 4 ≤ 2 ^ 32)
    (hd : a.toNat + 4 ≤ lo ∨ lo + n ≤ a.toNat) : EqOn lo n m (m.store32 a v) :=
  fun _ _ _ => store32_outside hw (by omega)

/-- What `memset` leaves at `x`: `v` within `n` bytes of `a`, else what was there. -/
theorem memset_apply (m : Mem) (a : Addr) (v : Byte) (x : Addr) {n : Nat} (hn : n ≤ 2 ^ 32) :
    m.memset a v n x = if (x - a).toNat < n then v else m x := by
  induction n with
  | zero => simp [memset]
  | succ n ih =>
    rw [memset, store8, ih (by omega)]
    have key : x = a + BitVec.ofNat 32 n ↔ (x - a).toNat = n := by
      have := a.isLt; have := x.isLt
      rw [BitVec.toNat_eq, BitVec.toNat_sub, BitVec.toNat_add, BitVec.toNat_ofNat]
      omega
    by_cases e : (x - a).toNat = n
    · rw [if_pos (key.mpr e), if_pos (by omega)]
    · rw [if_neg (fun h => e (key.mp h))]
      simp only [show (x - a).toNat < n + 1 ↔ (x - a).toNat < n by omega]

theorem splice_eqOn {m : Mem} {a : Addr} {bytes : Addr → Byte} {k lo n : Nat}
    (hw : a.toNat + k ≤ 2 ^ 32) (hd : a.toNat + k ≤ lo ∨ lo + n ≤ a.toNat) :
    EqOn lo n m (m.splice a k bytes) := by
  intro x hl hx
  rw [splice, if_neg]
  have := x.isLt
  rw [BitVec.toNat_sub]
  omega

theorem memset_byte {m : Mem} {a x : Addr} {v : Byte} {k : Nat} (hw : a.toNat + k ≤ 2 ^ 32)
    (hl : a.toNat ≤ x.toNat) (hx : x.toNat < a.toNat + k) : m.memset a v k x = v := by
  rw [memset_apply _ _ _ _ (by omega), if_pos]
  rw [BitVec.toNat_sub]
  omega

end Mem

end AlexOS
