import AlexOS.Lib.Disk
import AlexOS.Lib.Numeral
import AlexOS.Stdio.Printf

/-!
# Printing of numbers

`printf_unsigned` of the kernel, in `kernel/stdio.c`, puts the digits in a
buffer of 32 cells, least significant first (`convertLoop`), and prints them
from the end (`printLoop`); `printf_signed` prints the sign before. The buffer
holds a numeral (`convertLoop_ok`), of at most 22 digits. What is printed is
what the model of `printf` takes it to be (`unsignedLoops_eq`), and its value is
the number (`printNumber_faithful`).
-/

namespace AlexOS.Stdio

/-- The loop that fills the buffer, for at most `n` rounds. There is no result if it writes past the end. -/
def convertLoop (radix : BitVec 64) : Nat → BitVec 64 → Buffer → Nat → Option (Buffer × Nat)
  | 0, _, _, _ => none
  | n + 1, number, buffer, pos =>
    if pos < 32 then
      let rem := number % radix
      let number := number / radix
      let buffer := Function.update buffer pos (hexChars.getD rem.toNat 0)
      if number > 0 then convertLoop radix n number buffer (pos + 1) else some (buffer, pos + 1)
    else none

/-- The loop that prints it. -/
def printLoop (buffer : Buffer) : Nat → List Byte
  | 0 => []
  | pos + 1 => buffer pos :: printLoop buffer pos

/-- `printf_unsigned`: what is printed, and how many cells are filled. -/
def unsignedLoops (n : Nat) (buffer : Buffer) (number : BitVec 64) (radix : Word) : Option (List Byte × Nat) :=
  (convertLoop (radix.signExtend 64) n number buffer 0).map fun r => (printLoop r.1 r.2, r.2)

/-- `printf_signed`. -/
def signedLoops (n : Nat) (buffer : Buffer) (number : BitVec 64) (radix : Word) : Option (List Byte) :=
  if number.slt 0 then (unsignedLoops n buffer (-number) radix).map fun r => ch '-' :: r.1
  else (unsignedLoops n buffer number radix).map fun r => r.1

/-! ## Reading a number -/

/-- A digit, most significant first. -/
def readDigit (radix : Nat) (value : Nat) (c : Byte) : Option Nat := do
  let d ← hexChars.idxOf? c
  if d < radix then some (value * radix + d) else none

/-- The value of digits, of which there is at least one. -/
def valueOf (radix : Nat) (text : List Byte) : Option Nat :=
  if text = [] then none else text.foldlM (readDigit radix) 0

/-- The value of a number that may have a sign. -/
def signedValueOf (radix : Nat) (text : List Byte) : Option Int :=
  if text.head? = some (ch '-') then (valueOf radix text.tail).map fun v : Nat => -(v : Int)
  else (valueOf radix text).map fun v : Nat => (v : Int)

def digitChar (d : Nat) : Byte := hexChars.getD d 0

section

variable {radix : BitVec 64} {number : BitVec 64} {buffer : Buffer} {L : List Byte} {b k n : Nat}

/-! ## The loops -/

/-- The first cells of the buffer. -/
def Holds (buffer : Buffer) (L : List Byte) : Prop := ∀ i < L.length, L[i]? = some (buffer i)

theorem Holds.concat (H : Holds buffer L) (c : Byte) : Holds (Function.update buffer L.length c) (L ++ [c]) := by
  intro i hi
  rw [List.length_append, List.length_singleton] at hi
  rcases Nat.lt_or_eq_of_le (Nat.le_of_lt_succ hi) with h | rfl
  · rw [List.getElem?_append_left h, Function.update_of_ne h.ne, H i h]
  · rw [List.getElem?_concat_length, Function.update_self]

theorem printLoop_eq (H : Holds buffer L) : printLoop buffer L.length = L.reverse := by
  induction L using List.reverseRecOn with
  | nil => rfl
  | append_singleton L c ih =>
    have hlast := H L.length (by simp)
    rw [List.getElem?_concat_length] at hlast
    have hfirst : Holds buffer L := fun i hi => by
      rw [← H i (by rw [List.length_append]; omega), List.getElem?_append_left hi]
    rw [List.length_append, List.length_singleton, printLoop, ih hfirst, List.reverse_append, List.reverse_singleton,
      ← Option.some.inj hlast]
    rfl

/-- The digits are put after those that are there. -/
theorem convertLoop_ok (hr : 1 < radix.toNat) (H : Holds buffer L)
    (hn : (numeral radix.toNat number.toNat).length ≤ n)
    (hroom : L.length + (numeral radix.toNat number.toNat).length ≤ 32) :
    let text := (numeral radix.toNat number.toNat).map digitChar
    ∃ buffer', convertLoop radix n number buffer L.length = some (buffer', (L ++ text).length) ∧
      Holds buffer' (L ++ text) := by
  induction n generalizing number buffer L with
  | zero => exact absurd (Nat.le_zero.mp hn) (List.length_pos_iff.mpr (numeral_ne_nil _ _)).ne'
  | succ n ih =>
    have hdigit : hexChars.getD (number % radix).toNat 0 = digitChar (number.toNat % radix.toNat) := by
      rw [BitVec.toNat_umod, digitChar]
    have H' := H.concat (digitChar (number.toNat % radix.toNat))
    have hlt : L.length < 32 := by
      have := List.length_pos_iff.mpr (numeral_ne_nil radix.toNat number.toNat)
      omega
    have hquot : number / radix > 0 ↔ number.toNat / radix.toNat > 0 := by
      rw [gt_iff_lt, BitVec.lt_def, BitVec.toNat_udiv]
      rfl
    have hlen : (L ++ [digitChar (number.toNat % radix.toNat)]).length = L.length + 1 := by
      rw [List.length_append, List.length_singleton]
    simp only [convertLoop, hdigit]
    rw [numeral_step hr] at hn hroom ⊢
    rw [if_pos hlt]
    by_cases h : number.toNat / radix.toNat > 0
    · rw [if_pos h, List.length_cons] at hn hroom
      rw [if_pos (hquot.mpr h), if_pos h, List.map_cons, List.append_cons]
      rw [← BitVec.toNat_udiv] at hn hroom ⊢
      have := ih H' (Nat.le_of_succ_le_succ hn) (by rw [hlen]; omega)
      rwa [hlen] at this
    · rw [if_neg (mt hquot.mp h), if_neg h]
      exact ⟨_, congrArg (fun k => some (_, k)) hlen.symm, H'⟩

/-- What the model of `printf` prints. -/
theorem digits_eq (hb : 1 < b) (h : n < b ^ (k + 1)) : digits b (k + 1) n = (numeral b n).map digitChar := by
  induction k generalizing n with
  | zero =>
    have h0 : ¬ n / b > 0 := fun hpos => absurd (Nat.div_pos_iff.mp hpos).2 (not_le.mpr (by rwa [Nat.pow_one] at h))
    rw [digits, numeral_step hb, if_neg h0, if_neg h0]
    rfl
  | succ k ih =>
    rw [digits, numeral_step hb]
    split
    · rw [ih (Nat.div_lt_of_lt_mul (by rwa [Nat.pow_succ, Nat.mul_comm] at h))]
      rfl
    · rfl

/-! ## Characters -/

theorem idxOf_digitChar : ∀ d < 16, hexChars.idxOf? (digitChar d) = some d := by decide

theorem digitChar_ne_minus : ∀ d < 16, digitChar d ≠ ch '-' := by decide

theorem digitChar_zero : ∀ d < 16, digitChar d = ch '0' → d = 0 := by decide

theorem readDigit_digitChar {d v : Nat} (hb : b ≤ 16) (hd : d < b) :
    readDigit b v (digitChar d) = some (v * b + d) := by
  rw [readDigit, idxOf_digitChar d (hd.trans_le hb)]
  exact if_pos hd

/-- Digits from the most significant one on. -/
theorem foldlM_readDigit (hb : b ≤ 16) {L : List Nat} (hL : ∀ d ∈ L, d < b) :
    (L.map digitChar).reverse.foldlM (readDigit b) 0 = some (Nat.ofDigits b L) := by
  induction L with
  | nil => rfl
  | cons d L ih =>
    rw [List.map_cons, List.reverse_cons, List.foldlM_append, ih fun d hd => hL d (List.mem_cons_of_mem _ hd)]
    have h := readDigit_digitChar (v := Nat.ofDigits b L) hb (hL d List.mem_cons_self)
    simp only [Option.bind_eq_bind, Option.bind_some, List.foldlM_cons, List.foldlM_nil, h]
    rw [Nat.ofDigits_cons, Nat.add_comm, Nat.mul_comm]
    rfl

/-- The text of a number. -/
def textOf (b n : Nat) : List Byte := ((numeral b n).map digitChar).reverse

theorem length_textOf (b n : Nat) : (textOf b n).length = (numeral b n).length := by
  rw [textOf, List.length_reverse, List.length_map]

theorem textOf_ne_nil (b n : Nat) : textOf b n ≠ [] := by
  rw [← List.length_pos_iff, length_textOf, List.length_pos_iff]
  exact numeral_ne_nil b n

theorem valueOf_textOf (hb : 1 < b) (hb' : b ≤ 16) : valueOf b (textOf b n) = some n := by
  rw [valueOf, if_neg (textOf_ne_nil b n), textOf, foldlM_readDigit hb' fun d hd => numeral_lt hb hd, ofDigits_numeral]

/-- The first character is the most significant digit. -/
theorem head_textOf : (textOf b n).head? = some (digitChar ((numeral b n).getLast (numeral_ne_nil b n))) := by
  rw [textOf, List.head?_reverse, List.getLast?_map, List.getLast?_eq_getLast_of_ne_nil (numeral_ne_nil b n)]
  rfl

theorem textOf_leading (hb : 1 < b) (hb' : b ≤ 16) (h : (textOf b n).head? = some (ch '0')) :
    (textOf b n).length = 1 := by
  rw [head_textOf] at h
  have hd := numeral_lt hb (List.getLast_mem (numeral_ne_nil b n))
  rw [length_textOf]
  exact getLast_numeral (digitChar_zero _ (hd.trans_le hb') (Option.some.inj h))

theorem textOf_unsigned (hb : 1 < b) (hb' : b ≤ 16) : (textOf b n).head? ≠ some (ch '-') := by
  rw [head_textOf]
  have hd := numeral_lt hb (List.getLast_mem (numeral_ne_nil b n))
  exact fun h => digitChar_ne_minus _ (hd.trans_le hb') (Option.some.inj h)

/-! ## The functions -/

/-- A radix that `printf` passes. -/
def IsRadix (radix : Word) : Prop := radix = 8 ∨ radix = 10 ∨ radix = 16

theorem IsRadix.bounds {radix : Word} (h : IsRadix radix) :
    8 ≤ radix.toNat ∧ radix.toNat ≤ 16 ∧ (radix.signExtend 64).toNat = radix.toNat := by
  rcases h with rfl | rfl | rfl <;> decide

/-- 22 octal digits are enough for 64 bits. -/
theorem length_numeral_radix (hb : 8 ≤ b) (number : BitVec 64) : (numeral b number.toNat).length ≤ 22 := by
  refine length_numeral_le (k := 21) (by omega) (number.isLt.trans_le ?_)
  exact (by decide : 2 ^ 64 ≤ 8 ^ 22).trans (Nat.pow_le_pow_left hb 22)

/-- `printf_unsigned` prints the text of the number, and ends after at most 22 rounds. -/
theorem unsignedLoops_eq {radix : Word} (h : IsRadix radix) (buffer : Buffer) (number : BitVec 64) :
    unsignedLoops 22 buffer number radix =
      some (textOf radix.toNat number.toNat, (numeral radix.toNat number.toNat).length) ∧
    printfUnsigned number radix.toNat = textOf radix.toNat number.toNat := by
  obtain ⟨h8, h16, hext⟩ := h.bounds
  have hlen := length_numeral_radix h8 number
  rw [← hext] at hlen
  constructor
  · obtain ⟨buffer', hrun, H⟩ := convertLoop_ok
      (L := []) (by omega) (fun i hi => absurd hi (Nat.not_lt_zero i)) hlen
      (by rw [List.length_nil]; omega)
    rw [List.length_nil] at hrun
    rw [unsignedLoops, hrun, Option.map_some, printLoop_eq H, hext, List.nil_append, List.length_map]
    rfl
  · rw [printfUnsigned, digits_eq (by omega) (number.isLt.trans_le (Nat.pow_le_pow_left (by omega) 64))]
    rfl

/-- What `printf_unsigned` and `printf_signed` print has the value of the number. -/
theorem printNumber_faithful {radix : Word} (h : IsRadix radix) (buffer : Buffer) (number : BitVec 64) :
    (∃ n text cells, unsignedLoops n buffer number radix = some (text, cells) ∧ cells ≤ 22 ∧ text ≠ [] ∧
      valueOf radix.toNat text = some number.toNat ∧ (text.head? = some (ch '0') → text.length = 1)) ∧
    ∃ n text, signedLoops n buffer number radix = some text ∧
      signedValueOf radix.toNat text = some number.toInt := by
  obtain ⟨h8, h16, hext⟩ := h.bounds
  have hb : 1 < radix.toNat := by omega
  refine ⟨⟨22, _, _, (unsignedLoops_eq h buffer number).1, length_numeral_radix h8 number, textOf_ne_nil _ _,
    valueOf_textOf hb h16, textOf_leading hb h16⟩, 22, ?_⟩
  have hint := BitVec.toInt_eq_toNat_cond number
  have hslt : number.slt 0 = true ↔ number.toInt < 0 := BitVec.slt_iff_toInt_lt
  have hlt := number.isLt
  rw [signedLoops]
  split
  · rename_i hneg
    rw [hslt] at hneg
    rw [(unsignedLoops_eq h buffer (-number)).1]
    refine ⟨ch '-' :: textOf radix.toNat (-number).toNat, rfl, ?_⟩
    rw [signedValueOf, List.head?_cons, if_pos rfl, List.tail_cons, valueOf_textOf hb h16, Option.map_some,
      BitVec.toNat_neg]
    split at hint <;> exact congrArg some (by omega)
  · rename_i hpos
    rw [hslt] at hpos
    rw [(unsignedLoops_eq h buffer number).1]
    refine ⟨textOf radix.toNat number.toNat, rfl, ?_⟩
    rw [signedValueOf, if_neg (textOf_unsigned hb h16), valueOf_textOf hb h16, Option.map_some]
    split at hint <;> exact congrArg some (by omega)

/-- The most negative number, which is its own negation. -/
theorem printNumber_least : ∃ n text, signedLoops n (fun _ => 0) (BitVec.intMin 64) 10 = some text ∧
    signedValueOf 10 text = some (-9223372036854775808) :=
  (printNumber_faithful (.inr (.inl rfl)) (fun _ => 0) (BitVec.intMin 64)).2

end

end AlexOS.Stdio
