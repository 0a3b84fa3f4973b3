import Mathlib.Data.Nat.Digits.Lemmas

/-!
# Numerals

The digits that a loop takes off a number until nothing is left: at least one,
least significant first (`numeral`). They are `Nat.digits`, but for 0, which
has a digit here.
-/

namespace AlexOS

def numeral (b n : Nat) : List Nat := n % b :: b.digits (n / b)

section

variable {b d k n : Nat}

/-- A round of the loop. -/
theorem numeral_step (hb : 1 < b) :
    numeral b n = n % b :: if n / b > 0 then numeral b (n / b) else [] := by
  rw [numeral]
  split
  · rename_i h
    rw [numeral, Nat.digits_eq_cons_digits_div hb h.ne']
  · rename_i h
    rw [Nat.eq_zero_of_not_pos h, Nat.digits_zero]

theorem ofDigits_numeral (b n : Nat) : Nat.ofDigits b (numeral b n) = n := by
  rw [numeral, Nat.ofDigits_cons, Nat.ofDigits_digits]
  exact Nat.mod_add_div n b

theorem numeral_lt (hb : 1 < b) (h : d ∈ numeral b n) : d < b := by
  rcases List.mem_cons.mp h with rfl | h
  · exact Nat.mod_lt _ (Nat.zero_lt_of_lt hb)
  · exact Nat.digits_lt_base hb h

theorem numeral_ne_nil (b n : Nat) : numeral b n ≠ [] := List.cons_ne_nil _ _

theorem length_numeral_le (hb : 1 < b) (h : n < b ^ (k + 1)) : (numeral b n).length ≤ k + 1 := by
  rw [numeral, List.length_cons]
  apply Nat.succ_le_succ
  rw [Nat.digits_length_le_iff hb]
  exact Nat.div_lt_of_lt_mul (by rwa [Nat.pow_succ, Nat.mul_comm] at h)

/-- The most significant digit is not 0, unless it is the only one. -/
theorem getLast_numeral (h : (numeral b n).getLast (numeral_ne_nil b n) = 0) : (numeral b n).length = 1 := by
  rcases Nat.eq_zero_or_pos (n / b) with h0 | hpos
  · rw [numeral, h0, Nat.digits_zero, List.length_singleton]
  · have hne : b.digits (n / b) ≠ [] := Nat.digits_ne_nil_iff_ne_zero.mpr hpos.ne'
    simp only [numeral, List.getLast_cons hne] at h
    exact absurd h (Nat.getLast_digit_ne_zero b hpos.ne')

end

end AlexOS
