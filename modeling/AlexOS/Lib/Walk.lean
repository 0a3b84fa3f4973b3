import Mathlib.Logic.Function.Iterate

/-!
# Walks along a chain

A walk follows a function for some steps, as long as it is at a live point. The
points of a chain, which are live up to its end, are all different
(`iterate_injOn`).
-/

namespace AlexOS

def walkWhile {α : Type} (live : α → Prop) [DecidablePred live] (next : α → α) : Nat → α → α
  | 0, c => c
  | n + 1, c => if live c then walkWhile live next n (next c) else c

section

variable {α : Type} {live : α → Prop} [DecidablePred live] {next : α → α} {c : α} {m n i j : Nat}

theorem walkWhile_of_not_live (h : ¬ live c) (n : Nat) : walkWhile live next n c = c := by
  cases n with
  | zero => rfl
  | succ n => exact if_neg h

theorem walkWhile_add (m n : Nat) (c : α) :
    walkWhile live next (m + n) c = walkWhile live next n (walkWhile live next m c) := by
  induction m generalizing c with
  | zero => simp only [walkWhile, Nat.zero_add]
  | succ m ih =>
    rw [Nat.succ_add]
    by_cases h : live c
    · simp only [walkWhile, if_pos h, ih]
    · simp only [walkWhile, if_neg h, walkWhile_of_not_live h]

/-- All points before the last one are live. -/
theorem walkWhile_eq_iterate (h : ∀ i < n, live (next^[i] c)) : walkWhile live next n c = next^[n] c := by
  induction n generalizing c with
  | zero => rfl
  | succ n ih =>
    have h0 : live c := h 0 (Nat.succ_pos n)
    rw [walkWhile, if_pos h0, Function.iterate_succ_apply]
    exact ih fun i hi => h (i + 1) (Nat.succ_lt_succ hi)

/-- A walk stops at the first point that is not live. -/
theorem walkWhile_eq_end (hlive : ∀ i < n, live (next^[i] c)) (hend : ¬ live (next^[n] c)) (hm : n ≤ m) :
    walkWhile live next m c = next^[n] c := by
  rw [← Nat.add_sub_cancel' hm, walkWhile_add, walkWhile_eq_iterate hlive, walkWhile_of_not_live hend]

/-- No point of a chain comes twice, since the chain would not end. -/
theorem iterate_injOn {P : α → Prop} (hin : ∀ i < n, P (next^[i] c)) (hout : ¬ P (next^[n] c)) (hi : i ≤ n)
    (hj : j ≤ n) (h : next^[i] c = next^[j] c) : i = j := by
  have key : ∀ i j, i < j → j ≤ n → next^[i] c ≠ next^[j] c := fun i j hij hj h => by
    apply hout
    rw [show n = n - j + j by omega, Function.iterate_add_apply, ← h, ← Function.iterate_add_apply]
    exact hin _ (by omega)
  rcases Nat.lt_trichotomy i j with hij | hij | hij
  · exact absurd h (key i j hij hj)
  · exact hij
  · exact absurd h.symm (key j i hij hi)

end

end AlexOS
