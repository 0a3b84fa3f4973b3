import Mathlib.Data.Nat.Init

/-!
# Collecting in order

A loop over the numbers below `n` that appends those with a property to a
table. `Collected` is what holds of the table after each round: it has these
numbers, in order, and is no longer than `n` (`Collected.count_le`).
-/

namespace AlexOS

section

variable {σ : Type} {s : σ} {n : Nat} {body : Nat → σ → σ}

/-- `for (i = 0; i < n; i++)`. -/
def forBelow (n : Nat) (body : Nat → σ → σ) (s : σ) : σ := n.fold (fun i _ s => body i s) s

/-- What holds before the loop, and is kept by each round. -/
theorem forBelow_inv (Inv : Nat → σ → Prop) (h0 : Inv 0 s)
    (hs : ∀ i < n, ∀ s, Inv i s → Inv (i + 1) (body i s)) :
    Inv n (forBelow n body s) := by
  induction n with
  | zero => exact h0
  | succ n ih =>
    rw [forBelow, Nat.fold_succ]
    exact hs n (Nat.lt_succ_self n) _ (ih fun i hi => hs i (Nat.lt_succ_of_lt hi))

end

/-- The first `count` numbers of the table are those below `n` with the property, in order. -/
structure Collected (p : Nat → Prop) (n : Nat) (number : Nat → Nat) (count : Nat) : Prop where
  sound : ∀ k < count, number k < n ∧ p (number k)
  complete : ∀ m < n, p m → ∃ k < count, number k = m
  ordered : ∀ k l, k < l → l < count → number k < number l

namespace Collected

variable {p : Nat → Prop} {n count : Nat} {number number' : Nat → Nat}

theorem zero : Collected p 0 number 0 where
  sound k hk := absurd hk (Nat.not_lt_zero k)
  complete m hm := absurd hm (Nat.not_lt_zero m)
  ordered _ l _ hl := absurd hl (Nat.not_lt_zero l)

/-- The table is as before up to `count`. -/
theorem skip (h : Collected p n number count) (hn : ¬ p n) (hnumber : ∀ k < count, number' k = number k) :
    Collected p (n + 1) number' count where
  sound k hk := by
    rw [hnumber k hk]
    exact ⟨Nat.lt_succ_of_lt (h.sound k hk).1, (h.sound k hk).2⟩
  complete m hm hp := by
    rcases Nat.lt_succ_iff_lt_or_eq.mp hm with hm | rfl
    · obtain ⟨k, hk, e⟩ := h.complete m hm hp
      exact ⟨k, hk, by rw [hnumber k hk, e]⟩
    · exact absurd hp hn
  ordered k l hkl hl := by
    rw [hnumber l hl, hnumber k (Nat.lt_trans hkl hl)]
    exact h.ordered k l hkl hl

/-- `n` is appended. -/
theorem push (h : Collected p n number count) (hn : p n) (hnumber : ∀ k < count, number' k = number k)
    (hlast : number' count = n) : Collected p (n + 1) number' (count + 1) where
  sound k hk := by
    rcases Nat.lt_succ_iff_lt_or_eq.mp hk with hk | rfl
    · rw [hnumber k hk]
      exact ⟨Nat.lt_succ_of_lt (h.sound k hk).1, (h.sound k hk).2⟩
    · rw [hlast]
      exact ⟨Nat.lt_succ_self n, hn⟩
  complete m hm hp := by
    rcases Nat.lt_succ_iff_lt_or_eq.mp hm with hm | rfl
    · obtain ⟨k, hk, e⟩ := h.complete m hm hp
      exact ⟨k, Nat.lt_succ_of_lt hk, by rw [hnumber k hk, e]⟩
    · exact ⟨count, Nat.lt_succ_self count, hlast⟩
  ordered k l hkl hl := by
    rcases Nat.lt_succ_iff_lt_or_eq.mp hl with hl | rfl
    · rw [hnumber l hl, hnumber k (Nat.lt_trans hkl hl)]
      exact h.ordered k l hkl hl
    · rw [hlast, hnumber k hkl]
      exact (h.sound k hkl).1

/-- Number `k` of the table is at least `k`. -/
theorem le_number (h : Collected p n number count) {k : Nat} (hk : k < count) : k ≤ number k := by
  induction k with
  | zero => exact Nat.zero_le _
  | succ k ih =>
    exact Nat.succ_le_of_lt
      (Nat.lt_of_le_of_lt (ih (Nat.lt_of_succ_lt hk)) (h.ordered k (k + 1) (Nat.lt_succ_self k) hk))

/-- The table is not longer than the loop. -/
theorem count_le (h : Collected p n number count) : count ≤ n := by
  cases count with
  | zero => exact Nat.zero_le n
  | succ k =>
    have hk := Nat.lt_succ_self k
    exact Nat.succ_le_of_lt (Nat.lt_of_le_of_lt (h.le_number hk) (h.sound k hk).1)

end Collected

end AlexOS
