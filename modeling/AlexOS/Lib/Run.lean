import Mathlib.Data.Nat.Init

/-!
# The first run

A loop that counts the positions in a row that have a property, from the last
one that has not (`Current`), stops at the first run of a length (`FirstRun`):
as long as it has not stopped, there is no run before (`Clear`).
-/

namespace AlexOS

section

variable {p : Nat → Prop} {c k n start : Nat}

/-- The `n` positions from `start` on have the property. -/
def IsRun (p : Nat → Prop) (n start : Nat) : Prop := ∀ i, start ≤ i → i < start + n → p i

/-- The last `c` positions before `k` have the property, and the one before them has not. -/
structure Current (p : Nat → Prop) (k c : Nat) : Prop where
  le : c ≤ k
  run : IsRun p c (k - c)
  stop : c < k → ¬ p (k - c - 1)

/-- No run of `n` positions ends before `k`. -/
def Clear (p : Nat → Prop) (n k : Nat) : Prop := ∀ start, start + n ≤ k → ¬ IsRun p n start

structure FirstRun (p : Nat → Prop) (n start : Nat) : Prop where
  run : IsRun p n start
  first : ∀ start' < start, ¬ IsRun p n start'

theorem Current.zero (p : Nat → Prop) : Current p 0 0 :=
  ⟨Nat.le_refl 0, fun _ _ h => absurd h (Nat.not_lt_zero _), fun h => absurd h (Nat.not_lt_zero 0)⟩

/-- One more position has the property. -/
theorem Current.succ (h : Current p k c) (hk : p k) : Current p (k + 1) (c + 1) := by
  have hle := h.le
  refine ⟨Nat.succ_le_succ hle, fun i h1 h2 => ?_, fun hlt => ?_⟩
  · rw [Nat.add_sub_add_right] at h1 h2
    rcases Nat.lt_or_ge i k with hi | hi
    · exact h.run i h1 (by omega)
    · rwa [show i = k by omega]
  · rw [Nat.add_sub_add_right]
    exact h.stop (Nat.lt_of_succ_lt_succ hlt)

/-- The next position does not. -/
theorem Current.reset (hk : ¬ p k) : Current p (k + 1) 0 :=
  ⟨Nat.zero_le _, fun i h1 h2 => by omega, fun _ => hk⟩

theorem Clear.zero (p : Nat → Prop) (hn : 0 < n) : Clear p n 0 := fun start h => by omega

/-- A run that begins earlier would have ended. -/
theorem Current.not_isRun (h : Current p k c) (hlt : start < k - c) (hle : k < start + n) : ¬ IsRun p n start := by
  have := h.le
  intro hr
  exact h.stop (by omega) (hr _ (by omega) (by omega))

/-- The count is below the length of the run. -/
theorem Clear.succ (hclear : Clear p n k) (h : Current p k c) (hc : c + 1 < n) : Clear p n (k + 1) := by
  intro start hle
  rcases Nat.lt_or_ge k (start + n) with hlt | hge
  · exact h.not_isRun (by have := h.le; omega) hlt
  · exact hclear start hge

theorem Clear.reset (hclear : Clear p n k) (hk : ¬ p k) : Clear p n (k + 1) := by
  have hn : 0 < n := Nat.pos_of_ne_zero fun e => hclear 0 (by omega) fun i _ h => by omega
  intro start hle
  rcases Nat.lt_or_ge k (start + n) with hlt | hge
  · exact fun hr => hk (hr k (by omega) hlt)
  · exact hclear start hge

/-- The count reaches the length of the run. -/
theorem Clear.firstRun (hclear : Clear p (c + 1) k) (h : Current p k c) (hk : p k) : FirstRun p (c + 1) (k - c) := by
  have hle := h.le
  have hrun := (h.succ hk).run
  rw [Nat.add_sub_add_right] at hrun
  refine ⟨hrun, fun start hlt => ?_⟩
  rcases Nat.lt_or_ge k (start + (c + 1)) with hk' | hge
  · exact h.not_isRun hlt hk'
  · exact hclear start hge

theorem Clear.mono {k' : Nat} (hclear : Clear p n k) (h : k' ≤ k) : Clear p n k' := fun start hle =>
  hclear start (Nat.le_trans hle h)

/-- No run ends before the last position of the first one. -/
theorem FirstRun.clear (h : FirstRun p (n + 1) start) (hk : k ≤ start + n) : Clear p (n + 1) k := fun start' hle =>
  h.first start' (by omega)

/-- There is one first run at most. -/
theorem FirstRun.unique {start' : Nat} (h : FirstRun p n start) (h' : FirstRun p n start') : start = start' := by
  rcases Nat.lt_trichotomy start start' with hlt | he | hlt
  · exact absurd h.run (h'.first _ hlt)
  · exact he
  · exact absurd h'.run (h.first _ hlt)

end

end AlexOS
