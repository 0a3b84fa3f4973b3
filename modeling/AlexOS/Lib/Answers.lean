import Mathlib.Data.Nat.Notation

/-!
# Answers from outside

A run that asks something outside of it, and counts its questions, depends on
the answers to those that it has asked. So the answers can be chosen as the run
goes on: what one part of a run does for some answers (`Follows`), and the next
part for others, both do for one sequence of answers (`Follows.trans`).
-/

namespace AlexOS

variable {α : Type} {lo mid hi : ℕ} {P Q R : (ℕ → α) → Prop}

/-- It is so whenever the answers to the questions from `lo` to `hi` are certain ones. -/
def Follows (lo hi : ℕ) (P : (ℕ → α) → Prop) : Prop :=
  ∃ a : ℕ → α, ∀ answers : ℕ → α, (∀ k, lo ≤ k → k < hi → answers k = a k) → P answers

namespace Follows

theorem of_forall [Inhabited α] (h : ∀ answers, P answers) : Follows lo hi P :=
  ⟨fun _ => default, fun answers _ => h answers⟩

/-- One question. -/
theorem once (a : α) (h : ∀ answers : ℕ → α, answers lo = a → P answers) : Follows lo (lo + 1) P :=
  ⟨fun _ => a, fun answers ha => h answers (ha lo (Nat.le_refl _) (Nat.lt_succ_self _))⟩

theorem imp (h : Follows lo hi P) (hQ : ∀ answers, P answers → Q answers) : Follows lo hi Q := by
  obtain ⟨a, h⟩ := h
  exact ⟨a, fun answers ha => hQ answers (h answers ha)⟩

theorem exists_answers (h : Follows lo hi P) : ∃ answers, P answers := by
  obtain ⟨a, h⟩ := h
  exact ⟨a, h a fun _ _ _ => rfl⟩

/-- First the one part, and then the other. -/
theorem trans (h : Follows lo mid P) (h' : Follows mid hi Q) (hlo : lo ≤ mid) (hhi : mid ≤ hi)
    (hR : ∀ answers, P answers → Q answers → R answers) : Follows lo hi R := by
  obtain ⟨a, h⟩ := h
  obtain ⟨b, h'⟩ := h'
  refine ⟨fun k => if k < mid then a k else b k, fun answers ha => hR answers ?_ ?_⟩
  · refine h answers fun k h1 h2 => ?_
    rw [ha k h1 (Nat.lt_of_lt_of_le h2 hhi)]
    exact if_pos h2
  · refine h' answers fun k h1 h2 => ?_
    rw [ha k (Nat.le_trans hlo h1) h2]
    exact if_neg (Nat.not_lt.mpr h1)

end Follows

end AlexOS
