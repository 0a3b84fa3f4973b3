import Mathlib.Data.List.GetD
import Mathlib.Data.Nat.Find

/-!
# Tables that end at a mark

The entries of a table are read one after the other, until one is a mark or
none is there. `Ends` says how many there are before, `First` which of them is
the first with a property: it is looked for before the entry is seen to be a
mark. Both are unique (`Ends.unique`, `First.unique`), and what is first with a
property that no mark has is what `find?` finds in the list of the entries
(`Ends.first_iff`).
-/

namespace AlexOS.Listing

variable {α : Type} (entry : Nat → Option α) (mark : α → Prop)

/-- `n` entries come before the mark, or before where no entry is. -/
structure Ends (n : Nat) : Prop where
  before : ∀ i < n, ∃ e, entry i = some e ∧ ¬ mark e
  last : ∀ e, entry n = some e → mark e

/-- Entry `i` is the first one with the property, and no mark comes before. -/
structure First (p : α → Prop) (i : Nat) (e : α) : Prop where
  before : ∀ j < i, ∃ e, entry j = some e ∧ ¬ mark e ∧ ¬ p e
  here : entry i = some e
  holds : p e

/-- The first `n` entries. -/
def upTo (n : Nat) : List α := (List.range n).filterMap entry

variable {entry mark} {p q : α → Prop} {i j n m : Nat} {e e' : α}

theorem upTo_succ : upTo entry (n + 1) = upTo entry n ++ (entry n).toList := by
  rw [upTo, List.range_succ, List.filterMap_append, ← upTo]
  cases h : entry n <;> simp [h]

theorem Ends.unique (E : Ends entry mark n) (E' : Ends entry mark m) : n = m := by
  have key : ∀ n m, Ends entry mark n → Ends entry mark m → ¬ n < m := by
    intro n m E E' hlt
    obtain ⟨e, he, hno⟩ := E'.before n hlt
    exact hno (E.last e he)
  exact Nat.le_antisymm (Nat.le_of_not_lt (key m n E' E)) (Nat.le_of_not_lt (key n m E E'))

theorem First.unique (F : First entry mark p i e) (F' : First entry mark p j e') : i = j ∧ e = e' := by
  have key : ∀ i j e e', First entry mark p i e → First entry mark p j e' → ¬ i < j := by
    intro i j e e' F F' hlt
    obtain ⟨a, ha, -, hno⟩ := F'.before i hlt
    exact hno (Option.some.inj (F.here.symm.trans ha) ▸ F.holds)
  obtain rfl : i = j :=
    Nat.le_antisymm (Nat.le_of_not_lt (key j i e' e F' F)) (Nat.le_of_not_lt (key i j e e' F F'))
  exact ⟨rfl, Option.some.inj (F.here.symm.trans F'.here)⟩

/-- What is first is among the entries. -/
theorem Ends.lt_of_first (E : Ends entry mark n) (F : First entry mark p i e)
    (hp : ∀ e, p e → ¬ mark e) : i < n := by
  by_contra hge
  rcases Nat.eq_or_lt_of_le (Nat.le_of_not_lt hge) with rfl | hlt
  · exact hp e F.holds (E.last e F.here)
  · obtain ⟨a, ha, hno, -⟩ := F.before n hlt
    exact hno (E.last a ha)

/-- It is the first that is found among the entries up to it. -/
theorem First.find?_upTo {p : α → Bool} (F : First entry mark (p · = true) i e) :
    (upTo entry (i + 1)).find? p = some e := by
  have hnone : (upTo entry i).find? p = none := by
    rw [List.find?_eq_none]
    intro a ha
    obtain ⟨j, hj, hja⟩ := List.mem_filterMap.mp ha
    obtain ⟨b, hb, -, hno⟩ := F.before j (List.mem_range.mp hj)
    rwa [← Option.some.inj (hb.symm.trans hja)]
  rw [upTo_succ, List.find?_append, hnone, F.here]
  simp [F.holds]

theorem find?_upTo_mono (p : α → Bool) (h : (upTo entry i).find? p = some e) (hi : i ≤ n) :
    (upTo entry n).find? p = some e := by
  induction n with
  | zero => rwa [← Nat.le_zero.mp hi]
  | succ n ih =>
    rcases Nat.eq_or_lt_of_le hi with rfl | hlt
    · exact h
    · rw [upTo_succ, List.find?_append, ih (Nat.le_of_lt_succ hlt), Option.some_or]

/-- In a table that ends, the first entry with a property that no mark has is the first in the list. -/
theorem Ends.first_iff (E : Ends entry mark n) (p : α → Bool) (hp : ∀ e, p e = true → ¬ mark e) :
    (∃ i, First entry mark (p · = true) i e) ↔ (upTo entry n).find? p = some e := by
  constructor
  · intro h
    obtain ⟨i, F⟩ := h
    exact find?_upTo_mono p F.find?_upTo (E.lt_of_first F hp)
  · intro h
    have hex : ∃ i, i < n ∧ ∃ a, entry i = some a ∧ p a = true := by
      obtain ⟨i, hi, hie⟩ := List.mem_filterMap.mp (List.mem_of_find?_eq_some h)
      exact ⟨i, List.mem_range.mp hi, e, hie, List.find?_some h⟩
    classical
    obtain ⟨hi, a, ha, hpa⟩ := Nat.find_spec hex
    have F : First entry mark (p · = true) (Nat.find hex) a := by
      refine ⟨fun j hj => ?_, ha, hpa⟩
      obtain ⟨b, hb, hno⟩ := E.before j (Nat.lt_trans hj hi)
      exact ⟨b, hb, hno, fun hpb => Nat.find_min hex hj ⟨Nat.lt_trans hj hi, b, hb, hpb⟩⟩
    have hfirst := find?_upTo_mono p F.find?_upTo hi
    exact ⟨_, Option.some.inj (hfirst.symm.trans h) ▸ F⟩

end AlexOS.Listing
