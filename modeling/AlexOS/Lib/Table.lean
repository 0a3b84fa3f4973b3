import Mathlib.Data.Nat.Init
import Mathlib.Tactic.Linarith

/-!
# Tables of entries

A table of `count` entries takes `stride * count` bytes, and an entry is looked
at in `width` bytes, from every `stride`-th byte on. A loop over the entries
(`rounds`) looks at them in order until a round ends it. It stays inside the
table if the entries are as long as what is looked at, or if it ends at one of
those that are inside (`inside_iff`).
-/

namespace AlexOS.Table

/-- How many entries lie inside the table. -/
def whole (width stride count : Nat) : Nat := (stride * count + stride - width) / stride

section

variable {width stride count i : Nat}

/-- The entries inside the table are the first ones. -/
theorem lt_whole_iff (hw : 0 < width) : i < whole width stride count ↔ i * stride + width ≤ stride * count := by
  rcases Nat.eq_zero_or_pos stride with rfl | hs
  · simp only [whole, Nat.div_zero, Nat.mul_zero, Nat.zero_mul]
    omega
  rw [whole, Nat.lt_iff_add_one_le, Nat.le_div_iff_mul_le hs, Nat.add_mul, Nat.one_mul]
  omega

/-- Entries that are shorter than what is looked at are not all inside. -/
theorem whole_lt (hw : 0 < width) (hc : 0 < count) (hs : stride < width) : whole width stride count < count := by
  have hlast : ¬ (count - 1) * stride + width ≤ stride * count := by
    obtain ⟨n, rfl⟩ := Nat.exists_eq_add_of_lt hc
    rw [Nat.mul_comm stride, Nat.zero_add, Nat.add_sub_cancel, Nat.add_mul]
    omega
  rw [← lt_whole_iff hw] at hlast
  omega

/-- Entries that are not shorter are all inside. -/
theorem inside_of_le (hs : width ≤ stride) (hi : i < count) : i * stride + width ≤ stride * count := by
  have := Nat.mul_le_mul_right stride (Nat.succ_le_of_lt hi)
  rw [Nat.succ_mul, Nat.mul_comm count] at this
  omega

end

section

variable {σ : Type} (step : Nat → σ → Option σ)

/-- A number of rounds of a loop, from index `i` on. -/
def rounds : Nat → Nat → σ → Option σ
  | 0, _, s => some s
  | n + 1, i, s => (step i s).bind (rounds n (i + 1))

variable {step} {width stride count i m n : Nat} {s : σ}

theorem rounds_add : rounds step (m + n) i s = (rounds step m i s).bind (rounds step n (i + m)) := by
  induction m generalizing i s with
  | zero => rw [Nat.zero_add, rounds, Option.bind_some, Nat.add_zero]
  | succ m ih =>
    rw [Nat.succ_add, rounds, rounds, Option.bind_assoc]
    congr 1
    funext s'
    rw [ih, Nat.add_right_comm, ← Nat.add_assoc]

/-- A loop that gets to a round has made the ones before. -/
theorem isSome_rounds_of_le (h : (rounds step n 0 s).isSome) (hm : m ≤ n) : (rounds step m 0 s).isSome := by
  obtain ⟨d, rfl⟩ := Nat.exists_eq_add_of_le hm
  rw [rounds_add] at h
  exact Option.isSome_of_isSome_bind h

/-- A loop over the entries looks at nothing outside the table iff there is no entry, or they are as long as what is
looked at, or it ends at one of those inside. -/
theorem inside_iff (hw : 0 < width) :
    (∀ i < count, (rounds step i 0 s).isSome → i * stride + width ≤ stride * count) ↔
      count = 0 ∨ width ≤ stride ∨ rounds step (whole width stride count) 0 s = none := by
  constructor
  · intro H
    by_contra hnot
    obtain ⟨hc, hs, hround⟩ := by simpa only [not_or] using hnot
    have hlt := whole_lt hw (Nat.pos_of_ne_zero hc) (not_le.mp hs)
    have hin := H _ hlt (Option.isSome_iff_ne_none.mpr hround)
    exact absurd ((lt_whole_iff hw).mpr hin) (lt_irrefl _)
  · rintro (rfl | hs | hround) i hi hsome
    · exact absurd hi (Nat.not_lt_zero i)
    · exact inside_of_le hs hi
    · by_contra hnot
      have hle := not_lt.mp (mt (lt_whole_iff hw).mp hnot)
      have hnone := isSome_rounds_of_le hsome hle
      rw [hround] at hnone
      cases hnone

end

end AlexOS.Table
