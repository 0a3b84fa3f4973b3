import AlexOS.Lib.Mem

/-!
# Sources

A source of bytes gives some at a time: those that it has room for, and none
when that is 0. A run asks for a number of bytes until it has them, or the
source has no more. If it makes no difference how what is given at once is
split (`Lawful`), it makes none how a run is split (`run_add`).
-/

namespace AlexOS

structure Source (σ : Type) where
  /-- How many bytes it can give at once. -/
  room : σ → Nat
  get : Nat → σ → List Byte × σ

namespace Source

variable {σ : Type} {S : Source σ} {s : σ} {n : Nat}

/-- Bytes that are given one after the other. -/
def andThen (r : List Byte × σ) (f : σ → List Byte × σ) : List Byte × σ :=
  (r.1 ++ (f r.2).1, (f r.2).2)

structure Lawful (S : Source σ) : Prop where
  get_add : ∀ s a b, 0 < a → 0 < b → a + b ≤ S.room s → S.get (a + b) s = andThen (S.get a s) (S.get b)
  room_get : ∀ s a, 0 < a → a < S.room s → S.room (S.get a s).2 = S.room s - a

/-- The bytes that are given if `n` are asked for. -/
def run (S : Source σ) (n : Nat) (s : σ) : List Byte × σ :=
  if _h : 0 < n ∧ 0 < S.room s then andThen (S.get (min n (S.room s)) s) (S.run (n - min n (S.room s)))
  else ([], s)
termination_by n
decreasing_by omega

theorem run_zero (S : Source σ) (s : σ) : S.run 0 s = ([], s) := by
  unfold run
  exact dif_neg fun h => absurd h.1 (lt_irrefl 0)

theorem run_of_room_eq_zero (h : S.room s = 0) (n : Nat) : S.run n s = ([], s) := by
  unfold run
  exact dif_neg fun h' => absurd (h ▸ h'.2) (lt_irrefl 0)

theorem run_of_pos (hn : 0 < n) (h : 0 < S.room s) :
    S.run n s = andThen (S.get (min n (S.room s)) s) (S.run (n - min n (S.room s))) := by
  rw [run, dif_pos ⟨hn, h⟩]

theorem run_of_lt (hn : 0 < n) (h : n < S.room s) : S.run n s = S.get n s := by
  rw [run_of_pos hn (by omega), Nat.min_eq_left h.le, Nat.sub_self, andThen, run_zero]
  simp only [List.append_nil]

/-- The source gives all that it has room for. -/
theorem run_of_le (hr : 0 < S.room s) (h : S.room s ≤ n) :
    S.run n s = andThen (S.get (S.room s) s) (S.run (n - S.room s)) := by
  rw [run_of_pos (by omega) hr, Nat.min_eq_right h]

/-- What each step keeps, with as many bytes to come, a run keeps. -/
theorem run_keeps {P : Nat → σ → Prop}
    (h : ∀ n m s, P (n + m) s → 0 < n → n ≤ S.room s → P m (S.get n s).2)
    (hs : P n s) : ∃ m, P m (S.run n s).2 := by
  induction n using Nat.strong_induction_on generalizing s with
  | _ n ih =>
    by_cases hgo : 0 < n ∧ 0 < S.room s
    · obtain ⟨hn, hr⟩ := hgo
      rw [run_of_pos hn hr]
      refine ih _ (by omega) (h _ _ s ?_ (by omega) (Nat.min_le_right _ _))
      rwa [Nat.add_sub_cancel' (Nat.min_le_left _ _)]
    · unfold run
      rw [dif_neg hgo]
      exact ⟨n, hs⟩

theorem andThen_assoc (r : List Byte × σ) (f g : σ → List Byte × σ) :
    andThen (andThen r f) g = andThen r fun s => andThen (f s) g := by
  simp only [andThen, List.append_assoc]

/-- A run for `a` bytes, then one for `b`. -/
theorem Lawful.run_add (L : S.Lawful) (a b : Nat) (s : σ) : S.run (a + b) s = andThen (S.run a s) (S.run b) := by
  induction a using Nat.strong_induction_on generalizing s with
  | _ a ih =>
    rcases Nat.eq_zero_or_pos a with rfl | ha
    · rw [run_zero, zero_add]
      simp only [andThen, List.nil_append]
    rcases Nat.eq_zero_or_pos (S.room s) with hr | hr
    · rw [run_of_room_eq_zero hr, run_of_room_eq_zero hr, andThen, run_of_room_eq_zero hr]
      rfl
    rcases Nat.lt_or_ge a (S.room s) with hlt | hge
    · rw [run_of_lt ha hlt]
      rcases Nat.eq_zero_or_pos b with rfl | hb
      · simp only [andThen, run_zero, add_zero, List.append_nil, run_of_lt ha hlt]
      -- the second run goes on where the first one stopped
      have hroom := L.room_get s a ha hlt
      have hmin : min (a + b) (S.room s) = a + min b (S.room s - a) := by omega
      rw [run_of_pos (by omega) hr, hmin, L.get_add s a _ ha (by omega) (by omega), andThen_assoc]
      simp only [andThen]
      rw [run_of_pos hb (by omega), hroom, show a + b - (a + min b (S.room s - a)) = b - min b (S.room s - a) by omega]
      rfl
    · rw [run_of_le hr (by omega), run_of_le hr hge, andThen_assoc, Nat.sub_add_comm hge]
      simp only [andThen, ih (a - S.room s) (by omega)]

end Source

/-! ## Counts in 32 bits -/

section

variable {w : Word} {n : Nat}

theorem toNat_ofNat_of_le (h : n ≤ w.toNat) : (BitVec.ofNat 32 n).toNat = n := by
  rw [BitVec.toNat_ofNat, Nat.mod_eq_of_lt (h.trans_lt w.isLt)]

/-- What is left of a count. -/
theorem toNat_sub_ofNat (h : n ≤ w.toNat) : (w - BitVec.ofNat 32 n).toNat = w.toNat - n := by
  have e := toNat_ofNat_of_le h
  rw [BitVec.toNat_sub_of_le (by rw [BitVec.le_def, e]; exact h), e]

/-- What is left when a position has moved on. -/
theorem toNat_sub_add_ofNat {p : Word} (h : n ≤ (w - p).toNat) :
    (w - (p + BitVec.ofNat 32 n)).toNat = (w - p).toNat - n := by
  rw [← sub_sub, toNat_sub_ofNat h]

/-- The offset in a sector. -/
theorem toNat_add_ofNat_mod (p : Word) (n : Nat) : (p + BitVec.ofNat 32 n).toNat % 512 = (p.toNat + n) % 512 := by
  simp only [BitVec.toNat_add, BitVec.toNat_ofNat]
  omega

end

end AlexOS
