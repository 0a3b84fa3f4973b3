import Mathlib.Data.Fintype.Card

/-!
# Linked lists

`Chain next null p xs`: following `next` from `p` visits `xs`, in order, and
then reaches `null`. A chain is determined by where it starts
(`Chain.unique`), so it visits no node twice (`Chain.nodup`), and a loop that
follows `next` until a condition that holds of the last node stops
(`Chain.walk`), as does one that may reach the end (`Chain.walk_dropWhile`) or
looks one node ahead (`Chain.walk_ahead`), and one whose steps may fail, but do
not (`Chain.walkM_eq`). A change of `next` at one node pushes, appends or unlinks
(`Chain.push`, `Chain.snoc`, `Chain.unlink`) and leaves the rest of the list
alone (`Chain.congr`).
-/

namespace AlexOS

variable {α : Type}

/-- Following `next` from `p` visits `xs` and then reaches `null`. -/
def Chain (next : α → α) (null : α) : α → List α → Prop
  | p, [] => p = null
  | p, x :: xs => p = x ∧ x ≠ null ∧ Chain next null (next x) xs

instance Chain.decidable [DecidableEq α] (next : α → α) (null : α) :
    ∀ (p : α) (xs : List α), Decidable (Chain next null p xs)
  | p, [] => inferInstanceAs (Decidable (p = null))
  | p, x :: xs =>
    have := Chain.decidable next null (next x) xs
    inferInstanceAs (Decidable (p = x ∧ x ≠ null ∧ Chain next null (next x) xs))

/-- `while (!stop(x)) x = next(x);`, for at most `n` tests. -/
def walk (next : α → α) (stop : α → Bool) : Nat → α → Option α
  | 0, _ => none
  | n + 1, x => if stop x then some x else walk next stop n (next x)

/-- `walk`, where the tests and the steps may fail. -/
def walkM (next : α → Option α) (stop : α → Option Bool) : Nat → α → Option α
  | 0, _ => none
  | n + 1, x => do
    if ← stop x then some x else
    let y ← next x
    walkM next stop n y

theorem walk_stop {next : α → α} {stop : α → Bool} {fuel : Nat} {x : α} (h : stop x = true) (hf : 0 < fuel) :
    walk next stop fuel x = some x := by
  cases fuel with
  | zero => exact absurd hf (Nat.lt_irrefl 0)
  | succ n => exact if_pos h

theorem walkM_stop {next : α → Option α} {stop : α → Option Bool} {fuel : Nat} {x : α} (h : stop x = some true)
    (hf : 0 < fuel) : walkM next stop fuel x = some x := by
  cases fuel with
  | zero => exact absurd hf (Nat.lt_irrefl 0)
  | succ n => simp [walkM, h]

namespace Chain

variable {next next' : α → α} {null p : α} {xs ys pre post : List α} {x y : α}

theorem start_null : Chain next null null xs ↔ xs = [] := by
  cases xs with
  | nil => simp [Chain]
  | cons x xs => simp only [Chain, reduceCtorEq, iff_false]; rintro ⟨rfl, h, -⟩; exact h rfl

theorem exists_cons (h : Chain next null p xs) (hp : p ≠ null) : ∃ ys, xs = p :: ys := by
  cases xs with
  | nil => exact absurd h hp
  | cons x xs => exact ⟨xs, by rw [h.1]⟩

theorem ne_null (h : Chain next null p xs) (hx : x ∈ xs) : x ≠ null := by
  induction xs generalizing p with
  | nil => cases hx
  | cons y ys ih =>
    rcases List.mem_cons.mp hx with rfl | hx
    · exact h.2.1
    · exact ih h.2.2 hx

/-- The start of a chain determines it. -/
theorem unique (h : Chain next null p xs) (h' : Chain next null p ys) : xs = ys := by
  induction xs generalizing p ys with
  | nil => exact (start_null.mp (h ▸ h')).symm
  | cons x xs ih =>
    obtain ⟨rfl, hx, hc⟩ := h
    obtain ⟨zs, rfl⟩ := h'.exists_cons hx
    rw [ih hc h'.2.2]

/-- The rest of a chain, from a node on it. -/
theorem suffix : ∀ {p : α} {pre : List α}, Chain next null p (pre ++ x :: post) →
    Chain next null x (x :: post)
  | _, [], h => ⟨rfl, h.2⟩
  | _, _ :: _, h => suffix h.2.2

/-- A chain visits no node twice: the rest of the chain from the second visit
would be the rest from the first. -/
theorem nodup (h : Chain next null p xs) : xs.Nodup := by
  induction xs generalizing p with
  | nil => exact List.nodup_nil
  | cons x xs ih =>
    refine List.nodup_cons.mpr ⟨fun hx => ?_, ih h.2.2⟩
    obtain ⟨pre, post, rfl⟩ := List.append_of_mem hx
    have e := unique (h.1 ▸ h) (suffix h.2.2)
    have := congrArg List.length e
    simp only [List.length_cons, List.length_append] at this
    omega

theorem congr (h : Chain next null p xs) (e : ∀ x ∈ xs, next' x = next x) :
    Chain next' null p xs := by
  induction xs generalizing p with
  | nil => exact h
  | cons x xs ih =>
    refine ⟨h.1, h.2.1, ?_⟩
    rw [e x List.mem_cons_self]
    exact ih h.2.2 fun y hy => e y (List.mem_cons_of_mem _ hy)

/-- A new first node. -/
theorem push (h : Chain next null p xs) (hx : x ≠ null) (e : ∀ y ∈ xs, next' y = next y)
    (ex : next' x = p) : Chain next' null x (x :: xs) :=
  ⟨rfl, hx, by rw [ex]; exact h.congr e⟩

/-- The last node's `next` is set to a new node. -/
theorem snoc (h : Chain next null p (xs ++ [x])) (hy : y ≠ null)
    (e : ∀ z ∈ xs, next' z = next z) (ex : next' x = y) (ey : next' y = null) :
    Chain next' null p (xs ++ [x] ++ [y]) := by
  induction xs generalizing p with
  | nil => exact ⟨h.1, h.2.1, ex, hy, ey⟩
  | cons z xs ih =>
    refine ⟨h.1, h.2.1, ?_⟩
    rw [e z List.mem_cons_self]
    exact ih h.2.2 fun w hw => e w (List.mem_cons_of_mem _ hw)

/-- Where a chain leads after the last node's `next` is set to a new node. -/
theorem exists_append (h : Chain next null p (xs ++ [x])) (e : ∀ z ∈ xs, next' z = next z)
    (ex : next' x ≠ null) (h' : Chain next' null p ys) : ∃ zs, ys = xs ++ x :: next' x :: zs := by
  induction xs generalizing p ys with
  | nil =>
    obtain ⟨rfl, hx, -⟩ := h
    obtain ⟨zs, rfl⟩ := h'.exists_cons hx
    obtain ⟨zs, rfl⟩ := h'.2.2.exists_cons ex
    exact ⟨zs, rfl⟩
  | cons z xs ih =>
    obtain ⟨rfl, hz, hc⟩ := h
    obtain ⟨zs, rfl⟩ := h'.exists_cons hz
    obtain ⟨ws, rfl⟩ := ih hc (fun w hw => e w (List.mem_cons_of_mem _ hw)) (e p List.mem_cons_self ▸ h'.2.2)
    exact ⟨ws, rfl⟩

/-- The node after `x` is taken out. -/
theorem unlink (h : Chain next null p (pre ++ x :: y :: post))
    (e : ∀ z ∈ pre ++ post, next' z = next z) (ex : next' x = next y) :
    Chain next' null p (pre ++ x :: post) := by
  induction pre generalizing p with
  | nil =>
    refine ⟨h.1, h.2.1, ?_⟩
    rw [ex]
    exact h.2.2.2.2.congr fun z hz => e z (by simpa using hz)
  | cons z pre ih =>
    refine ⟨h.1, h.2.1, ?_⟩
    rw [e z List.mem_cons_self]
    exact ih h.2.2 fun w hw => e w (List.mem_cons_of_mem _ hw)

/-- The `next` of a node is the node after it, or `null` at the end. -/
theorem next_eq (h : Chain next null p (pre ++ x :: post)) : next x = post.headD null := by
  have := h.suffix.2.2
  cases post with
  | nil => exact this
  | cons y post => exact this.1

/-- The node after one of a chain. -/
theorem next_mem (h : Chain next null p xs) (hx : x ∈ xs) : next x = null ∨ next x ∈ xs := by
  obtain ⟨pre, post, rfl⟩ := List.append_of_mem hx
  rw [h.next_eq]
  cases post with
  | nil => exact .inl rfl
  | cons y post => exact .inr (by simp)

/-- A loop along a chain stops at the first node that meets the condition, if
a node without a successor meets it. -/
theorem walk {fuel : Nat} (h : Chain next null p xs) (stop : α → Bool) (hp : p ≠ null)
    (hs : ∀ z ∈ xs, next z = null → stop z = true) (hf : xs.length ≤ fuel) :
    ∃ pre y post, xs = pre ++ y :: post ∧ AlexOS.walk next stop fuel p = some y ∧
      stop y = true ∧ ∀ z ∈ pre, stop z = false := by
  induction xs generalizing p fuel with
  | nil => exact absurd h hp
  | cons x xs ih =>
    obtain ⟨rfl, hx, hc⟩ := h
    obtain ⟨fuel, rfl⟩ : ∃ k, fuel = k + 1 := ⟨fuel - 1, by simp at hf; omega⟩
    by_cases st : stop p = true
    · exact ⟨[], p, xs, rfl, by simp [AlexOS.walk, st], st, by simp⟩
    · have hn : next p ≠ null := fun e => st (hs p List.mem_cons_self e)
      obtain ⟨pre, y, post, rfl, hw, hy, hpre⟩ :=
        ih hc hn (fun z hz => hs z (List.mem_cons_of_mem _ hz)) (by simpa using hf)
      refine ⟨p :: pre, y, post, rfl, by simp [AlexOS.walk, st, hw], hy, fun z hz => ?_⟩
      rcases List.mem_cons.mp hz with rfl | hz
      · simpa using st
      · exact hpre z hz

/-- A loop that looks one node ahead stops at the last node before those that do not meet the
condition. -/
theorem walk_ahead [DecidableEq α] {fuel : Nat} {c : α → Bool} (h : Chain next null p (p :: xs))
    (hf : xs.length < fuel) :
    AlexOS.walk next (fun y => !(decide (next y ≠ null) && c (next y))) fuel p =
      some ((xs.takeWhile c).getLastD p) := by
  induction xs generalizing p fuel with
  | nil =>
    obtain ⟨fuel, rfl⟩ := Nat.exists_eq_add_of_lt hf
    simp [AlexOS.walk, show next p = null from h.2.2]
  | cons x xs ih =>
    obtain ⟨fuel, rfl⟩ : ∃ k, fuel = k + 1 := ⟨fuel - 1, by simp at hf; omega⟩
    obtain ⟨hx, hne, hc⟩ := h.2.2
    rw [AlexOS.walk, hx]
    by_cases hcx : c x = true
    · rw [if_neg (by simp [hcx, hne]), ih ⟨rfl, hne, hc⟩ (by simpa using hf),
        List.takeWhile_cons_of_pos hcx, List.getLastD_cons]
    · rw [if_pos (by simp [hcx]), List.takeWhile_cons_of_neg hcx]
      rfl

/-- A loop along a chain stops at the first node that does not meet the condition, or at the end. -/
theorem walk_dropWhile [DecidableEq α] {fuel : Nat} {c : α → Bool} (h : Chain next null p xs)
    (hf : xs.length < fuel) :
    AlexOS.walk next (fun y => !(decide (y ≠ null) && c y)) fuel p =
      some ((xs.dropWhile c).headD null) := by
  induction xs generalizing p fuel with
  | nil =>
    obtain ⟨fuel, rfl⟩ := Nat.exists_eq_add_of_lt hf
    simp [AlexOS.walk, show p = null from h]
  | cons x xs ih =>
    obtain ⟨fuel, rfl⟩ : ∃ k, fuel = k + 1 := ⟨fuel - 1, by simp at hf; omega⟩
    obtain ⟨rfl, hne, hc⟩ := h
    rw [AlexOS.walk]
    by_cases hcx : c p = true
    · rw [if_neg (by simp [hcx, hne]), ih hc (by simpa using hf), List.dropWhile_cons_of_pos hcx]
    · rw [if_pos (by simp [hcx]), List.dropWhile_cons_of_neg hcx]
      rfl

/-- A walk whose tests and steps may fail, along a chain on which they do not. -/
theorem walkM_eq {n : Nat} {nextM : α → Option α} {c : α → Bool} {stopM : α → Option Bool}
    (h : Chain next null p xs) (hp : p ≠ null) (hs : ∀ z ∈ xs, next z = null → c z = true)
    (hM : ∀ z ∈ xs, nextM z = some (next z) ∧ stopM z = some (c z)) :
    walkM nextM stopM n p = AlexOS.walk next c n p := by
  induction n generalizing p xs with
  | zero => rfl
  | succ n ih =>
    obtain ⟨ys, rfl⟩ := h.exists_cons hp
    obtain ⟨hn, hst⟩ := hM p List.mem_cons_self
    rw [walkM, AlexOS.walk, hst, hn]
    by_cases hstop : c p = true
    · simp [hstop]
    · have hne : next p ≠ null := fun e => hstop (hs p List.mem_cons_self e)
      have hrest := ih h.2.2 hne (fun z hz => hs z (List.mem_cons_of_mem _ hz))
        fun z hz => hM z (List.mem_cons_of_mem _ hz)
      simp [hstop, hrest]

/-- A chain is no longer than there are places for its nodes. -/
theorem length_le {n : Nat} {f : α → Fin n} (h : Chain next null p xs)
    (hf : Function.Injective f) : xs.length ≤ n := by
  simpa using (h.nodup.map hf).length_le_card

/-- There is a place for `null` too. -/
theorem length_lt {n : Nat} {f : α → Fin n} (h : Chain next null p xs)
    (hf : Function.Injective f) : xs.length < n := by
  have hnodup : (null :: xs).Nodup := List.nodup_cons.mpr ⟨fun hx => h.ne_null hx rfl, h.nodup⟩
  simpa [Nat.succ_le_iff] using (hnodup.map hf).length_le_card

end Chain

/-- An orbit that leaves a finite set does so within as many steps. -/
theorem iterate_le_card {f : α → α} {a : α} {S : Finset α} {n : Nat}
    (hin : ∀ i, 0 < i → i ≤ n → f^[i] a ∈ S) (hout : f^[n + 1] a ∉ S) : n ≤ S.card := by
  -- a value that comes again would come again in place of the first outside
  have hne : ∀ i k, i < k → k < n → f^[i + 1] a ≠ f^[k + 1] a := by
    intro i k hik hk e
    have hback : f^[n + 1] a = f^[n - k + (i + 1)] a := by
      calc f^[n + 1] a = f^[n - k + (k + 1)] a := by rw [show n - k + (k + 1) = n + 1 by omega]
        _ = f^[n - k] (f^[i + 1] a) := by rw [Function.iterate_add_apply, e]
        _ = f^[n - k + (i + 1)] a := (Function.iterate_add_apply f _ _ a).symm
    rw [hback] at hout
    exact hout (hin _ (by omega) (by omega))
  have hinj : Set.InjOn (fun i => f^[i + 1] a) (Finset.range n) := by
    intro i hi k hk e
    have hi := Finset.mem_range.mp hi
    have hk := Finset.mem_range.mp hk
    rcases Nat.lt_trichotomy i k with hlt | he | hlt
    · exact absurd e (hne i k hlt hk)
    · exact he
    · exact absurd e.symm (hne k i hlt hi)
  have hmaps : ∀ i ∈ Finset.range n, f^[i + 1] a ∈ S := fun i hi =>
    hin _ (Nat.succ_pos i) (Finset.mem_range.mp hi)
  have hcard := Finset.card_le_card_of_injOn _ hmaps hinj
  rwa [Finset.card_range] at hcard

end AlexOS
