import AlexOS.Vfs.Std

/-!
# The standard streams and interrupts

`std_get` runs with interrupts enabled, and the handler of the keyboard calls
`std_put`: here a call of `std_get` is taken statement by statement
(`getStep`), and a `std_put` may come between any two of them. `malloc` and
`free` are taken as one step each.

What matters is one place, between the test that the stream has one element and
`std->last = NULL`. If no `std_put` comes there, the stream stays a queue. A
character that is put there is in the stream, but `last` is not its element:
the next character that is put is not linked to it and gets lost (`race_run`).
-/

namespace AlexOS.Vfs

open Mem Block

/-- Where `std_get` is: before each of its statements, with the character and the element that it takes. -/
inductive Phase
  | idle
  | unlink (c : Byte) (old : Addr)
  | test (c : Byte) (old : Addr)
  | clear (c : Byte) (old : Addr)
  | count (c : Byte) (old : Addr)
  | release (c : Byte) (old : Addr)

structure Machine (σ : Type) where
  state : State σ
  phase : Phase

/-- The character that the next step returns. -/
def Phase.returns : Phase → List Byte
  | .release c _ => [c]
  | _ => []

/-- The next step comes after the test that there is one element. -/
def Phase.Clears : Phase → Prop
  | .clear _ _ => True
  | _ => False

section

variable {σ : Type} (A : Allocator σ)

/-- The next statement of `std_get`. -/
def getStep (std : Addr) (M : Machine σ) : Machine σ :=
  let s := M.state
  match M.phase with
  | .idle =>
    if first s.mem std = 0 then M else { M with phase := .unlink (val s.mem (first s.mem std)) (first s.mem std) }
  | .unlink c old => ⟨{ s with mem := s.mem.store32 std (next s.mem old) }, .test c old⟩
  | .test c old => { M with phase := if size s.mem std = 1 then .clear c old else .count c old }
  | .clear c old => ⟨{ s with mem := s.mem.store32 (std + 4) 0 }, .count c old⟩
  | .count c old => ⟨{ s with mem := s.mem.store32 (std + 8) (size s.mem std - 1) }, .release c old⟩
  | .release _ old => ⟨⟨(A.free s.alloc s.mem old).1, (A.free s.alloc s.mem old).2⟩, .idle⟩

/-- Calls of `std_get`, and of `std_put` between their statements but for one place; the characters that
were put, and those that were returned. -/
inductive Race (std : Addr) (s₀ : State σ) : Machine σ → List Byte → List Byte → Prop
  | start : Race std s₀ ⟨s₀, .idle⟩ [] []
  | put {M : Machine σ} {puts gots : List Byte} {c : Byte} {s : State σ} : Race std s₀ M puts gots →
      ¬ M.phase.Clears → stdPut A std c M.state = some s → Race std s₀ { M with state := s } (puts ++ [c]) gots
  | get {M : Machine σ} {puts gots : List Byte} : Race std s₀ M puts gots →
      Race std s₀ (getStep A std M) puts (gots ++ M.phase.returns)

end

/-- The queue `q`, while an element that was taken from it is still counted. Where the queue is empty, `last` is `d`. -/
structure Hanging (m : Mem) (std : Addr) (xs : List Addr) (q : List Byte) (d : Addr) : Prop where
  chain : Chain (next m) 0 (first m std) xs
  vals : xs.map (val m) = q
  last : last m std = xs.getLastD d
  size : size m std = BitVec.ofNat 32 (q.length + 1)

section

variable {σ : Type} {A : Allocator σ} {Owns : σ → Mem → List Block → Prop} {s s' s₀ : State σ}
  {std x y d p old : Addr} {xs : List Addr} {q puts gots : List Byte} {c c' : Byte} {others live : List Block}
  {m m' : Mem} {M : Machine σ}

/-! ## A call that nothing interrupts -/

theorem getStep_alone (A : Allocator σ) (std : Addr) (s : State σ) :
    ∃ n, (getStep A std)^[n] ⟨s, .idle⟩ = ⟨(stdGet A std s).2, .idle⟩ := by
  by_cases h0 : first s.mem std = 0
  · exact ⟨0, by rw [stdGet, if_pos h0]; rfl⟩
  · by_cases h1 : size (s.mem.store32 std (next s.mem (first s.mem std))) std = 1
    · refine ⟨6, ?_⟩
      simp only [Function.iterate_succ_apply, Function.iterate_zero_apply, getStep, stdGet, if_neg h0, if_pos h1]
    · refine ⟨5, ?_⟩
      simp only [Function.iterate_succ_apply, Function.iterate_zero_apply, getStep, stdGet, if_neg h0, if_neg h1]

/-! ## Putting a character while another is taken -/

/-- The elements after a new one was linked to `last`. -/
theorem hanging_link (I : Hanging m std xs q d) (hp : p ≠ 0) (hd0 : d = 0 ∨ elt d ∈ others)
    (hd : (elt p :: header std :: (xs.map elt ++ others)).Pairwise fun b b' => Disjoint b.addresses b'.addresses)
    (hfit : ∀ b ∈ elt p :: header std :: (xs.map elt ++ others), b.ptr.toNat + b.size ≤ 2 ^ 32)
    (hn : next m p = 0) :
    let m₂ := if last m std ≠ 0 then m.store32 (last m std + 4) p else m
    Changes (footprint (xs.map elt ++ others)) m m₂ ∧
      Chain (next m₂) 0 (if first m std = 0 then p else first m std) (xs ++ [p]) ∧
      (∀ x ∈ xs, val m₂ x = val m x) ∧ val m₂ p = val m p := by
  intro m₂
  have hsub : ∀ b ∈ xs.map elt ++ others, b ∈ elt p :: header std :: (xs.map elt ++ others) := fun b hb =>
    List.mem_cons_of_mem _ (List.mem_cons_of_mem _ hb)
  have hdp := (List.pairwise_cons.mp hd).1
  -- a store to an element leaves the others alone
  have keep : ∀ y z, elt y ∈ xs.map elt ++ others → elt z ∈ elt p :: header std :: (xs.map elt ++ others) →
      Disjoint (elt y).addresses (elt z).addresses →
      next (m.store32 (y + 4) p) z = next m z ∧ val (m.store32 (y + 4) p) z = val m z := fun y z hy hz hdis =>
    elt_keep (keeps_of_changes (link_elt m p (hfit _ (hsub _ hy))).1 subset_rfl (List.forall_mem_singleton.mpr hdis))
      (List.mem_singleton_self _) (hfit _ hz)
  obtain rfl | ⟨pre, y, rfl⟩ := List.eq_nil_or_concat' xs
  · have hlast : last m std = d := I.last
    have hfirst : first m std = 0 := I.chain
    rw [if_pos hfirst]
    by_cases h0 : d = 0
    · have e : m₂ = m := if_neg (not_not.mpr (hlast.trans h0))
      rw [e]
      exact ⟨.refl _ _, ⟨rfl, hp, hn⟩, fun x hx => absurd hx List.not_mem_nil, rfl⟩
    · have hmem : elt d ∈ [].map elt ++ others := hd0.resolve_left h0
      have e : m₂ = m.store32 (d + 4) p := by rw [← hlast]; exact if_pos (hlast ▸ h0)
      obtain ⟨hnp, hvp⟩ := keep d p hmem List.mem_cons_self (hdp _ (List.mem_cons_of_mem _ hmem)).symm
      rw [← e] at hnp hvp
      refine ⟨?_, ⟨rfl, hp, hnp.trans hn⟩, fun x hx => absurd hx List.not_mem_nil, hvp⟩
      rw [e]
      exact (link_elt m p (hfit _ (hsub _ hmem))).1.mono (subset_footprint hmem)
  · have hmem : ∀ x ∈ pre ++ [y], elt x ∈ (pre ++ [y]).map elt ++ others := fun x hx =>
      List.mem_append_left _ (List.mem_map_of_mem hx)
    have hy : y ∈ pre ++ [y] := List.mem_append_right _ (List.mem_singleton_self _)
    have hy0 : y ≠ 0 := I.chain.ne_null hy
    have hlast : last m std = y := by rw [I.last, List.getLastD_concat]
    have e : m₂ = m.store32 (y + 4) p := by rw [← hlast]; exact if_pos (hlast ▸ hy0)
    obtain ⟨hch, hny, hvy⟩ := link_elt (y := y) m p (hfit _ (hsub _ (hmem y hy)))
    have hfirst : first m std ≠ 0 := fun h0 => by
      have hc := I.chain
      rw [h0] at hc
      exact absurd (Chain.start_null.mp hc) (by simp)
    have hdy := (List.pairwise_append.mp (List.pairwise_cons.mp (List.pairwise_cons.mp hd).2).2).1
    rw [List.map_append, List.pairwise_append] at hdy
    have hpre : ∀ z ∈ pre, next m₂ z = next m z ∧ val m₂ z = val m z := fun z hz => by
      rw [e]
      exact keep y z (hmem y hy) (hsub _ (hmem z (List.mem_append_left _ hz)))
        (hdy.2.2 _ (List.mem_map_of_mem hz) _ (List.mem_singleton_self (elt y))).symm
    obtain ⟨hnp, hvp⟩ := keep y p (hmem y hy) List.mem_cons_self (hdp _ (List.mem_cons_of_mem _ (hmem y hy))).symm
    rw [← e] at hch hny hvy hnp hvp
    refine ⟨hch.mono (subset_footprint (hmem y hy)), ?_, fun x hx => ?_, hvp⟩
    · rw [if_neg hfirst]
      exact I.chain.snoc hp (fun z hz => (hpre z hz).1) hny (hnp.trans hn)
    · rcases List.mem_append.mp hx with hx | hx
      · exact (hpre x hx).2
      · rw [List.mem_singleton.mp hx, hvy]

theorem hanging_keep (I : Hanging m std xs q d) (hk : Keeps (header std :: (xs.map elt ++ others)) m m')
    (hfit : ∀ b ∈ header std :: (xs.map elt ++ others),
      b.ptr.toNat + b.size ≤ 2 ^ 32) : Hanging m' std xs q d := by
  obtain ⟨hf, hl, hs⟩ := header_keep hk List.mem_cons_self (hfit _ List.mem_cons_self)
  have helt : ∀ x ∈ xs, next m' x = next m x ∧ val m' x = val m x := fun x hx =>
    have hmem := List.mem_cons_of_mem _ (List.mem_append_left _ (List.mem_map_of_mem hx))
    elt_keep hk hmem (hfit _ hmem)
  exact ⟨hf ▸ I.chain.congr fun x hx => (helt x hx).1, (List.map_congr_left fun x hx => (helt x hx).2).trans I.vals,
    hl.trans I.last, hs.trans I.size⟩

/-- What `put` writes. -/
theorem hanging_put_linked (I : Hanging m std xs q d) (hp : p ≠ 0) (hd0 : d = 0 ∨ elt d ∈ others)
    (hd : (elt p :: header std :: (xs.map elt ++ others)).Pairwise fun b b' => Disjoint b.addresses b'.addresses)
    (hfits : ∀ b ∈ elt p :: header std :: (xs.map elt ++ others), b.ptr.toNat + b.size ≤ 2 ^ 32) (d' : Addr) :
    let m₁ := (m.store32 (p + 4) 0).store8 p c
    let m₂ := if last m₁ std ≠ 0 then m₁.store32 (last m₁ std + 4) p else m₁
    let m₃ := m₂.store32 (std + 4) p
    let m₄ := if first m₃ std = 0 then m₃.store32 std p else m₃
    let m₅ := m₄.store32 (std + 8) (size m₄ std + 1)
    Changes (footprint (elt p :: header std :: (xs.map elt ++ others))) m m₅ ∧
      Hanging m₅ std (xs ++ [p]) (q ++ [c]) d' := by
  intro m₁ m₂ m₃ m₄ m₅
  obtain ⟨hdp, hd'⟩ := List.pairwise_cons.mp hd
  have hdx := (List.pairwise_cons.mp hd').1
  have hhw : std.toNat + 12 ≤ 2 ^ 32 := hfits (header std) (List.mem_cons_of_mem _ List.mem_cons_self)
  -- the element
  have hpw : p.toNat + 8 ≤ 2 ^ 32 := hfits (elt p) List.mem_cons_self
  obtain ⟨h₁, hn₁, hv₁⟩ := new_elt m c hpw
  have I₁ : Hanging m₁ std xs q d :=
    hanging_keep I (keeps_of_changes h₁ subset_rfl hdp) fun b hb => hfits b (List.mem_cons_of_mem _ hb)
  -- the link
  obtain ⟨h₂, hchain, hval, hvp⟩ := hanging_link I₁ hp hd0 hd hfits hn₁
  have hkh : Keeps [header std] m₁ m₂ := by
    intro a ha
    obtain ⟨b, hb, ha⟩ := ha
    obtain rfl := List.mem_singleton.mp hb
    refine h₂ a fun hin => ?_
    obtain ⟨b', hb', ha'⟩ := hin
    exact Set.disjoint_left.mp (hdx b' hb') ha ha'
  obtain ⟨hf₂, -, hs₂⟩ := header_keep hkh (List.mem_singleton_self _) hhw
  -- the stream
  obtain ⟨h₃, hf₃, hl₃, hs₃⟩ := put_header m₂ p hhw
  have helt : ∀ x ∈ xs ++ [p], elt x ∈ elt p :: header std :: (xs.map elt ++ others) ∧
      Disjoint (header std).addresses (elt x).addresses := by
    intro x hx
    rcases List.mem_append.mp hx with hx | hx
    · have hmem := List.mem_append_left others (List.mem_map_of_mem (f := elt) hx)
      exact ⟨List.mem_cons_of_mem _ (List.mem_cons_of_mem _ hmem), hdx _ hmem⟩
    · rw [List.mem_singleton.mp hx]
      exact ⟨List.mem_cons_self, (hdp _ List.mem_cons_self).symm⟩
  have helt₃ : ∀ x ∈ xs ++ [p], next m₅ x = next m₂ x ∧ val m₅ x = val m₂ x := fun x hx =>
    elt_keep (keeps_of_changes h₃ subset_rfl (List.forall_mem_singleton.mpr (helt x hx).2))
      (List.mem_singleton_self _) (hfits _ (helt x hx).1)
  refine ⟨(h₁.mono ?_).trans ((h₂.mono ?_).trans (h₃.mono ?_)), ?_, ?_, ?_, ?_⟩
  · exact subset_footprint List.mem_cons_self
  · exact footprint_mono fun b hb => List.mem_cons_of_mem _ (List.mem_cons_of_mem _ hb)
  · exact subset_footprint (List.mem_cons_of_mem _ List.mem_cons_self)
  · rw [hf₃, hf₂]
    exact hchain.congr fun x hx => (helt₃ x hx).1
  · rw [List.map_congr_left fun x hx => (helt₃ x hx).2, List.map_append, List.map_congr_left hval, I₁.vals,
      List.map_singleton, hvp, hv₁]
  · rw [hl₃, List.getLastD_concat]
  · rw [hs₃, hs₂, I₁.size, List.length_append, List.length_singleton, BitVec.ofNat_add (q.length + 1)]
    rfl

/-- Nothing is lost while the element is not counted off, and `last` is not about to be cleared. -/
theorem hanging_put (L : A.Lawful Owns) (I : Hanging s.mem std xs q d)
    (hown : Owns s.alloc s.mem (header std :: (xs.map elt ++ others))) (hd0 : d = 0 ∨ elt d ∈ others)
    (h : stdPut A std c s = some s') (d' : Addr) :
    ∃ p, Hanging s'.mem std (xs ++ [p]) (q ++ [c]) d' ∧
      Owns s'.alloc s'.mem (header std :: ((xs ++ [p]).map elt ++ others)) := by
  obtain ⟨⟨p, alloc, m⟩, hmalloc, h⟩ := Option.bind_eq_some_iff.mp h
  simp only at h
  split at h
  · cases h
  rename_i hp
  obtain ⟨hown₁, hkeep⟩ := L.malloc hown (by decide) hmalloc
  rw [if_neg hp] at hown₁
  replace hown₁ : Owns alloc m (elt p :: header std :: (xs.map elt ++ others)) := hown₁
  obtain ⟨hch, J⟩ := hanging_put_linked (c := c) (hanging_keep I hkeep (L.fits hown)) hp hd0 (L.disjoint hown₁)
    (L.fits hown₁) d'
  obtain rfl := Option.some.inj h
  refine ⟨p, J, L.perm (L.write hown₁ hch) ?_⟩
  apply List.perm_iff_count.mpr
  intro b
  simp only [List.map_append, List.map_cons, List.map_nil, List.count_cons, List.count_append, List.count_nil]
  omega

/-! ## The invariant -/

/-- Beside the element that is taken. -/
structure Taking (Owns : σ → Mem → List Block → Prop) (s : State σ) (std : Addr) (q : List Byte) (old d : Addr)
    (others : List Block) (xs : List Addr) : Prop extends Hanging s.mem std xs q d where
  owns : Owns s.alloc s.mem (header std :: (xs.map elt ++ elt old :: others))

/-- What is put and not returned yet. -/
def Holds (Owns : σ → Mem → List Block → Prop) (std : Addr) (others : List Block) (M : Machine σ)
    (q : List Byte) : Prop :=
  match M.phase with
  | .idle => ∃ xs, Inv Owns M.state std xs q others
  | .unlink c old => ∃ xs q', q = c :: q' ∧ Inv Owns M.state std (old :: xs) q others
  | .test c old => ∃ xs q', q = c :: q' ∧ Taking Owns M.state std q' old old others xs
  | .clear c old => q = [c] ∧ Taking Owns M.state std [] old old others []
  | .count c old => ∃ xs q', q = c :: q' ∧ Taking Owns M.state std q' old 0 others xs
  | .release c old => ∃ xs q', q = c :: q' ∧ Inv Owns M.state std xs q' (elt old :: others)

theorem Taking.put (L : A.Lawful Owns) (T : Taking Owns s std q old d others xs) (hd : d = 0 ∨ d = old)
    (h : stdPut A std c s = some s') (d' : Addr) : ∃ ys, Taking Owns s' std (q ++ [c]) old d' others ys := by
  have hd0 : d = 0 ∨ elt d ∈ elt old :: others := hd.imp id fun e => by rw [e]; exact List.mem_cons_self
  obtain ⟨p, J, hown⟩ := hanging_put L T.toHanging T.owns hd0 h d'
  exact ⟨xs ++ [p], J, hown⟩

theorem holds_put (L : A.Lawful Owns) (H : Holds Owns std others M q) (hph : ¬ M.phase.Clears)
    (h : stdPut A std c M.state = some s') : Holds Owns std others { M with state := s' } (q ++ [c]) := by
  obtain ⟨s, phase⟩ := M
  cases phase with
  | idle =>
    obtain ⟨xs, I⟩ := H
    obtain ⟨p, J⟩ := put_ok L I h
    exact ⟨xs ++ [p], J⟩
  | unlink c₀ old =>
    obtain ⟨xs, q', rfl, I⟩ := H
    obtain ⟨p, J⟩ := put_ok L I h
    exact ⟨xs ++ [p], q' ++ [c], rfl, J⟩
  | test c₀ old =>
    obtain ⟨xs, q', rfl, T⟩ := H
    obtain ⟨ys, T'⟩ := T.put L (.inr rfl) h old
    exact ⟨ys, q' ++ [c], rfl, T'⟩
  | clear c₀ old => exact absurd trivial hph
  | count c₀ old =>
    obtain ⟨xs, q', rfl, T⟩ := H
    obtain ⟨ys, T'⟩ := T.put L (.inl rfl) h 0
    exact ⟨ys, q' ++ [c], rfl, T'⟩
  | release c₀ old =>
    obtain ⟨xs, q', rfl, I⟩ := H
    obtain ⟨p, J⟩ := put_ok L I h
    exact ⟨xs ++ [p], q' ++ [c], rfl, J⟩

/-! ### The statements of `std_get` -/

theorem begin_ok (I : Inv Owns s std xs q others) (h0 : first s.mem std ≠ 0) :
    ∃ ys q', q = val s.mem (first s.mem std) :: q' ∧ Inv Owns s std (first s.mem std :: ys) q others := by
  obtain ⟨ys, rfl⟩ := I.chain.exists_cons h0
  exact ⟨ys, _, I.vals.symm, I⟩

/-- A store to the stream. -/
theorem Taking.store (L : A.Lawful Owns) (T : Taking Owns s std q old d others xs)
    (hch : Changes (header std).addresses s.mem m) :
    (∀ x ∈ xs, next m x = next s.mem x ∧ val m x = val s.mem x) ∧
      Owns s.alloc m (header std :: (xs.map elt ++ elt old :: others)) := by
  refine ⟨fun x hx => ?_, L.write T.owns (hch.mono (subset_footprint List.mem_cons_self))⟩
  have hmem := List.mem_append_left (elt old :: others) (List.mem_map_of_mem (f := elt) hx)
  have hdx := (List.pairwise_cons.mp (L.disjoint T.owns)).1
  exact elt_keep (keeps_of_changes hch subset_rfl (List.forall_mem_singleton.mpr (hdx _ hmem)))
    (List.mem_singleton_self _) (L.fits T.owns _ (List.mem_cons_of_mem _ hmem))

theorem unlink_ok (L : A.Lawful Owns) (I : Inv Owns s std (old :: xs) (c :: q) others) :
    Taking Owns { s with mem := s.mem.store32 std (next s.mem old) } std q old old others xs := by
  have hhw := I.header_fits L
  have hch : Changes (header std).addresses s.mem (s.mem.store32 std (next s.mem old)) := store_first_changes hhw
  have hdx := (List.pairwise_cons.mp (L.disjoint I.owns)).1
  have helt : ∀ x ∈ xs, next (s.mem.store32 std (next s.mem old)) x = next s.mem x ∧
      val (s.mem.store32 std (next s.mem old)) x = val s.mem x := fun x hx => by
    have hmem : elt x ∈ (old :: xs).map elt ++ others :=
      List.mem_append_left _ (List.mem_map_of_mem (List.mem_cons_of_mem _ hx))
    exact elt_keep (keeps_of_changes hch subset_rfl (List.forall_mem_singleton.mpr (hdx _ hmem)))
      (List.mem_singleton_self _) (L.fits I.owns _ (List.mem_cons_of_mem _ hmem))
  refine { chain := ?_, vals := ?_, last := ?_, size := ?_, owns := ?_ }
  · show Chain _ 0 (first (s.mem.store32 std _) std) xs
    rw [first_store_first]
    exact I.chain.2.2.congr fun x hx => (helt x hx).1
  · exact (List.map_congr_left fun x hx => (helt x hx).2).trans (List.cons_eq_cons.mp I.vals).2
  · show last (s.mem.store32 std _) std = _
    rw [last_store_first, I.last, List.getLastD_cons]
  · show size (s.mem.store32 std _) std = _
    rw [size_store_first, ← List.length_cons (a := c), ← I.size, BitVec.ofNat_toNat, BitVec.setWidth_eq]
  · refine L.perm (L.write I.owns (hch.mono (subset_footprint List.mem_cons_self))) (List.Perm.cons _ ?_)
    exact List.perm_middle.symm

theorem Taking.length_lt (T : Taking Owns s std q old d others xs) : q.length < 2 ^ 32 := by
  rw [← T.vals, List.length_map]
  exact T.chain.length_lt (f := BitVec.toFin) fun _ _ => BitVec.eq_of_toFin_eq

/-- There is one element, the one that is taken. -/
theorem Taking.size_eq_one_iff (T : Taking Owns s std q old d others xs) : size s.mem std = 1 ↔ q = [] := by
  have hlt := T.length_lt
  rw [T.size, ← BitVec.toNat_inj, BitVec.toNat_ofNat, show (1 : Word).toNat = 1 from rfl, ← List.length_eq_zero_iff]
  omega

theorem Taking.nil_iff (T : Taking Owns s std q old d others xs) : q = [] ↔ xs = [] := by
  rw [← T.vals, List.map_eq_nil_iff]

theorem clear_ok (L : A.Lawful Owns) (T : Taking Owns s std [] old d others []) :
    Taking Owns { s with mem := s.mem.store32 (std + 4) 0 } std [] old 0 others [] := by
  have hhw : std.toNat + 12 ≤ 2 ^ 32 := L.fits T.owns (header std) List.mem_cons_self
  obtain ⟨-, hown⟩ := T.store L (m := s.mem.store32 (std + 4) 0) (store_changes (n := 12) 4 (by decide) hhw)
  refine { chain := ?_, vals := rfl, last := last_store_last, size := ?_, owns := hown }
  · exact first_store_last.trans T.chain
  · exact size_store_last.trans T.size

theorem count_ok (L : A.Lawful Owns) (T : Taking Owns s std q old 0 others xs) :
    Inv Owns { s with mem := s.mem.store32 (std + 8) (size s.mem std - 1) } std xs q (elt old :: others) := by
  have hhw : std.toNat + 12 ≤ 2 ^ 32 := L.fits T.owns (header std) List.mem_cons_self
  obtain ⟨helt, hown⟩ := T.store L (m := s.mem.store32 (std + 8) (size s.mem std - 1))
    (store_changes (n := 12) 8 (by decide) hhw)
  refine { chain := ?_, vals := ?_, last := ?_, size := ?_, owns := hown }
  · show Chain _ 0 (first (s.mem.store32 (std + 8) _) std) xs
    rw [first_store_size]
    exact T.chain.congr fun x hx => (helt x hx).1
  · exact (List.map_congr_left fun x hx => (helt x hx).2).trans T.vals
  · exact last_store_size.trans T.last
  · show (size (s.mem.store32 (std + 8) _) std).toNat = _
    have hlt := T.length_lt
    rw [size_store_size, T.size, BitVec.toNat_sub, BitVec.toNat_ofNat, show (1 : Word).toNat = 1 from rfl]
    omega

theorem release_ok (L : A.Lawful Owns) (I : Inv Owns s std xs q (elt old :: others)) :
    Inv Owns ⟨(A.free s.alloc s.mem old).1, (A.free s.alloc s.mem old).2⟩ std xs q others := by
  have hown : Owns s.alloc s.mem (elt old :: header std :: (xs.map elt ++ others)) := by
    refine L.perm I.owns ?_
    exact (List.Perm.cons _ List.perm_middle).trans (List.Perm.swap _ _ _)
  obtain ⟨hown₂, hk₂⟩ := L.free hown
  have hkeep : Linked (A.free s.alloc s.mem old).2 std xs q :=
    I.toLinked.keep hk₂ fun b hb => L.fits hown b (List.mem_cons_of_mem _ hb)
  exact { hkeep with owns := hown₂ }

theorem holds_get (L : A.Lawful Owns) (H : Holds Owns std others M q) :
    ∃ q', q = M.phase.returns ++ q' ∧ Holds Owns std others (getStep A std M) q' := by
  obtain ⟨s, phase⟩ := M
  cases phase with
  | idle =>
    obtain ⟨xs, I⟩ := H
    refine ⟨q, rfl, ?_⟩
    by_cases h0 : first s.mem std = 0
    · rw [getStep, if_pos h0]
      exact ⟨xs, I⟩
    · rw [getStep, if_neg h0]
      exact begin_ok I h0
  | unlink c₀ old =>
    obtain ⟨xs, q', rfl, I⟩ := H
    exact ⟨_, rfl, xs, q', rfl, unlink_ok L I⟩
  | test c₀ old =>
    obtain ⟨xs, q', rfl, T⟩ := H
    refine ⟨_, rfl, ?_⟩
    by_cases h1 : size s.mem std = 1
    · obtain rfl := T.size_eq_one_iff.mp h1
      obtain rfl := T.nil_iff.mp rfl
      rw [show getStep A std ⟨s, .test c₀ old⟩ = ⟨s, .clear c₀ old⟩ by simp only [getStep, if_pos h1]]
      exact ⟨rfl, T⟩
    · have hne : xs ≠ [] := fun e => h1 (T.size_eq_one_iff.mpr (T.nil_iff.mpr e))
      obtain ⟨x, xs, rfl⟩ := List.exists_cons_of_ne_nil hne
      rw [show getStep A std ⟨s, .test c₀ old⟩ = ⟨s, .count c₀ old⟩ by simp only [getStep, if_neg h1]]
      have hlast := T.last
      rw [List.getLastD_cons, ← List.getLastD_cons (a := (0 : Addr))] at hlast
      exact ⟨x :: xs, q', rfl, { T with last := hlast }⟩
  | clear c₀ old =>
    obtain ⟨rfl, T⟩ := H
    exact ⟨_, rfl, [], [], rfl, clear_ok L T⟩
  | count c₀ old =>
    obtain ⟨xs, q', rfl, T⟩ := H
    exact ⟨_, rfl, xs, q', rfl, count_ok L T⟩
  | release c₀ old =>
    obtain ⟨xs, q', rfl, I⟩ := H
    exact ⟨q', rfl, xs, release_ok L I⟩

theorem race_holds (L : A.Lawful Owns) (I : Inv Owns s₀ std [] [] others) (hr : Race A std s₀ M puts gots) :
    ∃ q, puts = gots ++ q ∧ Holds Owns std others M q := by
  induction hr with
  | start => exact ⟨[], rfl, [], I⟩
  | @put M puts gots c s _ hph hput ih =>
    obtain ⟨q, rfl, H⟩ := ih
    exact ⟨q ++ [c], List.append_assoc .., holds_put L H hph hput⟩
  | get _ ih =>
    obtain ⟨q, rfl, H⟩ := ih
    obtain ⟨q', rfl, H'⟩ := holds_get L H
    exact ⟨q', (List.append_assoc ..).symm, H'⟩

/-! ## The place between the test and `last = NULL` -/

/-- One element, and a `last` that does not lead to it. -/
structure Severed (Owns : σ → Mem → List Block → Prop) (s : State σ) (std p : Addr) (c : Byte)
    (others : List Block) :
    Prop where
  first : first s.mem std = p
  ne : p ≠ 0
  next : next s.mem p = 0
  val : val s.mem p = c
  last : last s.mem std = 0
  owns : Owns s.alloc s.mem (header std :: elt p :: others)

theorem severed_keep (L : A.Lawful Owns) (S : Severed Owns s std p c others) {others' : List Block} {alloc : σ}
    (hk : Keeps [header std, elt p] s.mem m) (hown : Owns alloc m (header std :: elt p :: others')) :
    Severed Owns ⟨alloc, m⟩ std p c others' := by
  have hfit := L.fits hown
  obtain ⟨hf, hl, -⟩ := header_keep hk List.mem_cons_self (hfit _ List.mem_cons_self)
  have hmem : elt p ∈ [header std, elt p] := List.mem_cons_of_mem _ List.mem_cons_self
  obtain ⟨hn, hv⟩ := elt_keep hk hmem (hfit _ (List.mem_cons_of_mem _ List.mem_cons_self))
  exact ⟨hf.trans S.first, S.ne, hn.trans S.next, hv.trans S.val, hl.trans S.last, hown⟩

/-- A store to the stream leaves the element alone. -/
theorem severed_elt (L : A.Lawful Owns) (hown : Owns s.alloc s.mem (header std :: elt p :: others))
    (hch : Changes (header std).addresses s.mem m) :
    next m p = next s.mem p ∧ val m p = val s.mem p ∧ Owns s.alloc m (header std :: elt p :: others) := by
  have hd := (List.pairwise_cons.mp (L.disjoint hown)).1 _ List.mem_cons_self
  obtain ⟨hn, hv⟩ := elt_keep (keeps_of_changes hch subset_rfl (List.forall_mem_singleton.mpr hd))
    (List.mem_singleton_self _) (L.fits hown _ (List.mem_cons_of_mem _ List.mem_cons_self))
  exact ⟨hn, hv, L.write hown (hch.mono (subset_footprint List.mem_cons_self))⟩

theorem severed_clear (L : A.Lawful Owns) (T : Taking Owns s std [c] old d others [p]) :
    Severed Owns { s with mem := s.mem.store32 (std + 4) 0 } std p c (elt old :: others) := by
  have hhw : std.toNat + 12 ≤ 2 ^ 32 := L.fits T.owns (header std) List.mem_cons_self
  obtain ⟨hn, hv, hown⟩ := severed_elt L T.owns
    (m := s.mem.store32 (std + 4) 0) (store_changes (n := 12) 4 (by decide) hhw)
  obtain ⟨hf, hne, hnext⟩ := T.chain
  exact ⟨first_store_last.trans hf, hne, hn.trans hnext, hv.trans (List.cons_eq_cons.mp T.vals).1,
    last_store_last, hown⟩

theorem severed_count (L : A.Lawful Owns) (S : Severed Owns s std p c others) (v : Word) :
    Severed Owns { s with mem := s.mem.store32 (std + 8) v } std p c others := by
  have hhw : std.toNat + 12 ≤ 2 ^ 32 := L.fits S.owns (header std) List.mem_cons_self
  obtain ⟨hn, hv, hown⟩ := severed_elt L S.owns
    (m := s.mem.store32 (std + 8) v) (store_changes (n := 12) 8 (by decide) hhw)
  exact ⟨first_store_size.trans S.first, S.ne, hn.trans S.next, hv.trans S.val, last_store_size.trans S.last, hown⟩

theorem severed_release (L : A.Lawful Owns) (S : Severed Owns s std p c (elt old :: others)) :
    Severed Owns ⟨(A.free s.alloc s.mem old).1, (A.free s.alloc s.mem old).2⟩ std p c others := by
  have hown : Owns s.alloc s.mem (elt old :: header std :: elt p :: others) :=
    L.perm S.owns ((List.Perm.cons _ (List.Perm.swap _ _ _)).trans (List.Perm.swap _ _ _))
  obtain ⟨hown₂, hk⟩ := L.free hown
  exact severed_keep L S (hk.mono (by simp)) hown₂

/-- The next character does not get into the list. -/
theorem severed_put (L : A.Lawful Owns) (S : Severed Owns s std p c others) (h : stdPut A std c' s = some s') :
    Chain (next s'.mem) 0 (first s'.mem std) [p] ∧ val s'.mem p = c := by
  obtain ⟨⟨x, alloc, m⟩, hmalloc, h⟩ := Option.bind_eq_some_iff.mp h
  simp only at h
  split at h
  · cases h
  rename_i hx
  obtain ⟨hown, hkeep⟩ := L.malloc S.owns (by decide) hmalloc
  rw [if_neg hx] at hown
  replace hown : Owns alloc m (elt x :: header std :: elt p :: others) := hown
  have hxw : x.toNat + 8 ≤ 2 ^ 32 := L.fits hown (elt x) List.mem_cons_self
  have hhw : std.toNat + 12 ≤ 2 ^ 32 := L.fits hown (header std) (List.mem_cons_of_mem _ List.mem_cons_self)
  have S₁ : Severed Owns ⟨alloc, m⟩ std p c (elt x :: others) :=
    severed_keep L S (hkeep.mono (by simp))
      (L.perm hown ((List.Perm.swap _ _ _).trans (List.Perm.cons _ (List.Perm.swap _ _ _))))
  -- the new element
  obtain ⟨hch, -, -⟩ := new_elt m c' hxw
  obtain ⟨hdx, -⟩ := List.pairwise_cons.mp (L.disjoint hown)
  have S₂ : Severed Owns ⟨alloc, (m.store32 (x + 4) 0).store8 x c'⟩ std p c (elt x :: others) :=
    severed_keep L S₁ (keeps_of_changes hch subset_rfl fun b hb => hdx b (by simp at hb ⊢; tauto))
      (L.write S₁.owns (hch.mono (subset_footprint (by simp))))
  obtain rfl := Option.some.inj h
  have hlast : ¬ last ((m.store32 (x + 4) 0).store8 x c') std ≠ 0 := not_not.mpr S₂.last
  simp only [if_neg hlast]
  obtain ⟨hch₃, hf₃, -, -⟩ := put_header ((m.store32 (x + 4) 0).store8 x c') x hhw
  obtain ⟨hn, hv, -⟩ := severed_elt L S₂.owns hch₃
  have hfirst : first ((m.store32 (x + 4) 0).store8 x c') std = p := S₂.first
  rw [hfirst, if_neg S.ne] at hf₃
  exact ⟨⟨hf₃, S.ne, hn.trans S₂.next⟩, hv.trans S₂.val⟩

/-! ## All runs -/

/-- Without a `put` there, the stream is a queue, however the calls interleave; with one, the character after it is
lost. -/
theorem race_run (L : A.Lawful Owns) (h : Owns s.alloc s.mem live) (hs : initStd A s = some (std, s₀))
    (hr : Race A std s₀ M puts gots) :
    ∃ q, puts = gots ++ q ∧ (M.phase = .idle → ∃ xs, Linked M.state.mem std xs q) ∧
      ∀ s₁ s₃, M.phase.Clears → stdPut A std c M.state = some s₁ →
        stdPut A std c' ((getStep A std)^[3] { M with state := s₁ }).state = some s₃ →
        ∃ p, Chain (next s₃.mem) 0 (first s₃.mem std) [p] ∧ val s₃.mem p = c := by
  obtain ⟨q, hq, H⟩ := race_holds L (init_ok L h hs) hr
  refine ⟨q, hq, fun hi => ?_, fun s₁ s₃ hc h₁ h₃ => ?_⟩
  · obtain ⟨s, phase⟩ := M
    obtain rfl : phase = .idle := hi
    obtain ⟨xs, I⟩ := H
    exact ⟨xs, I.toLinked⟩
  · obtain ⟨s, phase⟩ := M
    cases phase with
    | clear c₀ old =>
      obtain ⟨-, T⟩ := H
      obtain ⟨ys, T₁⟩ := T.put L (.inr rfl) h₁ 0
      obtain ⟨p, ys, rfl, -, hnil⟩ := List.map_eq_cons_iff.mp T₁.vals
      obtain rfl := List.map_eq_nil_iff.mp hnil
      exact ⟨p, severed_put L (severed_release L (severed_count L (severed_clear L T₁) _)) h₃⟩
    | _ => exact absurd hc id

theorem bump_put (std : Addr) (c : Byte) {s : State Nat} (h : 0 < s.alloc) (h' : s.alloc + 8 < 2 ^ 32) :
    ∃ s', stdPut bump std c s = some s' ∧ s'.alloc = s.alloc + 8 := by
  have hsize : sizeofStdElt.toNat = 8 := rfl
  have hm : bump.malloc s.alloc s.mem sizeofStdElt = some (BitVec.ofNat 32 s.alloc, s.alloc + 8, s.mem) :=
    if_neg (not_or.mpr ⟨by decide, by rw [hsize]; omega⟩)
  have hne : BitVec.ofNat 32 s.alloc ≠ 0 := fun e => by
    have := congrArg BitVec.toNat e
    rw [BitVec.toNat_ofNat, show (0 : Addr).toNat = 0 from rfl] at this
    omega
  simp only [stdPut, hm, Option.bind_eq_bind, Option.bind_some, if_neg hne]
  exact ⟨_, rfl, rfl⟩

/-- The stream has one character, which is taken; the next but one is lost. -/
theorem race_run_bump : ∃ M s₁ s₃ p, Race bump 16 ⟨28, Mem.memset (fun _ => 0) 16 0 12⟩ M [0x61] [] ∧
    M.phase.Clears ∧ stdPut bump 16 0x62 M.state = some s₁ ∧
    stdPut bump 16 0x63 ((getStep bump 16)^[3] { M with state := s₁ }).state = some s₃ ∧
    Chain (next s₃.mem) 0 (first s₃.mem 16) [p] ∧ val s₃.mem p = 0x62 := by
  have hown : BumpOwns 16 (fun _ => 0) [] :=
    ⟨by decide, by decide, by simp, by simp, by simp, List.Pairwise.nil⟩
  have hinit : initStd bump ⟨16, fun _ => 0⟩ = some (16, ⟨28, Mem.memset (fun _ => 0) 16 0 12⟩) := rfl
  obtain ⟨s, hput, halloc⟩ := bump_put 16 0x61
    (s := ⟨28, Mem.memset (fun _ => 0) 16 0 12⟩) (by decide) (by decide)
  obtain ⟨y, I⟩ := put_ok bump_lawful (init_ok bump_lawful hown hinit) hput
  have hfirst : first s.mem 16 = y := I.chain.1
  have hy : y ≠ 0 := I.chain.2.1
  have T := unlink_ok bump_lawful I
  -- up to the test
  have h1 := T.size_eq_one_iff.mpr rfl
  have e₁ : getStep bump 16 ⟨s, .idle⟩ = ⟨s, .unlink (val s.mem y) y⟩ :=
    by simp only [getStep, hfirst, if_neg hy]
  have e₃ : getStep bump 16 ⟨{ s with mem := s.mem.store32 16 (next s.mem y) }, .test (val s.mem y) y⟩ =
      ⟨{ s with mem := s.mem.store32 16 (next s.mem y) }, .clear (val s.mem y) y⟩ :=
        by simp only [getStep, if_pos h1]
  have hr₀ : Race bump 16 ⟨28, Mem.memset (fun _ => 0) 16 0 12⟩ ⟨s, .idle⟩ [0x61] [] :=
    .put .start (fun h => h) hput
  have hr₁ := hr₀.get
  rw [e₁] at hr₁
  have hr := hr₁.get.get
  rw [show getStep bump 16 ⟨s, .unlink (val s.mem y) y⟩ =
    ⟨{ s with mem := s.mem.store32 16 (next s.mem y) }, .test (val s.mem y) y⟩ from rfl, e₃] at hr
  obtain ⟨s₁, h₁, ha₁⟩ := bump_put 16 0x62 (s := { s with mem := s.mem.store32 16 (next s.mem y) })
    (by simp [halloc]) (by simp [halloc])
  obtain ⟨s₃, h₃, -⟩ := bump_put 16 0x63 (s := ((getStep bump 16)^[3] ⟨s₁, .clear (val s.mem y) y⟩).state)
    (by simp [getStep, bump, ha₁]) (by simp [getStep, bump, ha₁, halloc])
  obtain ⟨-, -, -, hlost⟩ := race_run bump_lawful hown hinit hr
  obtain ⟨p, hc, hv⟩ := hlost s₁ s₃ trivial h₁ h₃
  exact ⟨_, s₁, s₃, p, hr, trivial, h₁, h₃, hc, hv⟩

end

end AlexOS.Vfs
