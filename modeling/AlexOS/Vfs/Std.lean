import AlexOS.Process.Processes

/-!
# The standard streams

`vfs/std.c`: the characters of a stream are in a list of elements from
`malloc`, between `first` and `last`. An element is eight bytes, `val` and then
`next`, a stream twelve bytes, `first`, `last` and `size`. There is no result
if `malloc` returns the null pointer that is then written to.

While a stream holds a queue of characters (`Inv`), each call does to it what
it does to a queue (`put_ok`, `get_ok`), so that after any calls it holds the
characters that were put and not yet got, in order (`stream_fifo`).
-/

namespace AlexOS.Vfs

open Mem Block

/-- `sizeof(std_elt_t)` and `sizeof(std_t)`. -/
def sizeofStdElt : Word := 8
def sizeofStd : Word := 12

/-- The fields of a stream, and of an element. -/
def first (m : Mem) (std : Addr) : Addr := m.load32 std
def last (m : Mem) (std : Addr) : Addr := m.load32 (std + 4)
def size (m : Mem) (std : Addr) : Word := m.load32 (std + 8)
def val (m : Mem) (elt : Addr) : Byte := m elt
def next (m : Mem) (elt : Addr) : Addr := m.load32 (elt + 4)

/-- The memory, and what the allocator keeps beside it. -/
structure State (σ : Type) where
  alloc : σ
  mem : Mem

section

variable {σ : Type} (A : Allocator σ)

def initStd (s : State σ) : Option (Addr × State σ) := do
  let (std, alloc, m) ← Processes.calloc A s.alloc s.mem sizeofStd 1
  some (std, ⟨alloc, m⟩)

def stdPut (std : Addr) (c : Byte) (s : State σ) : Option (State σ) := do
  let (elt, alloc, m) ← A.malloc s.alloc s.mem sizeofStdElt
  if elt = 0 then none else
  let m := (m.store32 (elt + 4) 0).store8 elt c
  let m := if last m std ≠ 0 then m.store32 (last m std + 4) elt else m
  let m := m.store32 (std + 4) elt
  let m := if first m std = 0 then m.store32 std elt else m
  some ⟨alloc, m.store32 (std + 8) (size m std + 1)⟩

def stdGet (std : Addr) (s : State σ) : Byte × State σ :=
  if first s.mem std = 0 then (0, s) else
  let c := val s.mem (first s.mem std)
  let old := first s.mem std
  let m := s.mem.store32 std (next s.mem old)
  let m := if size m std = 1 then m.store32 (std + 4) 0 else m
  let m := m.store32 (std + 8) (size m std - 1)
  let r := A.free s.alloc m old
  (c, ⟨r.1, r.2⟩)

/-- The states that calls lead to, and the characters that were put and not got. -/
inductive Run (std : Addr) (s₀ : State σ) : State σ → List Byte → Prop
  | init : Run std s₀ s₀ []
  | put {s s' : State σ} {q : List Byte} {c : Byte} : Run std s₀ s q → stdPut A std c s = some s' →
      Run std s₀ s' (q ++ [c])
  | get {s : State σ} {q : List Byte} : Run std s₀ s q → Run std s₀ (stdGet A std s).2 q.tail

end

/-- The blocks of an element and of a stream. -/
def elt (x : Addr) : Block := ⟨x, 8⟩
def header (std : Addr) : Block := ⟨std, 12⟩

/-- What the fields of a stream and of its elements say of a queue. -/
structure Linked (m : Mem) (std : Addr) (xs : List Addr) (q : List Byte) : Prop where
  chain : Chain (next m) 0 (first m std) xs
  vals : xs.map (val m) = q
  last : last m std = xs.getLastD 0
  size : (size m std).toNat = q.length

/-- A stream that holds the queue `q`, in the elements `xs`. The blocks `others` are handed out too. -/
structure Inv {σ : Type} (Owns : σ → Mem → List Block → Prop) (s : State σ) (std : Addr) (xs : List Addr)
    (q : List Byte) (others : List Block) : Prop extends Linked s.mem std xs q where
  owns : Owns s.alloc s.mem (header std :: (xs.map elt ++ others))

section

variable {σ : Type} {A : Allocator σ} {Owns : σ → Mem → List Block → Prop} {s s' s₀ : State σ}
  {std x y : Addr} {xs : List Addr} {q : List Byte} {c : Byte} {others live : List Block} {m m' : Mem}
  {v : Word}

/-! ## Fields -/

theorem elt_keep (h : Keeps live m m') (hx : elt x ∈ live) (hw : x.toNat + 8 ≤ 2 ^ 32) :
    next m' x = next m x ∧ val m' x = val m x := by
  refine ⟨h.load32 (b := elt x) (k := 4) hx le_rfl hw, h x ⟨elt x, hx, ?_⟩⟩
  show x.toNat ∈ range x 8
  rw [mem_range]
  omega

theorem header_keep (h : Keeps live m m') (hx : header std ∈ live) (hw : std.toNat + 12 ≤ 2 ^ 32) :
    first m' std = first m std ∧ last m' std = last m std ∧ size m' std = size m std := by
  have word : ∀ j ≤ 8, m'.load32 (std + BitVec.ofNat 32 j) = m.load32 (std + BitVec.ofNat 32 j) := fun j hj =>
    h.load32 (b := header std) hx (Nat.add_le_add_right hj 4) hw
  have h0 := word 0 (by decide)
  rw [BitVec.add_zero] at h0
  exact ⟨h0, word 4 (by decide), word 8 (by decide)⟩

theorem store_changes {n : Nat} (j : Word) (hj : j.toNat + 4 ≤ n) (hw : x.toNat + n ≤ 2 ^ 32) :
    Changes (range x n) m (m.store32 (x + j) v) := by
  have e : (x + j).toNat = x.toNat + j.toNat := by
    rw [BitVec.toNat_add]
    omega
  refine (store32_changes (by omega)).mono fun i hi => ?_
  rw [mem_range, e] at hi
  rw [mem_range]
  omega

theorem store_first_changes (hw : x.toNat + 12 ≤ 2 ^ 32) : Changes (header x).addresses m (m.store32 x v) := by
  have h := store_changes (m := m) (x := x) (v := v) (n := 12) 0 (by decide) hw
  rwa [show x + 0 = x from BitVec.add_zero x] at h

/-- A store to a field, and the field at the start of the structure. -/
theorem load_store_zero (j : Word) (h : 4 ≤ (0 - j).toNat) (h' : 4 ≤ (j - 0).toNat) :
    (m.store32 (x + j) v).load32 x = m.load32 x := by
  have e := load32_store32_offset (m := m) (a := x) (v := v) j 0 h h'
  rwa [show x + 0 = x from BitVec.add_zero x] at e

theorem zero_store_load (j : Word) (h : 4 ≤ (j - 0).toNat) (h' : 4 ≤ (0 - j).toNat) :
    (m.store32 x v).load32 (x + j) = m.load32 (x + j) := by
  have e := load32_store32_offset (m := m) (a := x) (v := v) 0 j h h'
  rwa [show x + 0 = x from BitVec.add_zero x] at e

theorem first_store_first : first (m.store32 std v) std = v := load32_store32_self _ _ _
theorem last_store_last : last (m.store32 (std + 4) v) std = v := load32_store32_self _ _ _
theorem size_store_size : size (m.store32 (std + 8) v) std = v := load32_store32_self _ _ _
theorem last_store_first : last (m.store32 std v) std = last m std :=
  zero_store_load 4 (by decide) (by decide)
theorem size_store_first : size (m.store32 std v) std = size m std :=
  zero_store_load 8 (by decide) (by decide)
theorem first_store_last : first (m.store32 (std + 4) v) std = first m std :=
  load_store_zero 4 (by decide) (by decide)
theorem size_store_last : size (m.store32 (std + 4) v) std = size m std :=
  load32_store32_offset 4 8 (by decide) (by decide)
theorem first_store_size : first (m.store32 (std + 8) v) std = first m std :=
  load_store_zero 8 (by decide) (by decide)
theorem last_store_size : last (m.store32 (std + 8) v) std = last m std :=
  load32_store32_offset 8 4 (by decide) (by decide)

/-- The fields of the stream after an element was put. -/
theorem put_header (m : Mem) (p : Addr) (hw : std.toNat + 12 ≤ 2 ^ 32) :
    let m₁ := m.store32 (std + 4) p
    let m₂ := if first m₁ std = 0 then m₁.store32 std p else m₁
    let m₃ := m₂.store32 (std + 8) (size m₂ std + 1)
    Changes (header std).addresses m m₃ ∧ first m₃ std = (if first m std = 0 then p else first m std) ∧
      last m₃ std = p ∧ size m₃ std = size m std + 1 := by
  intro m₁ m₂ m₃
  have h₁ : Changes (header std).addresses m m₁ := store_changes (n := 12) 4 (by decide) hw
  have h₃ : Changes (header std).addresses m₂ m₃ := store_changes (n := 12) 8 (by decide) hw
  by_cases h0 : first m₁ std = 0
  · have e₂ : m₂ = m₁.store32 std p := if_pos h0
    have h₂ : Changes (header std).addresses m₁ m₂ := e₂ ▸ store_first_changes hw
    have h0' : first m std = 0 := first_store_last.symm.trans h0
    refine ⟨(h₁.trans h₂).trans h₃, ?_, ?_, ?_⟩
    · simp only [m₃, e₂, first_store_size, first_store_first, h0', if_pos]
    · simp only [m₃, e₂, m₁, last_store_size, last_store_first, last_store_last]
    · simp only [m₃, e₂, m₁, size_store_size, size_store_first, size_store_last]
  · have e₂ : m₂ = m₁ := if_neg h0
    have h0' : first m std ≠ 0 := fun e => h0 (first_store_last.trans e)
    refine ⟨(e₂ ▸ h₁).trans h₃, ?_, ?_, ?_⟩
    · rw [if_neg h0']
      simp only [m₃, e₂, m₁, first_store_size, first_store_last]
    · simp only [m₃, e₂, m₁, last_store_size, last_store_last]
    · simp only [m₃, e₂, m₁, size_store_size, size_store_last]

/-- The fields of the stream after the first of its elements was taken. -/
theorem get_header (m : Mem) (p : Addr) (hw : std.toNat + 12 ≤ 2 ^ 32) :
    let m₁ := m.store32 std p
    let m₂ := if size m₁ std = 1 then m₁.store32 (std + 4) 0 else m₁
    let m₃ := m₂.store32 (std + 8) (size m₂ std - 1)
    Changes (header std).addresses m m₃ ∧ first m₃ std = p ∧
      last m₃ std = (if size m std = 1 then 0 else last m std) ∧ size m₃ std = size m std - 1 := by
  intro m₁ m₂ m₃
  have h₁ : Changes (header std).addresses m m₁ := store_first_changes hw
  have h₃ : Changes (header std).addresses m₂ m₃ := store_changes (n := 12) 8 (by decide) hw
  by_cases h0 : size m₁ std = 1
  · have e₂ : m₂ = m₁.store32 (std + 4) 0 := if_pos h0
    have h₂ : Changes (header std).addresses m₁ m₂ := e₂ ▸ store_changes (n := 12) 4 (by decide) hw
    have h0' : size m std = 1 := size_store_first.symm.trans h0
    refine ⟨(h₁.trans h₂).trans h₃, ?_, ?_, ?_⟩
    · simp only [m₃, e₂, m₁, first_store_size, first_store_last, first_store_first]
    · rw [if_pos h0']
      simp only [m₃, e₂, last_store_size, last_store_last]
    · simp only [m₃, e₂, m₁, size_store_size, size_store_last, size_store_first]
  · have e₂ : m₂ = m₁ := if_neg h0
    have h0' : size m std ≠ 1 := fun e => h0 (size_store_first.trans e)
    refine ⟨(e₂ ▸ h₁).trans h₃, ?_, ?_, ?_⟩
    · simp only [m₃, e₂, m₁, first_store_size, first_store_first]
    · rw [if_neg h0']
      simp only [m₃, e₂, m₁, last_store_size, last_store_first]
    · simp only [m₃, e₂, m₁, size_store_size, size_store_first]

/-- The element that is put. -/
theorem new_elt (m : Mem) (c : Byte) (hw : x.toNat + 8 ≤ 2 ^ 32) :
    let m₁ := (m.store32 (x + 4) 0).store8 x c
    Changes (elt x).addresses m m₁ ∧ next m₁ x = 0 ∧ val m₁ x = c := by
  intro m₁
  have e4 : (x + 4).toNat = x.toNat + 4 := by
    rw [BitVec.toNat_add, show (4 : Word).toNat = 4 from rfl]
    omega
  have h₁ : Changes (elt x).addresses m (m.store32 (x + 4) 0) := store_changes (n := 8) 4 (by decide) hw
  have h₂ : Changes (range x 1) (m.store32 (x + 4) 0) m₁ := store8_changes
  have hsub : range x 1 ⊆ (elt x).addresses := fun k hk => by
    show k ∈ range x 8
    rw [mem_range] at hk ⊢
    omega
  refine ⟨h₁.trans (h₂.mono hsub), (h₂.load32 (by omega) fun i hi => ?_).trans (load32_store32_self _ _ _),
    store8_self _ _ _⟩
  rw [e4, mem_range]
  omega

/-- The last element is linked to a new one. -/
theorem link_elt (m : Mem) (p : Addr) (hw : y.toNat + 8 ≤ 2 ^ 32) :
    Changes (elt y).addresses m (m.store32 (y + 4) p) ∧ next (m.store32 (y + 4) p) y = p ∧
      val (m.store32 (y + 4) p) y = val m y := by
  refine ⟨store_changes (n := 8) 4 (by decide) hw, load32_store32_self _ _ _, store32_outside ?_ (.inl ?_)⟩
  all_goals
    rw [BitVec.toNat_add, show (4 : Word).toNat = 4 from rfl]
    omega

/-! ## What the calls do -/

theorem Inv.elt_fits (L : A.Lawful Owns) (I : Inv Owns s std xs q others) (hx : x ∈ xs) : x.toNat + 8 ≤ 2 ^ 32 :=
  L.fits I.owns (elt x) (List.mem_cons_of_mem _ (List.mem_append_left _ (List.mem_map_of_mem hx)))

theorem Inv.header_fits (L : A.Lawful Owns) (I : Inv Owns s std xs q others) : std.toNat + 12 ≤ 2 ^ 32 :=
  L.fits I.owns (header std) List.mem_cons_self

theorem Linked.length (I : Linked m std xs q) : q.length = xs.length := by
  rw [← I.vals, List.length_map]

/-- The elements after a new one was linked to the last of them. -/
theorem link_ok {p : Addr} (I : Linked m std xs q) (hp : p ≠ 0)
    (hd : (elt p :: header std :: xs.map elt).Pairwise fun b b' => Disjoint b.addresses b'.addresses)
    (hfit : ∀ b ∈ elt p :: header std :: xs.map elt, b.ptr.toNat + b.size ≤ 2 ^ 32) (hn : next m p = 0) :
    let m₂ := if last m std ≠ 0 then m.store32 (last m std + 4) p else m
    Changes (footprint (xs.map elt)) m m₂ ∧
      Chain (next m₂) 0 (if first m std = 0 then p else first m std) (xs ++ [p]) ∧
      (∀ x ∈ xs, val m₂ x = val m x) ∧ val m₂ p = val m p := by
  intro m₂
  obtain rfl | ⟨pre, y, rfl⟩ := List.eq_nil_or_concat' xs
  · have e : m₂ = m := if_neg (not_not.mpr I.last)
    rw [e, if_pos (show first m std = 0 from I.chain)]
    exact ⟨.refl _ _, ⟨rfl, hp, hn⟩, fun x hx => absurd hx List.not_mem_nil, rfl⟩
  · have hy : y ∈ pre ++ [y] := List.mem_append_right _ (List.mem_singleton_self _)
    have hblock : ∀ x ∈ pre ++ [y], elt x ∈ elt p :: header std :: (pre ++ [y]).map elt := fun x hx =>
      List.mem_cons_of_mem _ (List.mem_cons_of_mem _ (List.mem_map_of_mem hx))
    have hy0 : y ≠ 0 := I.chain.ne_null hy
    have hlast : last m std = y := by rw [I.last, List.getLastD_concat]
    have e : m₂ = m.store32 (y + 4) p := by rw [← hlast]; exact if_pos (hlast ▸ hy0)
    obtain ⟨hch, hny, hvy⟩ := link_elt (y := y) m p (hfit _ (hblock y hy))
    rw [← e] at hch hny hvy
    have hdp := (List.pairwise_cons.mp hd).1
    have hdy := (List.pairwise_cons.mp (List.pairwise_cons.mp hd).2).2
    have hfirst : first m std ≠ 0 := fun h0 => by
      have hc := I.chain
      rw [h0] at hc
      exact absurd (Chain.start_null.mp hc) (by simp)
    -- the elements before the last one
    have hpre : ∀ z ∈ pre, next m₂ z = next m z ∧ val m₂ z = val m z := fun z hz => by
      rw [List.map_append, List.pairwise_append] at hdy
      have hzy := hdy.2.2 _ (List.mem_map_of_mem hz) _ (List.mem_singleton_self (elt y))
      exact elt_keep (keeps_of_changes hch subset_rfl (List.forall_mem_singleton.mpr hzy.symm))
        (List.mem_singleton_self _) (hfit _ (hblock z (List.mem_append_left _ hz)))
    obtain ⟨hnp, hvp⟩ := elt_keep (keeps_of_changes hch subset_rfl (List.forall_mem_singleton.mpr
      (hdp _ (List.mem_cons_of_mem _ (List.mem_map_of_mem hy))).symm)) (List.mem_singleton_self _)
      (hfit _ List.mem_cons_self)
    refine ⟨hch.mono (subset_footprint (List.mem_map_of_mem hy)), ?_, fun x hx => ?_, hvp⟩
    · rw [if_neg hfirst]
      exact I.chain.snoc hp (fun z hz => (hpre z hz).1) hny (hnp.trans hn)
    · rcases List.mem_append.mp hx with hx | hx
      · exact (hpre x hx).2
      · rw [List.mem_singleton.mp hx, hvy]

/-- What is in the stream and its elements stays if their blocks do. -/
theorem Linked.keep (I : Linked m std xs q) (hk : Keeps (header std :: (xs.map elt ++ others)) m m')
    (hfit : ∀ b ∈ header std :: (xs.map elt ++ others), b.ptr.toNat + b.size ≤ 2 ^ 32) : Linked m' std xs q := by
  obtain ⟨hf, hl, hs⟩ := header_keep hk List.mem_cons_self (hfit _ List.mem_cons_self)
  have helt : ∀ x ∈ xs, next m' x = next m x ∧ val m' x = val m x := fun x hx =>
    have hmem := List.mem_cons_of_mem _ (List.mem_append_left _ (List.mem_map_of_mem hx))
    elt_keep hk hmem (hfit _ hmem)
  exact {
    chain := hf ▸ I.chain.congr fun x hx => (helt x hx).1
    vals := (List.map_congr_left fun x hx => (helt x hx).2).trans I.vals
    last := hl.trans I.last
    size := hs ▸ I.size }

/-- A call that leaves the stream alone. -/
theorem Inv.keep {Owns' : σ → Mem → List Block → Prop} {alloc : σ} {others' : List Block} (L : A.Lawful Owns)
    (I : Inv Owns s std xs q others) (hk : Keeps (header std :: (xs.map elt ++ others)) s.mem m)
    (hown : Owns' alloc m (header std :: (xs.map elt ++ others'))) : Inv Owns' ⟨alloc, m⟩ std xs q others' :=
  { I.toLinked.keep hk (L.fits I.owns) with owns := hown }

/-- What `put` writes: the new element, the link to it, and the fields of the stream. -/
theorem put_linked {p : Addr} (I : Linked m std xs q) (hp : p ≠ 0)
    (hd : (elt p :: header std :: (xs.map elt ++ others)).Pairwise fun b b' => Disjoint b.addresses b'.addresses)
    (hfits : ∀ b ∈ elt p :: header std :: (xs.map elt ++ others), b.ptr.toNat + b.size ≤ 2 ^ 32) :
    let m₁ := (m.store32 (p + 4) 0).store8 p c
    let m₂ := if last m₁ std ≠ 0 then m₁.store32 (last m₁ std + 4) p else m₁
    let m₃ := m₂.store32 (std + 4) p
    let m₄ := if first m₃ std = 0 then m₃.store32 std p else m₃
    let m₅ := m₄.store32 (std + 8) (size m₄ std + 1)
    Changes (footprint (elt p :: header std :: (xs.map elt ++ others))) m m₅ ∧
      Linked m₅ std (xs ++ [p]) (q ++ [c]) := by
  intro m₁ m₂ m₃ m₄ m₅
  obtain ⟨hdp, hd'⟩ := List.pairwise_cons.mp hd
  have hdx := (List.pairwise_cons.mp hd').1
  have hhw : std.toNat + 12 ≤ 2 ^ 32 := hfits (header std) (List.mem_cons_of_mem _ List.mem_cons_self)
  -- the element
  have hpw : p.toNat + 8 ≤ 2 ^ 32 := hfits (elt p) List.mem_cons_self
  obtain ⟨h₁, hn₁, hv₁⟩ := new_elt m c hpw
  have I₁ : Linked m₁ std xs q :=
    I.keep (keeps_of_changes h₁ subset_rfl hdp) fun b hb => hfits b (List.mem_cons_of_mem _ hb)
  -- the link
  have hsub : ∀ b ∈ elt p :: header std :: xs.map elt, b ∈ elt p :: header std :: (xs.map elt ++ others) :=
    fun b hb => by
      simp only [List.mem_cons, List.mem_append] at hb ⊢
      tauto
  obtain ⟨h₂, hchain, hval, hvp⟩ := link_ok I₁ hp
    (hd.sublist ((List.sublist_append_left _ _).cons_cons _ |>.cons_cons _)) (fun b hb => hfits b (hsub b hb)) hn₁
  have hkh : Keeps [header std] m₁ m₂ := by
    rintro a ⟨b, hb, ha⟩
    obtain rfl := List.mem_singleton.mp hb
    apply h₂ a
    rintro ⟨b', hb', ha'⟩
    exact Set.disjoint_left.mp (hdx b' (List.mem_append_left _ hb')) ha ha'
  obtain ⟨hf₂, -, hs₂⟩ := header_keep hkh (List.mem_singleton_self _) hhw
  -- the stream
  obtain ⟨h₃, hf₃, hl₃, hs₃⟩ := put_header m₂ p hhw
  have helt : ∀ x ∈ xs ++ [p], elt x ∈ elt p :: header std :: (xs.map elt ++ others) ∧
      Disjoint (header std).addresses (elt x).addresses := by
    intro x hx
    rcases List.mem_append.mp hx with hx | hx
    · have hmem := List.mem_append_left others (List.mem_map_of_mem (f := elt) hx)
      exact ⟨List.mem_cons_of_mem _ (List.mem_cons_of_mem _ hmem), hdx _ hmem⟩
    · rw [List.mem_singleton.mp hx]
      exact ⟨List.mem_cons_self, (hdp _ List.mem_cons_self).symm⟩
  have helt₃ : ∀ x ∈ xs ++ [p], next m₅ x = next m₂ x ∧ val m₅ x = val m₂ x := fun x hx =>
    elt_keep (keeps_of_changes h₃ subset_rfl (List.forall_mem_singleton.mpr (helt x hx).2))
      (List.mem_singleton_self _) (hfits _ (helt x hx).1)
  constructor
  · refine (h₁.mono ?_).trans ((h₂.mono ?_).trans (h₃.mono ?_))
    · exact subset_footprint List.mem_cons_self
    · exact fun k ⟨b, hb, hk⟩ => ⟨b, hsub b (List.mem_cons_of_mem _ (List.mem_cons_of_mem _ hb)), hk⟩
    · exact subset_footprint (List.mem_cons_of_mem _ List.mem_cons_self)
  · exact
      { chain := by
          rw [hf₃, hf₂]
          exact hchain.congr fun x hx => (helt₃ x hx).1
        vals := by
          rw [List.map_congr_left fun x hx => (helt₃ x hx).2, List.map_append, List.map_congr_left hval, I₁.vals,
            List.map_singleton, hvp, hv₁]
        last := by rw [hl₃, List.getLastD_concat]
        size := by
          have hlen := hchain.length_lt (f := BitVec.toFin) fun _ _ => BitVec.eq_of_toFin_eq
          rw [List.length_append, List.length_singleton, ← I₁.length] at hlen
          rw [hs₃, hs₂, BitVec.toNat_add, I₁.size, List.length_append, List.length_singleton]
          exact Nat.mod_eq_of_lt hlen }

/-- What `put` gets from `malloc`, and what it writes. -/
structure Filled (A : Allocator σ) (s s' : State σ) (std : Addr) (xs : List Addr) (others : List Block) (p : Addr)
    (m : Mem) : Prop where
  malloc : A.malloc s.alloc s.mem sizeofStdElt = some (p, s'.alloc, m)
  changes : Changes (footprint (elt p :: header std :: (xs.map elt ++ others))) m s'.mem

theorem put_step (L : A.Lawful Owns) (I : Inv Owns s std xs q others) (h : stdPut A std c s = some s') :
    ∃ p m, Filled A s s' std xs others p m ∧ Inv Owns s' std (xs ++ [p]) (q ++ [c]) others := by
  obtain ⟨⟨p, alloc, m⟩, hmalloc, h⟩ := Option.bind_eq_some_iff.mp h
  simp only at h
  split at h
  · cases h
  rename_i hp
  obtain ⟨hown, hkeep⟩ := L.malloc I.owns (by decide) hmalloc
  rw [if_neg hp] at hown
  replace hown : Owns alloc m (elt p :: header std :: (xs.map elt ++ others)) := hown
  obtain ⟨hch, hlinked⟩ := put_linked
    (c := c) (I.toLinked.keep hkeep (L.fits I.owns)) hp (L.disjoint hown) (L.fits hown)
  obtain rfl := Option.some.inj h
  refine ⟨p, m, ⟨hmalloc, hch⟩, { hlinked with owns := L.perm (L.write hown hch) ?_ }⟩
  apply List.perm_iff_count.mpr
  intro b
  simp only [List.map_append, List.map_cons, List.map_nil, List.count_cons, List.count_append, List.count_nil]
  omega

theorem put_ok (L : A.Lawful Owns) (I : Inv Owns s std xs q others) (h : stdPut A std c s = some s') :
    ∃ p, Inv Owns s' std (xs ++ [p]) (q ++ [c]) others := by
  obtain ⟨p, m, -, J⟩ := put_step L I h
  exact ⟨p, J⟩

theorem get_nil (I : Linked s.mem std [] q) : stdGet A std s = (0, s) :=
  if_pos I.chain

theorem get_ok (L : A.Lawful Owns) (I : Inv Owns s std (x :: xs) (c :: q) others) :
    (stdGet A std s).1 = c ∧ Inv Owns (stdGet A std s).2 std xs q others := by
  have hfx : first s.mem std = x := I.chain.1
  have hx0 : x ≠ 0 := I.chain.2.1
  have hhw := I.header_fits L
  obtain ⟨hcx, hvals⟩ := List.cons_eq_cons.mp I.vals
  simp only [stdGet, if_neg hx0, hfx]
  refine ⟨hcx, ?_⟩
  obtain ⟨h₁, hf₁, hl₁, hs₁⟩ := get_header s.mem (next s.mem x) hhw
  generalize store32 _ (std + 8) _ = m₁ at h₁ hf₁ hl₁ hs₁ ⊢
  have hdx := (List.pairwise_cons.mp (L.disjoint I.owns)).1
  have hown := L.perm (L.write I.owns (h₁.mono (subset_footprint List.mem_cons_self)))
    (List.Perm.swap (elt x) (header std) (xs.map elt ++ others))
  obtain ⟨hown₂, hk₂⟩ := L.free hown
  replace hown₂ : Owns (A.free s.alloc m₁ x).1 (A.free s.alloc m₁ x).2
    (header std :: (xs.map elt ++ others)) := hown₂
  replace hk₂ : Keeps (header std :: (xs.map elt ++ others)) m₁ (A.free s.alloc m₁ x).2 := hk₂
  generalize A.free s.alloc m₁ x = r at hown₂ hk₂ ⊢
  obtain ⟨hf₂, hl₂, hs₂⟩ := header_keep hk₂ List.mem_cons_self hhw
  have helt : ∀ z ∈ xs, next r.2 z = next s.mem z ∧ val r.2 z = val s.mem z := fun z hz => by
    have hz' := List.mem_append_left others (List.mem_map_of_mem (f := elt) hz)
    have hfit := I.elt_fits L (List.mem_cons_of_mem x hz)
    obtain ⟨hn, hv⟩ := elt_keep hk₂ (List.mem_cons_of_mem _ hz') hfit
    obtain ⟨hn', hv'⟩ := elt_keep (keeps_of_changes h₁ subset_rfl (List.forall_mem_singleton.mpr
      (hdx _ (List.mem_cons_of_mem _ hz')))) (List.mem_singleton_self _) hfit
    exact ⟨hn.trans hn', hv.trans hv'⟩
  have hsize : (size s.mem std).toNat = q.length + 1 := I.size
  have hlen : q.length = xs.length := by rw [← hvals, List.length_map]
  exact
    { chain := by
        show Chain (next r.2) 0 (first r.2 std) xs
        rw [hf₂, hf₁]
        exact I.chain.2.2.congr fun z hz => (helt z hz).1
      vals := (List.map_congr_left fun z hz => (helt z hz).2).trans hvals
      last := by
        show last r.2 std = _
        rw [hl₂, hl₁, I.last]
        cases xs with
        | nil => exact if_pos (BitVec.eq_of_toNat_eq (hsize.trans (by rw [hlen]; rfl)))
        | cons z xs =>
          rw [if_neg, List.getLastD_cons, List.getLastD_cons, List.getLastD_cons]
          intro h1
          rw [h1, hlen, List.length_cons, show (1 : Word).toNat = 1 from rfl] at hsize
          omega
      size := by
        show (size r.2 std).toNat = _
        rw [hs₂, hs₁, BitVec.toNat_sub_of_le (by rw [BitVec.le_def, hsize]; exact Nat.le_add_left _ _), hsize]
        rfl
      owns := hown₂ }

/-! ## All calls -/

theorem init_ok (L : A.Lawful Owns) (h : Owns s.alloc s.mem live) (hs : initStd A s = some (std, s₀)) :
    Inv Owns s₀ std [] [] live := by
  obtain ⟨⟨p, alloc₁, m₁⟩, hcalloc, hs⟩ := Option.bind_eq_some_iff.mp hs
  cases hs
  obtain ⟨-, hown, -, hzero⟩ := Processes.calloc_ok L h (by decide) hcalloc
  have hw : std.toNat + 12 ≤ 2 ^ 32 := L.fits hown _ List.mem_cons_self
  have zero : ∀ j : Word, j.toNat + 4 ≤ 12 → m₁.load32 (std + j) = 0 := by
    intro j hj
    have e : (std + j).toNat = std.toNat + j.toNat := by
      rw [BitVec.toNat_add]
      omega
    refine load32_eq_zero (by omega) fun x hx => hzero x ?_
    rw [mem_range, e] at hx
    show x.toNat ∈ range std 12
    rw [mem_range]
    omega
  have hfirst := zero 0 (by decide)
  rw [show std + 0 = std from BitVec.add_zero std] at hfirst
  exact
    { chain := hfirst
      vals := rfl
      last := zero 4 (by decide)
      size := congrArg BitVec.toNat (zero 8 (by decide))
      owns := hown }

/-- After any calls the stream is the queue of what was put and not got, and what is got next is the
oldest of it; of an empty one, 0, and nothing changes. -/
theorem stream_fifo (L : A.Lawful Owns) (h : Owns s.alloc s.mem live) (hs : initStd A s = some (std, s₀))
    (hrun : Run A std s₀ s' q) : ∃ xs, Linked s'.mem std xs q ∧ (first s'.mem std = 0 ↔ q = []) ∧
      (stdGet A std s').1 = q.headD 0 ∧ (q = [] → (stdGet A std s').2 = s') := by
  have I : ∃ xs, Inv Owns s' std xs q live := by
    induction hrun with
    | init => exact ⟨[], init_ok L h hs⟩
    | put _ hput ih =>
      obtain ⟨xs, I⟩ := ih
      obtain ⟨p, I⟩ := put_ok L I hput
      exact ⟨xs ++ [p], I⟩
    | @get s q _ ih =>
      obtain ⟨xs, I⟩ := ih
      cases q with
      | nil =>
        obtain rfl := List.map_eq_nil_iff.mp I.vals
        rw [get_nil I.toLinked]
        exact ⟨[], I⟩
      | cons c q =>
        obtain ⟨x, xs, rfl, -, -⟩ := List.map_eq_cons_iff.mp I.vals
        exact ⟨xs, (get_ok L I).2⟩
  obtain ⟨xs, I⟩ := I
  refine ⟨xs, I.toLinked, ?_, ?_, ?_⟩
  · have hvals := I.vals
    cases xs with
    | nil => exact iff_of_true I.chain hvals.symm
    | cons x xs => exact iff_of_false (I.chain.1 ▸ I.chain.2.1) fun e => by rw [e] at hvals; cases hvals
  · cases q with
    | nil =>
      obtain rfl := List.map_eq_nil_iff.mp I.vals
      rw [get_nil I.toLinked]
      rfl
    | cons c q =>
      obtain ⟨x, xs, rfl, -, -⟩ := List.map_eq_cons_iff.mp I.vals
      exact (get_ok L I).1
  · rintro rfl
    obtain rfl := List.map_eq_nil_iff.mp I.vals
    rw [get_nil I.toLinked]

def bumpPut (c : Byte) (s : State Nat) : State Nat := (stdPut bump 16 c s).getD s

/-- A stream without a character. -/
def noneLeft : State Nat := ⟨28, Mem.memset (fun _ => 0) 16 0 12⟩

/-- One character is put and got, and then two are put. -/
def twoLeft : State Nat := bumpPut 0x43 (bumpPut 0x42 (stdGet bump 16 (bumpPut 0x41 noneLeft)).2)

theorem run_bumpPut {q : List Byte} {s₀ s : State Nat} (r : Run bump 16 s₀ s q) (c : Byte)
    (h : (stdPut bump 16 c s).isSome = true) : Run bump 16 s₀ (bumpPut c s) (q ++ [c]) := by
  obtain ⟨s', e⟩ := Option.isSome_iff_exists.mp h
  rw [bumpPut, e]
  exact r.put e

theorem run_twoLeft : Run bump 16 noneLeft twoLeft [0x42, 0x43] := by
  have r₁ := run_bumpPut .init 0x41 (show (stdPut bump 16 0x41 noneLeft).isSome = true by decide)
  have r₂ := run_bumpPut r₁.get 0x42 (by decide)
  exact run_bumpPut r₂ 0x43 (by decide)

/-- The stream was empty in between; the first of the two that are left is got next. -/
theorem stream_fifo_twoLeft : ∃ xs, Linked twoLeft.mem 16 xs [0x42, 0x43] ∧
    (first twoLeft.mem 16 = 0 ↔ [(0x42 : Byte), 0x43] = []) ∧ (stdGet bump 16 twoLeft).1 = 0x42 ∧
      ([(0x42 : Byte), 0x43] = [] → (stdGet bump 16 twoLeft).2 = twoLeft) := by
  have hown : BumpOwns 16 (fun _ => 0) [] :=
    ⟨by decide, by decide, by simp, by simp, by simp, List.Pairwise.nil⟩
  have hinit : initStd bump ⟨16, fun _ => 0⟩ = some (16, noneLeft) := rfl
  exact stream_fifo bump_lawful hown hinit run_twoLeft

end

end AlexOS.Vfs
