import AlexOS.Heap.Realloc

/-!
# Sizes that wrap

`malloc` rounds the size up to 16, adds two headers and rounds the sum up to
pages, and `calloc` multiplies, all with 32 bits. `malloc` is right up to
`0xFFFFFFE0`: a larger size is rounded up to one that the headers carry past
the end, or to 0 (`sizes_iff`). `calloc` is right if its product does not wrap
either, unless it is wrapped to a size that no heap can serve. What it returns
it clears, `NULL` too.
-/

namespace AlexOS.Malloc

open AlexOS.Malloc.Inv

def calloc (src : PageSource) (h : Heap) (size nmenb : Word) : Option (Addr × Heap) := do
  let (ptr, h) ← malloc src h (size * nmenb)
  return (ptr, { h with mem := h.mem.memset ptr 0 (size * nmenb).toNat })

/-- What a run of `malloc`, `free` and stores to live blocks reaches from the empty heap, if `P`
holds of the sizes that are asked for. -/
inductive Requests (src : PageSource) (P : Word → Prop) : Heap → List Live → Prop
  | empty (mem : Mem) : Requests src P ⟨mem, 0, 0, 0⟩ []
  | malloc {h h' : Heap} {live : List Live} {size : Word} {p : Addr} (r : Requests src P h live) (hs : P size)
      (hm : malloc src h size = some (p, h')) : Requests src P h' (if p = 0 then live else ⟨p, size⟩ :: live)
  | free {h : Heap} {live : List Live} {l : Live} (r : Requests src P h live) (hl : l ∈ live) :
      Requests src P (free h l.ptr) (live.erase l)
  | write {h : Heap} {live : List Live} {l : Live} {off : Word} {v : Byte} (r : Requests src P h live)
      (hl : l ∈ live) (ho : off < actualSize h.mem l.header) :
      Requests src P { h with mem := h.mem.store8 (l.ptr + off) v } live

/-- The block at `p` lies within a page, behind its header, and has `n` bytes. -/
def HoldsBlock (h : Heap) (p : Addr) (n : Nat) : Prop :=
  ∃ pages q, Chain (next h.mem) 0 h.pageList pages ∧ q ∈ pages ∧ pageEnd h.mem q ≤ 2 ^ 32 ∧
    q.toNat + 16 ≤ (p - sizeofBlkHeader).toNat ∧ blkEnd h.mem (p - sizeofBlkHeader) ≤ pageEnd h.mem q ∧
    n ≤ (actualSize h.mem (p - sizeofBlkHeader)).toNat

/-- There are no more pages. -/
def Exhausted (src : PageSource) (h : Heap) : Prop := ∀ addr n, src.answer h.calls addr n = none

/-- `malloc` returns a block of this size, or writes nothing. -/
structure MallocHolds (src : PageSource) (h : Heap) (size : Word) : Prop where
  block : ∀ p h', malloc src h size = some (p, h') → p ≠ 0 → HoldsBlock h' p size.toNat
  null : Exhausted src h → ∀ h', malloc src h size = some (0, h') → h'.mem = h.mem

/-- `calloc` returns a block for all of the elements. -/
def CallocHolds (src : PageSource) (h : Heap) (size nmenb : Word) : Prop :=
  ∀ p h', calloc src h size nmenb = some (p, h') → p ≠ 0 → HoldsBlock h' p (size.toNat * nmenb.toNat)

/-- or writes nothing. -/
def CallocQuiet (src : PageSource) (h : Heap) (size nmenb : Word) : Prop :=
  Exhausted src h → ∀ h', calloc src h size nmenb = some (0, h') → h'.mem = h.mem

section

variable {src : PageSource} {h h' : Heap} {pages frees : List Addr} {live : List Live} {l : Live} {size nmenb : Word}
  {p : Addr} {P : Word → Prop}

/-! ## What holds -/

theorem Requests.inv (L : src.Lawful) (r : Requests src (· ≤ 0xFFFFFFE0) h live) :
    ∃ pages frees, Inv h pages frees live := by
  induction r with
  | empty mem =>
    have r : Reachable src ⟨mem, 0, 0, 0⟩ [] := .empty mem
    exact r.inv
  | malloc r hs hm ih =>
    obtain ⟨pages, frees, I⟩ := ih
    obtain ⟨p, h', pages', frees', e, -, J⟩ := malloc_spec src I (.inr ⟨L, hs⟩)
    obtain ⟨rfl, rfl⟩ := Prod.mk.inj (Option.some.inj (hm.symm.trans e))
    exact ⟨pages', frees', J⟩
  | free r hl ih =>
    obtain ⟨pages, frees, I⟩ := ih
    exact ⟨pages, _, I.push hl⟩
  | write r hl ho ih =>
    obtain ⟨pages, frees, I⟩ := ih
    exact ⟨pages, frees, store_payload I hl ho⟩

theorem Inv.holdsBlock (I : Inv h pages frees live) (hl : l ∈ live) : HoldsBlock h l.ptr l.asked.toNat := by
  obtain ⟨q, hq, h1, h2⟩ := I.layout.inPage _ (block_live frees hl)
  exact ⟨pages, q, I.pageChain, hq, I.layout.top q hq, h1, h2.trans (I.layout.used q hq).2, (I.asked l hl).2⟩

/-- No heap has room for more. -/
theorem Inv.asked_le (I : Inv h pages frees live) (hl : l ∈ live) : l.asked.toNat ≤ 0x0FFFFFE4 := by
  obtain ⟨q, hq, h1, h2⟩ := I.layout.inPage _ (block_live frees hl)
  have hlow := I.layout.low q hq; have htop := I.layout.top q hq; have hu := I.layout.used q hq
  have ha := (I.asked l hl).2
  have hS : STARTING_PAGE.toNat = 0xF0000000 := rfl
  simp only [blkEnd] at h2
  omega

/-! ## Without pages -/

theorem addPage_exhausted (I : Inv h pages frees live) (hx : Exhausted src h) (size : Word) :
    ∃ h', addPage src h size = some (false, h') ∧ h'.mem = h.mem := by
  unfold addPage
  by_cases hp : h.pageList = 0
  · simp only [hp, if_true, allocateNewPage_none (hx _ _)]
    exact ⟨_, rfl, rfl⟩
  · obtain ⟨pre, y, rfl, hy, hw⟩ := walk_last I hp
    simp only [hp, if_false, hw, Option.bind_eq_bind, Option.bind_some, allocateNewPage_none (hx _ _)]
    refine ⟨_, rfl, ?_⟩
    have := Mem.store32_load32 h.mem y
    rwa [show h.mem.load32 y = 0 from hy] at this

theorem roomyPage_exhausted (I : Inv h pages frees live) (hx : Exhausted src h)
    (hr : roomyPage src h size = some (false, p, h')) : h'.mem = h.mem := by
  obtain ⟨h₁, ha, hm⟩ := addPage_exhausted I hx (size + sizeofBlkHeader + sizeofPageHeader)
  rw [roomyPage] at hr
  obtain ⟨tmp, -, hr⟩ := Option.bind_eq_some_iff.mp hr
  split at hr
  · simp only [ha, Option.bind_eq_bind, Option.bind_some] at hr
    cases hr
    exact hm
  · cases hr

theorem malloc_exhausted (I : Inv h pages frees live) (hx : Exhausted src h)
    (hs : size.toNat ≤ 0x7FFFFFFF ∨ src.Lawful ∧ size.toNat ≤ 0xFFFFFFE0)
    (hm : malloc src h size = some (0, h')) : h'.mem = h.mem := by
  by_cases h0 : size = 0
  · rw [malloc, if_pos h0] at hm
    cases hm
    rfl
  obtain ⟨hpos, a1, hal⟩ := align_fits src h0 hs
  rw [malloc, if_neg h0] at hm
  generalize align size 0x10 = alignSize at *
  by_cases hp : h.pageList = 0
  · obtain ⟨h₁, ha, e⟩ := addPage_exhausted I hx alignSize
    simp only [firstPage, hp, if_true, ha, Option.bind_eq_bind, Option.bind_some, Bool.not_false] at hm
    cases hm
    exact e
  obtain ⟨b, h₂, e₂, -, hb0, hb1⟩ := findFreeBlk_spec I alignSize size ⟨hpos, by omega⟩
  simp only [firstPage, hp, if_false, Option.bind_eq_bind, Option.bind_some, Bool.not_true, Bool.false_eq_true,
    e₂] at hm
  by_cases hb : b = 0
  · obtain rfl := hb0 hb
    obtain ⟨ok, q, h₃, e₃, -, -, ht₃⟩ := roomyPage_spec src I hp alignSize hal
    simp only [hb, ne_eq, not_true_eq_false, if_false, e₃, Option.bind_some] at hm
    cases ok with
    | false =>
      cases hm
      exact roomyPage_exhausted I hx e₃
    | true =>
      obtain ⟨pages₃, I₃, hp₃, hr⟩ := ht₃ rfl
      have J := I₃.carve size hp₃ hr ⟨hpos, by omega⟩
      exact absurd (congrArg Prod.fst (Option.some.inj hm)) (J.ptr_ne_zero List.mem_cons_self)
  · obtain ⟨frees', J⟩ := hb1 hb
    simp only [hb, ne_eq, not_false_eq_true, if_true] at hm
    exact absurd (congrArg Prod.fst (Option.some.inj hm)) (J.ptr_ne_zero List.mem_cons_self)

theorem mallocHolds_of_le (L : src.Lawful) (r : Requests src (· ≤ 0xFFFFFFE0) h live) (hs : size ≤ 0xFFFFFFE0) :
    MallocHolds src h size := by
  obtain ⟨pages, frees, I⟩ := r.inv L
  obtain ⟨p, h', pages', frees', e, -, J⟩ := malloc_spec src I (.inr ⟨L, hs⟩)
  refine ⟨fun q h'' hm hq => ?_, fun hx h'' hm => malloc_exhausted I hx (.inr ⟨L, hs⟩) hm⟩
  obtain ⟨rfl, rfl⟩ := Prod.mk.inj (Option.some.inj (e.symm.trans hm))
  rw [if_neg hq] at J
  exact J.holdsBlock List.mem_cons_self

theorem calloc_eq (e : malloc src h (size * nmenb) = some (p, h')) : calloc src h size nmenb =
    some (p, { h' with mem := h'.mem.memset p 0 (size * nmenb).toNat }) := by
  rw [calloc, e]
  rfl

theorem calloc_zero (h0 : size * nmenb = 0) : calloc src h size nmenb = some (0, h) := by
  have e : malloc src h (size * nmenb) = some (0, h) := if_pos h0
  rw [calloc_eq e, h0]
  rfl

theorem carve_fst (h : Heap) (page : Addr) (size alignSize : Word) :
    (carve h page size alignSize).1 = page + usedSize h.mem page + sizeofBlkHeader := rfl

/-- The size of a block is rounded up, and only its header says what was asked for. -/
theorem malloc_align (src : PageSource) (h : Heap) (h0 : size ≠ 0) (ha : align size 0x10 ≠ 0)
    (hd : align size 0x10 % 0x10 = 0) :
    (malloc src h size).map Prod.fst = (malloc src h (align size 0x10)).map Prod.fst := by
  have haa : align (align size 0x10) 0x10 = align size 0x10 := if_pos hd
  simp only [malloc, h0, ha, if_false, haa, Option.bind_eq_bind, Option.map_bind]
  refine congrArg (Option.bind _) (funext fun r => ?_)
  obtain ⟨ok, h₁⟩ := r
  cases ok with
  | false => simp only [Function.comp_apply, Bool.not_false, if_true]
  | true =>
    simp only [Function.comp_apply, Bool.not_true, Bool.false_eq_true, if_false, Option.map_bind]
    refine congrArg (Option.bind _) (funext fun r => ?_)
    obtain ⟨b, h₂⟩ := r
    by_cases hb : b = 0
    · simp only [Function.comp_apply, hb, ne_eq, not_true_eq_false, if_false, Option.map_bind]
      refine congrArg (Option.bind _) (funext fun r => ?_)
      obtain ⟨ok, q, h₃⟩ := r
      cases ok with
      | false => simp only [Bool.false_eq_true, if_false]
      | true => simp only [if_true, Option.pure_def, Option.map_some, carve_fst]
    · simp only [hb, ne_eq, not_false_eq_true, if_true, Option.pure_def, Option.map_some]

/-- More than the heap has room for. -/
theorem malloc_large (I : Inv h pages frees live) (L : src.Lawful) (hs : 0x0FFFFFE0 < size.toNat)
    (hs' : size.toNat ≤ 0xFFFFFFE0) (hm : malloc src h size = some (p, h')) : p = 0 := by
  have h0 : size ≠ 0 := by
    rintro rfl
    exact absurd hs (by decide)
  obtain ⟨a1, a2, ⟨k, hk⟩⟩ :=
    align_spec size 0x10 (by decide) (by rw [show (0x10 : Word).toNat = 16 from rfl]; omega)
  rw [show (0x10 : Word).toNat = 16 from rfl] at a2 hk
  have hd : align size 0x10 % 0x10 = 0 := BitVec.eq_of_toNat_eq (by
    rw [BitVec.toNat_umod, show (0x10 : Word).toNat = 16 from rfl, show (0 : Word).toNat = 0 from rfl]; omega)
  have ha : align size 0x10 ≠ 0 := fun e => by
    rw [e, show (0 : Word).toNat = 0 from rfl] at a1
    omega
  obtain ⟨q, h₁, pages', frees', e, -, J⟩ := malloc_spec src I
    (.inr ⟨L, show (align size 0x10).toNat ≤ 0xFFFFFFE0 by omega⟩)
  have hpq : p = q := by
    have := malloc_align src h h0 ha hd
    rw [hm, e] at this
    exact Option.some.inj this
  by_contra hp
  rw [if_neg (hpq ▸ hp)] at J
  have hle : (align size 0x10).toNat ≤ 0x0FFFFFE4 := J.asked_le List.mem_cons_self
  omega

/-- The product, wrapped. -/
def Fitting (size nmenb : Word) : Prop := size * nmenb ≤ 0xFFFFFFE0 ∧
  (size.toNat * nmenb.toNat < 2 ^ 32 ∨ size * nmenb = 0 ∨ 0x0FFFFFE0 < size * nmenb)

theorem callocHolds_of_fitting (L : src.Lawful) (r : Requests src (· ≤ 0xFFFFFFE0) h live)
    (hf : Fitting size nmenb) : CallocHolds src h size nmenb := by
  intro p h' hc hp
  obtain ⟨pages, frees, I⟩ := r.inv L
  obtain ⟨hle, hf⟩ := hf
  obtain ⟨q, h₁, pages', frees', e, -, J⟩ := malloc_spec src I (.inr ⟨L, hle⟩)
  obtain ⟨rfl, rfl⟩ := Prod.mk.inj (Option.some.inj ((calloc_eq e).symm.trans hc))
  rw [if_neg hp] at J
  rcases hf with hf | h0 | hbig
  · have hn : (size * nmenb).toNat = size.toNat * nmenb.toNat := by
      rw [BitVec.toNat_mul, Nat.mod_eq_of_lt hf]
    have ha := (J.asked _ List.mem_cons_self).2
    have hp := J.ptr_eq List.mem_cons_self
    have ht := (J.layout.block_top (block_live frees' List.mem_cons_self)).2
    simp only [blkEnd] at ha hp ht
    have hc : Mem.Changes (Mem.range q (size * nmenb).toNat) h₁.mem (h₁.mem.memset q 0 (size * nmenb).toNat) :=
      Mem.memset_changes (by omega)
    have K := J.write_payload List.mem_cons_self hc ha
    rw [← hn]
    exact K.holdsBlock List.mem_cons_self
  · cases (calloc_zero h0).symm.trans hc
    exact absurd rfl hp
  · exact absurd (malloc_large I L hbig hle e) hp

end

/-! ## What wraps -/

/-- New pages full of zeros, while they fit. -/
def heapPages : PageSource where
  answer _ addr n := if n ≠ 0 ∧ addr ≠ 0 ∧ addr.toNat + 4096 * n.toNat ≤ 2 ^ 32 then some fun _ => 0 else none
  fits h := by
    split at h
    · next hc => exact hc.2.2
    · cases h

theorem heapPages_lawful : heapPages.Lawful where
  zero _ _ := by simp [heapPages]
  low h := by
    simp only [heapPages] at h
    split at h
    · next hc => exact absurd rfl hc.2.1
    · cases h

/-- No pages. -/
def noPages : PageSource := ⟨fun _ _ _ => none, fun h => nomatch h⟩

theorem noPages_lawful : noPages.Lawful := ⟨fun _ _ => rfl, fun h => nomatch h⟩

/-- `malloc(16)`, and the largest block there is, allocated and freed. -/
def noHeap : Heap := ⟨fun _ => 0, 0, 0, 0⟩
def smallHeap : Heap := ((malloc heapPages noHeap 16).getD (0, noHeap)).2
def largeHeap : Heap := free ((malloc heapPages noHeap 0x0FFFFFE0).getD (0, noHeap)).2 0xF000001C

section

variable {size nmenb : Word} {h : Heap}

theorem requests_malloc {n : Word} (hn : n ≤ 0xFFFFFFE0) (hm : (malloc heapPages noHeap n).isSome)
    (hp : ((malloc heapPages noHeap n).getD (0, noHeap)).1 ≠ 0) : Requests heapPages (· ≤ 0xFFFFFFE0)
      ((malloc heapPages noHeap n).getD (0, noHeap)).2 [⟨((malloc heapPages noHeap n).getD (0, noHeap)).1, n⟩] := by
  obtain ⟨⟨p, h'⟩, e⟩ := Option.isSome_iff_exists.mp hm
  have r₀ : Requests heapPages (· ≤ 0xFFFFFFE0) noHeap [] := .empty _
  have r := r₀.malloc hn e
  rw [e, Option.getD_some] at hp ⊢
  rwa [if_neg hp] at r

theorem requests_smallHeap : Requests heapPages (· ≤ 0xFFFFFFE0) smallHeap [⟨0xF000001C, 16⟩] :=
  requests_malloc (by decide) (by decide) (by decide)

theorem requests_largeHeap : Requests heapPages (· ≤ 0xFFFFFFE0) largeHeap [] := by
  have r := requests_malloc (n := 0x0FFFFFE0) (by decide) (by decide) (by decide)
  exact r.free (l := ⟨0xF000001C, 0x0FFFFFE0⟩) (by decide)

/-- The header of a new block, wherever the page has room for it. -/
theorem carve_actualSize {page : Addr} {alignSize : Word} (hu : 16 ≤ (usedSize h.mem page).toNat)
    (hu' : (usedSize h.mem page).toNat ≤ 0x7FFFFFFF) :
    actualSize (carve h page size alignSize).2.mem (page + usedSize h.mem page) = alignSize := by
  have key (k : Word) (hk : k = 8 ∨ k = 12) {m : Mem} {v : Word} :
      (m.store32 (page + k) v).load32 (page + usedSize h.mem page + 8) = m.load32 (page + usedSize h.mem page + 8) := by
    rw [add_assoc]
    have h8 : (8 : Word).toNat = 8 := rfl
    have h12 : (12 : Word).toNat = 12 := rfl
    refine load_store m page v k (usedSize h.mem page + 8) ?_ ?_ <;> rcases hk with rfl | rfl <;>
      simp only [BitVec.toNat_sub, BitVec.toNat_add, h8, h12] <;> omega
  simp only [actualSize, carve, Heap.store]
  rw [key 12 (.inr rfl), key 8 (.inl rfl)]
  exact (sizes_store_next _ _ _).2.2.trans (Mem.load32_store32_self _ _ _)

theorem align_wrapped (hs : 0xFFFFFFE0 < size) :
    align size 0x10 = 0 ∨ align size 0x10 = 0xFFFFFFF0 ∧ size ≤ 0xFFFFFFF0 := by
  have h16 : (0x10 : Word).toNat = 16 := rfl
  have hm : (size % 0x10).toNat = size.toNat % 16 := BitVec.toNat_umod
  have hs : 0xFFFFFFE0 < size.toNat := hs
  have hlt := size.isLt
  rw [align]
  split
  · next e =>
    rw [e, show (0 : Word).toNat = 0 from rfl] at hm
    have e : size = 0xFFFFFFF0 := BitVec.eq_of_toNat_eq (show size.toNat = 0xFFFFFFF0 by omega)
    exact .inr ⟨e, e ▸ BitVec.le_refl _⟩
  · next e =>
    have hne : size.toNat % 16 ≠ 0 := fun h => e (BitVec.eq_of_toNat_eq (hm.trans h))
    have hv : (0x10 - size % 0x10 + size).toNat = (16 - size.toNat % 16 + size.toNat) % 2 ^ 32 := by
      rw [BitVec.toNat_add, BitVec.toNat_sub, hm, h16]
      omega
    by_cases hle : size.toNat ≤ 0xFFFFFFF0
    · exact .inr ⟨BitVec.eq_of_toNat_eq (hv.trans (show _ = 0xFFFFFFF0 by omega)), hle⟩
    · exact .inl (BitVec.eq_of_toNat_eq (hv.trans (show _ = 0 by omega)))

/-- What a block is carved from, and what it is then. -/
theorem malloc_smallHeap (q : Addr) (used alignSize : Word) (h0 : size ≠ 0) (ha : align size 0x10 = alignSize)
    (hr : (roomyPage heapPages smallHeap alignSize).map (fun r => (r.1, r.2.1, usedSize r.2.2.mem r.2.1)) =
      some (true, q, used)) (hu : 16 ≤ used.toNat) (hu' : used.toNat ≤ 0x7FFFFFFF) :
    ∃ h', malloc heapPages smallHeap size = some (q + used + sizeofBlkHeader, h') ∧
      actualSize h'.mem (q + used) = alignSize := by
  obtain ⟨⟨ok, q', h₃⟩, hr', e⟩ := Option.map_eq_some_iff.mp hr
  simp only [Prod.mk.injEq] at e
  obtain ⟨rfl, rfl, rfl⟩ := e
  have hp : smallHeap.pageList ≠ 0 := by decide
  have hf : smallHeap.freeList = 0 := by decide
  have hc := malloc_of_roomy h0 hp hf (ha.symm ▸ hr')
  exact ⟨_, hc, (carve_actualSize hu hu').trans ha⟩

/-- The block is empty, or passes the end of the address space. -/
theorem malloc_wrapped (hs : 0xFFFFFFE0 < size) :
    ∃ p h', malloc heapPages smallHeap size = some (p, h') ∧ p ≠ 0 ∧
    0xF0000000 ≤ (p - sizeofBlkHeader).toNat ∧ (actualSize h'.mem (p - sizeofBlkHeader) = 0 ∨
      actualSize h'.mem (p - sizeofBlkHeader) = 0xFFFFFFF0 ∧ size ≤ 0xFFFFFFF0) := by
  have h0 : size ≠ 0 := fun e => absurd (e ▸ hs) (by decide)
  rcases align_wrapped hs with ha | ⟨ha, hle⟩
  · obtain ⟨h', hm, hact⟩ := malloc_smallHeap 0xF0000000 44 0 h0 ha (by decide) (by decide) (by decide)
    exact ⟨_, h', hm, by decide, by decide, .inl hact⟩
  · obtain ⟨h', hm, hact⟩ := malloc_smallHeap 0xF0001000 16 0xFFFFFFF0 h0 ha (by decide) (by decide) (by decide)
    exact ⟨_, h', hm, by decide, by decide, .inr ⟨hact, hle⟩⟩

/-- It does not hold a byte of what was asked for, or does not end in its page. -/
theorem not_holdsBlock {h : Heap} {p : Addr} {n : Nat} (hp : 0xF0000000 ≤ (p - sizeofBlkHeader).toNat) (hn : 0 < n)
    (ha : actualSize h.mem (p - sizeofBlkHeader) = 0 ∨ actualSize h.mem (p - sizeofBlkHeader) = 0xFFFFFFF0) :
    ¬ HoldsBlock h p n := by
  rintro ⟨pages, q, -, -, htop, -, hend, hle⟩
  simp only [blkEnd] at hend
  rcases ha with ha | ha <;> rw [ha] at hend hle
  · rw [show (0 : Word).toNat = 0 from rfl] at hle
    omega
  · rw [show (0xFFFFFFF0 : Word).toNat = 0xFFFFFFF0 from rfl] at hend
    omega

theorem not_mallocHolds (hs : 0xFFFFFFE0 < size) : ¬ MallocHolds heapPages smallHeap size := by
  intro H
  obtain ⟨p, h', hm, h0, hp, ha⟩ := malloc_wrapped hs
  have hpos : 0 < size.toNat := Nat.zero_lt_of_lt (show 0xFFFFFFE0 < size.toNat from hs)
  exact not_holdsBlock hp hpos (ha.imp id And.left) (H.block p h' hm h0)

/-- Clearing so much leaves the header as it is, or clears it. -/
theorem not_callocHolds (hs : 0xFFFFFFE0 < size * nmenb) : ¬ CallocHolds heapPages smallHeap size nmenb := by
  intro H
  obtain ⟨p, h', hm, h0, hp, ha⟩ := malloc_wrapped hs
  have hpos : 0 < size.toNat * nmenb.toNat := by
    have hn : (size * nmenb).toNat ≤ size.toNat * nmenb.toNat := by
      rw [BitVec.toNat_mul]
      exact Nat.mod_le _ _
    exact Nat.zero_lt_of_lt (Nat.lt_of_lt_of_le (show 0xFFFFFFE0 < (size * nmenb).toNat from hs) hn)
  refine not_holdsBlock hp hpos ?_ (H p _ (calloc_eq hm) h0)
  have hsame : actualSize (h'.mem.memset p 0 (size * nmenb).toNat) (p - sizeofBlkHeader) =
      actualSize h'.mem (p - sizeofBlkHeader) := by
    refine Mem.load32_congr fun i hi => ?_
    rw [Mem.memset_apply _ _ _ _ (size * nmenb).isLt.le]
    split
    · next hlt =>
      rcases ha with ha | ⟨-, hle⟩
      · have hb := Mem.load32_byte (m := h'.mem) (a := p - sizeofBlkHeader + 8) hi
        rw [← hb, show h'.mem.load32 (p - sizeofBlkHeader + 8) = 0 from ha]
        exact (BitVec.extractLsb'_zero).symm
      · have h12 : sizeofBlkHeader.toNat = 12 := rfl
        have h8 : (8 : Word).toNat = 8 := rfl
        have hle : (size * nmenb).toNat ≤ 0xFFFFFFF0 := hle
        have := p.isLt
        simp only [BitVec.toNat_sub, BitVec.toNat_add, BitVec.toNat_ofNat, h12, h8] at hlt
        omega
    · rfl
  rw [hsame]
  exact ha.imp id And.left

/-- A heap that serves the size. -/
theorem exists_served (h0 : size ≠ 0) (hs : size ≤ 0x0FFFFFE0) : ∃ h live p h',
    Requests heapPages (· ≤ 0xFFFFFFE0) h live ∧ malloc heapPages h size = some (p, h') ∧ p ≠ 0 := by
  have hs : size.toNat ≤ 0x0FFFFFE0 := hs
  have h16 : (0x10 : Word).toNat = 16 := rfl
  have hpos : 0 < size.toNat := Nat.pos_of_ne_zero fun e => h0 (BitVec.eq_of_toNat_eq e)
  obtain ⟨a1, a2, ⟨k, hk⟩⟩ := align_spec size 0x10 (by decide) (by omega)
  rw [h16] at a2 hk
  by_cases ha : align size 0x10 = 0x0FFFFFE0
  · -- all that the first page has
    have he := malloc_align heapPages noHeap h0 (by rw [ha]; decide) (by rw [ha]; decide)
    rw [ha, show (malloc heapPages noHeap 0x0FFFFFE0).map Prod.fst = some 0xF000001C by decide] at he
    obtain ⟨⟨p, h'⟩, hm, hp⟩ := Option.map_eq_some_iff.mp he
    obtain rfl : p = 0xF000001C := hp
    exact ⟨noHeap, [], _, h', .empty _, hm, by decide⟩
  · have hne : (align size 0x10).toNat ≠ 0x0FFFFFE0 := fun e => ha (BitVec.eq_of_toNat_eq e)
    have hlt : align size 0x10 < actualSize largeHeap.mem 0xF0000010 := by
      rw [show actualSize largeHeap.mem 0xF0000010 = 0x0FFFFFE0 by decide, BitVec.lt_def,
        show (0x0FFFFFE0 : Word).toNat = 0x0FFFFFE0 from rfl]
      omega
    have hchain : Chain (next largeHeap.mem) 0 largeHeap.freeList [0xF0000010] := by decide
    have hf : findFreeBlk largeHeap (align size 0x10) = some (0xF0000010, _) :=
      findFreeBlk_head (.singleton hchain (by decide)) hlt
    exact ⟨largeHeap, [], _, _, requests_largeHeap, malloc_of_found h0 (by decide) (by decide) hf, by decide⟩

/-- No block holds a product that has wrapped. -/
theorem not_callocHolds_product (h0 : size * nmenb ≠ 0) (hs : size * nmenb ≤ 0x0FFFFFE0)
    (hw : 2 ^ 32 ≤ size.toNat * nmenb.toNat) :
    ∃ h live, Requests heapPages (· ≤ 0xFFFFFFE0) h live ∧ ¬ CallocHolds heapPages h size nmenb := by
  obtain ⟨h, live, p, h', r, hm, hp⟩ := exists_served h0 hs
  refine ⟨h, live, r, fun H => ?_⟩
  obtain ⟨pages, q, -, -, -, -, -, hle⟩ := H p _ (calloc_eq hm) hp
  exact absurd (hw.trans hle) (Nat.not_le.mpr (BitVec.isLt _))

/-- `NULL` is cleared. -/
theorem not_callocQuiet (h0 : size * nmenb ≠ 0) : ¬ CallocQuiet noPages ⟨fun _ => 0xFF, 0, 0, 0⟩ size nmenb := by
  intro H
  have hm : malloc noPages ⟨fun _ => 0xFF, 0, 0, 0⟩ (size * nmenb) = some (0, ⟨fun _ => 0xFF, 0, 0, 1⟩) := by
    rw [malloc, if_neg h0]
    rfl
  have he : Mem.memset (fun _ => 0xFF) 0 0 (size * nmenb).toNat 0 = 0xFF :=
    congrFun (H (fun _ _ => rfl) _ (calloc_eq hm)) 0
  rw [Mem.memset_apply _ _ _ _ (size * nmenb).isLt.le, if_pos] at he
  · exact absurd he (by decide)
  · exact Nat.pos_of_ne_zero fun e => h0 (BitVec.eq_of_toNat_eq (by simpa using e))

end

/-- For which requests the heap is right, in every state that such requests lead to: `malloc` up
to `0xFFFFFFE0`, `calloc` if besides its product does not wrap, or wraps to nothing that a heap
can serve. Without memory, `calloc` writes nothing only if there is nothing to clear. -/
theorem sizes_iff (size nmenb : Word) :
    ((∀ src h live, src.Lawful → Requests src (· ≤ 0xFFFFFFE0) h live → MallocHolds src h size) ↔
      size ≤ 0xFFFFFFE0) ∧
    ((∀ src h live, src.Lawful → Requests src (· ≤ 0xFFFFFFE0) h live → CallocHolds src h size nmenb) ↔
      Fitting size nmenb) ∧
    ((∀ src h live, src.Lawful → Requests src (· ≤ 0xFFFFFFE0) h live → CallocQuiet src h size nmenb) ↔
      size * nmenb = 0) := by
  refine ⟨⟨fun H => ?_, fun hs src h live L r => mallocHolds_of_le L r hs⟩,
    ⟨fun H => ?_, fun hf src h live L r => callocHolds_of_fitting L r hf⟩,
    ⟨fun H => ?_, fun h0 src h live _ _ _ h' hc => ?_⟩⟩
  · by_contra hs
    exact not_mallocHolds (BitVec.not_le.mp hs) (H _ _ _ heapPages_lawful requests_smallHeap)
  · have hle : size * nmenb ≤ 0xFFFFFFE0 := by
      by_contra hs
      exact not_callocHolds (BitVec.not_le.mp hs) (H _ _ _ heapPages_lawful requests_smallHeap)
    refine ⟨hle, ?_⟩
    by_contra hn
    simp only [not_or] at hn
    obtain ⟨hw, h0, hbig⟩ := hn
    obtain ⟨h, live, r, hc⟩ := not_callocHolds_product h0 (BitVec.not_lt.mp hbig) (Nat.not_lt.mp hw)
    exact hc (H _ _ _ heapPages_lawful r)
  · by_contra h0
    exact not_callocQuiet h0 (H _ _ _ noPages_lawful (.empty _))
  · cases (calloc_zero h0).symm.trans hc
    rfl

/-- `malloc(0xFFFFFFFF)` returns a block that is empty. -/
theorem not_sizes : ¬ ∀ (src : PageSource) (h : Heap) (live : List Live), src.Lawful →
    Requests src (· ≤ 0xFFFFFFE0) h live → ∀ size nmenb : Word,
      MallocHolds src h size ∧ CallocHolds src h size nmenb ∧ CallocQuiet src h size nmenb := fun H =>
  not_mallocHolds (by decide) (H _ _ _ heapPages_lawful requests_smallHeap 0xFFFFFFFF 0).1

end AlexOS.Malloc
