import AlexOS.Heap.Malloc
import Mathlib.Data.List.Pairwise

/-!
# The layout of the heap

`Layout m pages B`: the pages lie one after another, none past the end of the
address space, and every block of `B` (its header and its payload) lies in the
used part of a page, behind the page header and apart from every other block
of `B`. Only the words `size`, `used_size` and `actual_size` of these headers
matter (`Layout.congr`), and the layout itself says which writes leave them
alone: those to a payload or to the unused part of a page (`Layout.keep`), and
those to another header (`Layout.keep_header`).
-/

namespace AlexOS.Malloc

/-- The first address after the block `b`. -/
def blkEnd (m : Mem) (b : Addr) : Nat := b.toNat + 12 + (actualSize m b).toNat

/-- The first addresses after the page `p`, and after its used part. -/
def pageEnd (m : Mem) (p : Addr) : Nat := p.toNat + (pageSize m p).toNat
def usedEnd (m : Mem) (p : Addr) : Nat := p.toNat + (usedSize m p).toNat

structure Layout (m : Mem) (pages : List Addr) (B : Addr → Prop) : Prop where
  low : ∀ p ∈ pages, STARTING_PAGE.toNat ≤ p.toNat
  top : ∀ p ∈ pages, pageEnd m p ≤ 2 ^ 32
  used : ∀ p ∈ pages, p.toNat + 16 ≤ usedEnd m p ∧ usedEnd m p ≤ pageEnd m p
  ordered : pages.Pairwise fun p q => pageEnd m p ≤ q.toNat
  inPage : ∀ b, B b → ∃ p ∈ pages, p.toNat + 16 ≤ b.toNat ∧ blkEnd m b ≤ usedEnd m p
  apart : ∀ b c, B b → B c → b ≠ c → blkEnd m b ≤ c.toNat ∨ blkEnd m c ≤ b.toNat

/-- The address of a page header or of a block header. -/
def Header (pages : List Addr) (B : Addr → Prop) (x : Addr) : Prop := x ∈ pages ∨ B x

/-- The header at `x` keeps its words (all but the `size` of a block, which the
heap never reads). -/
structure Kept (m m' : Mem) (x : Addr) : Prop where
  next : next m' x = next m x
  pageSize : pageSize m' x = pageSize m x
  usedSize : usedSize m' x = usedSize m x
  actualSize : actualSize m' x = actualSize m x

theorem toNat_add_const {a k : Addr} (h : a.toNat + k.toNat < 2 ^ 32) :
    (a + k).toNat = a.toNat + k.toNat := by
  rw [BitVec.toNat_add, Nat.mod_eq_of_lt h]

theorem Kept.of_eqOn {m m' : Mem} {x : Addr} (h : Mem.EqOn x.toNat 12 m m')
    (hw : x.toNat + 12 ≤ 2 ^ 32) : Kept m m' x := by
  have e4 : (x + 4).toNat = x.toNat + 4 := toNat_add_const (by simp; omega)
  have e8 : (x + 8).toNat = x.toNat + 8 := toNat_add_const (by simp; omega)
  have h8 := h.load32 (a := x + 8) (by omega) (by omega) (by omega)
  exact ⟨h.load32 (by omega) (by omega) (by omega),
    h.load32 (a := x + 4) (by omega) (by omega) (by omega), h8, h8⟩

theorem Kept.trans {m₁ m₂ m₃ : Mem} {x : Addr} (h₁ : Kept m₁ m₂ x) (h₂ : Kept m₂ m₃ x) :
    Kept m₁ m₃ x :=
  ⟨h₂.next.trans h₁.next, h₂.pageSize.trans h₁.pageSize, h₂.usedSize.trans h₁.usedSize,
    h₂.actualSize.trans h₁.actualSize⟩

namespace Layout

variable {m m' : Mem} {pages : List Addr} {B B' : Addr → Prop} {p q b c x y : Addr}

theorem page_page (L : Layout m pages B) (hp : p ∈ pages) (hq : q ∈ pages) (hne : p ≠ q) :
    pageEnd m p ≤ q.toNat ∨ pageEnd m q ≤ p.toNat := by
  have : Std.Symm fun p q : Addr => pageEnd m p ≤ q.toNat ∨ pageEnd m q ≤ p.toNat :=
    ⟨fun _ _ => Or.symm⟩
  have hs : pages.Pairwise fun p q => pageEnd m p ≤ q.toNat ∨ pageEnd m q ≤ p.toNat :=
    L.ordered.imp fun h => .inl h
  exact hs.forall hp hq hne

theorem block_top (L : Layout m pages B) (hb : B b) :
    STARTING_PAGE.toNat ≤ b.toNat ∧ blkEnd m b ≤ 2 ^ 32 := by
  obtain ⟨p, hp, h1, h2⟩ := L.inPage b hb
  have := L.low p hp; have := L.top p hp; have := (L.used p hp).2
  omega

theorem page_top (L : Layout m pages B) (hp : p ∈ pages) : p.toNat + 16 ≤ 2 ^ 32 := by
  have := L.top p hp; have := L.used p hp
  omega

/-- A block lies behind the header of every page, or before it. -/
theorem page_block (L : Layout m pages B) (hp : p ∈ pages) (hb : B b) :
    p.toNat + 16 ≤ b.toNat ∨ blkEnd m b ≤ p.toNat := by
  obtain ⟨q, hq, h1, h2⟩ := L.inPage b hb
  by_cases e : p = q
  · subst e; exact .inl h1
  · have := L.used p hp; have := L.used q hq
    rcases L.page_page hp hq e with h | h <;> omega

/-- A block lies outside the unused part of every page. -/
theorem block_unused (L : Layout m pages B) (hp : p ∈ pages) (hb : B b) :
    blkEnd m b ≤ usedEnd m p ∨ pageEnd m p ≤ b.toNat := by
  obtain ⟨q, hq, h1, h2⟩ := L.inPage b hb
  by_cases e : p = q
  · subst e; exact .inl h2
  · have := L.used p hp; have := L.used q hq
    rcases L.page_page hp hq e with h | h <;> omega

/-- The layout of fewer blocks. -/
theorem mono (L : Layout m pages B) (h : ∀ b, B' b → B b) : Layout m pages B' :=
  ⟨L.low, L.top, L.used, L.ordered, fun b hb => L.inPage b (h b hb),
    fun b c hb hc => L.apart b c (h b hb) (h c hc)⟩

/-- A memory with the same sizes has the same layout. -/
theorem congr (L : Layout m pages B)
    (hp : ∀ p ∈ pages, pageSize m' p = pageSize m p ∧ usedSize m' p = usedSize m p)
    (hb : ∀ b, B b → actualSize m' b = actualSize m b) : Layout m' pages B where
  low := L.low
  top p h := by rw [pageEnd, (hp p h).1]; exact L.top p h
  used p h := by rw [usedEnd, pageEnd, (hp p h).1, (hp p h).2]; exact L.used p h
  ordered := by
    refine L.ordered.imp_of_mem fun {p q} h _ hpq => ?_
    rw [pageEnd, (hp p h).1]; exact hpq
  inPage b h := by
    obtain ⟨p, h', h1, h2⟩ := L.inPage b h
    refine ⟨p, h', h1, ?_⟩
    rw [blkEnd, usedEnd, hb b h, (hp p h').2]; exact h2
  apart b c h h' hne := by
    rw [blkEnd, blkEnd, hb b h, hb c h']; exact L.apart b c h h' hne

theorem of_kept (L : Layout m pages B) (k : ∀ x, Header pages B x → Kept m m' x) :
    Layout m' pages B :=
  L.congr (fun p hp => ⟨(k p (.inl hp)).pageSize, (k p (.inl hp)).usedSize⟩)
    fun b hb => (k b (.inr hb)).actualSize

/-! ## A new block -/

theorem ne_usedEnd (L : Layout m pages B) (hp : p ∈ pages) (hb : b.toNat = usedEnd m p) (hc : B c)
    (hr : usedEnd m p < pageEnd m p) : c ≠ b := by
  rintro rfl
  have := L.block_unused hp hc
  simp only [blkEnd] at this
  omega

/-- A block at the end of the used part of a page. -/
theorem carve (L : Layout m pages B) (hp : p ∈ pages) (hb : b.toNat = usedEnd m p)
    (hr : usedEnd m p + 12 + (actualSize m' b).toNat ≤ pageEnd m p)
    (hsize : ∀ x ∈ pages, pageSize m' x = pageSize m x)
    (hused : ∀ x ∈ pages, x ≠ p → usedSize m' x = usedSize m x)
    (hu : (usedSize m' p).toNat = (usedSize m p).toNat + 12 + (actualSize m' b).toNat)
    (hblk : ∀ c, B c → actualSize m' c = actualSize m c) : Layout m' pages fun x => x = b ∨ B x := by
  have hpage := L.used p hp
  have hend : blkEnd m' b = usedEnd m' p := by
    simp only [blkEnd, usedEnd, hu, hb]
    omega
  have hbe : blkEnd m' b ≤ pageEnd m p := by
    rw [hend]
    simp only [usedEnd, pageEnd, hu] at hr ⊢
    omega
  -- the other blocks end before the new one, or begin after the page
  have hout : ∀ c, B c → blkEnd m' c ≤ b.toNat ∨ pageEnd m p ≤ c.toNat := fun c hc => by
    rw [blkEnd, hblk c hc, hb]
    exact L.block_unused hp hc
  refine ⟨L.low, fun x hx => ?_, fun x hx => ?_, ?_, fun x hx => ?_, fun x y hx hy hxy => ?_⟩
  · rw [pageEnd, hsize x hx]
    exact L.top x hx
  · rw [pageEnd, hsize x hx]
    by_cases exp : x = p
    · subst exp
      simp only [usedEnd, pageEnd] at hpage hr ⊢
      omega
    · rw [usedEnd, hused x hx exp]
      exact L.used x hx
  · refine L.ordered.imp_of_mem fun {x y} hx _ hxy => ?_
    rw [pageEnd, hsize x hx]
    exact hxy
  · rcases hx with rfl | hx
    · exact ⟨p, hp, by omega, hend.le⟩
    · obtain ⟨q, hq, h1, h2⟩ := L.inPage x hx
      refine ⟨q, hq, h1, ?_⟩
      rw [blkEnd, hblk x hx]
      by_cases eqp : q = p
      · subst eqp
        simp only [blkEnd, usedEnd] at h2 ⊢
        omega
      · rw [usedEnd, hused q hq eqp]
        exact h2
  · rcases hx with rfl | hx <;> rcases hy with rfl | hy
    · exact absurd rfl hxy
    · exact (hout y hy).symm.imp hbe.trans id
    · exact (hout x hx).imp id hbe.trans
    · rw [blkEnd, blkEnd, hblk x hx, hblk y hy]
      exact L.apart x y hx hy hxy

/-! ## Writes -/

theorem header_top (L : Layout m pages B) (hx : Header pages B x) :
    STARTING_PAGE.toNat ≤ x.toNat ∧ x.toNat + 12 ≤ 2 ^ 32 := by
  rcases hx with h | h
  · have := L.low x h; have := L.page_top h
    omega
  · have := L.block_top h
    simp only [blkEnd] at this
    omega

theorem header_apart (L : Layout m pages B) (hx : Header pages B x) (hy : Header pages B y)
    (hne : x ≠ y) : x.toNat + 12 ≤ y.toNat ∨ y.toNat + 12 ≤ x.toNat := by
  rcases hx with h | h <;> rcases hy with h' | h'
  · have := L.page_page h h' hne; have := L.used x h; have := L.used y h'
    omega
  · have := L.page_block h h'
    simp only [blkEnd] at this
    omega
  · have := L.page_block h' h
    simp only [blkEnd] at this
    omega
  · have := L.apart x y h h' hne
    simp only [blkEnd] at this
    omega

/-- A range of addresses that meets no header. -/
def Clear (pages : List Addr) (B : Addr → Prop) (lo n : Nat) : Prop :=
  ∀ x, Header pages B x → lo + n ≤ x.toNat ∨ x.toNat + 12 ≤ lo

/-- The payload of a block. -/
theorem clear_payload (L : Layout m pages B) (hb : B b) :
    Clear pages B (b.toNat + 12) (actualSize m b).toNat := by
  rintro x (hp | hc)
  · have := L.page_block hp hb
    simp only [blkEnd] at this
    omega
  · by_cases e : b = x
    · subst e; exact .inr (Nat.le_refl _)
    · have := L.apart b x hb hc e
      simp only [blkEnd] at this
      omega

/-- The unused part of a page. -/
theorem clear_unused (L : Layout m pages B) (hp : p ∈ pages) :
    Clear pages B (usedEnd m p) (pageEnd m p - usedEnd m p) := by
  have h := L.used p hp
  rintro q (hq | hb)
  · by_cases e : p = q
    · subst e; omega
    · have := L.page_page hp hq e; have := L.used q hq
      omega
  · have := L.block_unused hp hb
    simp only [blkEnd] at this
    omega

/-- The word `nb_block` of a page. -/
theorem clear_nbBlock (L : Layout m pages B) (hp : p ∈ pages) : Clear pages B (p.toNat + 12) 4 := by
  rintro q (hq | hb)
  · by_cases e : p = q
    · subst e; omega
    · have := L.page_page hp hq e; have := L.used q hq; have := L.used p hp
      omega
  · have := L.page_block hp hb
    simp only [blkEnd] at this
    omega

/-- Headers outside the range that changes are kept. -/
theorem keep {lo n : Nat} (L : Layout m pages B) (hc : Clear pages B lo n)
    (he : ∀ x : Addr, x.toNat < lo ∨ lo + n ≤ x.toNat → m' x = m x) (hx : Header pages B x) :
    Kept m m' x :=
  Kept.of_eqOn (fun y _ _ => he y (by have := hc x hx; omega)) (L.header_top hx).2

/-- A store to a word of the header `y` keeps the other headers. -/
theorem keep_header {a : Addr} {v : Word} (L : Layout m pages B) (hy : Header pages B y)
    (ha : y.toNat ≤ a.toNat) (ha' : a.toNat + 4 ≤ y.toNat + 12) (hx : Header pages B x) (hne : x ≠ y) :
    Kept m (m.store32 a v) x := by
  have := L.header_top hy; have := L.header_apart hx hy hne
  exact Kept.of_eqOn (Mem.store32_eqOn (by omega) (by omega)) (L.header_top hx).2

end Layout

end AlexOS.Malloc
