import AlexOS.Heap.Layout

/-!
# The invariant of the heap

`Inv h pages free live`: the page list is `pages`, the free list is `frees`,
and the blocks of both `frees` and `live` (what `malloc` has handed out) are laid
out on the pages. Each elementary change keeps it: a write away from the
headers (`Inv.keep`), a block put on the free list (`Inv.push`) or taken off it
(`Inv.pop`, `Inv.unlink`), a page added (`Inv.grow`) and a block carved from
one (`Inv.carve`).
-/

namespace AlexOS.Malloc

/-- A pointer handed out by `malloc`, and the size it was asked for. -/
structure Live where
  ptr : Addr
  asked : Word
deriving DecidableEq

def Live.header (l : Live) : Addr := l.ptr - sizeofBlkHeader

/-- The blocks of the heap: free or handed out. -/
def Block (frees : List Addr) (live : List Live) (b : Addr) : Prop :=
  b ∈ frees ∨ b ∈ live.map Live.header

structure Inv (h : Heap) (pages frees : List Addr) (live : List Live) : Prop where
  pageChain : Chain (next h.mem) 0 h.pageList pages
  freeChain : Chain (next h.mem) 0 h.freeList frees
  layout : Layout h.mem pages (Block frees live)
  nodup : (live.map Live.header).Nodup
  apart : ∀ b ∈ frees, b ∉ live.map Live.header
  asked : ∀ l ∈ live, 0 < l.asked.toNat ∧ l.asked.toNat ≤ (actualSize h.mem l.header).toNat

namespace Inv

variable {h h' : Heap} {pages frees : List Addr} {live : List Live} {b p q : Addr} {l : Live}

theorem header_free (hb : b ∈ frees) : Header pages (Block frees live) b := .inr (.inl hb)

theorem header_live (hl : l ∈ live) : Header pages (Block frees live) l.header :=
  .inr (.inr (List.mem_map_of_mem hl))

/-- The header of a live block lies right before its payload. -/
theorem ptr_eq (I : Inv h pages frees live) (hl : l ∈ live) :
    l.ptr.toNat = l.header.toNat + 12 := by
  have ht := I.layout.block_top (.inr (List.mem_map_of_mem hl))
  have ha := I.asked l hl
  have e : l.ptr = l.header + sizeofBlkHeader := (sub_add_cancel l.ptr sizeofBlkHeader).symm
  have h12 : sizeofBlkHeader.toNat = 12 := rfl
  simp only [blkEnd] at ht
  rw [e, toNat_add_const (by omega), h12]

theorem ptr_ne_zero (I : Inv h pages frees live) (hl : l ∈ live) : l.ptr ≠ 0 := fun e => by
  have := I.ptr_eq hl
  rw [e] at this
  simp at this

/-- The invariant from headers that keep their sizes. -/
theorem of_sizes (I : Inv h pages frees live) (hp : Chain (next h'.mem) 0 h'.pageList pages)
    (hf : Chain (next h'.mem) 0 h'.freeList frees)
    (ks : ∀ p ∈ pages, pageSize h'.mem p = pageSize h.mem p ∧ usedSize h'.mem p = usedSize h.mem p)
    (ka : ∀ b, Block frees live b → actualSize h'.mem b = actualSize h.mem b) :
    Inv h' pages frees live where
  pageChain := hp
  freeChain := hf
  layout := I.layout.congr ks ka
  nodup := I.nodup
  apart := I.apart
  asked l hl := by rw [ka _ (.inr (List.mem_map_of_mem hl))]; exact I.asked l hl

/-- A write that keeps the headers. -/
theorem keep (I : Inv h pages frees live) (hp : h'.pageList = h.pageList)
    (hf : h'.freeList = h.freeList)
    (k : ∀ x, Header pages (Block frees live) x → Kept h.mem h'.mem x) : Inv h' pages frees live :=
  I.of_sizes (hp ▸ I.pageChain.congr fun x hx => (k x (.inl hx)).next)
    (hf ▸ I.freeChain.congr fun x hx => (k x (header_free hx)).next)
    (fun p hp => ⟨(k p (.inl hp)).pageSize, (k p (.inl hp)).usedSize⟩)
    fun b hb => (k b (.inr hb)).actualSize

/-! ## Stores to the words of a header -/

section Fields

variable (m : Mem) (x : Addr) (v : Word)

/-- A read at one constant offset after a store at another. -/
theorem load_store (j k : Word) (h : 4 ≤ (k - j).toNat) (h' : 4 ≤ (j - k).toNat) :
    (m.store32 (x + j) v).load32 (x + k) = m.load32 (x + k) := Mem.load32_store32_offset j k h h'

theorem load_store_next (k : Word) (h : 4 ≤ k.toNat) (h' : 4 ≤ (-k).toNat) :
    (m.store32 x v).load32 (x + k) = m.load32 (x + k) := by
  have := load_store m x v 0 k (by simpa using h) (by simpa using h')
  rwa [add_zero] at this

theorem next_store (j : Word) (h : 4 ≤ j.toNat) (h' : 4 ≤ (-j).toNat) :
    next (m.store32 (x + j) v) x = next m x := by
  have := load_store m x v j 0 (by simpa using h') (by simpa using h)
  rwa [add_zero] at this

theorem next_store_next : next (m.store32 x v) x = v := Mem.load32_store32_self m x v

/-- A store to `next` keeps the sizes. -/
theorem sizes_store_next :
    pageSize (m.store32 x v) x = pageSize m x ∧ usedSize (m.store32 x v) x = usedSize m x ∧
      actualSize (m.store32 x v) x = actualSize m x :=
  ⟨load_store_next m x v 4 (by decide) (by decide), load_store_next m x v 8 (by decide) (by decide),
    load_store_next m x v 8 (by decide) (by decide)⟩

/-- A store to `nb_block` keeps a page header. -/
theorem kept_nbBlock : Kept m (m.store32 (x + 12) v) x :=
  ⟨next_store m x v 12 (by decide) (by decide), load_store m x v 12 4 (by decide) (by decide),
    load_store m x v 12 8 (by decide) (by decide), load_store m x v 12 8 (by decide) (by decide)⟩

end Fields

/-! ## The free list -/

/-- A block taken off the free list, to hold up to its `actual_size`. -/
theorem take {frees' : List Addr} {size : Word} (I : Inv h pages frees live)
    (hp : Chain (next h'.mem) 0 h'.pageList pages) (hf : Chain (next h'.mem) 0 h'.freeList frees')
    (hs : ∀ x, Header pages (Block frees live) x → pageSize h'.mem x = pageSize h.mem x ∧
      usedSize h'.mem x = usedSize h.mem x ∧ actualSize h'.mem x = actualSize h.mem x)
    (hb : b ∈ frees) (hsub : ∀ x ∈ frees', x ∈ frees ∧ x ≠ b)
    (hsize : 0 < size.toNat ∧ size.toNat ≤ (actualSize h.mem b).toNat) :
    Inv h' pages frees' (⟨b + sizeofBlkHeader, size⟩ :: live) := by
  have e : Live.header ⟨b + sizeofBlkHeader, size⟩ = b := add_sub_cancel_right b sizeofBlkHeader
  have L := I.layout.congr (fun p hp => ⟨(hs p (.inl hp)).1, (hs p (.inl hp)).2.1⟩)
    fun b hb => (hs b (.inr hb)).2.2
  refine ⟨hp, hf, L.mono fun x hx => ?_, ?_, fun x hx => ?_, fun l hl => ?_⟩
  · rcases hx with hx | hx
    · exact .inl (hsub x hx).1
    · rw [List.map_cons, e] at hx
      rcases List.mem_cons.mp hx with rfl | hx
      · exact .inl hb
      · exact .inr hx
  · rw [List.map_cons, e]
    exact List.nodup_cons.mpr ⟨I.apart b hb, I.nodup⟩
  · rw [List.map_cons, e, List.mem_cons, not_or]
    exact ⟨(hsub x hx).2, I.apart x (hsub x hx).1⟩
  · rcases List.mem_cons.mp hl with rfl | hl
    · rw [e, (hs b (header_free hb)).2.2]; exact hsize
    · rw [(hs _ (header_live hl)).2.2]; exact I.asked l hl

/-- The first free block is taken off the list. -/
theorem pop {size : Word} (I : Inv h pages (b :: frees) live)
    (hsize : 0 < size.toNat ∧ size.toNat ≤ (actualSize h.mem b).toNat) :
    Inv { h with freeList := next h.mem b } pages frees (⟨b + sizeofBlkHeader, size⟩ :: live) := by
  refine I.take I.pageChain I.freeChain.2.2 (fun _ _ => ⟨rfl, rfl, rfl⟩) List.mem_cons_self
    (fun x hx => ⟨List.mem_cons_of_mem _ hx, fun e => ?_⟩) hsize
  exact (List.nodup_cons.mp I.freeChain.nodup).1 (e ▸ hx)

/-- The `next` of a page or of a block is written. -/
theorem keep_next {v : Word} {y : Addr} (I : Inv h pages frees live)
    (hy : Header pages (Block frees live) y) {x : Addr} (hx : Header pages (Block frees live) x) :
    (x ≠ y → Kept h.mem (h.store y v).mem x) ∧
      pageSize (h.store y v).mem x = pageSize h.mem x ∧
      usedSize (h.store y v).mem x = usedSize h.mem x ∧
      actualSize (h.store y v).mem x = actualSize h.mem x := by
  have k : x ≠ y → Kept h.mem (h.store y v).mem x := fun hne =>
    I.layout.keep_header hy (Nat.le_refl _) (by omega) hx hne
  refine ⟨k, ?_⟩
  by_cases e : x = y
  · subst e; exact sizes_store_next h.mem x v
  · exact ⟨(k e).pageSize, (k e).usedSize, (k e).actualSize⟩

/-- A page is not a block. -/
theorem page_ne_block (I : Inv h pages frees live) (hp : p ∈ pages) (hb : Block frees live b) :
    p ≠ b := by
  rintro rfl
  have := I.layout.page_block hp hb
  simp only [blkEnd] at this
  omega

/-- A free block behind `x` is taken off the list. -/
theorem unlink {pre post : List Addr} {x : Addr} {size : Word}
    (I : Inv h pages (pre ++ x :: b :: post) live)
    (hsize : 0 < size.toNat ∧ size.toNat ≤ (actualSize h.mem b).toNat) :
    Inv (h.store x (next h.mem b)) pages (pre ++ x :: post)
      (⟨b + sizeofBlkHeader, size⟩ :: live) := by
  have hx : x ∈ pre ++ x :: b :: post := by simp
  have hn := I.freeChain.nodup
  have k := fun y hy => I.keep_next (v := next h.mem b) (header_free hx) (x := y) hy
  refine I.take (I.pageChain.congr fun p hp => ((k p (.inl hp)).1 (I.page_ne_block hp (.inl hx))).next)
    (I.freeChain.unlink (fun z hz => ?_) (next_store_next _ _ _)) (fun y hy => (k y hy).2) (by simp)
    (fun y hy => ?_) hsize
  · refine ((k z (header_free ?_)).1 ?_).next
    · simp only [List.mem_append, List.mem_cons] at hz ⊢
      tauto
    · rintro rfl
      simp only [List.nodup_append, List.nodup_cons, List.mem_append, List.mem_cons] at hn hz
      grind
  · simp only [List.nodup_append, List.nodup_cons, List.mem_append, List.mem_cons] at hn hy ⊢
    grind

/-- The header of a live block belongs to no other. -/
theorem header_erase (I : Inv h pages frees live) (hl : l ∈ live) {x : Addr}
    (hx : x ∈ (live.erase l).map Live.header) : x ∈ live.map Live.header ∧ x ≠ l.header := by
  have hp := (List.perm_cons_erase hl).map Live.header
  rw [List.map_cons] at hp
  have hn := List.nodup_cons.mp (hp.nodup_iff.mp I.nodup)
  exact ⟨hp.mem_iff.mpr (List.mem_cons_of_mem _ hx), fun e => hn.1 (e ▸ hx)⟩

/-- A live block is put on the free list. -/
theorem push (I : Inv h pages frees live) (hl : l ∈ live) :
    Inv (free h l.ptr) pages (l.header :: frees) (live.erase l) := by
  have hb : Block frees live l.header := .inr (List.mem_map_of_mem hl)
  have k := fun y hy => I.keep_next (v := h.freeList) (.inr hb) (x := y) hy
  have he : ∀ x, x ∈ (live.erase l).map Live.header → x ∈ live.map Live.header ∧ x ≠ l.header :=
    fun x hx => I.header_erase hl hx
  have h0 : l.header ≠ 0 := fun e => by
    have := I.layout.block_top hb
    rw [e] at this
    exact absurd this.1 (by decide)
  have L := I.layout.congr (fun p hp => ⟨(k p (.inl hp)).2.1, (k p (.inl hp)).2.2.1⟩)
    fun b hb => (k b (.inr hb)).2.2.2
  refine ⟨I.pageChain.congr fun p hp => ((k p (.inl hp)).1 (I.page_ne_block hp hb)).next,
    I.freeChain.push h0 (fun y hy => ?_) (next_store_next _ _ _), L.mono fun x hx => ?_, ?_,
    fun x hx => ?_, fun l' hl' => ?_⟩
  · exact ((k y (header_free hy)).1 fun e => I.apart y hy (e ▸ List.mem_map_of_mem hl)).next
  · rcases hx with hx | hx
    · rcases List.mem_cons.mp hx with rfl | hx
      · exact hb
      · exact .inl hx
    · exact .inr (he x hx).1
  · exact I.nodup.sublist ((live.erase_sublist (a := l)).map _)
  · rcases List.mem_cons.mp hx with rfl | hx
    · exact fun h => (he _ h).2 rfl
    · exact fun h => I.apart x hx (he x h).1
  · have hl' := List.mem_of_mem_erase hl'
    have e := (k _ (header_live hl')).2.2.2
    simp only [free]
    rw [show l.ptr - sizeofBlkHeader = l.header from rfl]
    simpa only [e] using I.asked l' hl'

/-- The `size` of a block is written, which the heap never reads. -/
theorem store_size {v : Word} (I : Inv h pages frees live) (hb : Block frees live b) :
    Inv (h.store (b + 4) v) pages frees live := by
  have ht := I.layout.header_top (.inr hb)
  have e4 : (b + 4).toNat = b.toNat + 4 := toNat_add_const (by simp; omega)
  have k : ∀ x, Header pages (Block frees live) x → x ≠ b → Kept h.mem (h.store (b + 4) v).mem x :=
    fun x hx hne => I.layout.keep_header (.inr hb) (by omega) (by omega) hx hne
  have hp : ∀ p ∈ pages, p ≠ b := fun p hp => I.page_ne_block hp hb
  refine I.of_sizes (I.pageChain.congr fun p h' => (k p (.inl h') (hp p h')).next)
    (I.freeChain.congr fun x hx => ?_) (fun p h' => ?_) fun x hx => ?_
  · by_cases e : x = b
    · rw [e]; exact next_store _ _ _ 4 (by decide) (by decide)
    · exact (k x (header_free hx) e).next
  · exact ⟨(k p (.inl h') (hp p h')).pageSize, (k p (.inl h') (hp p h')).usedSize⟩
  · by_cases e : x = b
    · rw [e]; exact load_store _ _ _ 4 8 (by decide) (by decide)
    · exact (k x (.inr hx) e).actualSize

/-! ## The pages -/

/-- A page `q` is added behind the others. -/
theorem grow (I : Inv h pages frees live) (hp : Chain (next h'.mem) 0 h'.pageList (pages ++ [q]))
    (hf : h'.freeList = h.freeList) (kn : ∀ b ∈ frees, next h'.mem b = next h.mem b)
    (ks : ∀ x, Header pages (Block frees live) x → pageSize h'.mem x = pageSize h.mem x ∧
      usedSize h'.mem x = usedSize h.mem x ∧ actualSize h'.mem x = actualSize h.mem x)
    (hq : ∀ p ∈ pages, pageEnd h.mem p ≤ q.toNat) (hlow : STARTING_PAGE.toNat ≤ q.toNat)
    (htop : pageEnd h'.mem q ≤ 2 ^ 32) (hu : usedSize h'.mem q = sizeofPageHeader)
    (hs : 16 ≤ (pageSize h'.mem q).toNat) : Inv h' (pages ++ [q]) frees live := by
  have J := I.layout.congr (fun p hp => ⟨(ks p (.inl hp)).1, (ks p (.inl hp)).2.1⟩)
    fun b hb => (ks b (.inr hb)).2.2
  have hu' : (usedSize h'.mem q).toNat = 16 := by rw [hu]; rfl
  refine ⟨hp, hf ▸ I.freeChain.congr kn, ⟨fun p hp => ?_, fun p hp => ?_, fun p hp => ?_, ?_,
    fun b hb => ?_, J.apart⟩, I.nodup, I.apart, fun l hl => ?_⟩
  · rcases List.mem_append.mp hp with hp | hp
    · exact J.low p hp
    · rw [List.mem_singleton.mp hp]; exact hlow
  · rcases List.mem_append.mp hp with hp | hp
    · exact J.top p hp
    · rw [List.mem_singleton.mp hp]; exact htop
  · rcases List.mem_append.mp hp with hp | hp
    · exact J.used p hp
    · rw [List.mem_singleton.mp hp, usedEnd, pageEnd]; omega
  · refine List.pairwise_append.mpr ⟨J.ordered, List.pairwise_singleton _ _, fun p hp x hx => ?_⟩
    rw [List.mem_singleton.mp hx, pageEnd, (ks p (.inl hp)).1]
    exact hq p hp
  · obtain ⟨p, hp, h1, h2⟩ := J.inPage b hb
    exact ⟨p, List.mem_append_left _ hp, h1, h2⟩
  · rw [(ks _ (header_live hl)).2.2]; exact I.asked l hl

/-- The addresses of the stores of `carve`. -/
theorem carve_addresses (I : Inv h pages frees live) {alignSize : Word} (hp : p ∈ pages)
    (hr : usedEnd h.mem p + 12 + alignSize.toNat ≤ pageEnd h.mem p) (hb : b = p + usedSize h.mem p) :
    b.toNat = usedEnd h.mem p ∧ (b + 4).toNat = b.toNat + 4 ∧ (b + 8).toNat = b.toNat + 8 ∧
      (p + 8).toNat = p.toNat + 8 ∧ (p + 12).toNat = p.toNat + 12 := by
  have hu := I.layout.used p hp; have ht := I.layout.top p hp
  have eb : b.toNat = usedEnd h.mem p := by
    rw [hb, toNat_add_const (by simp only [usedEnd, pageEnd] at *; omega)]; rfl
  have e4 : (b + 4).toNat = b.toNat + 4 := toNat_add_const (by simp; omega)
  have e8 : (b + 8).toNat = b.toNat + 8 := toNat_add_const (by simp; omega)
  have p8 : (p + 8).toNat = p.toNat + 8 := toNat_add_const (by simp; omega)
  have p12 : (p + 12).toNat = p.toNat + 12 := toNat_add_const (by simp; omega)
  exact ⟨eb, e4, e8, p8, p12⟩

/-- The memory after the stores of `carve`. -/
theorem carve_words (I : Inv h pages frees live) (size : Word) {alignSize : Word} (hp : p ∈ pages)
    (hr : usedEnd h.mem p + 12 + alignSize.toNat ≤ pageEnd h.mem p) (hb : b = p + usedSize h.mem p) :
    let m := (carve h p size alignSize).2.mem
    (∀ x, Header pages (Block frees live) x → next m x = next h.mem x ∧
      pageSize m x = pageSize h.mem x ∧ (x ≠ p → usedSize m x = usedSize h.mem x ∧
        actualSize m x = actualSize h.mem x)) ∧
      (usedSize m p).toNat = (usedSize h.mem p).toNat + 12 + alignSize.toNat ∧
      actualSize m b = alignSize := by
  have hu := I.layout.used p hp; have ht := I.layout.top p hp
  obtain ⟨eb, e4, e8, p8, p12⟩ := carve_addresses I hp hr hb
  -- the stores to the new header, in the unused part of the page
  obtain ⟨m₁, hm₁⟩ : ∃ m₁, m₁ = ((h.mem.store32 (b + 4) size).store32 (b + 8) alignSize).store32 b 0 :=
    ⟨_, rfl⟩
  have k₁ : ∀ x, Header pages (Block frees live) x → Kept h.mem m₁ x := fun x hx => by
    refine I.layout.keep (I.layout.clear_unused hp) (fun y hy => ?_) hx
    have o {m : Mem} {a : Addr} {v : Word} (h1 : usedEnd h.mem p ≤ a.toNat)
        (h2 : a.toNat + 4 ≤ pageEnd h.mem p) : m.store32 a v y = m y :=
      Mem.store32_outside (by omega) (by omega)
    rw [hm₁, o (by omega) (by omega), o (by omega) (by omega), o (by omega) (by omega)]
  have a₁ : actualSize m₁ b = alignSize := by
    rw [hm₁, (sizes_store_next _ _ _).2.2]; exact Mem.load32_store32_self _ _ _
  have u₁ := (k₁ p (.inl hp)).usedSize
  -- the stores to the page header
  have L₁ := I.layout.of_kept k₁
  obtain ⟨m₂, hm₂⟩ : ∃ m₂, m₂ = m₁.store32 (p + 8)
    (usedSize m₁ p + (sizeofBlkHeader + actualSize m₁ b)) :=
    ⟨_, rfl⟩
  have k₂ : ∀ x, Header pages (Block frees live) x → x ≠ p → Kept m₁ m₂ x := fun x hx hne => by
    rw [hm₂]; exact L₁.keep_header (.inl hp) (by omega) (by omega) hx hne
  have s₂ : next m₂ p = next m₁ p ∧ pageSize m₂ p = pageSize m₁ p := by
    rw [hm₂]
    exact ⟨next_store _ _ _ 8 (by decide) (by decide), load_store _ _ _ 8 4 (by decide) (by decide)⟩
  obtain ⟨m₃, hm₃⟩ : ∃ m₃, m₃ = m₂.store32 (p + 12) (nbBlock m₂ p + 1) := ⟨_, rfl⟩
  have k₃ : ∀ x, Header pages (Block frees live) x → Kept m₂ m₃ x := fun x hx => by
    by_cases e : x = p
    · rw [hm₃, e]; exact kept_nbBlock m₂ p _
    · have := L₁.clear_nbBlock hp x hx; have := (I.layout.header_top hx).2
      rw [hm₃]
      exact Kept.of_eqOn (Mem.store32_eqOn (by omega) (by omega)) (by omega)
  have hm : (carve h p size alignSize).2.mem = m₃ := by
    rw [hm₃, hm₂, hm₁, hb]; rfl
  rw [hm]
  refine ⟨fun x hx => ?_, ?_, ?_⟩
  · by_cases e : x = p
    · subst e
      exact ⟨(k₃ x hx).next.trans (s₂.1.trans (k₁ x hx).next),
        (k₃ x hx).pageSize.trans (s₂.2.trans (k₁ x hx).pageSize), fun h => absurd rfl h⟩
    · have k := ((k₁ x hx).trans (k₂ x hx e)).trans (k₃ x hx)
      exact ⟨k.next, k.pageSize, fun _ => ⟨k.usedSize, k.actualSize⟩⟩
  · rw [(k₃ p (.inl hp)).usedSize, hm₂]
    have e : usedSize (m₁.store32 (p + 8) (usedSize m₁ p + (sizeofBlkHeader + actualSize m₁ b))) p =
        usedSize m₁ p + (sizeofBlkHeader + actualSize m₁ b) := Mem.load32_store32_self _ _ _
    rw [e, a₁, u₁]
    simp only [usedEnd, pageEnd] at hr ht
    have h12 : sizeofBlkHeader.toNat = 12 := rfl
    rw [toNat_add_const, toNat_add_const, h12]
    · omega
    · omega
    · rw [toNat_add_const (by omega)]; omega
  · have h8 : (b + 8).toNat + 4 ≤ 2 ^ 32 := by omega
    rw [← a₁, hm₃, hm₂]
    have e₁ {m : Mem} {a : Addr} {v : Word} (h1 : a.toNat + 4 ≤ b.toNat) :
        actualSize (m.store32 a v) b = actualSize m b :=
      (Kept.of_eqOn (Mem.store32_eqOn (by omega) (by omega)) (by omega)).actualSize
    rw [e₁ (by omega), e₁ (by omega)]

/-- A block is carved from a page with room. -/
theorem carve (I : Inv h pages frees live) (size : Word) {alignSize : Word} (hp : p ∈ pages)
    (hr : usedEnd h.mem p + 12 + alignSize.toNat ≤ pageEnd h.mem p)
    (hsize : 0 < size.toNat ∧ size.toNat ≤ alignSize.toNat) :
    Inv (carve h p size alignSize).2 pages frees
      (⟨(Malloc.carve h p size alignSize).1, size⟩ :: live) := by
  obtain ⟨b, hb⟩ : ∃ b, b = p + usedSize h.mem p := ⟨_, rfl⟩
  obtain ⟨k, u, a⟩ := I.carve_words size hp hr hb
  have hu := I.layout.used p hp; have ht := I.layout.top p hp
  have eb : b.toNat = usedEnd h.mem p := by
    rw [hb, toNat_add_const (by simp only [usedEnd, pageEnd] at *; omega)]; rfl
  have e : Live.header ⟨(Malloc.carve h p size alignSize).1, size⟩ = b := by
    rw [hb]; exact add_sub_cancel_right _ sizeofBlkHeader
  generalize (Malloc.carve h p size alignSize).1 = ptr at e ⊢
  have hpl : (Malloc.carve h p size alignSize).2.pageList = h.pageList := rfl
  have hfl : (Malloc.carve h p size alignSize).2.freeList = h.freeList := rfl
  generalize Malloc.carve h p size alignSize = r at k u a hpl hfl ⊢
  have hne : ∀ c, Block frees live c → c ≠ b := fun c hc => I.layout.ne_usedEnd hp eb hc (by omega)
  have kb : ∀ c, Block frees live c → actualSize r.2.mem c = actualSize h.mem c := fun c h' =>
    ((k c (.inr h')).2.2 fun e => I.page_ne_block hp (e ▸ h') rfl).2
  have L := I.layout.carve hp eb (by rwa [a]) (fun x hx => (k x (.inl hx)).2.1)
    (fun x hx hxp => ((k x (.inl hx)).2.2 hxp).1) (by rwa [a]) kb
  refine ⟨hpl ▸ I.pageChain.congr fun x hx => (k x (.inl hx)).1,
    hfl ▸ I.freeChain.congr fun x hx => (k x (header_free hx)).1, L.mono fun x hx => ?_, ?_, fun x hx => ?_,
    fun l hl => ?_⟩
  · rwa [Block, List.map_cons, e, List.mem_cons, or_left_comm] at hx
  · rw [List.map_cons, e]
    exact List.nodup_cons.mpr ⟨fun h' => hne b (.inr h') rfl, I.nodup⟩
  · rw [List.map_cons, e, List.mem_cons, not_or]
    exact ⟨hne x (.inl hx), I.apart x hx⟩
  · rcases List.mem_cons.mp hl with rfl | hl
    · rw [e, a]; exact hsize
    · rw [kb _ (.inr (List.mem_map_of_mem hl))]; exact I.asked l hl

end Inv

end AlexOS.Malloc
