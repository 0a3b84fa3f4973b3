import AlexOS.Heap.Invariant

/-!
# What the heap leaves alone

`Frame live m m'`: from `m` to `m'` the blocks of `live` keep their
`actual_size` and what is in them. All that the heap writes are headers, the
unused part of a page and new pages; with the invariant, none of these meets a
live block (`Inv.frame_header`, `Inv.frame_page`, `Inv.frame_carve`,
`Inv.frame_initPage`).
-/

namespace AlexOS.Malloc

/-- The live blocks keep their `actual_size`, and the bytes after it. -/
def Frame (live : List Live) (m m' : Mem) : Prop :=
  ∀ l ∈ live, Mem.EqOn (l.header.toNat + 8) (4 + (actualSize m l.header).toNat) m m'

namespace Frame

variable {live live' : List Live} {m m₁ m₂ : Mem} {l : Live}

theorem refl (live : List Live) (m : Mem) : Frame live m m := fun _ _ => .refl _ _ _

theorem mono (F : Frame live m m₁) (h : ∀ l ∈ live', l ∈ live) : Frame live' m m₁ := fun l hl => F l (h l hl)

theorem actualSize (F : Frame live m m₁) (hl : l ∈ live) (hw : l.header.toNat + 12 ≤ 2 ^ 32) :
    actualSize m₁ l.header = actualSize m l.header := by
  have e : (l.header + 8).toNat = l.header.toNat + 8 := toNat_add_const (by simp; omega)
  exact (F l hl).load32 (by omega) (by omega) (by omega)

theorem trans (F₁ : Frame live m m₁) (F₂ : Frame live m₁ m₂)
    (hw : ∀ l ∈ live, l.header.toNat + 12 ≤ 2 ^ 32) :
    Frame live m m₂ := fun l hl => by
  have h₂ := F₂ l hl
  rw [F₁.actualSize hl (hw l hl)] at h₂
  exact (F₁ l hl).trans h₂

end Frame

namespace Inv

variable {h : Heap} {pages frees : List Addr} {live : List Live} {p x a : Addr} {l : Live} {v : Word} {m₁ m₂ : Mem}

theorem block_live (frees : List Addr) (hl : l ∈ live) : Block frees live l.header := .inr (List.mem_map_of_mem hl)

theorem header_top (I : Inv h pages frees live) (hl : l ∈ live) : l.header.toNat + 12 ≤ 2 ^ 32 :=
  (I.layout.header_top (header_live hl)).2

theorem frame_trans (I : Inv h pages frees live) (F₁ : Frame live h.mem m₁) (F₂ : Frame live m₁ m₂) :
    Frame live h.mem m₂ := F₁.trans F₂ fun _ hl => I.header_top hl

/-- A store to `next` or `size` of a header. -/
theorem frame_header (I : Inv h pages frees live) (hx : Header pages (Block frees live) x)
    (ha : x.toNat ≤ a.toNat) (ha' : a.toNat + 4 ≤ x.toNat + 8) : Frame live h.mem (h.mem.store32 a v) := by
  intro l hl
  have hw := (I.layout.header_top hx).2
  refine Mem.store32_eqOn (by omega) ?_
  by_cases e : x = l.header
  · subst e
    omega
  have hd : a.toNat + 4 ≤ l.header.toNat ∨ blkEnd h.mem l.header ≤ a.toNat := by
    rcases hx with hp | hb
    · have := I.layout.page_block hp (block_live frees hl)
      omega
    · have := I.layout.apart _ _ hb (block_live frees hl) e
      simp only [blkEnd] at this ⊢
      omega
  simp only [blkEnd] at hd
  omega

/-- A store to the `size` of a block. -/
theorem frame_size (I : Inv h pages frees live) (hb : Block frees live x) :
    Frame live h.mem (h.mem.store32 (x + 4) v) := by
  have hw := (I.layout.header_top (.inr hb)).2
  have e4 : (x + 4).toNat = x.toNat + 4 := toNat_add_const (by simp; omega)
  exact I.frame_header (.inr hb) (by omega) (by omega)

/-- A store to the `next` of a page. -/
theorem frame_page (I : Inv h pages frees live) (hp : p ∈ pages) (F : Frame live h.mem m₁) :
    Frame live h.mem (m₁.store32 p v) := fun l hl => by
  have ht := I.layout.page_top hp
  have hd := I.layout.page_block hp (block_live frees hl)
  simp only [blkEnd] at hd
  exact (F l hl).trans (Mem.store32_eqOn (by omega) (by omega))

/-- The stores of `carve`. -/
theorem frame_carve (I : Inv h pages frees live) (size : Word) {alignSize : Word} (hp : p ∈ pages)
    (hr : usedEnd h.mem p + 12 + alignSize.toNat ≤ pageEnd h.mem p) :
    Frame live h.mem (Malloc.carve h p size alignSize).2.mem := by
  intro l hl
  have hu := I.layout.used p hp; have ht := I.layout.top p hp
  have hpage := I.layout.page_block hp (block_live frees hl)
  have hunused := I.layout.block_unused hp (block_live frees hl)
  simp only [blkEnd] at hpage hunused
  obtain ⟨b, hb⟩ : ∃ b, b = p + usedSize h.mem p := ⟨_, rfl⟩
  obtain ⟨eb, e4, e8, p8, p12⟩ := carve_addresses I hp hr hb
  have o {m : Mem} {a : Addr} {v : Word} (hw : a.toNat + 4 ≤ 2 ^ 32)
      (hd : a.toNat + 4 ≤ l.header.toNat + 8 ∨
        l.header.toNat + 12 + (actualSize h.mem l.header).toNat ≤ a.toNat) :
      Mem.EqOn (l.header.toNat + 8) (4 + (actualSize h.mem l.header).toNat) m (m.store32 a v) :=
    Mem.store32_eqOn hw (by omega)
  simp only [Malloc.carve, Heap.store, ← hb]
  -- the header of the new block, then that of the page
  refine (o ?_ ?_).trans ((o ?_ ?_).trans ((o ?_ ?_).trans ((o ?_ ?_).trans (o ?_ ?_)))) <;> omega

/-- The bytes of a page behind the others, or before them all. -/
theorem frame_splice (I : Inv h pages frees live) {q : Addr} {n : Nat} (bytes : Addr → Byte)
    (hw : q.toNat + n ≤ 2 ^ 32)
    (hq : (∀ p ∈ pages, pageEnd h.mem p ≤ q.toNat) ∨ q.toNat + n ≤ STARTING_PAGE.toNat) :
    Frame live h.mem (h.mem.splice q n bytes) := by
  intro l hl
  obtain ⟨p, hp, h1, h2⟩ := I.layout.inPage _ (block_live frees hl)
  have hlow := I.layout.low p hp; have hu := I.layout.used p hp
  simp only [blkEnd] at h2
  refine Mem.splice_eqOn hw (hq.symm.imp (fun h => ?_) fun h => ?_)
  · omega
  · have := h p hp
    omega

/-- The header that `add_page` writes to a page behind the others. -/
theorem frame_initPage (I : Inv h pages frees live) {h' : Heap} {q : Addr} (alignSize : Word)
    (F : Frame live h.mem h'.mem) (hw : q.toNat + 12 ≤ 2 ^ 32)
    (hq : ∀ p ∈ pages, pageEnd h.mem p ≤ q.toNat) :
    Frame live h.mem (Malloc.initPage h' q alignSize).mem := by
  intro l hl
  obtain ⟨p, hp, h1, h2⟩ := I.layout.inPage _ (block_live frees hl)
  have hu := I.layout.used p hp; have hend := hq p hp
  simp only [blkEnd] at h2
  have e4 : (q + 4).toNat = q.toNat + 4 := toNat_add_const (by simp; omega)
  have e8 : (q + 8).toNat = q.toNat + 8 := toNat_add_const (by simp; omega)
  refine (F l hl).trans ?_
  refine (Mem.store32_eqOn ?_ ?_).trans ((Mem.store32_eqOn ?_ ?_).trans (Mem.store32_eqOn ?_ ?_)) <;> omega

end Inv

end AlexOS.Malloc
