import AlexOS.Heap.Frame

/-!
# Safety of the kernel heap

What `add_page`, `find_free_blk` and `malloc` do to the invariant
(`addPage_spec`, `findFreeBlk_spec`, `malloc_spec`), and from it what holds in
every state that a run of `malloc`, `free` and stores to live blocks reaches
(`Reachable.inv`, `heap_safe`).
-/

namespace AlexOS.Malloc

open AlexOS.Malloc.Inv

variable {h : Heap} {pages frees : List Addr} {live : List Live} {size : Word}

theorem align_spec (n base : Word) (h0 : 0 < base.toNat) (hn : n.toNat + base.toNat ≤ 2 ^ 32) :
    n.toNat ≤ (align n base).toNat ∧ (align n base).toNat < n.toNat + base.toNat ∧
      base.toNat ∣ (align n base).toNat := by
  have hm : (n % base).toNat = n.toNat % base.toNat := BitVec.toNat_umod
  have hlt := Nat.mod_lt n.toNat h0
  have hd := Nat.div_add_mod n.toNat base.toNat
  unfold align
  split
  · rename_i e
    rw [e] at hm
    exact ⟨Nat.le_refl _, by omega, Nat.dvd_of_mod_eq_zero hm.symm⟩
  · rename_i e
    have hne : n.toNat % base.toNat ≠ 0 := fun h => e (BitVec.eq_of_toNat_eq (by rw [hm, h]; rfl))
    have hv : (base - n % base + n).toNat = base.toNat - n.toNat % base.toNat + n.toNat := by
      rw [BitVec.toNat_add, BitVec.toNat_sub, hm]
      omega
    have hq : base.toNat - n.toNat % base.toNat + n.toNat = base.toNat * (n.toNat / base.toNat + 1) := by
      rw [Nat.mul_succ]; omega
    exact ⟨by omega, by omega, hv ▸ hq ▸ Nat.dvd_mul_right _ _⟩

/-- What `allocate_new_page` does besides: no pages are not to be had (`Virtual.allocateNewPage_zero`).
The heap asks for pages at `NULL` when it has all of those from `STARTING_PAGE` on, and of the
`2 ^ 20` blocks there are no more left than pages below them. -/
structure PageSource.Lawful (src : PageSource) : Prop where
  zero : ∀ k addr, src.answer k addr 0 = none
  low : ∀ {k n bytes}, src.answer k 0 n = some bytes → 4096 * n.toNat ≤ STARTING_PAGE.toNat

/-- So many bytes are rounded up to pages, or there are no pages for them. -/
def Fits (src : PageSource) (n : Nat) : Prop := n ≤ 0x8000001C ∨ src.Lawful ∧ n ≤ 0xFFFFFFFC

theorem Fits.mono {src : PageSource} {n k : Nat} (hs : Fits src n) (h : k ≤ n) : Fits src k :=
  hs.imp h.trans fun ⟨L, hn⟩ => ⟨L, h.trans hn⟩

theorem Fits.le {src : PageSource} {n : Nat} (hs : Fits src n) : n ≤ 0xFFFFFFFC := by
  rcases hs with hs | ⟨-, hs⟩ <;> omega

/-- The pages that are had for `size` bytes. -/
theorem Fits.answer {src : PageSource} {k : Nat} {a : Addr} {bytes : Addr → Byte} (hs : Fits src size.toNat)
    (ha : src.answer k a (align size PAGE_SIZE / PAGE_SIZE) = some bytes) :
    size.toNat ≤ (align size PAGE_SIZE).toNat ∧ 4096 ∣ (align size PAGE_SIZE).toNat ∧
      4096 * (align size PAGE_SIZE / PAGE_SIZE).toNat = (align size PAGE_SIZE).toNat ∧
      (a = 0 → (align size PAGE_SIZE).toNat ≤ STARTING_PAGE.toNat) := by
  have hP : PAGE_SIZE.toNat = 4096 := rfl
  have hS : STARTING_PAGE.toNat = 0xF0000000 := rfl
  by_cases hbig : size.toNat ≤ 0xFFFFF000
  · obtain ⟨a1, a2, ⟨k, hk⟩⟩ := align_spec size PAGE_SIZE (by decide) (by omega)
    rw [hP] at a2 hk
    have hd : 4096 * (align size PAGE_SIZE / PAGE_SIZE).toNat = (align size PAGE_SIZE).toNat := by
      rw [BitVec.toNat_udiv, hP]; omega
    refine ⟨a1, ⟨k, by omega⟩, hd, fun h0 => ?_⟩
    rcases hs with hs | ⟨L, -⟩
    · omega
    · have := L.low (h0 ▸ ha)
      omega
  · -- the size is rounded up to nothing
    rcases hs with hs | ⟨L, -⟩
    · omega
    have h0 : align size PAGE_SIZE = 0 := by
      have hm : (size % PAGE_SIZE).toNat = size.toNat % 4096 := BitVec.toNat_umod
      have hne : size % PAGE_SIZE ≠ 0 := fun e => by
        rw [e, show (0 : Word).toNat = 0 from rfl] at hm
        omega
      rw [align, if_neg hne]
      refine BitVec.eq_of_toNat_eq ?_
      rw [BitVec.toNat_add, BitVec.toNat_sub, hm, hP, show (0 : Word).toNat = 0 from rfl]
      omega
    rw [h0] at ha
    exact nomatch (L.zero _ _).symm.trans ha

theorem length_le_walkFuel {next : Addr → Addr} {p : Addr} {xs : List Addr} (h : Chain next 0 p xs) :
    xs.length ≤ walkFuel :=
  h.length_le (f := BitVec.toFin) fun _ _ => BitVec.eq_of_toFin_eq

/-- The header that `add_page` writes. -/
theorem initPage_words (h : Heap) {p : Addr} (alignSize : Word) (hp : p.toNat + 12 ≤ 2 ^ 32) :
    next (initPage h p alignSize).mem p = 0 ∧ pageSize (initPage h p alignSize).mem p = alignSize ∧
      usedSize (initPage h p alignSize).mem p = sizeofPageHeader ∧
      ∀ x : Addr, x.toNat + 12 ≤ 2 ^ 32 → x.toNat + 12 ≤ p.toNat ∨ p.toNat + 12 ≤ x.toNat →
        Kept h.mem (initPage h p alignSize).mem x := by
  have e4 : (p + 4).toNat = p.toNat + 4 := toNat_add_const (by simp; omega)
  have e8 : (p + 8).toNat = p.toNat + 8 := toNat_add_const (by simp; omega)
  refine ⟨next_store_next _ _ _, ?_, ?_, fun x hx hd => ?_⟩
  · exact (sizes_store_next _ _ _).1.trans ((load_store _ _ _ 8 4 (by decide) (by decide)).trans
      (Mem.load32_store32_self _ _ _))
  · exact (sizes_store_next _ _ _).2.1.trans (Mem.load32_store32_self _ _ _)
  · have k {m : Mem} {a : Addr} {v : Word} (h1 : p.toNat ≤ a.toNat) (h2 : a.toNat + 4 ≤ p.toNat + 12) :
        Kept m (m.store32 a v) x :=
      Kept.of_eqOn (Mem.store32_eqOn (by omega) (by omega)) hx
    exact (k (by omega) (by omega)).trans ((k (by omega) (by omega)).trans (k (by omega) (by omega)))

/-- The last page, which `add_page` links the new page to. -/
theorem walk_last (I : Inv h pages frees live) (hp : h.pageList ≠ 0) :
    ∃ pre y, pages = pre ++ [y] ∧ next h.mem y = 0 ∧
      walk (next h.mem) (fun p => next h.mem p = 0) walkFuel h.pageList = some y := by
  obtain ⟨pre, y, post, rfl, hw, hy, -⟩ :=
    I.pageChain.walk (fun p => next h.mem p = 0) hp (fun z _ e => by simpa using e)
      (length_le_walkFuel I.pageChain)
  have hy : next h.mem y = 0 := by simpa using hy
  have hn := I.pageChain.next_eq
  cases post with
  | nil => exact ⟨pre, y, rfl, hy, hw⟩
  | cons z post => exact absurd (hn.symm.trans hy) (I.pageChain.ne_null (by simp))

/-- The last page is linked to nothing, once more. -/
theorem store_last {y : Addr} (I : Inv h pages frees live) (hy : y ∈ pages) (hn : next h.mem y = 0) :
    Inv (h.store y 0) pages frees live := by
  refine I.keep rfl rfl fun x hx => ?_
  by_cases e : x = y
  · subst e
    have := sizes_store_next h.mem x 0
    exact ⟨(next_store_next _ _ _).trans hn.symm, this.1, this.2.1, this.2.2⟩
  · exact (I.keep_next (.inl hy) hx).1 e

/-- The first page. -/
theorem addPage_first (I : Inv h pages frees live) (hp : h.pageList = 0) {bytes : Addr → Byte}
    {alignSize : Word} {n c : Nat} (hn : STARTING_PAGE.toNat + alignSize.toNat ≤ 2 ^ 32)
    (h16 : 16 ≤ alignSize.toNat) :
    Inv (initPage ⟨h.mem.splice STARTING_PAGE n bytes, h.freeList, STARTING_PAGE, c⟩ STARTING_PAGE
      alignSize) (pages ++ [STARTING_PAGE]) frees live := by
  obtain rfl := Chain.start_null.mp (hp ▸ I.pageChain)
  have hB : ∀ b, ¬ Block frees live b := fun b hb => by
    obtain ⟨p, h', -⟩ := I.layout.inPage b hb
    cases h'
  have hH : ∀ x, ¬ Header [] (Block frees live) x := fun x hx =>
    hx.elim (fun h => nomatch h) (hB x)
  obtain ⟨w1, w2, w3, -⟩ := initPage_words (p := STARTING_PAGE)
    ⟨h.mem.splice STARTING_PAGE n bytes, h.freeList, STARTING_PAGE, c⟩ alignSize (by decide)
  refine I.grow ⟨rfl, by decide, w1⟩ rfl (fun b hb => absurd (.inl hb) (hB b))
    (fun x hx => absurd hx (hH x)) (fun p hp => nomatch hp) (Nat.le_refl _) ?_ w3 (by rw [w2]; exact h16)
  rw [pageEnd, w2]; exact hn

/-- The pages reach the end of the address space: the next one would be at `NULL`. -/
theorem addPage_null {y : Addr} (I : Inv h pages frees live) (hm : y ∈ pages) (hy : next h.mem y = 0)
    (bytes : Addr → Byte) (c : Nat) {n : Nat} (hlow : n ≤ STARTING_PAGE.toNat) :
    Frame live h.mem ((⟨h.mem.splice 0 n bytes, h.freeList, h.pageList, c⟩ : Heap).store y 0).mem ∧
      Inv ((⟨h.mem.splice 0 n bytes, h.freeList, h.pageList, c⟩ : Heap).store y 0) pages frees live := by
  have hS : STARTING_PAGE.toNat = 0xF0000000 := rfl
  have h00 : (0 : Addr).toNat = 0 := rfl
  have k : ∀ x, Header pages (Block frees live) x → Kept h.mem (h.mem.splice 0 n bytes) x := fun x hx => by
    have hx' := I.layout.header_top hx
    exact Kept.of_eqOn (Mem.splice_eqOn (by omega) (.inl (by omega))) hx'.2
  have J : Inv ⟨h.mem.splice 0 n bytes, h.freeList, h.pageList, c⟩ pages frees live := I.keep rfl rfl k
  exact ⟨I.frame_page hm (I.frame_splice bytes (by omega) (.inr (by omega))),
    store_last J hm ((k y (.inl hm)).next.trans hy)⟩

/-- Where a page behind the last one begins. -/
theorem addPage_end {pre : List Addr} {y q : Addr} (I : Inv h (pre ++ [y]) frees live)
    (hq : q = y + pageSize h.mem y) (h0 : q ≠ 0) :
    q.toNat = pageEnd h.mem y ∧ ∀ p ∈ pre ++ [y], pageEnd h.mem p ≤ q.toNat := by
  have hy : y ∈ pre ++ [y] := by simp
  have eq : q.toNat = pageEnd h.mem y := by
    have h1 : q.toNat = (y.toNat + (pageSize h.mem y).toNat) % 2 ^ 32 := hq ▸ BitVec.toNat_add _ _
    have h2 := I.layout.top y hy
    have h3 : q.toNat ≠ 0 := fun e => h0 (BitVec.eq_of_toNat_eq e)
    simp only [pageEnd] at h2 ⊢
    omega
  refine ⟨eq, fun p hp => ?_⟩
  by_cases e : p = y
  · rw [e, eq]
  · have hpre : p ∈ pre := by simpa [e] using hp
    have := (List.pairwise_append.mp I.layout.ordered).2.2 p hpre y (by simp)
    have := I.layout.used y hy
    omega

/-- A page behind the last one, at its end. -/
theorem addPage_next {pre : List Addr} {y q : Addr} (I : Inv h (pre ++ [y]) frees live)
    (bytes : Addr → Byte) (c : Nat) {alignSize : Word} (hq : q = y + pageSize h.mem y) (h0 : q ≠ 0)
    (hn : q.toNat + alignSize.toNat ≤ 2 ^ 32) (h16 : 16 ≤ alignSize.toNat) :
    Inv (initPage ((⟨h.mem.splice q alignSize.toNat bytes, h.freeList, h.pageList, c⟩ : Heap).store y q)
      q alignSize) (pre ++ [y] ++ [q]) frees live := by
  have hy : y ∈ pre ++ [y] := by simp
  obtain ⟨eq, hend⟩ := addPage_end I hq h0
  have hH : ∀ x, Header (pre ++ [y]) (Block frees live) x → x.toNat + 12 ≤ q.toNat := by
    rintro x (hx | hx)
    · have := hend x hx; have := I.layout.used x hx
      omega
    · obtain ⟨p, hp, -, h2⟩ := I.layout.inPage x hx
      have := hend p hp; have := I.layout.used p hp
      simp only [blkEnd] at h2
      omega
  -- the new page's bytes, then the link to it, then its header
  let h₁ : Heap := ⟨h.mem.splice q alignSize.toNat bytes, h.freeList, h.pageList, c⟩
  have k₁ : ∀ x, Header (pre ++ [y]) (Block frees live) x → Kept h.mem h₁.mem x := fun x hx =>
    Kept.of_eqOn (Mem.splice_eqOn hn (.inr (hH x hx))) (I.layout.header_top hx).2
  have I₁ : Inv h₁ (pre ++ [y]) frees live := I.keep rfl rfl k₁
  have k₂ := fun x hx => I₁.keep_next (v := q) (.inl hy) (x := x) hx
  obtain ⟨w1, w2, w3, w4⟩ := initPage_words (h₁.store y q) alignSize (p := q) (by omega)
  have k₃ : ∀ x, Header (pre ++ [y]) (Block frees live) x →
      Kept (h₁.store y q).mem (initPage (h₁.store y q) q alignSize).mem x :=
    fun x hx => w4 x (I.layout.header_top hx).2 (.inl (hH x hx))
  have hn' : next (initPage (h₁.store y q) q alignSize).mem y = q :=
    (k₃ y (.inl hy)).next.trans (next_store_next _ _ _)
  refine I₁.grow (I₁.pageChain.snoc h0 (fun z hz => ?_) hn' w1) rfl (fun b hb => ?_) (fun x hx => ?_)
    (fun p hp => ?_) ?_ ?_ w3 (by rw [w2]; exact h16)
  · have hz' : z ∈ pre ++ [y] := List.mem_append_left _ hz
    have hne : z ≠ y := by
      rintro rfl
      exact (List.nodup_append.mp I.pageChain.nodup).2.2 z hz z (by simp) rfl
    exact ((k₂ z (.inl hz')).1 hne |>.trans (k₃ z (.inl hz'))).next
  · exact ((k₂ b (header_free hb)).1 (I.page_ne_block hy (.inl hb)).symm |>.trans
      (k₃ b (header_free hb))).next
  · have k := k₃ x hx
    exact ⟨k.pageSize.trans (k₂ x hx).2.1, k.usedSize.trans (k₂ x hx).2.2.1,
      k.actualSize.trans (k₂ x hx).2.2.2⟩
  · rw [pageEnd, (k₁ p (.inl hp)).pageSize]; exact hend p hp
  · have := I.layout.low y hy; have := I.layout.used y hy
    omega
  · rw [pageEnd, w2]; exact hn

theorem allocateNewPage_some {src : PageSource} {addr : Addr} {n : Word} {bytes : Addr → Byte}
    (h' : src.answer h.calls addr n = some bytes) : allocateNewPage src h addr n =
      (addr, ⟨h.mem.splice addr (4096 * n.toNat) bytes, h.freeList, h.pageList, h.calls + 1⟩) := by
  simp only [allocateNewPage, h']

theorem allocateNewPage_none {src : PageSource} {addr : Addr} {n : Word}
    (h' : src.answer h.calls addr n = none) : allocateNewPage src h addr n =
      (0, ⟨h.mem, h.freeList, h.pageList, h.calls + 1⟩) := by
  simp only [allocateNewPage, h']

/-- `add_page` adds a page with room for `size` bytes behind the others, or changes
nothing of the heap. -/
theorem addPage_spec (src : PageSource) (I : Inv h pages frees live) (size : Word) (h0 : 0 < size.toNat)
    (hs : Fits src size.toNat) :
    ∃ ok h', addPage src h size = some (ok, h') ∧ Frame live h.mem h'.mem ∧
      (ok = false → Inv h' pages frees live) ∧
      (ok = true → ∃ q, Inv h' (pages ++ [q]) frees live ∧
        usedSize h'.mem q = sizeofPageHeader ∧ size.toNat ≤ (pageSize h'.mem q).toNat) := by
  have hans {k a bytes} (ha : src.answer k a (align size PAGE_SIZE / PAGE_SIZE) = some bytes) := hs.answer ha
  unfold addPage
  generalize align size PAGE_SIZE = alignSize at *
  by_cases hp : h.pageList = 0
  · have F (m : Mem) : Frame live h.mem m := fun l hl => by
      obtain rfl := Chain.start_null.mp (hp ▸ I.pageChain)
      obtain ⟨p, h', -⟩ := I.layout.inPage _ (block_live frees hl)
      cases h'
    simp only [hp, ite_true]
    cases ha : src.answer h.calls STARTING_PAGE (alignSize / PAGE_SIZE) with
    | none =>
      rw [allocateNewPage_none ha]
      exact ⟨false, _, rfl, F _, fun _ => I.keep hp.symm rfl fun x _ => ⟨rfl, rfl, rfl, rfl⟩, by simp⟩
    | some bytes =>
      obtain ⟨a1, ⟨k, hk⟩, hd, -⟩ := hans ha
      have h16 : 16 ≤ alignSize.toNat := by omega
      have hf := src.fits ha
      rw [hd] at hf
      rw [allocateNewPage_some ha, hd]
      obtain ⟨-, w2, w3, -⟩ := initPage_words (p := STARTING_PAGE) ⟨h.mem.splice STARTING_PAGE
        alignSize.toNat bytes, h.freeList, STARTING_PAGE, h.calls + 1⟩ alignSize (by decide)
      exact ⟨true, _, rfl, F _, by simp, fun _ => ⟨_, addPage_first I hp hf h16, w3, by rw [w2]; exact a1⟩⟩
  · obtain ⟨pre, y, rfl, hy, hw⟩ := walk_last I hp
    have hm : y ∈ pre ++ [y] := by simp
    simp only [hp, ite_false, hw, Option.bind_eq_bind, Option.bind_some]
    cases ha : src.answer h.calls (y + pageSize h.mem y) (alignSize / PAGE_SIZE) with
    | none =>
      rw [allocateNewPage_none ha]
      have J : Inv ⟨h.mem, h.freeList, h.pageList, h.calls + 1⟩ (pre ++ [y]) frees live :=
        I.keep rfl rfl fun x _ => ⟨rfl, rfl, rfl, rfl⟩
      exact ⟨false, _, rfl, I.frame_page hm (.refl _ _), fun _ => store_last J hm hy, by simp⟩
    | some bytes =>
      obtain ⟨a1, ⟨k, hk⟩, hd, hnull⟩ := hans ha
      have h16 : 16 ≤ alignSize.toNat := by omega
      have hf := src.fits ha
      rw [hd] at hf
      rw [allocateNewPage_some ha, hd]
      by_cases hq : y + pageSize h.mem y = 0
      · obtain ⟨F, J⟩ := addPage_null I hm hy bytes (h.calls + 1) (hnull hq)
        rw [hq]
        exact ⟨false, _, rfl, F, fun _ => J, by simp⟩
      · have J := addPage_next I bytes (h.calls + 1) rfl hq hf h16
        have hend := addPage_end I rfl hq
        simp only [hq, ite_false]
        obtain ⟨-, w2, w3, -⟩ := initPage_words ((⟨h.mem.splice (y + pageSize h.mem y) alignSize.toNat
          bytes, h.freeList, h.pageList, h.calls + 1⟩ : Heap).store y (y + pageSize h.mem y)) alignSize
          (p := y + pageSize h.mem y) (by omega)
        exact ⟨true, _, rfl, I.frame_initPage _ (I.frame_page hm (I.frame_splice bytes hf (.inl hend.2)))
          (by omega) hend.2,
          by simp, fun _ => ⟨_, J, w3, by rw [w2]; exact a1⟩⟩

/-- `find_free_blk` takes a block of at least `size` bytes off the free list, or finds none. -/
theorem findFreeBlk_spec (I : Inv h pages frees live) (size asked : Word)
    (ha : 0 < asked.toNat ∧ asked.toNat ≤ size.toNat) :
    ∃ b h', findFreeBlk h size = some (b, h') ∧ Frame live h.mem h'.mem ∧ (b = 0 → h' = h) ∧
      (b ≠ 0 → ∃ frees', Inv h' pages frees' (⟨b + sizeofBlkHeader, asked⟩ :: live)) := by
  unfold findFreeBlk
  by_cases h0 : h.freeList = 0
  · exact ⟨0, h, by simp [h0], .refl _ _, fun _ => rfl, fun e => absurd rfl e⟩
  obtain ⟨xs, rfl⟩ := I.freeChain.exists_cons h0
  by_cases hbig : actualSize h.mem h.freeList > size
  · refine ⟨h.freeList, { h with freeList := next h.mem h.freeList },
      by simp only [h0, hbig, ite_true, ite_false], .refl _ _, fun e => absurd e h0,
      fun _ => ⟨xs, I.pop ⟨ha.1, ?_⟩⟩⟩
    have : size.toNat < (actualSize h.mem h.freeList).toNat := hbig
    omega
  obtain ⟨pre, x, post, e, hw, hx, -⟩ := I.freeChain.walk
    (fun b => !(next h.mem b ≠ 0 && actualSize h.mem (next h.mem b) < size)) h0
    (fun z _ e => by simp [e]) (length_le_walkFuel I.freeChain)
  simp only [h0, hbig, ite_false, hw, Option.bind_eq_bind, Option.bind_some]
  rw [e] at I
  have hn := I.freeChain.next_eq
  by_cases hz : next h.mem x = 0
  · exact ⟨0, h, by simp [hz], .refl _ _, fun _ => rfl, fun e => absurd rfl e⟩
  · cases post with
    | nil => exact absurd hn hz
    | cons b post =>
      obtain rfl : next h.mem x = b := hn
      have hge : size.toNat ≤ (actualSize h.mem (next h.mem x)).toNat := by
        simpa only [hz, ne_eq, not_false_eq_true, decide_true, Bool.true_and, Bool.not_eq_true',
          decide_eq_false_iff_not, BitVec.not_lt, BitVec.le_def] using hx
      exact ⟨_, _, by rw [if_pos hz]; rfl, I.frame_header (header_free (by simp)) (Nat.le_refl _) (by omega),
        fun e => absurd e hz, fun _ => ⟨_, I.unlink ⟨ha.1, by omega⟩⟩⟩

theorem noRoom_iff (I : Inv h pages frees live) {p : Addr} (hp : p ∈ pages)
    (hs : size.toNat + 12 < 2 ^ 32) :
    noRoom h.mem p size = true ↔ pageEnd h.mem p < usedEnd h.mem p + 12 + size.toNat := by
  have hu := I.layout.used p hp
  simp only [usedEnd, pageEnd] at hu ⊢
  have h12 : sizeofBlkHeader.toNat = 12 := rfl
  rw [noRoom, decide_eq_true_iff, BitVec.lt_def, toNat_add_const (by omega), h12,
    BitVec.toNat_sub_of_le (by rw [BitVec.le_def]; omega)]
  omega

/-- The page found or added has room for a block of `size` bytes. -/
theorem roomyPage_spec (src : PageSource) (I : Inv h pages frees live) (hp : h.pageList ≠ 0)
    (size : Word) (hs : Fits src (size.toNat + 28)) :
    ∃ ok p h', roomyPage src h size = some (ok, p, h') ∧ Frame live h.mem h'.mem ∧
      (ok = false → Inv h' pages frees live) ∧
      (ok = true → ∃ pages', Inv h' pages' frees live ∧ p ∈ pages' ∧
        usedEnd h'.mem p + 12 + size.toNat ≤ pageEnd h'.mem p) := by
  obtain ⟨pre, y, post, rfl, hw, hy, -⟩ := I.pageChain.walk
    (fun p => !(next h.mem p ≠ 0 && noRoom h.mem p size)) hp (fun z _ e => by simp [e])
    (length_le_walkFuel I.pageChain)
  have hm : y ∈ pre ++ y :: post := by simp
  have hle := hs.le
  simp only [roomyPage, hw, Option.bind_eq_bind, Option.bind_some]
  by_cases hr : noRoom h.mem y size = true
  · -- only the last page is left without a look at the next one
    have hz : next h.mem y = 0 := by simpa [hr] using hy
    obtain rfl : post = [] := by
      have hn := I.pageChain.next_eq
      cases post with
      | nil => rfl
      | cons z post => exact absurd (hn.symm.trans hz) (I.pageChain.ne_null (by simp))
    have e : (size + sizeofBlkHeader + sizeofPageHeader).toNat = size.toNat + 28 := by
      have h12 : sizeofBlkHeader.toNat = 12 := rfl
      have h16 : sizeofPageHeader.toNat = 16 := rfl
      rw [toNat_add_const, toNat_add_const, h12, h16]
      · omega
      · rw [toNat_add_const] <;> omega
    obtain ⟨ok, h', ha, F, hf, ht⟩ :=
      addPage_spec src I (size + sizeofBlkHeader + sizeofPageHeader) (by omega) (by rwa [e])
    cases ok with
    | false =>
      exact ⟨false, y, h', by simp [hr, ha], F, hf, by simp⟩
    | true =>
      refine ⟨true, next h'.mem y, h', by simp [hr, ha], F, by simp, fun _ => ?_⟩
      obtain ⟨q, J, hu, hq⟩ := ht rfl
      rw [List.append_assoc] at J
      have hn : next h'.mem y = q := J.pageChain.next_eq
      refine ⟨_, J, by simp [hn], ?_⟩
      have hu' : (usedSize h'.mem q).toNat = 16 := by rw [hu]; rfl
      rw [hn, usedEnd, pageEnd]
      omega
  · refine ⟨true, y, h, by simp [hr], .refl _ _, by simp, fun _ => ⟨_, I, hm, ?_⟩⟩
    have := (noRoom_iff I hm (by omega)).not.mp hr
    omega

/-- There is a page, or none can be added. -/
theorem firstPage_spec (src : PageSource) (I : Inv h pages frees live) (size : Word) (h0 : 0 < size.toNat)
    (hs : Fits src size.toNat) :
    ∃ ok h', firstPage src h size = some (ok, h') ∧ Frame live h.mem h'.mem ∧
      (ok = false → Inv h' pages frees live) ∧
      (ok = true → ∃ pages', Inv h' pages' frees live ∧ pages' ≠ []) := by
  unfold firstPage
  by_cases hp : h.pageList = 0
  · obtain ⟨ok, h', e, F, hf, ht⟩ := addPage_spec src I size h0 hs
    refine ⟨ok, h', by rw [if_pos hp, e], F, hf, fun hk => ?_⟩
    obtain ⟨q, J, -⟩ := ht hk
    exact ⟨_, J, by simp⟩
  · obtain ⟨xs, e⟩ := I.pageChain.exists_cons hp
    exact ⟨true, h, by rw [if_neg hp], .refl _ _, by simp, fun _ => ⟨pages, I, by simp [e]⟩⟩

/-- A request whose size is rounded up without an overflow. -/
theorem align_fits (src : PageSource) (h0 : size ≠ 0)
    (hs : size.toNat ≤ 0x7FFFFFFF ∨ src.Lawful ∧ size.toNat ≤ 0xFFFFFFE0) :
    0 < size.toNat ∧ size.toNat ≤ (align size 0x10).toNat ∧ Fits src ((align size 0x10).toNat + 28) := by
  have hpos : 0 < size.toNat := Nat.pos_of_ne_zero fun e => h0 (BitVec.eq_of_toNat_eq e)
  have h16 : (0x10 : Word).toNat = 16 := rfl
  obtain ⟨a1, a2, ⟨k, hk⟩⟩ := align_spec size 0x10 (by decide) (by omega)
  rw [h16] at a2 hk
  exact ⟨hpos, a1, hs.imp (fun _ => by omega) fun ⟨L, _⟩ => ⟨L, by omega⟩⟩

/-- `malloc` returns: `NULL`, or a new live block of at least `size` bytes. -/
theorem malloc_spec (src : PageSource) (I : Inv h pages frees live)
    (hs : size.toNat ≤ 0x7FFFFFFF ∨ src.Lawful ∧ size.toNat ≤ 0xFFFFFFE0) :
    ∃ p h' pages' frees', malloc src h size = some (p, h') ∧ Frame live h.mem h'.mem ∧
      Inv h' pages' frees' (if p = 0 then live else ⟨p, size⟩ :: live) := by
  unfold malloc
  by_cases h0 : size = 0
  · exact ⟨0, h, pages, frees, by simp [h0], .refl _ _, I⟩
  obtain ⟨hpos, a1, hal⟩ := align_fits src h0 hs
  generalize align size 0x10 = alignSize at *
  simp only [h0, ite_false]
  obtain ⟨ok, h₁, hm₁, F₁, hf₁, ht₁⟩ := firstPage_spec src I alignSize (by omega) (hal.mono (by omega))
  rw [hm₁]
  simp only [Option.bind_eq_bind, Option.bind_some]
  cases ok with
  | false => exact ⟨0, h₁, pages, frees, rfl, F₁, hf₁ rfl⟩
  | true =>
    obtain ⟨pages₁, I₁, hne⟩ := ht₁ rfl
    obtain ⟨b, h₂, e₂, F₂, hb0, hb1⟩ := findFreeBlk_spec I₁ alignSize size ⟨hpos, by omega⟩
    simp only [Bool.not_true, Bool.false_eq_true, ite_false, e₂, Option.bind_some]
    by_cases hb : b = 0
    · -- no free block is large enough: carve one
      obtain rfl := hb0 hb
      have hp : h₂.pageList ≠ 0 := fun e => hne (Chain.start_null.mp (e ▸ I₁.pageChain))
      obtain ⟨ok, p, h₃, e₃, F₃, hf₃, ht₃⟩ := roomyPage_spec src I₁ hp alignSize hal
      simp only [hb, ne_eq, not_true_eq_false, ite_false, e₃, Option.bind_some]
      cases ok with
      | false => exact ⟨0, h₃, pages₁, frees, rfl, I.frame_trans F₁ F₃, hf₃ rfl⟩
      | true =>
        obtain ⟨pages₃, I₃, hp₃, hr⟩ := ht₃ rfl
        have J := I₃.carve size hp₃ hr ⟨hpos, by omega⟩
        refine ⟨(carve h₃ p size alignSize).1, (carve h₃ p size alignSize).2, pages₃, frees, rfl,
          I.frame_trans F₁ (I₁.frame_trans F₃ (I₃.frame_carve size hp₃ hr)), ?_⟩
        rw [if_neg (J.ptr_ne_zero List.mem_cons_self)]
        exact J
    · obtain ⟨frees', J⟩ := hb1 hb
      have hB : Block frees' (⟨b + sizeofBlkHeader, size⟩ :: live) b := by
        refine .inr (List.mem_map.mpr ⟨_, List.mem_cons_self, ?_⟩)
        exact add_sub_cancel_right b sizeofBlkHeader
      have F : Frame live h₂.mem (h₂.store (b + 4) size).mem :=
        (J.frame_size hB).mono fun _ hl => List.mem_cons_of_mem _ hl
      refine ⟨b + sizeofBlkHeader, _, pages₁, frees', by rw [if_pos hb]; rfl,
        I.frame_trans F₁ (I₁.frame_trans F₂ F), ?_⟩
      rw [if_neg (J.ptr_ne_zero List.mem_cons_self)]
      exact J.store_size hB

/-! ## Runs -/

/-- What a run of `malloc`, `free` and stores to live blocks reaches from the
empty heap, with the blocks that are live there. -/
inductive Reachable (src : PageSource) : Heap → List Live → Prop
  | empty (mem : Mem) : Reachable src ⟨mem, 0, 0, 0⟩ []
  | malloc {h h' : Heap} {live : List Live} {size : Word} {p : Addr} (r : Reachable src h live)
      (hs : size ≤ 0x7FFFFFFF) (hm : malloc src h size = some (p, h')) :
      Reachable src h' (if p = 0 then live else ⟨p, size⟩ :: live)
  | free {h : Heap} {live : List Live} {l : Live} (r : Reachable src h live) (hl : l ∈ live) :
      Reachable src (free h l.ptr) (live.erase l)
  | write {h : Heap} {live : List Live} {l : Live} {off : Word} {v : Byte} (r : Reachable src h live)
      (hl : l ∈ live) (ho : off < actualSize h.mem l.header) :
      Reachable src { h with mem := h.mem.store8 (l.ptr + off) v } live

/-- A store to the payload of a live block. -/
theorem store_payload {l : Live} {off : Word} {v : Byte} (I : Inv h pages frees live) (hl : l ∈ live)
    (ho : off < actualSize h.mem l.header) :
    Inv { h with mem := h.mem.store8 (l.ptr + off) v } pages frees live := by
  have hb : Block frees live l.header := .inr (List.mem_map_of_mem hl)
  have ht := (I.layout.block_top hb).2
  have hp := I.ptr_eq hl
  have ho : off.toNat < (actualSize h.mem l.header).toNat := ho
  simp only [blkEnd] at ht
  have e : (l.ptr + off).toNat = l.ptr.toNat + off.toNat := toNat_add_const (by omega)
  refine I.keep rfl rfl fun x hx => I.layout.keep (I.layout.clear_payload hb) (fun y hy => ?_) hx
  exact Mem.store8_apply fun he => by rw [he] at hy; omega

/-- Every reachable heap has the invariant. -/
theorem Reachable.inv {src : PageSource} (r : Reachable src h live) :
    ∃ pages frees, Inv h pages frees live := by
  induction r with
  | empty mem =>
    exact ⟨[], [], rfl, rfl, ⟨by simp, by simp, by simp, List.Pairwise.nil, by simp [Block],
      by simp [Block]⟩, List.nodup_nil, by simp, by simp⟩
  | malloc r hs hm ih =>
    obtain ⟨pages, frees, I⟩ := ih
    obtain ⟨p, h', pages', frees', e, -, J⟩ := malloc_spec src I (.inl hs)
    obtain ⟨rfl, rfl⟩ := Prod.mk.inj (Option.some.inj (hm.symm.trans e))
    exact ⟨pages', frees', J⟩
  | free r hl ih =>
    obtain ⟨pages, frees, I⟩ := ih
    exact ⟨pages, _, I.push hl⟩
  | write r hl ho ih =>
    obtain ⟨pages, frees, I⟩ := ih
    exact ⟨pages, frees, store_payload I hl ho⟩

/-- The first address after the payload of a live block. -/
def Live.payloadEnd (m : Mem) (l : Live) : Nat := l.ptr.toNat + (actualSize m l.header).toNat

/-- A heap whose pages are `pages` and whose free list is `frees`, in which the
live blocks are safe to write to. -/
structure Safe (h : Heap) (pages frees : List Addr) (live : List Live) : Prop where
  pageList : Chain (next h.mem) 0 h.pageList pages
  freeList : Chain (next h.mem) 0 h.freeList frees
  nodup : frees.Nodup
  /-- The payloads of the live blocks are pairwise disjoint. -/
  disjoint : live.Pairwise fun l l' =>
    l.payloadEnd h.mem ≤ l'.ptr.toNat ∨ l'.payloadEnd h.mem ≤ l.ptr.toNat
  /-- Each lies inside a page, -/
  inPage : ∀ l ∈ live, ∃ p ∈ pages, p.toNat ≤ l.ptr.toNat ∧ l.payloadEnd h.mem ≤ pageEnd h.mem p
  /-- overlaps no page header -/
  pageHeader : ∀ l ∈ live, ∀ p ∈ pages, l.payloadEnd h.mem ≤ p.toNat ∨ p.toNat + 16 ≤ l.ptr.toNat
  /-- and no block header, -/
  blkHeader : ∀ l ∈ live, ∀ b, Block frees live b →
    l.payloadEnd h.mem ≤ b.toNat ∨ b.toNat + 12 ≤ l.ptr.toNat
  /-- and has the size that was asked for. -/
  asked : ∀ l ∈ live, l.asked.toNat ≤ (actualSize h.mem l.header).toNat
  notFree : ∀ l ∈ live, l.header ∉ frees

theorem Inv.safe (I : Inv h pages frees live) : Safe h pages frees live := by
  have hB : ∀ l ∈ live, Block frees live l.header := fun l hl => .inr (List.mem_map_of_mem hl)
  have he : ∀ l ∈ live, l.payloadEnd h.mem = blkEnd h.mem l.header := fun l hl => by
    rw [Live.payloadEnd, blkEnd, I.ptr_eq hl]
  refine ⟨I.pageChain, I.freeChain, I.freeChain.nodup, ?_, fun l hl => ?_, fun l hl p hp => ?_,
    fun l hl b hb => ?_, fun l hl => (I.asked l hl).2, fun l hl hf =>
      I.apart _ hf (List.mem_map_of_mem hl)⟩
  · refine (List.pairwise_map.mp I.nodup).imp_of_mem fun {l l'} hl hl' hne => ?_
    have := I.layout.apart _ _ (hB l hl) (hB l' hl') hne
    have := I.ptr_eq hl; have := I.ptr_eq hl'
    rw [he l hl, he l' hl']
    omega
  · obtain ⟨p, hp, h1, h2⟩ := I.layout.inPage _ (hB l hl)
    have := I.layout.used p hp; have := I.ptr_eq hl
    exact ⟨p, hp, by omega, by rw [he l hl]; omega⟩
  · have := I.layout.page_block hp (hB l hl); have := I.ptr_eq hl
    rw [he l hl]
    omega
  · have := I.ptr_eq hl
    rw [he l hl]
    by_cases e : l.header = b
    · subst e; omega
    · have := I.layout.apart _ _ (hB l hl) hb e
      simp only [blkEnd] at this ⊢
      omega

/-- Every state that a run of `malloc`, `free` and stores to live blocks reaches is safe,
and the next `malloc` returns. -/
theorem heap_safe (src : PageSource) (r : Reachable src h live) :
    (∃ pages frees, Safe h pages frees live) ∧
      ∀ size : Word, size ≤ 0x7FFFFFFF → ∃ p h', malloc src h size = some (p, h') := by
  obtain ⟨pages, frees, I⟩ := r.inv
  refine ⟨⟨pages, frees, I.safe⟩, fun size hs => ?_⟩
  obtain ⟨p, h', -, -, e, -⟩ := malloc_spec src I (.inl hs)
  exact ⟨p, h', e⟩

/-- New pages full of zeros, while they fit. -/
def zeroPages : PageSource where
  answer _ addr n := if addr.toNat + 4096 * n.toNat ≤ 2 ^ 32 then some fun _ => 0 else none
  fits h := by split at h <;> [assumption; cases h]

/-- `malloc` with these pages. -/
def zeroMalloc (h : Heap) (size : Word) : Addr × Heap := (malloc zeroPages h size).getD (0, h)

theorem zeroMalloc_reachable (r : Reachable zeroPages h live) {p : Addr} (hs : size ≤ 0x7FFFFFFF)
    (hp : (zeroMalloc h size).1 = p) (h0 : p ≠ 0) :
    Reachable zeroPages (zeroMalloc h size).2 (⟨p, size⟩ :: live) := by
  obtain ⟨pages, frees, I⟩ := r.inv
  obtain ⟨q, h', -, -, e, -⟩ := malloc_spec zeroPages I (.inl hs)
  have := r.malloc hs e
  rw [zeroMalloc, e] at hp ⊢
  obtain rfl : q = p := hp
  rwa [if_neg h0] at this

/-- `malloc(100)`, `malloc(5000)`, a store to the second block, `free` of the first and
`malloc(64)`, which takes it again. -/
def someHeap₁ : Heap := (zeroMalloc ⟨fun _ => 0, 0, 0, 0⟩ 100).2
def someHeap₂ : Heap := (zeroMalloc someHeap₁ 5000).2
def someHeap₃ : Heap := { someHeap₂ with mem := someHeap₂.mem.store8 (0xF000101C + 4999) 0xFF }
def someHeap : Heap := (zeroMalloc (free someHeap₃ 0xF000001C) 64).2

theorem heap_safe_someHeap :
    ∃ pages frees, Safe someHeap pages frees [⟨0xF000001C, 64⟩, ⟨0xF000101C, 5000⟩] := by
  have r₁ : Reachable zeroPages someHeap₁ [⟨0xF000001C, 100⟩] :=
    zeroMalloc_reachable (.empty _) (by decide) (by decide) (by decide)
  have r₂ : Reachable zeroPages someHeap₂ [⟨0xF000101C, 5000⟩, ⟨0xF000001C, 100⟩] :=
    zeroMalloc_reachable r₁ (by decide) (by decide) (by decide)
  have r₃ : Reachable zeroPages someHeap₃ [⟨0xF000101C, 5000⟩, ⟨0xF000001C, 100⟩] :=
    r₂.write (l := ⟨0xF000101C, 5000⟩) (by decide) (by decide)
  have r₄ := r₃.free (l := ⟨0xF000001C, 100⟩) (by decide)
  exact (heap_safe zeroPages (zeroMalloc_reachable r₄ (by decide) (by decide) (by decide))).1

end AlexOS.Malloc
