import AlexOS.Heap.Safety
import AlexOS.Lib.Answers
import AlexOS.Virtual.BootMap
import AlexOS.Virtual.Few

/-!
# The heap through the page tables

`malloc.c` once more, each load and store of it at an address that the processor
translates, and `add_page` with the `allocate_new_page` of the kernel. There is
no result after a page fault.

The pages of the heap, from `STARTING_PAGE` to page `e`, are mapped to blocks of
their own, and what the processor sees there is the memory of a heap with an
ideal source of pages (`Backed`). Each function does here what it does there,
and adds to the pages (`Backed.addPage`, `Backed.malloc`, `Backed.free`), as long
as the blocks that it is given are fresh, and within 256 MiB, so that the pages
cannot get to the end of the address space. What the source answers there is
what `allocate_new_page` did here (`Follows`).
-/

namespace AlexOS.Malloc.Paged

open Virtual (Paging LowAllocation entryOf)

/-- The heap, where its memory is that of the processor. -/
structure State where
  paging : Paging
  freeList : Addr
  pageList : Addr

/-- `*a` -/
def State.load (s : State) (a : Addr) : Option Word := Virtual.load32 s.paging a

/-- `*a = v` -/
def State.store (s : State) (a : Addr) (v : Word) : Option State :=
  (Virtual.storeWord s.paging a v).map fun paging => { s with paging := paging }

/-- The owner of a block stores a byte in it, or loads one. -/
def State.store8 (s : State) (a : Addr) (b : Byte) : Option State :=
  if Virtual.present s.paging a then some { s with paging := Virtual.store8 s.paging a b } else none

def State.load8 (s : State) (a : Addr) : Option Byte :=
  if Virtual.present s.paging a then some (Virtual.space s.paging a) else none

def allocateNewPage (s : State) (address : Addr) (nbPage : Word) : Addr × State :=
  let r := Virtual.allocateNewPage s.paging address nbPage
  (r.1, { s with paging := r.2 })

def initPage (s : State) (page : Addr) (alignSize : Word) : Option State := do
  let s ← s.store (page + 4) alignSize
  let s ← s.store (page + 8) sizeofPageHeader
  s.store page 0

def isLast (s : State) (tmp : Addr) : Option Bool := do
  let next ← s.load tmp
  some (decide (next = 0))

def addPage (s : State) (size : Word) : Option (Bool × State) :=
  let alignSize := align size PAGE_SIZE
  if s.pageList = 0 then
    let r := allocateNewPage s STARTING_PAGE (alignSize / PAGE_SIZE)
    let s := { r.2 with pageList := r.1 }
    if r.1 = 0 then some (false, s) else (initPage s r.1 alignSize).map fun s => (true, s)
  else do
    let tmp ← walkM s.load (isLast s) walkFuel s.pageList
    let tmpSize ← s.load (tmp + 4)
    let r := allocateNewPage s (tmp + tmpSize) (alignSize / PAGE_SIZE)
    let s ← r.2.store tmp r.1
    if r.1 = 0 then some (false, s) else (initPage s r.1 alignSize).map fun s => (true, s)

/-- The loop of `find_free_blk` ends before a block that is large enough. -/
def isAhead (s : State) (size : Word) (freeBlk : Addr) : Option Bool := do
  let next ← s.load freeBlk
  if next = 0 then some true else
  let actualSize ← s.load (next + 8)
  some (!decide (actualSize < size))

def findFreeBlk (s : State) (size : Word) : Option (Addr × State) :=
  if s.freeList = 0 then some (0, s) else do
  let actualSize ← s.load (s.freeList + 8)
  if actualSize > size then
    let next ← s.load s.freeList
    some (s.freeList, { s with freeList := next })
  else
    let freeBlk ← walkM s.load (isAhead s size) walkFuel s.freeList
    let tmp ← s.load freeBlk
    if tmp = 0 then some (0, s) else
    let next ← s.load tmp
    let s ← s.store freeBlk next
    some (tmp, s)

def noRoom (s : State) (page : Addr) (alignSize : Word) : Option Bool := do
  let size ← s.load (page + 4)
  let usedSize ← s.load (page + 8)
  some (decide (size - usedSize < alignSize + sizeofBlkHeader))

/-- The loop of `malloc` ends at the last page, or at one with room. -/
def isRoomy (s : State) (alignSize : Word) (tmp : Addr) : Option Bool := do
  let next ← s.load tmp
  if next = 0 then some true else
  let full ← noRoom s tmp alignSize
  some !full

def carve (s : State) (page : Addr) (size alignSize : Word) : Option (Addr × State) := do
  let usedSize ← s.load (page + 8)
  let header := page + usedSize
  let s ← s.store (header + 4) size
  let s ← s.store (header + 8) alignSize
  let s ← s.store header 0
  let usedSize ← s.load (page + 8)
  let actualSize ← s.load (header + 8)
  let s ← s.store (page + 8) (usedSize + (sizeofBlkHeader + actualSize))
  let nbBlock ← s.load (page + 12)
  let s ← s.store (page + 12) (nbBlock + 1)
  some (header + sizeofBlkHeader, s)

def roomyPage (s : State) (alignSize : Word) : Option (Bool × Addr × State) := do
  let tmp ← walkM s.load (isRoomy s alignSize) walkFuel s.pageList
  if ← noRoom s tmp alignSize then
    let r ← addPage s (alignSize + sizeofBlkHeader + sizeofPageHeader)
    if r.1 then
      let next ← r.2.load tmp
      some (true, next, r.2)
    else some (false, tmp, r.2)
  else some (true, tmp, s)

def firstPage (s : State) (alignSize : Word) : Option (Bool × State) :=
  if s.pageList = 0 then addPage s alignSize else some (true, s)

def malloc (s : State) (size : Word) : Option (Addr × State) :=
  if size = 0 then some (0, s) else do
  let alignSize := align size 0x10
  let r ← firstPage s alignSize
  if !r.1 then some (0, r.2) else
  let f ← findFreeBlk r.2 alignSize
  if f.1 ≠ 0 then
    let s ← f.2.store (f.1 + 4) size
    some (f.1 + sizeofBlkHeader, s)
  else
    let r ← roomyPage f.2 alignSize
    if r.1 then carve r.2.2 r.2.1 size alignSize else some (0, r.2.2)

/-- What `malloc` returns is cleared without a look at it. -/
def calloc (s : State) (size nmenb : Word) : Option (Addr × State) := do
  let r ← malloc s (size * nmenb)
  let paging ← Virtual.storeBytes r.2.paging r.1 (List.replicate (size * nmenb).toNat 0)
  some (r.1, { r.2 with paging := paging })

def free (s : State) (ptr : Addr) : Option State := do
  let header := ptr - sizeofBlkHeader
  let s ← s.store header s.freeList
  some { s with freeList := header }

/-! ## The blocks that are allocated -/

/-- What `add_page` asks `allocate_new_page` for. -/
def asked (s : State) (size : Word) : Option (Addr × Word) :=
  let alignSize := align size PAGE_SIZE
  if s.pageList = 0 then some (STARTING_PAGE, alignSize / PAGE_SIZE)
  else do
    let tmp ← walkM s.load (isLast s) walkFuel s.pageList
    let tmpSize ← s.load (tmp + 4)
    some (tmp + tmpSize, alignSize / PAGE_SIZE)

/-- The blocks that `add_page` is given are fresh, and those of the pages within 256 MiB. -/
def FreshPage (s : State) (size : Word) : Prop := ∀ r ∈ asked s size, LowAllocation s.paging r.1 r.2 (2 ^ 16)

/-- `malloc` adds a page if there is none, and one if none has room. -/
structure FreshMalloc (s : State) (size : Word) : Prop where
  first : s.pageList = 0 → FreshPage s (align size 0x10)
  next : ∀ s₁ s₂ tmp, firstPage s (align size 0x10) = some (true, s₁) →
    findFreeBlk s₁ (align size 0x10) = some (0, s₂) →
    walkM s₂.load (isRoomy s₂ (align size 0x10)) walkFuel s₂.pageList = some tmp →
    noRoom s₂ tmp (align size 0x10) = some true →
      FreshPage s₂ (align size 0x10 + sizeofBlkHeader + sizeofPageHeader)

/-! ## What the processor sees -/

/-- The pages up to page `e` are live, and hold what is in the memory of the heap. The entries
behind them can be mapped, and those of the first 4 MiB are those of `E`. -/
structure Seen (E : Addr → Word) (e : Nat) (s : State) (h : Heap) : Prop where
  layout : Virtual.Layout s.paging
  pagesLive : Virtual.Live s.paging (Set.Ico 0xF0000 e)
  frames : ∀ v, page v ∈ Set.Ico 0xF0000 e → page (Virtual.frame (entryOf s.paging v)) < 2 ^ 16
  low : 0xF0000 ≤ e
  clear : ∀ v, e ≤ page v → (entryOf s.paging v).getLsbD 31 = false
  space : ∀ v, page v ∈ Set.Ico 0xF0000 e → Virtual.space s.paging v = h.mem v
  first : ∀ v, page v < 0x400 → entryOf s.paging v = E v
  freeList : s.freeList = h.freeList
  pageList : s.pageList = h.pageList

/-- The last page of the heap ends where the pages do. -/
structure Ends (e : Nat) (m : Mem) (pages : List Addr) : Prop where
  none : pages = [] → e = 0xF0000
  last : ∀ pre y, pages = pre ++ [y] → pageEnd m y = 4096 * e

structure Backed (E : Addr → Word) (e : Nat) (s : State) (h : Heap) (pages frees : List Addr)
    (live : List Live) : Prop
    extends Seen E e s h where
  inv : Inv h pages frees live
  ends : Ends e h.mem pages

/-- What `allocate_new_page` answers, whatever it is asked for. -/
def source (answers : Nat → Option (Addr → Byte)) : PageSource where
  answer k addr n := if addr.toNat + 4096 * n.toNat ≤ 2 ^ 32 then answers k else none
  fits h := by split at h <;> [assumption; cases h]

section

variable {E : Addr → Word} {e : Nat} {s s' : State} {h h' : Heap} {m m' : Mem} {pages frees : List Addr}
  {live : List Live} {a v : Addr} {n size : Word}

/-- There are fewer pages than blocks. -/
theorem Seen.top (S : Seen E e s h) : e < 2 ^ 20 := by
  by_contra hge
  have hsub : Set.Ico 0xF0000 (2 ^ 20) ⊆ Set.Ico 0xF0000 e := fun k hk => ⟨hk.1, by have := hk.2; omega⟩
  have hcard := (S.pagesLive.mono hsub).add_card_lt (le_refl _) (m := 2 ^ 16) (by decide)
    (fun v hv => S.frames v (hsub hv)) ∅ (by simp)
  simp at hcard

/-- The pages of a word. -/
theorem Seen.mem_word (S : Seen E e s h) (hlo : STARTING_PAGE.toNat ≤ a.toNat)
    (hhi : a.toNat + 4 ≤ 4096 * e) {i : Nat}
    (hi : i < 4) : page (a + BitVec.ofNat 32 i) ∈ Set.Ico 0xF0000 e := by
  have htop := S.top
  have hS : STARTING_PAGE.toNat = 0xF0000000 := rfl
  rw [page, Mem.toNat_add_lt hi (by omega)]
  constructor <;> omega

theorem Seen.load (S : Seen E e s h) (hlo : STARTING_PAGE.toNat ≤ a.toNat) (hhi : a.toNat + 4 ≤ 4096 * e) :
    s.load a = some (h.mem.load32 a) := by
  have hmem := fun i hi => S.mem_word hlo hhi (i := i) hi
  have hacc : Virtual.Accessible s.paging a 4 := fun i hi => (S.pagesLive.owned _ (hmem i hi)).present
  rw [State.load, Virtual.load32, if_pos hacc]
  exact congrArg some (Mem.load32_congr fun i hi => S.space _ (hmem i hi))

theorem Seen.storeWord (S : Seen E e s h) (hlo : STARTING_PAGE.toNat ≤ a.toNat)
    (hhi : a.toNat + 4 ≤ 4096 * e) (w : Word) :
    ∃ p, Virtual.storeWord s.paging a w = some p ∧ Seen E e { s with paging := p } (h.store a w) := by
  have hmem := fun i hi => S.mem_word hlo hhi (i := i) hi
  obtain ⟨p, hp⟩ : ∃ p, Virtual.storeWord s.paging a w = some p := S.pagesLive.storeBytes_some S.layout hmem
  have T : Virtual.Stored (Set.Ico 0xF0000 e) s.paging p a
      [w.extractLsb' 0 8, w.extractLsb' 8 8, w.extractLsb' 16 8, w.extractLsb' 24 8] :=
    S.pagesLive.storeBytes_ok S.layout (show 4 ≤ 2 ^ 32 by decide) (fun i hi _ => hmem i hi) hp
  refine ⟨p, hp, T.layout, T.live, fun v hv => ?_, S.low, fun v hv => ?_, fun v hv => ?_,
    fun v hv => (T.entries v).trans (S.first v hv), S.freeList, S.pageList⟩
  · rw [T.entries]
    exact S.frames v hv
  · rw [T.entries]
    exact S.clear v hv
  · rw [T.space v hv, Mem.write_congr (S.space v hv), Mem.write_word]
    rfl

theorem Seen.store (S : Seen E e s h) (hlo : STARTING_PAGE.toNat ≤ a.toNat)
    (hhi : a.toNat + 4 ≤ 4096 * e) (w : Word) :
    ∃ s', s.store a w = some s' ∧ Seen E e s' (h.store a w) := by
  obtain ⟨p, hp, S'⟩ := S.storeWord hlo hhi w
  exact ⟨_, congrArg (Option.map _) hp, S'⟩

/-! ## New pages -/

/-- The pages of a range behind the others. -/
theorem pagesOf_next (ha : a.toNat = 4096 * e) {k : Nat} (hk : e + k ≤ 2 ^ 20) :
    Virtual.pagesOf a k = Set.Ico e (e + k) := by
  have hpage : page a = e := by rw [page]; omega
  ext j
  constructor
  · rintro ⟨i, hi, rfl⟩
    rw [Virtual.page_pageAfter, hpage]
    constructor <;> omega
  · rintro ⟨h1, h2⟩
    refine ⟨j - e, by omega, ?_⟩
    rw [Virtual.page_pageAfter, hpage]
    omega

/-- Other entries than those of the heap, and other blocks, may change. -/
theorem Seen.still (S : Seen E e s h) {p : Paging} (T : Virtual.Still s.paging p)
    (he : ∀ v, page v ∈ Set.Ico 0xF0000 e → entryOf p v = entryOf s.paging v)
    (hc : ∀ v, e ≤ page v → (entryOf p v).getLsbD 31 = false)
    (hf : ∀ v, page v < 0x400 → entryOf p v = entryOf s.paging v) : Seen E e { s with paging := p } h := by
  refine ⟨T.layout, S.pagesLive.of_entries he fun _ => T.spare, fun v hv => ?_, S.low, hc, fun v hv => ?_,
    fun v hv => (hf v hv).trans (S.first v hv), S.freeList, S.pageList⟩
  · show page (Virtual.frame (entryOf p v)) < 2 ^ 16
    rw [he v hv]
    exact S.frames v hv
  · rw [← S.space v hv]
    exact Virtual.space_congr (S.pagesLive.owned v hv).present (he v hv) (T.byte (S.pagesLive.spare hv))

/-- The pages of the heap and those before it are not those that are asked for, as far as there are any. -/
theorem Seen.allocate_others (S : Seen E e s h) (ha : a.toNat = 4096 * e) (F : LowAllocation s.paging a n (2 ^ 16))
    (hv : page v < e) : entryOf (Virtual.allocateNewPage s.paging a n).2 v = entryOf s.paging v := by
  have htop := S.top
  have hlow := S.low
  have L := S.layout
  have FA := F.toFreshAllocation
  by_cases hb : (Physical.allocateBlocks s.paging.phys n).1 = 0
  · have hr : (Virtual.allocateNewPage s.paging a n).2 =
        { s.paging with phys := (Physical.allocateBlocks s.paging.phys n).2 } := by
      simp only [Virtual.allocateNewPage, if_pos hb]
    rw [hr]
    exact (L.kept_allocateBlocks FA.blocks).entryOf_eq v
  · have hcard := S.pagesLive.add_allocated_lt L FA.blocks htop.le S.frames F.low hb
    refine L.allocateNewPage_others FA ?_
    rw [pagesOf_next ha (by omega)]
    exact fun hp => absurd hv (not_lt.mpr hp.1)

/-- What `allocate_new_page` does for the heap. -/
theorem Seen.allocate (S : Seen E e s h) (ha : a.toNat = 4096 * e) (F : LowAllocation s.paging a n (2 ^ 16)) :
    ((allocateNewPage s a n).1 = 0 ∧ Seen E e (allocateNewPage s a n).2 h) ∨
      ((allocateNewPage s a n).1 = a ∧ a.toNat + 4096 * n.toNat < 2 ^ 32 ∧
        Seen E (e + n.toNat) (allocateNewPage s a n).2
          { h with mem := h.mem.splice a (4096 * n.toNat) (Virtual.space (allocateNewPage s a n).2.paging) }) := by
  have htop := S.top
  have hlow := S.low
  have L := S.layout
  have FA := F.toFreshAllocation
  have T := L.allocateNewPage_still FA
  have hbit : ∀ v, e ≤ page v →
    (entryOf (Virtual.allocateNewPage s.paging a n).2 v).getLsbD 31 = false := fun v hv =>
    L.allocateNewPage_bit31 FA (fun c hc => (F.low c hc).trans (by decide)) (S.clear v hv)
  have hothers : ∀ v, page v < e → entryOf (Virtual.allocateNewPage s.paging a n).2 v = entryOf s.paging v :=
    fun v hv => S.allocate_others ha F hv
  by_cases h0 : (Virtual.allocateNewPage s.paging a n).1 = 0
  · exact .inl ⟨h0, S.still T (fun v hv => hothers v hv.2) hbit fun v hv => hothers v (by omega)⟩
  · obtain ⟨hb, -, -⟩ := Virtual.mapPages_of_obtained h0
    have hcard := S.pagesLive.add_allocated_lt L FA.blocks htop.le S.frames F.low hb
    have hpages := pagesOf_next (k := n.toNat) ha (by omega)
    obtain ⟨hr, O⟩ := L.obtained FA h0
    have hclean : ∀ v, page v ∈ Virtual.pagesOf a n.toNat → (entryOf s.paging v).getLsbD 31 = false :=
      fun v hv => by
      rw [hpages] at hv
      exact S.clear v hv.1
    obtain ⟨hlive, hspace⟩ := S.pagesLive.obtained O hclean
    rw [hpages, Set.Ico_union_Ico_eq_Ico hlow (Nat.le_add_right _ _)] at hlive
    have hw : a.toNat + 4096 * n.toNat < 2 ^ 32 := by omega
    refine .inr ⟨hr, hw, T.layout, hlive, fun v hv => ?_, Nat.le_add_right_of_le hlow, fun v hv => hbit v (by omega),
      fun v hv => ?_, fun v hv => (hothers v (by omega)).trans (S.first v hv), S.freeList, S.pageList⟩
    · show page (Virtual.frame (entryOf (Virtual.allocateNewPage s.paging a n).2 v)) < 2 ^ 16
      by_cases hnew : page v ∈ Virtual.pagesOf a n.toNat
      · exact L.allocated_frame_lt F h0 hnew (hclean v hnew)
      · have hlt : page v < e := by
          rw [hpages] at hnew
          by_contra hge
          exact hnew ⟨not_lt.mp hge, hv.2⟩
        rw [hothers v hlt]
        exact S.frames v ⟨hv.1, hlt⟩
    · show Virtual.space (Virtual.allocateNewPage s.paging a n).2 v = h.mem.splice a (4096 * n.toNat) _ v
      rw [Mem.splice]
      split
      · rfl
      rename_i hout
      have hlt : page v < e := by
        by_contra hge
        refine hout ((Mem.sub_lt_iff hw.le).mpr ⟨?_, ?_⟩)
        · rw [page] at hge
          omega
        · have := hv.2
          rw [page] at this
          omega
      rw [hspace v ⟨hv.1, hlt⟩ (by rw [hpages]; exact fun hp => absurd hlt (not_lt.mpr hp.1))]
      exact S.space v ⟨hv.1, hlt⟩

/-! ## The headers -/

theorem Seen.of_mem {t : State} {g : Heap} (S : Seen E e s h) (hs : t.paging = s.paging) (hm : g.mem = h.mem)
    (hf : t.freeList = g.freeList) (hp : t.pageList = g.pageList) : Seen E e t g := by
  cases t
  cases hs
  exact ⟨S.layout, S.pagesLive, S.frames, S.low, S.clear,
    fun v hv => by rw [hm]; exact S.space v hv, S.first, hf, hp⟩

theorem Ends.congr (E : Ends e m pages) (hp : ∀ p ∈ pages, pageSize m' p = pageSize m p) : Ends e m' pages := by
  refine ⟨E.none, fun pre y hy => ?_⟩
  rw [pageEnd, hp y (by rw [hy]; simp)]
  exact E.last pre y hy

theorem Ends.snoc {q : Addr} (hq : pageEnd m q = 4096 * e) : Ends e m (pages ++ [q]) := by
  refine ⟨fun h => by simp at h, fun pre y hy => ?_⟩
  obtain ⟨-, h⟩ := List.append_inj' hy rfl
  rw [← List.head_eq_of_cons_eq h]
  exact hq

/-- No page passes the last one. -/
theorem Backed.pageEnd_le (B : Backed E e s h pages frees live) {p : Addr} (hp : p ∈ pages) :
    pageEnd h.mem p ≤ 4096 * e := by
  rcases List.eq_nil_or_concat pages with rfl | ⟨pre, y, rfl⟩
  · cases hp
  rw [List.concat_eq_append] at *
  have hlast := B.ends.last pre y rfl
  rcases List.mem_append.mp hp with hpre | hy
  · have := (List.pairwise_append.mp B.inv.layout.ordered).2.2 p hpre y (by simp)
    have := B.inv.layout.used y (by simp)
    omega
  · rw [List.mem_singleton.mp hy]
    exact hlast.le

theorem Backed.page_le (B : Backed E e s h pages frees live) {p : Addr} (hp : p ∈ pages) :
    STARTING_PAGE.toNat ≤ p.toNat ∧ p.toNat + 16 ≤ 4096 * e := by
  have := B.pageEnd_le hp
  have := B.inv.layout.used p hp
  exact ⟨B.inv.layout.low p hp, by omega⟩

theorem Backed.header_le (B : Backed E e s h pages frees live) {x : Addr} (hx : Header pages (Block frees live) x) :
    STARTING_PAGE.toNat ≤ x.toNat ∧ x.toNat + 12 ≤ 4096 * e := by
  refine ⟨(B.inv.layout.header_top hx).1, ?_⟩
  rcases hx with hp | hb
  · have := (B.page_le hp).2
    omega
  · obtain ⟨p, hp, -, h2⟩ := B.inv.layout.inPage x hb
    have := B.pageEnd_le hp
    have := B.inv.layout.used p hp
    simp only [blkEnd] at h2
    omega

/-- The words of a header. -/
theorem Backed.loads (B : Backed E e s h pages frees live) {x : Addr} (hx : Header pages (Block frees live) x) :
    s.load x = some (next h.mem x) ∧ s.load (x + 4) = some (pageSize h.mem x) ∧
      s.load (x + 8) = some (usedSize h.mem x) := by
  obtain ⟨hlo, hhi⟩ := B.header_le hx
  have htop := (B.inv.layout.header_top hx).2
  have e4 : (x + 4).toNat = x.toNat + 4 := toNat_add_const (by simp; omega)
  have e8 : (x + 8).toNat = x.toNat + 8 := toNat_add_const (by simp; omega)
  exact ⟨B.load hlo (by omega), B.load (by omega) (by omega), B.load (by omega) (by omega)⟩

theorem Backed.loads_free (B : Backed E e s h pages frees live) {x : Addr} (hx : x ∈ frees) :
    s.load x = some (next h.mem x) ∧ s.load (x + 8) = some (actualSize h.mem x) := by
  obtain ⟨hn, -, hs⟩ := B.loads (.inr (.inl hx))
  exact ⟨hn, hs⟩

theorem Backed.header_next (B : Backed E e s h pages frees live) {x : Addr} (hx : x ∈ frees)
    (h0 : next h.mem x ≠ 0) :
    next h.mem x ∈ frees := (B.inv.freeChain.next_mem hx).resolve_left h0

/-! ## find_free_blk -/

theorem Backed.isAhead_eq (B : Backed E e s h pages frees live) {x : Addr} (hx : x ∈ frees) (size : Word) :
    isAhead s size x = some (!(decide (next h.mem x ≠ 0) && decide (actualSize h.mem (next h.mem x) < size))) := by
  rw [isAhead, (B.loads_free hx).1]
  simp only [Option.bind_eq_bind, Option.bind_some]
  by_cases h0 : next h.mem x = 0
  · rw [if_pos h0, decide_eq_false (not_not.mpr h0)]
    rfl
  · rw [if_neg h0, decide_eq_true h0, (B.loads_free (B.header_next hx h0)).2]
    rfl

theorem Backed.findFreeBlk (B : Backed E e s h pages frees live) (size : Word) :
    ∃ b s' h', findFreeBlk s size = some (b, s') ∧ Malloc.findFreeBlk h size = some (b, h') ∧ Seen E e s' h' ∧
      h'.calls = h.calls ∧ ∀ p ∈ pages, pageSize h'.mem p = pageSize h.mem p := by
  have hf := B.freeList
  by_cases h0 : h.freeList = 0
  · exact ⟨0, s, h, by rw [Paged.findFreeBlk, if_pos (hf.trans h0)], by rw [Malloc.findFreeBlk, if_pos h0], B.toSeen,
      rfl, fun _ _ => rfl⟩
  have hc := B.inv.freeChain
  obtain ⟨xs, hxs⟩ := hc.exists_cons h0
  have hmem : h.freeList ∈ frees := by rw [hxs]; exact List.mem_cons_self
  obtain ⟨hn, hs⟩ := B.loads_free hmem
  rw [Paged.findFreeBlk, Malloc.findFreeBlk, hf, if_neg h0, if_neg h0, hn, hs]
  simp only [Option.bind_eq_bind, Option.bind_some]
  by_cases hbig : actualSize h.mem h.freeList > size
  · rw [if_pos hbig, if_pos hbig]
    exact ⟨_, _, _, rfl, rfl, B.of_mem rfl rfl rfl B.pageList, rfl, fun _ _ => rfl⟩
  rw [if_neg hbig, if_neg hbig]
  have hstop : ∀ z ∈ frees, next h.mem z = 0 →
      (!(decide (next h.mem z ≠ 0) && decide (actualSize h.mem (next h.mem z) < size))) = true :=
        fun z _ h => by simp [h]
  have hM := hc.walkM_eq (n := walkFuel) h0 hstop fun z hz => ⟨(B.loads_free hz).1, B.isAhead_eq hz size⟩
  obtain ⟨pre, x, post, e', hw, -, -⟩ := hc.walk _ h0 hstop (length_le_walkFuel hc)
  have hx : x ∈ frees := by rw [e']; simp
  rw [hM, hw]
  simp only [Option.bind_some, (B.loads_free hx).1]
  by_cases hz : next h.mem x = 0
  · exact ⟨0, s, h, by simp [hz], by simp [hz], B.toSeen, rfl, fun _ _ => rfl⟩
  obtain ⟨s', hst, S⟩ := B.store (B.header_le (.inr (.inl hx))).1
    (by have := (B.header_le (.inr (.inl hx))).2; omega) (next h.mem (next h.mem x))
  refine ⟨next h.mem x, s', _, ?_, if_pos hz, S, rfl, fun p hp => (B.inv.keep_next (.inr (.inl hx)) (.inl hp)).2.1⟩
  rw [if_neg hz, (B.loads_free (B.header_next hx hz)).1]
  simp only [Option.bind_some, hst]

/-! ## add_page -/

theorem Seen.initPage {q : Addr} (S : Seen E e s h) (hlo : STARTING_PAGE.toNat ≤ q.toNat)
    (hhi : q.toNat + 12 ≤ 4096 * e)
    (alignSize : Word) : ∃ s', initPage s q alignSize = some s' ∧ Seen E e s' (Malloc.initPage h q alignSize) := by
  have htop := S.top
  have e4 : (q + 4).toNat = q.toNat + 4 := toNat_add_const (by simp; omega)
  have e8 : (q + 8).toNat = q.toNat + 8 := toNat_add_const (by simp; omega)
  obtain ⟨s₁, h₁, S₁⟩ := S.store (a := q + 4) (by omega) (by omega) alignSize
  obtain ⟨s₂, h₂, S₂⟩ := S₁.store (a := q + 8) (by omega) (by omega) sizeofPageHeader
  obtain ⟨s₃, h₃, S₃⟩ := S₂.store (a := q) hlo (by omega) 0
  refine ⟨s₃, ?_, S₃⟩
  rw [Paged.initPage, h₁]
  simp only [Option.bind_eq_bind, Option.bind_some, h₂, h₃]

/-- So many bytes in pages. -/
theorem align_pages (h0 : 0 < size.toNat) (hs : size.toNat ≤ 0x8000001C) :
    4096 * (align size PAGE_SIZE / PAGE_SIZE).toNat = (align size PAGE_SIZE).toNat ∧
      4096 ≤ (align size PAGE_SIZE).toNat := by
  have hP : PAGE_SIZE.toNat = 4096 := rfl
  obtain ⟨a1, -, ⟨k, hk⟩⟩ := align_spec size PAGE_SIZE (by decide) (by omega)
  rw [hP] at hk
  rw [BitVec.toNat_udiv, hP]
  omega

/-- What `add_page` does, on pages that are mapped and on a heap with the same answer. -/
structure Added (E : Addr → Word) (e : Nat) (s : State) (h : Heap) (pages frees : List Addr) (live : List Live)
    (size : Word) (ok : Bool) (s' : State) (h' : Heap) (pages' : List Addr) : Prop where
  run : addPage s size = some (ok, s')
  ideal : Follows h.calls h'.calls fun answers => Malloc.addPage (source answers) h size = some (ok, h')
  backed : ∃ e', Backed E e' s' h' pages' frees live
  calls : h'.calls = h.calls + 1
  pages : ∀ p ∈ pages, p ∈ pages'

theorem source_some {answers : Nat → Option (Addr → Byte)} {k : Nat} {bytes : Addr → Byte}
    (hk : answers k = some bytes)
    (hw : a.toNat + 4096 * size.toNat ≤ 2 ^ 32) : (source answers).answer k a size = some bytes :=
      (if_pos hw).trans hk

theorem source_none {answers : Nat → Option (Addr → Byte)} {k : Nat} (hk : answers k = none) :
    (source answers).answer k a size = none := by
  rw [source]
  exact (if_congr Iff.rfl hk rfl).trans (ite_self _)

theorem Backed.addPage_first (B : Backed E e s h pages frees live) (F : FreshPage s size) (hp : h.pageList = 0)
    (h0 : 0 < size.toNat) (hs : size.toNat ≤ 0x8000001C) : ∃ ok s' h' pages',
      Added E e s h pages frees live size ok s' h' pages' := by
  have hS : STARTING_PAGE.toNat = 0xF0000000 := rfl
  have hnil : pages = [] := Chain.start_null.mp (hp ▸ B.inv.pageChain)
  obtain rfl : e = 0xF0000 := B.ends.none hnil
  have hn := align_pages h0 hs
  generalize hal : align size PAGE_SIZE = alignSize at hn
  have F' : LowAllocation s.paging STARTING_PAGE (alignSize / PAGE_SIZE) (2 ^ 16) :=
    F (STARTING_PAGE, alignSize / PAGE_SIZE) (by
    rw [asked, if_pos (B.pageList.trans hp), hal]
    rfl)
  have A := B.allocate rfl F'
  generalize hcall : allocateNewPage s STARTING_PAGE (alignSize / PAGE_SIZE) = r at A
  rcases A with ⟨hr, S⟩ | ⟨hr, hw, S⟩
  · refine ⟨false, { r.2 with pageList := r.1 }, { h with pageList := 0, calls := h.calls + 1 }, pages,
      ⟨?_, .once none fun answers ha => ?_, ⟨0xF0000, ?_⟩, rfl, fun _ h => h⟩⟩
    · rw [addPage, if_pos (B.pageList.trans hp), hal, hcall, if_pos hr]
    · rw [Malloc.addPage, if_pos hp, hal, allocateNewPage_none (source_none ha)]
      rfl
    · exact ⟨S.of_mem rfl rfl S.freeList hr, B.inv.keep hp.symm rfl fun x _ => ⟨rfl, rfl, rfl, rfl⟩, B.ends⟩
  · rw [hn.1] at hw S
    have S₁ := S.of_mem (t := { r.2 with pageList := r.1 })
      (g := ⟨h.mem.splice STARTING_PAGE alignSize.toNat (Virtual.space r.2.paging), h.freeList, STARTING_PAGE,
        h.calls + 1⟩) rfl rfl S.freeList hr
    obtain ⟨s', hrun, S₂⟩ := S₁.initPage (le_refl _) (by omega) alignSize
    have J : Inv (Malloc.initPage ⟨h.mem.splice STARTING_PAGE alignSize.toNat (Virtual.space r.2.paging), h.freeList,
      STARTING_PAGE, h.calls + 1⟩ STARTING_PAGE alignSize) (pages ++ [STARTING_PAGE]) frees live :=
      Malloc.addPage_first B.inv hp hw.le (by omega)
    obtain ⟨-, w2, -, -⟩ := initPage_words (p := STARTING_PAGE) ⟨h.mem.splice STARTING_PAGE alignSize.toNat
      (Virtual.space r.2.paging), h.freeList, STARTING_PAGE, h.calls + 1⟩ alignSize (by decide)
    refine ⟨true, s', _, _, ⟨?_, .once (some (Virtual.space r.2.paging)) fun answers ha => ?_,
      ⟨_, S₂, J, .snoc ?_⟩, rfl, fun p hp => List.mem_append_left _ hp⟩⟩
    · rw [addPage, if_pos (B.pageList.trans hp), hal, hcall, if_neg (by rw [hr]; decide), hr]
      rw [hr] at hrun
      rw [hrun]
      rfl
    · rw [Malloc.addPage, if_pos hp, hal, allocateNewPage_some (source_some ha (by rw [hn.1]; exact hw.le)), hn.1]
      rfl
    · rw [pageEnd, w2]
      omega

theorem Backed.loads_page (B : Backed E e s h pages frees live) {p : Addr} (hp : p ∈ pages) :
    s.load p = some (next h.mem p) ∧ s.load (p + 4) = some (pageSize h.mem p) ∧
      s.load (p + 8) = some (usedSize h.mem p) :=
  B.loads (.inl hp)

theorem Backed.isLast_eq (B : Backed E e s h pages frees live) {p : Addr} (hp : p ∈ pages) :
    isLast s p = some (decide (next h.mem p = 0)) := by
  rw [isLast, (B.loads_page hp).1]
  rfl

theorem Backed.addPage_next (B : Backed E e s h pages frees live) (F : FreshPage s size) (hp : h.pageList ≠ 0)
    (h0 : 0 < size.toNat) (hs : size.toNat ≤ 0x8000001C) : ∃ ok s' h' pages',
      Added E e s h pages frees live size ok s' h' pages' := by
  have hn := align_pages h0 hs
  generalize hal : align size PAGE_SIZE = alignSize at hn
  obtain ⟨pre, y, hpages, hy, hw⟩ := walk_last B.inv hp
  have hm : y ∈ pages := by simp [hpages]
  have hM := B.inv.pageChain.walkM_eq (n := walkFuel)
    (c := fun p => next h.mem p = 0) hp (fun z _ e => by simpa using e)
    fun z hz => ⟨(B.loads_page hz).1, B.isLast_eq hz⟩
  obtain ⟨hlo, hhi⟩ := B.page_le hm
  have htop := B.top
  -- the pages end where the last one does
  have hend := B.ends.last pre y hpages
  have haddr : (y + pageSize h.mem y).toNat = 4096 * e := by
    rw [toNat_add_const (by rw [pageEnd] at hend; omega)]
    exact hend
  have hS : STARTING_PAGE.toNat = 0xF0000000 := rfl
  have hq0 : y + pageSize h.mem y ≠ 0 := fun h => by
    rw [h] at haddr
    have : (0 : Addr).toNat = 0 := rfl
    omega
  have F' : LowAllocation s.paging (y + pageSize h.mem y) (alignSize / PAGE_SIZE) (2 ^ 16) :=
    F (y + pageSize h.mem y, alignSize / PAGE_SIZE) (by
      rw [asked, if_neg (fun h => hp (B.pageList ▸ h)), hal]
      simp only [Option.bind_eq_bind]
      rw [B.pageList, hM, hw]
      simp only [Option.bind_some, (B.loads_page hm).2.1]
      rfl)
  have A := B.allocate haddr F'
  generalize hcall : allocateNewPage s (y + pageSize h.mem y) (alignSize / PAGE_SIZE) = r at A
  have hrun : ∀ {s₁ : State}, r.2.store y r.1 = some s₁ → addPage s size =
      if r.1 = 0 then some (false, s₁) else (Paged.initPage s₁ r.1 alignSize).map fun s => (true, s) :=
        fun h₁ => by
    rw [addPage, if_neg (fun h => hp (B.pageList ▸ h)), hal]
    simp only [Option.bind_eq_bind]
    rw [B.pageList, hM, hw]
    simp only [Option.bind_some, (B.loads_page hm).2.1, hcall, h₁]
  have hideal : ∀ src : PageSource, Malloc.addPage src h size =
      let q := Malloc.allocateNewPage src h (y + pageSize h.mem y) (alignSize / PAGE_SIZE)
      if q.1 = 0 then some (false, q.2.store y q.1) else some (true, Malloc.initPage (q.2.store y q.1) q.1 alignSize) :=
    fun src => by
      rw [Malloc.addPage, if_neg hp, hal, hw]
      rfl
  rcases A with ⟨hr, S⟩ | ⟨hr, hfit, S⟩
  · obtain ⟨s₁, h₁, S₁⟩ := S.store hlo (by omega) r.1
    rw [hr] at S₁
    have J : Inv ⟨h.mem, h.freeList, h.pageList, h.calls + 1⟩ pages frees live :=
      B.inv.keep rfl rfl fun x _ => ⟨rfl, rfl, rfl, rfl⟩
    refine ⟨false, s₁, (⟨h.mem, h.freeList, h.pageList, h.calls + 1⟩ : Heap).store y 0, pages, ⟨?_,
      .once none fun answers ha => ?_, ⟨e, ?_⟩, rfl, fun _ h => h⟩⟩
    · rw [hrun h₁, if_pos hr]
    · rw [hideal, allocateNewPage_none (source_none ha)]
      rfl
    · exact ⟨S₁.of_mem rfl rfl S₁.freeList S₁.pageList, store_last J hm hy,
        B.ends.congr fun p hp => (J.keep_next (.inl hm) (.inl hp)).2.1⟩
  · rw [hn.1] at hfit S
    have S₁ := S.of_mem (t := r.2)
      (g := ⟨h.mem.splice (y + pageSize h.mem y) alignSize.toNat (Virtual.space r.2.paging),
      h.freeList, h.pageList, h.calls + 1⟩) rfl rfl S.freeList S.pageList
    obtain ⟨s₂, h₂, S₂⟩ := S₁.store hlo (by omega) r.1
    obtain ⟨s', h₃, S₃⟩ := S₂.initPage
      (q := r.1) (by rw [hr, haddr]; have := B.low; omega) (by rw [hr]; omega) alignSize
    subst hpages
    have J := Malloc.addPage_next B.inv (Virtual.space r.2.paging) (h.calls + 1) rfl hq0 hfit.le (by omega)
    obtain ⟨-, w2, -, -⟩ := initPage_words ((⟨h.mem.splice (y + pageSize h.mem y) alignSize.toNat
      (Virtual.space r.2.paging), h.freeList, h.pageList, h.calls + 1⟩ : Heap).store y
        (y + pageSize h.mem y)) alignSize
      (p := y + pageSize h.mem y) (by omega)
    refine ⟨true, s', _, _, ⟨?_, .once (some (Virtual.space r.2.paging)) fun answers ha => ?_,
      ⟨_, hr ▸ S₃, J, .snoc ?_⟩, rfl,
      fun p hp => List.mem_append_left _ hp⟩⟩
    · rw [hrun h₂, if_neg (by rw [hr]; exact hq0), h₃]
      rfl
    · rw [hideal, allocateNewPage_some (source_some ha (by rw [hn.1]; exact hfit.le)), hn.1]
      exact if_neg hq0
    · rw [pageEnd, w2]
      omega

theorem Backed.addPage (B : Backed E e s h pages frees live) (F : FreshPage s size) (h0 : 0 < size.toNat)
    (hs : size.toNat ≤ 0x8000001C) : ∃ ok s' h' pages', Added E e s h pages frees live size ok s' h' pages' := by
  by_cases hp : h.pageList = 0
  · exact B.addPage_first F hp h0 hs
  · exact B.addPage_next F hp h0 hs

theorem Backed.firstPage (B : Backed E e s h pages frees live) (F : s.pageList = 0 → FreshPage s size)
    (h0 : 0 < size.toNat) (hs : size.toNat ≤ 0x8000001C) :
    ∃ ok s' h' pages' e', firstPage s size = some (ok, s') ∧ Backed E e' s' h' pages' frees live ∧
      h.calls ≤ h'.calls ∧
      Follows h.calls h'.calls fun answers => Malloc.firstPage (source answers) h size = some (ok, h') := by
  by_cases hp : h.pageList = 0
  · obtain ⟨ok, s', h', pages', A⟩ := B.addPage (F (B.pageList.trans hp)) h0 hs
    obtain ⟨e', B'⟩ := A.backed
    refine ⟨ok, s', h', pages', e', ?_, B', A.calls ▸ Nat.le_succ _, A.ideal.imp fun answers ha => ?_⟩
    · rw [Paged.firstPage, if_pos (B.pageList.trans hp), A.run]
    · rw [Malloc.firstPage, if_pos hp, ha]
  · refine ⟨true, s, h, pages, e, ?_, B, le_refl _, .of_forall fun answers => ?_⟩
    · rw [Paged.firstPage, if_neg fun h => hp (B.pageList ▸ h)]
    · rw [Malloc.firstPage, if_neg hp]

/-! ## malloc -/

theorem Backed.noRoom_eq (B : Backed E e s h pages frees live) {p : Addr} (hp : p ∈ pages) (n : Word) :
    noRoom s p n = some (Malloc.noRoom h.mem p n) := by
  obtain ⟨-, h4, h8⟩ := B.loads_page hp
  rw [noRoom, h4, h8]
  rfl

theorem Backed.isRoomy_eq (B : Backed E e s h pages frees live) {p : Addr} (hp : p ∈ pages) (n : Word) :
    isRoomy s n p = some (!(decide (next h.mem p ≠ 0) && Malloc.noRoom h.mem p n)) := by
  rw [isRoomy, (B.loads_page hp).1]
  simp only [Option.bind_eq_bind, Option.bind_some]
  by_cases h0 : next h.mem p = 0
  · rw [if_pos h0, decide_eq_false (not_not.mpr h0)]
    rfl
  · rw [if_neg h0, decide_eq_true h0, B.noRoom_eq hp]
    rfl

theorem Backed.roomyPage (B : Backed E e s h pages frees live)
    (F : ∀ tmp, walkM s.load (isRoomy s size) walkFuel s.pageList = some tmp → noRoom s tmp size = some true →
      FreshPage s (size + sizeofBlkHeader + sizeofPageHeader)) (hp : h.pageList ≠ 0)
        (hs : size.toNat ≤ 0x80000000) :
    ∃ ok p s' h' pages' e', roomyPage s size = some (ok, p, s') ∧ Backed E e' s' h' pages' frees live ∧
      h.calls ≤ h'.calls ∧
      Follows h.calls h'.calls fun answers => Malloc.roomyPage (source answers) h size = some (ok, p, h') := by
  have hc := B.inv.pageChain
  have hstop : ∀ z ∈ pages, next h.mem z = 0 →
    (!(decide (next h.mem z ≠ 0) && Malloc.noRoom h.mem z size)) = true :=
    fun z _ h => by simp [h]
  have hM := hc.walkM_eq (n := walkFuel) hp hstop fun z hz => ⟨(B.loads_page hz).1, B.isRoomy_eq hz size⟩
  obtain ⟨pre, y, post, hpages, hw, -, -⟩ := hc.walk _ hp hstop (length_le_walkFuel hc)
  have hy : y ∈ pages := by simp [hpages]
  have hrun : Paged.roomyPage s size = if Malloc.noRoom h.mem y size then
      (Paged.addPage s (size + sizeofBlkHeader + sizeofPageHeader)).bind fun r =>
        if r.1 then (r.2.load y).bind fun next => some (true, next, r.2) else some (false, y, r.2)
      else some (true, y, s) := by
    rw [Paged.roomyPage, B.pageList, hM, hw]
    simp only [Option.bind_eq_bind, Option.bind_some, B.noRoom_eq hy]
  have hideal : ∀ src : PageSource, Malloc.roomyPage src h size = if Malloc.noRoom h.mem y size then
      (Malloc.addPage src h (size + sizeofBlkHeader + sizeofPageHeader)).bind fun r =>
        if r.1 then some (true, next r.2.mem y, r.2) else some (false, y, r.2)
      else some (true, y, h) := fun src => by
    rw [Malloc.roomyPage, hw]
    rfl
  by_cases hr : Malloc.noRoom h.mem y size = true
  · have h12 : sizeofBlkHeader.toNat = 12 := rfl
    have h16 : sizeofPageHeader.toNat = 16 := rfl
    have e28 : (size + sizeofBlkHeader + sizeofPageHeader).toNat = size.toNat + 28 := by
      rw [toNat_add_const, toNat_add_const, h12, h16]
      · omega
      · rw [toNat_add_const] <;> omega
    obtain ⟨ok, s', h', pages', A⟩ := B.addPage
      (F y (by rw [B.pageList, hM, hw]) (by rw [B.noRoom_eq hy, hr]))
      (show 0 < (size + sizeofBlkHeader + sizeofPageHeader).toNat by omega) (by omega)
    obtain ⟨e', B'⟩ := A.backed
    cases ok with
    | false =>
      refine ⟨false, y, s', h', pages', e', ?_, B', A.calls ▸ Nat.le_succ _, A.ideal.imp fun answers ha => ?_⟩
      · rw [hrun, if_pos hr, A.run]
        rfl
      · rw [hideal, if_pos hr, ha]
        rfl
    | true =>
      refine ⟨true, next h'.mem y, s', h', pages', e', ?_, B', A.calls ▸ Nat.le_succ _,
        A.ideal.imp fun answers ha => ?_⟩
      · rw [hrun, if_pos hr, A.run]
        simp only [Option.bind_some, if_true, (B'.loads_page (A.pages y hy)).1]
      · rw [hideal, if_pos hr, ha]
        rfl
  · refine ⟨true, y, s, h, pages, e, ?_, B, le_refl _, .of_forall fun answers => ?_⟩
    · rw [hrun, if_neg hr]
    · rw [hideal, if_neg hr]

theorem Backed.carve (B : Backed E e s h pages frees live) {p : Addr} (hp : p ∈ pages) {alignSize : Word}
    (hr : usedEnd h.mem p + 12 + alignSize.toNat ≤ pageEnd h.mem p)
    (hsize : 0 < size.toNat ∧ size.toNat ≤ alignSize.toNat) :
    ∃ s', carve s p size alignSize = some ((Malloc.carve h p size alignSize).1, s') ∧
      Backed E e s' (Malloc.carve h p size alignSize).2 pages frees
        (⟨(Malloc.carve h p size alignSize).1, size⟩ :: live) := by
  obtain ⟨hlo, hhi⟩ := B.page_le hp
  have htop := B.top
  have hend := B.pageEnd_le hp
  have hu := B.inv.layout.used p hp
  obtain ⟨b, hb⟩ : ∃ b, b = p + usedSize h.mem p := ⟨_, rfl⟩
  obtain ⟨eb, e4, e8, p8, p12⟩ := Inv.carve_addresses B.inv hp hr hb
  obtain ⟨s₁, h₁, S₁⟩ := B.store (a := b + 4) (by omega) (by omega) size
  obtain ⟨s₂, h₂, S₂⟩ := S₁.store (a := b + 8) (by omega) (by omega) alignSize
  obtain ⟨s₃, h₃, S₃⟩ := S₂.store (a := b) (by omega) (by omega) 0
  have l₃ := S₃.load (a := p + 8) (by omega) (by omega)
  have k₃ := S₃.load (a := b + 8) (by omega) (by omega)
  generalize hg : ((h.store (b + 4) size).store (b + 8) alignSize).store b 0 = g at S₃ l₃ k₃
  obtain ⟨s₄, h₄, S₄⟩ := S₃.store (a := p + 8) (by omega) (by omega)
    (usedSize g.mem p + (sizeofBlkHeader + actualSize g.mem b))
  have l₄ := S₄.load (a := p + 12) (by omega) (by omega)
  obtain ⟨s₅, h₅, S₅⟩ := S₄.store (a := p + 12) (by omega) (by omega)
    (nbBlock (g.store (p + 8) (usedSize g.mem p + (sizeofBlkHeader + actualSize g.mem b))).mem p + 1)
  refine ⟨s₅, ?_, ?_, B.inv.carve size hp hr hsize,
    B.ends.congr fun x hx => ((B.inv.carve_words size hp hr rfl).1 x (.inl hx)).2.1⟩
  · rw [Paged.carve, (B.loads_page hp).2.2]
    simp only [Option.bind_eq_bind, Option.bind_some, ← hb, h₁, h₂, h₃, l₃, k₃]
    rw [show g.mem.load32 (p + 8) = usedSize g.mem p from rfl,
      show g.mem.load32 (b + 8) = actualSize g.mem b from rfl, h₄]
    simp only [Option.bind_some, l₄]
    rw [show Mem.load32 _ (p + 12) = nbBlock _ p from rfl, h₅, hb]
    rfl
  · subst hg hb
    exact S₅

theorem Backed.store_size (B : Backed E e s h pages frees live) {b : Addr} (hb : Block frees live b) (w : Word) :
    ∃ s', s.store (b + 4) w = some s' ∧ Backed E e s' (h.store (b + 4) w) pages frees live := by
  obtain ⟨hlo, hhi⟩ := B.header_le (.inr hb)
  have htop := B.top
  have e4 : (b + 4).toNat = b.toNat + 4 := toNat_add_const (by simp; omega)
  obtain ⟨s', hst, S⟩ := B.store (a := b + 4) (by omega) (by omega) w
  exact ⟨s', hst, S, B.inv.store_size hb, B.ends.congr fun x hx =>
    (B.inv.layout.keep_header (.inr hb) (by omega) (by omega) (.inl hx) (B.inv.page_ne_block hx hb)).pageSize⟩

/-- The steps of `malloc`. -/
theorem malloc_eq (h0 : size ≠ 0) : malloc s size = (firstPage s (align size 0x10)).bind fun r =>
    if !r.1 then some (0, r.2) else (findFreeBlk r.2 (align size 0x10)).bind fun f =>
      if f.1 ≠ 0 then (f.2.store (f.1 + 4) size).bind fun s => some (f.1 + sizeofBlkHeader, s)
      else (roomyPage f.2 (align size 0x10)).bind fun r =>
        if r.1 then carve r.2.2 r.2.1 size (align size 0x10) else some (0, r.2.2) := by
  rw [malloc, if_neg h0]
  rfl

theorem ideal_malloc_eq (src : PageSource) (h0 : size ≠ 0) :
    Malloc.malloc src h size = (Malloc.firstPage src h (align size 0x10)).bind fun r =>
      if !r.1 then some (0, r.2) else (Malloc.findFreeBlk r.2 (align size 0x10)).bind fun f =>
        if f.1 ≠ 0 then some (f.1 + sizeofBlkHeader, f.2.store (f.1 + 4) size)
        else (Malloc.roomyPage src f.2 (align size 0x10)).bind fun r =>
          if r.1 then some (Malloc.carve r.2.2 r.2.1 size (align size 0x10)) else some (0, r.2.2) := by
  rw [Malloc.malloc, if_neg h0]
  rfl

theorem align_le (hs : size.toNat ≤ 0x7FFFFFFF) : (align size 0x10).toNat ≤ 0x80000000 := by
  have h16 : (0x10 : Word).toNat = 16 := rfl
  obtain ⟨-, a2, ⟨k, hk⟩⟩ := align_spec size 0x10 (by decide) (by omega)
  rw [h16] at a2 hk
  omega

/-- What `malloc` does, on pages that are mapped and on a heap with the same answers. -/
structure Mallocs (E : Addr → Word) (s : State) (h : Heap) (live : List Live) (size : Word) (p : Addr) (s' : State)
    (h' : Heap) : Prop where
  run : malloc s size = some (p, s')
  calls : h.calls ≤ h'.calls
  ideal : Follows h.calls h'.calls fun answers => Malloc.malloc (source answers) h size = some (p, h')
  backed : ∃ e' pages' frees', Backed E e' s' h' pages' frees' (if p = 0 then live else ⟨p, size⟩ :: live)

/-- When there is a page: the block is one of the free list, or a new one. -/
theorem Backed.malloc_of_page {s₁ : State} {h₁ : Heap} {pages₁ : List Addr} (h0 : size ≠ 0)
    (hs : size.toNat ≤ 0x7FFFFFFF) (F : FreshMalloc s size) (B₁ : Backed E e s₁ h₁ pages₁ frees live)
    (hp : h₁.pageList ≠ 0) (hcalls : h.calls ≤ h₁.calls)
    (r₁ : Paged.firstPage s (align size 0x10) = some (true, s₁))
    (i₁ : Follows h.calls h₁.calls fun answers =>
      Malloc.firstPage (source answers) h (align size 0x10) = some (true, h₁)) :
    ∃ p s' h', Mallocs E s h live size p s' h' := by
  have hbig := align_le hs
  obtain ⟨hpos, a1, -⟩ := align_fits zeroPages h0 (.inl hs)
  obtain ⟨b, s₂, h₂, r₂, i₂, S₂, hcalls₂, hsize⟩ := B₁.findFreeBlk (align size 0x10)
  obtain ⟨b', h₂', i₂', -, hb0, hb1⟩ := findFreeBlk_spec B₁.inv (align size 0x10) size ⟨hpos, a1⟩
  obtain ⟨rfl, rfl⟩ := Prod.mk.inj (Option.some.inj (i₂.symm.trans i₂'))
  by_cases hb : b = 0
  · -- no free block is large enough
    obtain rfl := hb0 hb
    have B₂ : Backed E e s₂ h₂ pages₁ frees live := ⟨S₂, B₁.inv, B₁.ends⟩
    obtain ⟨ok, p, s₃, h₃, pages₃, e₃, r₃, B₃, hcalls₃, i₃⟩ :=
      B₂.roomyPage (F.next s₁ s₂ · r₁ (by rw [r₂, hb]))
      hp hbig
    have run : Paged.malloc s size = if ok then Paged.carve s₃ p size (align size 0x10) else some (0, s₃) := by
      rw [malloc_eq h0, r₁]
      simp only [Option.bind_some, Bool.not_true, Bool.false_eq_true, if_false, r₂]
      rw [if_neg (not_not.mpr hb), r₃]
      rfl
    have ideal : Follows h.calls h₃.calls fun answers => Malloc.malloc (source answers) h size =
        if ok then some (Malloc.carve h₃ p size (align size 0x10)) else some (0, h₃) :=
      i₁.trans i₃ hcalls hcalls₃ fun answers i₁ i₃ => by
        rw [ideal_malloc_eq _ h0, i₁]
        simp only [Option.bind_some, Bool.not_true, Bool.false_eq_true, if_false, i₂]
        rw [if_neg (not_not.mpr hb), i₃]
        rfl
    cases ok with
    | false => exact ⟨0, s₃, h₃, run, hcalls.trans hcalls₃, ideal, e₃, pages₃, frees, B₃⟩
    | true =>
      obtain ⟨answers, i₃⟩ := i₃.exists_answers
      obtain ⟨ok', p', h₃', e', -, -, ht⟩ :=
        roomyPage_spec (source answers) B₂.inv hp (align size 0x10) (.inl (by omega))
      obtain ⟨rfl, hpair⟩ := Prod.mk.inj (Option.some.inj (i₃.symm.trans e'))
      obtain ⟨rfl, rfl⟩ := Prod.mk.inj hpair
      obtain ⟨pages', J, hp', hr⟩ := ht rfl
      obtain rfl := J.pageChain.unique B₃.inv.pageChain
      obtain ⟨s₄, r₄, B₄⟩ := B₃.carve hp' hr ⟨hpos, a1⟩
      refine ⟨_, s₄, (Malloc.carve h₃ p size (align size 0x10)).2, run.trans r₄, hcalls.trans hcalls₃,
        ideal, e₃, pages', frees, ?_⟩
      rw [if_neg (B₄.inv.ptr_ne_zero List.mem_cons_self)]
      exact B₄
  · obtain ⟨frees', J⟩ := hb1 hb
    have hB : Block frees' (⟨b + sizeofBlkHeader, size⟩ :: live) b := by
      refine .inr (List.mem_map.mpr ⟨_, List.mem_cons_self, ?_⟩)
      exact add_sub_cancel_right b sizeofBlkHeader
    have B₂ : Backed E e s₂ h₂ pages₁ frees' (⟨b + sizeofBlkHeader, size⟩ :: live) :=
      ⟨S₂, J, B₁.ends.congr hsize⟩
    obtain ⟨s₃, r₃, B₃⟩ := B₂.store_size hB size
    have hcalls₃ : h.calls ≤ h₂.calls := hcalls₂ ▸ hcalls
    refine ⟨b + sizeofBlkHeader, s₃, h₂.store (b + 4) size, ?_, hcalls₃, ?_, e, pages₁, frees', ?_⟩
    · rw [malloc_eq h0, r₁]
      simp only [Option.bind_some, Bool.not_true, Bool.false_eq_true, if_false, r₂]
      rw [if_pos hb, r₃]
      rfl
    · show Follows h.calls h₂.calls _
      rw [hcalls₂]
      refine i₁.imp fun answers i₁ => ?_
      rw [ideal_malloc_eq _ h0, i₁]
      simp only [Option.bind_some, Bool.not_true, Bool.false_eq_true, if_false, i₂]
      rw [if_pos hb]
    · rw [if_neg (J.ptr_ne_zero List.mem_cons_self)]
      exact B₃

theorem Backed.malloc (B : Backed E e s h pages frees live) (F : FreshMalloc s size) (hs : size.toNat ≤ 0x7FFFFFFF) :
    ∃ p s' h', Mallocs E s h live size p s' h' := by
  by_cases h0 : size = 0
  · refine ⟨0, s, h, ?_, le_refl _, .of_forall fun answers => ?_, e, pages, frees, B⟩
    · rw [Paged.malloc, if_pos h0]
    · rw [Malloc.malloc, if_pos h0]
  have hbig := align_le hs
  obtain ⟨hpos, a1, -⟩ := align_fits zeroPages h0 (.inl hs)
  obtain ⟨ok, s₁, h₁, pages₁, e₁, r₁, B₁, hcalls, i₁⟩ :=
    B.firstPage F.first (show 0 < (align size 0x10).toNat by omega)
    (by omega)
  cases ok with
  | false =>
    refine ⟨0, s₁, h₁, ?_, hcalls, i₁.imp fun answers i₁ => ?_, e₁, pages₁, frees, B₁⟩
    · rw [malloc_eq h0, r₁]
      rfl
    · rw [ideal_malloc_eq _ h0, i₁]
      rfl
  | true =>
    refine Backed.malloc_of_page h0 hs F B₁ ?_ hcalls r₁ i₁
    obtain ⟨answers, i₁⟩ := i₁.exists_answers
    obtain ⟨ok, g, e', -, -, ht⟩ :=
      firstPage_spec (source answers) B.inv (align size 0x10) (by omega) (.inl (by omega))
    obtain ⟨rfl, rfl⟩ := Prod.mk.inj (Option.some.inj (i₁.symm.trans e'))
    obtain ⟨pages', J, hne⟩ := ht rfl
    exact fun h => hne (Chain.start_null.mp (h ▸ J.pageChain))

/-! ## free, and the owners of the blocks -/

theorem Backed.free {l : Live} (B : Backed E e s h pages frees live) (hl : l ∈ live) :
    ∃ s', free s l.ptr = some s' ∧
      Backed E e s' (Malloc.free h l.ptr) pages (l.header :: frees) (live.erase l) := by
  have hb : Header pages (Block frees live) l.header := Inv.header_live hl
  obtain ⟨hlo, hhi⟩ := B.header_le hb
  obtain ⟨s', hst, S⟩ := B.store (a := l.header) hlo (by omega) h.freeList
  refine ⟨{ s' with freeList := l.header }, ?_, S.of_mem rfl rfl rfl S.pageList, B.inv.push hl,
    B.ends.congr fun x hx => (B.inv.keep_next hb (.inl hx)).2.1⟩
  show (s.store l.header s.freeList).bind _ = _
  rw [B.freeList, hst]
  rfl

/-- A byte that was asked for. -/
theorem Backed.payload {l : Live} (B : Backed E e s h pages frees live) (hl : l ∈ live) {i : Nat}
    (hi : i < l.asked.toNat) :
    (l.ptr + BitVec.ofNat 32 i).toNat = l.header.toNat + 12 + i ∧ i < (actualSize h.mem l.header).toNat ∧
      page (l.ptr + BitVec.ofNat 32 i) ∈ Set.Ico 0xF0000 e := by
  have hS : STARTING_PAGE.toNat = 0xF0000000 := rfl
  have hptr := B.inv.ptr_eq hl
  have hasked := (B.inv.asked l hl).2
  obtain ⟨p, hp, h1, h2⟩ := B.inv.layout.inPage _ (Inv.block_live frees hl)
  have hlow := B.inv.layout.low p hp
  have hend := B.pageEnd_le hp
  have hu := B.inv.layout.used p hp
  have htop := B.top
  simp only [blkEnd] at h2
  have ha : (l.ptr + BitVec.ofNat 32 i).toNat = l.ptr.toNat + i := Mem.toNat_add_lt hi (by omega)
  refine ⟨by omega, by omega, ?_, ?_⟩
  · rw [page, ha]
    omega
  · rw [page, ha]
    omega

/-- Different bytes of live blocks are at different addresses. -/
theorem Backed.payload_ne {l l' : Live} (B : Backed E e s h pages frees live) (hl : l ∈ live)
    (hl' : l' ∈ live) {i j : Nat} (hi : i < l.asked.toNat) (hj : j < l'.asked.toNat)
    (heq : l.ptr + BitVec.ofNat 32 i = l'.ptr + BitVec.ofNat 32 j) : l = l' ∧ i = j := by
  obtain ⟨ha, hia, -⟩ := B.payload hl hi
  obtain ⟨hb, hjb, -⟩ := B.payload hl' hj
  rw [heq] at ha
  by_cases hne : l.header = l'.header
  · have hll := List.inj_on_of_nodup_map B.inv.nodup hl hl' hne
    subst hll
    exact ⟨rfl, by omega⟩
  · have := B.inv.layout.apart _ _ (Inv.block_live frees hl) (Inv.block_live frees hl') hne
    simp only [blkEnd] at this
    omega

theorem Backed.store8 {l : Live} (B : Backed E e s h pages frees live) (hl : l ∈ live) {i : Nat}
    (hi : i < l.asked.toNat) (b : Byte) : ∃ s', s.store8 (l.ptr + BitVec.ofNat 32 i) b = some s' ∧
      Backed E e s' { h with mem := h.mem.store8 (l.ptr + BitVec.ofNat 32 i) b } pages frees live := by
  obtain ⟨ha, hia, hmem⟩ := B.payload hl hi
  have hst : Virtual.storeBytes s.paging (l.ptr + BitVec.ofNat 32 i) [b] =
      some (Virtual.store8 s.paging (l.ptr + BitVec.ofNat 32 i) b) :=
    if_pos (B.pagesLive.owned _ hmem).present
  have T := B.pagesLive.storeBytes_ok B.layout (show [b].length ≤ 2 ^ 32 by simp) (fun j hj _ => by
    obtain rfl : j = 0 := Nat.lt_one_iff.mp hj
    rwa [BitVec.add_zero]) hst
  have S : Seen E e { s with paging := Virtual.store8 s.paging (l.ptr + BitVec.ofNat 32 i) b }
      { h with mem := h.mem.store8 (l.ptr + BitVec.ofNat 32 i) b } := by
    refine ⟨T.layout, T.live, fun v hv => ?_, B.low, fun v hv => ?_, fun v hv => ?_,
      fun v hv => (T.entries v).trans (B.first v hv), B.freeList, B.pageList⟩
    · rw [T.entries v]
      exact B.frames v hv
    · rw [T.entries v]
      exact B.clear v hv
    · rw [T.space v hv, Mem.write_congr (B.space v hv), Mem.write_cons (by decide)]
      exact Mem.write_other fun i hi => absurd hi (Nat.not_lt_zero i)
  have hkeep : ∀ x, Header pages (Block frees live) x →
    Kept h.mem (h.mem.store8 (l.ptr + BitVec.ofNat 32 i) b) x := by
    intro x hx
    refine B.inv.layout.keep (B.inv.layout.clear_payload (Inv.block_live frees hl))
      (fun y hy => Mem.store8_apply fun he => ?_) hx
    rw [he] at hy
    omega
  exact ⟨_, if_pos (B.pagesLive.owned _ hmem).present, S, B.inv.keep rfl rfl hkeep,
    B.ends.congr fun p hp => (hkeep p (.inl hp)).pageSize⟩

theorem Backed.load8 {l : Live} (B : Backed E e s h pages frees live) (hl : l ∈ live) {i : Nat}
    (hi : i < l.asked.toNat) :
    s.load8 (l.ptr + BitVec.ofNat 32 i) = some (h.mem (l.ptr + BitVec.ofNat 32 i)) := by
  obtain ⟨-, -, hmem⟩ := B.payload hl hi
  rw [State.load8, if_pos (B.pagesLive.owned _ hmem).present, B.space _ hmem]

/-- Pages between the first 4 MiB and the heap are mapped, or not. -/
theorem Backed.allocateNewPage_below {address : Addr} (B : Backed E e s h pages frees live)
    (F : Virtual.FreshAllocation s.paging address n)
    (ha : ∀ k ∈ Virtual.pagesOf address n.toNat, 0x400 ≤ k ∧ k < 0xF0000) :
    Backed E e (Paged.allocateNewPage s address n).2 h pages frees live := by
  have hothers := fun v hv => B.layout.allocateNewPage_others F (v := v) hv
  refine ⟨B.still (B.layout.allocateNewPage_still F) (fun v hv => ?_) (fun v hv => ?_) fun v hv => ?_,
    B.inv, B.ends⟩
  · exact hothers v fun hin => absurd (ha _ hin).2 (not_lt.mpr hv.1)
  · rw [hothers v fun hin => absurd (ha _ hin).2 (not_lt.mpr (B.low.trans hv))]
    exact B.clear v hv
  · exact hothers v fun hin => absurd (ha _ hin).1 (not_le.mpr hv)

end

end AlexOS.Malloc.Paged
