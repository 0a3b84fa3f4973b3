import AlexOS.Heap.Safety
import Mathlib.Data.List.TakeWhile

/-!
# The search of the free list

`find_free_blk` takes the first block if it is larger than what is asked for,
and else the first of the others that is not smaller (`findFreeBlk_eq`). So a
first block of exactly that size is passed over: the search is complete unless
it is the only one that fits (`searches_iff`).
-/

namespace AlexOS.Malloc

/-- The free list is `frees`, and the headers on it do not overlap. -/
structure FreeList (h : Heap) (frees : List Addr) : Prop where
  chain : Chain (next h.mem) 0 h.freeList frees
  top : ∀ b ∈ frees, b.toNat + 12 ≤ 2 ^ 32
  apart : ∀ b ∈ frees, ∀ c ∈ frees, b ≠ c → b.toNat + 12 ≤ c.toNat ∨ c.toNat + 12 ≤ b.toNat

/-- A block that fits is taken off the list, if there is one. -/
structure Searched (h : Heap) (frees : List Addr) (size : Word) (b : Addr) (h' : Heap) : Prop where
  found : (∃ x ∈ frees, size ≤ actualSize h.mem x) → b ∈ frees ∧ size ≤ actualSize h.mem b ∧
    FreeList h' (frees.erase b) ∧ ∀ x ∈ frees, actualSize h'.mem x = actualSize h.mem x
  notFound : (∀ x ∈ frees, actualSize h.mem x < size) → b = 0 ∧ h' = h

/-- The search for `size` bytes is complete, and a `malloc` that it can serve gets no page. -/
structure Searches (h : Heap) (frees : List Addr) (size : Word) : Prop where
  search : ∃ b h', findFreeBlk h size = some (b, h') ∧ Searched h frees size b h'
  noPage : ∀ (src : PageSource) (asked : Word), asked ≠ 0 → align asked 0x10 = size → h.pageList ≠ 0 →
    (∃ x ∈ frees, size ≤ actualSize h.mem x) →
      ∃ p h', malloc src h asked = some (p, h') ∧ h'.calls = h.calls

/-- Whether a block is too small. -/
def tooSmall (m : Mem) (size : Word) (b : Addr) : Bool := actualSize m b < size

section

variable {h h' : Heap} {frees xs : List Addr} {size v : Word} {b x y : Addr}

theorem FreeList.nil_iff (F : FreeList h frees) : h.freeList = 0 ↔ frees = [] := by
  constructor
  · intro e
    exact Chain.start_null.mp (e ▸ F.chain)
  · rintro rfl
    exact F.chain

/-- The free list of a heap with the invariant. -/
theorem Inv.freeList {pages : List Addr} {live : List Live} (I : Inv h pages frees live) : FreeList h frees :=
  ⟨I.freeChain, fun _ hb => (I.layout.header_top (Inv.header_free hb)).2,
    fun _ hb _ hc hne => I.layout.header_apart (Inv.header_free hb) (Inv.header_free hc) hne⟩

theorem FreeList.singleton (hc : Chain (next h.mem) 0 h.freeList [x]) (ht : x.toNat + 12 ≤ 2 ^ 32) :
    FreeList h [x] := by
  refine ⟨hc, fun b hb => ?_, fun b hb c hc hne => ?_⟩
  · rwa [List.mem_singleton.mp hb]
  · rw [List.mem_singleton.mp hb, List.mem_singleton.mp hc] at hne
    exact absurd rfl hne

/-- The word `next` of one block is written. -/
theorem FreeList.kept_store (F : FreeList h frees) (hy : y ∈ frees) (hx : x ∈ frees) (hne : x ≠ y) :
    Kept h.mem (h.mem.store32 y v) x := by
  have := F.top y hy
  exact Kept.of_eqOn (Mem.store32_eqOn (by omega) (by have := F.apart x hx y hy hne; omega)) (F.top x hx)

theorem FreeList.actualSize_store (F : FreeList h frees) (hy : y ∈ frees) (hx : x ∈ frees) :
    actualSize (h.mem.store32 y v) x = actualSize h.mem x := by
  by_cases hne : x = y
  · rw [hne]
    exact (Inv.sizes_store_next h.mem y v).2.2
  · exact (F.kept_store hy hx hne).actualSize

/-- What `find_free_blk` does to a list. -/
theorem findFreeBlk_nil (F : FreeList h []) : findFreeBlk h size = some (0, h) := by
  rw [findFreeBlk, if_pos (F.nil_iff.mpr rfl)]

theorem findFreeBlk_head (F : FreeList h (x :: xs)) (hx : size < actualSize h.mem x) :
    findFreeBlk h size = some (x, { h with freeList := next h.mem x }) := by
  have e : h.freeList = x := F.chain.1
  rw [findFreeBlk, if_neg (by rw [e]; exact F.chain.2.1), e, if_pos hx]

/-- The last node of a list that is not empty. -/
theorem exists_last (x : Addr) (xs : List Addr) : ∃ init, x :: xs = init ++ [xs.getLastD x] := by
  induction xs generalizing x with
  | nil => exact ⟨[], rfl⟩
  | cons y ys ih =>
    obtain ⟨init, e⟩ := ih y
    exact ⟨x :: init, by rw [List.getLastD_cons, List.cons_append, ← e]⟩

/-- The loop of `find_free_blk` stops before the first block that is not too small. -/
theorem walk_tooSmall (F : FreeList h (x :: xs)) :
    walk (next h.mem) (fun b => !(next h.mem b ≠ 0 && actualSize h.mem (next h.mem b) < size)) walkFuel h.freeList =
      some ((xs.takeWhile (tooSmall h.mem size)).getLastD x) := by
  have e : h.freeList = x := F.chain.1
  have hlt : xs.length < walkFuel := by
    have := length_le_walkFuel F.chain
    rw [List.length_cons] at this
    omega
  rw [e]
  exact Chain.walk_ahead (c := tooSmall h.mem size) (e ▸ F.chain) hlt

theorem findFreeBlk_none (F : FreeList h (x :: xs)) (hx : ¬ size < actualSize h.mem x)
    (hxs : ∀ y ∈ xs, tooSmall h.mem size y = true) : findFreeBlk h size = some (0, h) := by
  obtain rfl : h.freeList = x := F.chain.1
  obtain ⟨init, hlast⟩ := exists_last h.freeList xs
  have hc := F.chain
  rw [hlast] at hc
  have hnext : next h.mem (xs.getLastD h.freeList) = 0 := hc.next_eq
  rw [findFreeBlk, if_neg F.chain.2.1, if_neg hx, walk_tooSmall F,
    List.takeWhile_eq_self_iff.mpr hxs]
  simp only [Option.bind_eq_bind, Option.bind_some, hnext, ne_eq, not_true_eq_false, if_false]
  rfl

theorem findFreeBlk_found {pre post : List Addr} (F : FreeList h (x :: (pre ++ b :: post)))
    (hx : ¬ size < actualSize h.mem x) (hpre : ∀ y ∈ pre, tooSmall h.mem size y = true)
    (hb : ¬ tooSmall h.mem size b = true) :
    findFreeBlk h size = some (b, h.store (pre.getLastD x) (next h.mem b)) := by
  obtain rfl : h.freeList = x := F.chain.1
  obtain ⟨init, hlast⟩ := exists_last h.freeList pre
  have hc := F.chain
  rw [← List.cons_append, hlast, List.append_assoc] at hc
  have hnext : next h.mem (pre.getLastD h.freeList) = b := hc.next_eq
  have hb0 : b ≠ 0 := F.chain.ne_null (by simp)
  rw [findFreeBlk, if_neg F.chain.2.1, if_neg hx, walk_tooSmall F,
    List.takeWhile_append_of_pos hpre, List.takeWhile_cons_of_neg hb, List.append_nil]
  simp only [Option.bind_eq_bind, Option.bind_some, hnext]
  rw [if_pos hb0]
  rfl

/-- A block behind the first is taken off. -/
theorem FreeList.unlink {pre post : List Addr} (F : FreeList h (x :: (pre ++ b :: post))) :
    FreeList (h.store (pre.getLastD x) (next h.mem b)) (x :: (pre ++ post)) ∧
      ∀ y ∈ x :: (pre ++ b :: post),
        actualSize (h.mem.store32 (pre.getLastD x) (next h.mem b)) y = actualSize h.mem y := by
  obtain ⟨init, hlast⟩ := exists_last x pre
  have hmem : pre.getLastD x ∈ x :: (pre ++ b :: post) := by
    rw [← List.cons_append, hlast]
    simp
  have hsub : ∀ y ∈ x :: (pre ++ post), y ∈ x :: (pre ++ b :: post) := fun y hy => by
    simp only [List.mem_cons, List.mem_append] at hy ⊢
    tauto
  refine ⟨⟨?_, fun y hy => F.top y (hsub y hy), fun y hy z hz => F.apart y (hsub y hy) z (hsub z hz)⟩,
    fun y hy => F.actualSize_store hmem hy⟩
  have hc := F.chain
  have hn := F.chain.nodup
  rw [← List.cons_append, hlast, List.append_assoc] at hc hn
  rw [← List.cons_append, hlast, List.append_assoc]
  refine hc.unlink (fun z hz => (F.kept_store hmem ?_ ?_).next) (Inv.next_store_next _ _ _)
  · rw [← List.cons_append, hlast]
    simp only [List.mem_cons, List.mem_append] at hz ⊢
    tauto
  · rintro rfl
    have h1 := (List.nodup_append.mp hn)
    rcases List.mem_append.mp hz with h' | h'
    · exact h1.2.2 _ h' _ List.mem_cons_self rfl
    · exact (List.nodup_cons.mp h1.2.1).1 (List.mem_cons_of_mem _ h')

theorem tooSmall_iff {m : Mem} : tooSmall m size b = true ↔ actualSize m b < size := decide_eq_true_iff

/-- If the first block is not passed over for its size, a block that fits is found. -/
theorem search_found (F : FreeList h (x :: xs)) (hfit : ∃ y ∈ x :: xs, size ≤ actualSize h.mem y)
    (hx : actualSize h.mem x = size → ∃ y ∈ xs, size ≤ actualSize h.mem y) :
    ∃ b h', findFreeBlk h size = some (b, h') ∧ b ∈ x :: xs ∧ size ≤ actualSize h.mem b ∧
      FreeList h' ((x :: xs).erase b) ∧ h'.calls = h.calls ∧ h'.pageList = h.pageList ∧
      ∀ y ∈ x :: xs, actualSize h'.mem y = actualSize h.mem y := by
  by_cases hlt : size < actualSize h.mem x
  · refine ⟨x, _, findFreeBlk_head F hlt, List.mem_cons_self, BitVec.le_of_lt hlt, ?_, rfl, rfl, fun _ _ => rfl⟩
    rw [List.erase_cons_head]
    exact ⟨F.chain.2.2, fun b hb => F.top b (List.mem_cons_of_mem _ hb),
      fun b hb c hc => F.apart b (List.mem_cons_of_mem _ hb) c (List.mem_cons_of_mem _ hc)⟩
  have hrest : ∃ y ∈ xs, size ≤ actualSize h.mem y := by
    obtain ⟨y, hy, hle⟩ := hfit
    rcases List.mem_cons.mp hy with rfl | hy
    · exact hx (BitVec.le_antisymm (BitVec.not_lt.mp hlt) hle)
    · exact ⟨y, hy, hle⟩
  -- the first of them that fits
  have hsplit := List.takeWhile_append_dropWhile (p := tooSmall h.mem size) (l := xs)
  have hpre : ∀ y ∈ xs.takeWhile (tooSmall h.mem size), tooSmall h.mem size y = true := fun y hy =>
    List.mem_takeWhile_imp hy
  cases hd : xs.dropWhile (tooSmall h.mem size) with
  | nil =>
    obtain ⟨y, hy, hle⟩ := hrest
    exact absurd (tooSmall_iff.mp (List.dropWhile_eq_nil_iff.mp hd y hy)) (BitVec.not_lt.mpr hle)
  | cons b post =>
    have hb : ¬ tooSmall h.mem size b = true := by
      have := List.head_dropWhile_not (tooSmall h.mem size) (l := xs) (by rw [hd]; exact List.cons_ne_nil _ _)
      simpa [hd] using this
    rw [hd] at hsplit
    rw [← hsplit] at F ⊢
    obtain ⟨F', hsize⟩ := F.unlink
    refine ⟨b, _, findFreeBlk_found F hlt hpre hb,
      by simp, BitVec.not_lt.mp (mt tooSmall_iff.mpr hb), ?_, rfl, rfl, hsize⟩
    have hn := F.chain.nodup
    rw [← List.cons_append] at hn ⊢
    rw [List.erase_append_right _ fun hb => (List.nodup_append.mp hn).2.2 b hb b List.mem_cons_self rfl,
      List.erase_cons_head]
    exact F'

/-- A first block of exactly the size is passed over, if the others are too small. -/
theorem search_missed (F : FreeList h (x :: xs)) (hx : ¬ size < actualSize h.mem x)
    (hxs : ∀ y ∈ xs, ¬ size ≤ actualSize h.mem y) : findFreeBlk h size = some (0, h) :=
  findFreeBlk_none F hx fun y hy => tooSmall_iff.mpr (BitVec.not_le.mp (hxs y hy))

/-- A `malloc` that is served from the free list. -/
theorem malloc_of_found {src : PageSource} {asked : Word} (h0 : asked ≠ 0) (hp : h.pageList ≠ 0) (hb : b ≠ 0)
    (hf : findFreeBlk h (align asked 0x10) = some (b, h')) :
    malloc src h asked = some (b + sizeofBlkHeader, h'.store (b + 4) asked) := by
  simp only [malloc, firstPage, h0, hp, if_false, Option.bind_eq_bind, Option.bind_some, Bool.not_true,
    Bool.false_eq_true, hf]
  rw [if_pos hb]
  rfl

/-- One that is carved from a page. -/
theorem malloc_of_roomy {src : PageSource} {q : Addr} {asked : Word} {h₃ : Heap} (h0 : asked ≠ 0)
    (hp : h.pageList ≠ 0) (hf : h.freeList = 0)
    (hr : roomyPage src h (align asked 0x10) = some (true, q, h₃)) :
    malloc src h asked = some (carve h₃ q asked (align asked 0x10)) := by
  simp only [malloc, firstPage, findFreeBlk, h0, hp, hf, hr, if_false, if_true, Option.bind_eq_bind, Option.bind_some,
    Bool.not_true, Bool.false_eq_true, ne_eq, not_true_eq_false]
  rfl

/-- The search is complete unless the first block is the only one that fits, and fits exactly. -/
theorem searches_iff (F : FreeList h frees) : Searches h frees size ↔
    ∀ x xs, frees = x :: xs → actualSize h.mem x = size → ∃ y ∈ xs, size ≤ actualSize h.mem y := by
  constructor
  · rintro ⟨⟨b, h', hf, S⟩, -⟩ x xs rfl hx
    by_contra hxs
    rw [search_missed F (by rw [hx]; exact BitVec.lt_irrefl _) fun y hy hle => hxs ⟨y, hy, hle⟩] at hf
    cases hf
    exact F.chain.ne_null (S.found ⟨x, List.mem_cons_self, hx ▸ BitVec.le_refl _⟩).1 rfl
  · intro hhead
    cases frees with
    | nil =>
      have hnone : ¬ ∃ x ∈ ([] : List Addr), size ≤ actualSize h.mem x :=
        fun ⟨_, hx, _⟩ => List.not_mem_nil hx
      exact ⟨⟨0, h, findFreeBlk_nil F, fun h => absurd h hnone, fun _ => ⟨rfl, rfl⟩⟩,
        fun _ _ _ _ _ h => absurd h hnone⟩
    | cons x xs =>
      have hx := hhead x xs rfl
      by_cases hfit : ∃ y ∈ x :: xs, size ≤ actualSize h.mem y
      · obtain ⟨b, h', hf, hb, hle, F', hcalls, -, hsize⟩ := search_found F hfit hx
        refine ⟨⟨b, h', hf, fun _ => ⟨hb, hle, F', hsize⟩, fun hall => ?_⟩, fun src asked h0 hal hp _ => ?_⟩
        · exact absurd (hall b hb) (BitVec.not_lt.mpr hle)
        · exact ⟨_, _, malloc_of_found h0 hp (F.chain.ne_null hb) (hal ▸ hf), hcalls⟩
      · refine ⟨⟨0, h, ?_, fun h => absurd h hfit, fun _ => ⟨rfl, rfl⟩⟩, fun _ _ _ _ _ h => absurd h hfit⟩
        refine search_missed F (fun hlt => hfit ⟨x, List.mem_cons_self, BitVec.le_of_lt hlt⟩) fun y hy hle => ?_
        exact hfit ⟨y, List.mem_cons_of_mem _ hy, hle⟩

end

/-- Two blocks have been freed, one of 208 bytes and then one of 112. -/
def twoFreed : Heap := free (free (zeroMalloc someHeap₁ 200).2 0xF0000098) 0xF000001C

theorem freeList_twoFreed : FreeList twoFreed [0xF0000010, 0xF000008C] where
  chain := by decide +kernel
  top := by simp
  apart := by simp

/-- The search for 112 bytes passes over the first, and finds the second. -/
theorem searches_twoFreed : Searches twoFreed [0xF0000010, 0xF000008C] 112 := by
  refine (searches_iff freeList_twoFreed).mpr fun x xs e _ => ?_
  obtain ⟨-, rfl⟩ := List.cons.inj e
  exact ⟨0xF000008C, List.mem_cons_self, by decide +kernel⟩

/-- One block of 112 bytes has been freed. -/
def freedHeap : Heap := free someHeap₁ 0xF000001C

theorem freeList_freedHeap : FreeList freedHeap [0xF0000010] := .singleton (by decide) (by decide)

/-- The search for 112 bytes is not complete: the block is passed over. -/
theorem not_searches : ¬ ∀ (h : Heap) (frees : List Addr) (size : Word), FreeList h frees →
    Searches h frees size := by
  intro h
  obtain ⟨⟨b, h', hf, S⟩, -⟩ := h freedHeap [0xF0000010] 112 freeList_freedHeap
  rw [search_missed freeList_freedHeap (by decide) fun _ hy => absurd hy List.not_mem_nil] at hf
  cases hf
  exact absurd (S.found ⟨0xF0000010, List.mem_cons_self, by decide⟩).1 (by decide)

end AlexOS.Malloc
