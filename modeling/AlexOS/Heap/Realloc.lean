import AlexOS.Heap.FreeList
import AlexOS.Lib.Region

/-!
# `realloc`

`realloc` compares the block with the size the wrong way round: a block that is
too small is kept, and one that is large enough is copied and freed. After
`free`, for a size of 0, it goes on, and frees the block once more. So it does
what it should if the size is not 0, and the block, if there is one, is large
enough (`reallocs_iff`).
-/

namespace AlexOS.Malloc

open AlexOS.Malloc.Inv

def realloc (src : PageSource) (h : Heap) (ptr : Addr) (size : Word) : Option (Addr × Heap) :=
  let h := if size = 0 then free h ptr else h
  if ptr = 0 then
    malloc src h size
  else
    let header := ptr - sizeofBlkHeader
    if actualSize h.mem header < size then
      some (ptr, h.store (header + 4) size)
    else do
      let (new, h) ← malloc src h size
      let h := { h with mem := h.mem.memcpy new ptr size.toNat }
      return (new, free h ptr)

/-- The argument of `realloc`: a live block, or `NULL`. -/
def ptrOf (old : Option Live) : Addr := (old.map Live.ptr).getD 0

/-- The live blocks but for that one. -/
def others (live : List Live) (old : Option Live) : List Live := (old.map live.erase).getD live

/-- `realloc` returns a block of `size` bytes with what was in the old one, which is freed if it
is another one. The other live blocks stay, and so does the invariant. -/
structure Resized (h h' : Heap) (live : List Live) (old : Option Live) (size : Word) (new : Addr) : Prop where
  inv : ∃ pages frees, Inv h' pages frees (⟨new, size⟩ :: others live old) ∧
    ∀ l, old = some l → (new ≠ l.ptr ↔ l.header ∈ frees)
  ne_zero : new ≠ 0
  kept : ∀ l, old = some l → ∀ i < min l.asked.toNat size.toNat,
    h'.mem (new + BitVec.ofNat 32 i) = h.mem (l.ptr + BitVec.ofNat 32 i)

/-- What `realloc` should do: for a size of 0 the block is put on the free list, and that is all. -/
structure Reallocs (src : PageSource) (h : Heap) (live : List Live) (old : Option Live) (size : Word)
    (new : Addr) (h' : Heap) : Prop where
  returns : realloc src h (ptrOf old) size = some (new, h')
  terminates : ∀ n, (findFreeBlk h' n).isSome
  resized : size ≠ 0 → Resized h h' live old size new
  freed : size = 0 → ∀ frees, Chain (next h.mem) 0 h.freeList frees →
    ∃ pages, Inv h' pages ((old.map Live.header).toList ++ frees) (others live old)

section

variable {src : PageSource} {h h' : Heap} {pages frees : List Addr} {live : List Live} {old : Option Live}
  {l : Live} {size : Word} {new : Addr}

/-! ## The branches -/

theorem realloc_null (h0 : size ≠ 0) : realloc src h 0 size = malloc src h size := by
  simp only [realloc, h0, if_false, if_true]

/-- A block that is too small is kept. -/
theorem realloc_small (src : PageSource) (hp : l.ptr ≠ 0) (hs : actualSize h.mem l.header < size) :
    realloc src h l.ptr size = some (l.ptr, h.store (l.header + 4) size) := by
  have h0 : size ≠ 0 := fun e => absurd (e ▸ hs) BitVec.not_lt_zero
  simp only [realloc, h0, hp, if_false]
  exact if_pos hs

/-- One that is not is copied. -/
theorem realloc_large {h₁ : Heap} (hp : l.ptr ≠ 0) (h0 : size ≠ 0) (hs : size ≤ actualSize h.mem l.header)
    (e : malloc src h size = some (new, h₁)) :
    realloc src h l.ptr size = some (new, free { h₁ with mem := h₁.mem.memcpy new l.ptr size.toNat } l.ptr) := by
  simp only [realloc, h0, hp, if_false, e, Option.bind_eq_bind, Option.bind_some]
  exact if_neg (BitVec.not_lt.mpr hs)

/-- For a size of 0, a block is freed twice. -/
theorem realloc_zero (src : PageSource) (hp : l.ptr ≠ 0) :
    realloc src h l.ptr 0 = some (0, free (free h l.ptr) l.ptr) := by
  simp only [realloc, hp, if_true, if_false]
  exact if_neg BitVec.not_lt_zero

/-- and so is `NULL`, once. -/
theorem realloc_null_zero : realloc src h 0 0 = some (0, free h 0) := rfl

/-! ## Copies -/

/-- The search of a free list ends. -/
theorem FreeList.findFreeBlk_isSome (F : FreeList h frees) (n : Word) : (findFreeBlk h n).isSome := by
  cases frees with
  | nil => rw [findFreeBlk_nil F]; rfl
  | cons x xs =>
    rw [findFreeBlk, walk_tooSmall F]
    split
    · rfl
    split
    · rfl
    simp only [Option.bind_eq_bind, Option.bind_some]
    split <;> rfl

/-- Two live blocks are apart. -/
theorem Inv.live_apart (I : Inv h pages frees live) {l' : Live} (hl : l ∈ live) (hl' : l' ∈ live) (hne : l ≠ l') :
    l.payloadEnd h.mem ≤ l'.header.toNat ∨ l'.payloadEnd h.mem ≤ l.header.toNat := by
  have hne' : l.header ≠ l'.header := fun e => hne (List.inj_on_of_nodup_map I.nodup hl hl' e)
  have := I.layout.apart _ _ (block_live frees hl) (block_live frees hl') hne'
  rw [Live.payloadEnd, Live.payloadEnd, I.ptr_eq hl, I.ptr_eq hl']
  exact this

/-- A write to the payload of a live block. -/
theorem Inv.write_payload (I : Inv h pages frees live) (hl : l ∈ live) {m : Mem} {n : Nat}
    (hc : Mem.Changes (Mem.range l.ptr n) h.mem m) (hn : n ≤ (actualSize h.mem l.header).toNat) :
    Inv { h with mem := m } pages frees live := by
  have hp := I.ptr_eq hl
  refine I.keep rfl rfl fun x hx => I.layout.keep (I.layout.clear_payload (block_live frees hl))
    (fun y hy => hc y ?_) hx
  rw [Mem.mem_range]
  omega

/-- A block that is large enough is copied, and freed. -/
theorem Inv.copied (I : Inv h pages frees live) (hl : l ∈ live) (hn : Live.mk new size ∈ live) (hne : new ≠ l.ptr)
    (hs : size ≤ actualSize h.mem l.header) :
    Inv (free { h with mem := h.mem.memcpy new l.ptr size.toNat } l.ptr) pages (l.header :: frees) (live.erase l) ∧
      ∀ i < size.toNat, (free { h with mem := h.mem.memcpy new l.ptr size.toNat } l.ptr).mem
        (new + BitVec.ofNat 32 i) = h.mem (l.ptr + BitVec.ofNat 32 i) := by
  have hne' : Live.mk new size ≠ l := fun e => hne (by rw [← e])
  have hapart := I.live_apart hn hl hne'
  have hp := I.ptr_eq hl; have hp' : new.toNat = _ := I.ptr_eq hn
  have ht := (I.layout.block_top (block_live frees hl)).2
  have ht' := (I.layout.block_top (block_live frees hn)).2
  have hasked : size.toNat ≤ (actualSize h.mem (Live.mk new size).header).toNat := (I.asked _ hn).2
  have hs' : size.toNat ≤ (actualSize h.mem l.header).toNat := hs
  simp only [Live.payloadEnd, blkEnd] at hapart ht ht'
  have hc : Mem.Changes (Mem.range new size.toNat) h.mem (h.mem.memcpy new l.ptr size.toNat) :=
    Mem.memcpy_changes (by omega)
  have J := I.write_payload hn hc hasked
  refine ⟨J.push hl, fun i hi => ?_⟩
  have e := Mem.toNat_add_lt (a := new) hi (by omega)
  calc (h.mem.memcpy new l.ptr size.toNat).store32 l.header h.freeList (new + BitVec.ofNat 32 i)
      = h.mem.memcpy new l.ptr size.toNat (new + BitVec.ofNat 32 i) := Mem.store32_outside (by omega) (by omega)
    _ = h.mem (l.ptr + BitVec.ofNat 32 i) := Mem.memcpy_byte (by omega) (by omega) (by omega) hi

/-- With a block that is large enough, or without one, `realloc` does what it should. -/
theorem reallocs_of_le (I : Inv h pages frees live) (hold : ∀ l, old = some l → l ∈ live) (h0 : size ≠ 0)
    (hn : size ≤ 0x7FFFFFFF) (hm : (malloc src h size).any fun r => r.1 ≠ 0)
    (hs : ∀ l, old = some l → size ≤ actualSize h.mem l.header) : ∃ new h',
      Reallocs src h live old size new h' := by
  obtain ⟨new, h₁, pages', frees', e, F, J⟩ := malloc_spec src I (.inl hn)
  have hne : new ≠ 0 := by simpa [e] using hm
  rw [if_neg hne] at J
  cases old with
  | none =>
    refine ⟨new, h₁, (realloc_null h0).trans e, J.freeList.findFreeBlk_isSome,
      fun _ => ⟨⟨pages', frees', J, ?_⟩, hne, ?_⟩,
      fun h => absurd h h0⟩
    · rintro _ ⟨⟩
    · rintro _ ⟨⟩
  | some l =>
    have hl := hold l rfl
    have hp0 := I.ptr_ne_zero hl
    have hl' : l ∈ ⟨new, size⟩ :: live := List.mem_cons_of_mem _ hl
    have hsize := F.actualSize hl (I.header_top hl)
    have hnew : new ≠ l.ptr := fun e =>
      (List.nodup_cons.mp J.nodup).1 (List.mem_map.mpr ⟨l, hl, by rw [Live.header, Live.header, e]⟩)
    have hle := hs l rfl
    obtain ⟨K, hkept⟩ := J.copied hl' List.mem_cons_self hnew (by rw [hsize]; exact hle)
    rw [List.erase_cons_tail (by simpa using fun e => hnew (congrArg Live.ptr e))] at K
    refine ⟨new, _, realloc_large hp0 h0 hle e, K.freeList.findFreeBlk_isSome,
      fun _ => ⟨⟨pages', _, K, ?_⟩, hne, ?_⟩, fun h => absurd h h0⟩
    · rintro _ ⟨⟩
      exact ⟨fun _ => List.mem_cons_self, fun _ => hnew⟩
    · rintro _ ⟨⟩ i hi
      have hle' : size.toNat ≤ (actualSize h.mem l.header).toNat := hle
      have hp := I.ptr_eq hl
      have ht := (I.layout.block_top (block_live frees hl)).2
      simp only [blkEnd] at ht
      have e' := Mem.toNat_add_lt (a := l.ptr) (show i < size.toNat by omega) (by omega)
      rw [hkept i (by omega)]
      exact F l hl _ (by omega) (by omega)

/-! ## What goes wrong -/

/-- A block that is too small is returned as it is. -/
theorem not_reallocs_small (I : Inv h pages frees live) (hl : l ∈ live) (hs : actualSize h.mem l.header < size) :
    ¬ Reallocs src h live (some l) size new h' := by
  rintro ⟨hr, -, R, -⟩
  have h0 : size ≠ 0 := fun e => absurd (e ▸ hs) BitVec.not_lt_zero
  cases (realloc_small src (I.ptr_ne_zero hl) hs).symm.trans hr
  obtain ⟨⟨pages', frees', J, -⟩, -, -⟩ := R h0
  have hle : size.toNat ≤ (actualSize (h.store (l.header + 4) size).mem l.header).toNat :=
    (J.asked _ List.mem_cons_self).2
  rw [show actualSize (h.store (l.header + 4) size).mem l.header = actualSize h.mem l.header from
    load_store _ _ _ 4 8 (by decide) (by decide)] at hle
  exact absurd hs (BitVec.not_lt.mpr hle)

/-- A block is put on the free list twice, or something that is none. -/
theorem not_reallocs_zero (I : Inv h pages frees live) (hold : ∀ l, old = some l → l ∈ live) :
    ¬ Reallocs src h live old 0 new h' := by
  rintro ⟨hr, -, -, hf⟩
  obtain ⟨pages', J⟩ := hf rfl frees I.freeChain
  have hchain := J.freeChain
  cases old with
  | none =>
    cases realloc_null_zero.symm.trans hr
    have hH : (free h 0).freeList ≠ 0 := show (0 - sizeofBlkHeader : Addr) ≠ 0 by decide
    obtain ⟨xs, rfl⟩ : ∃ xs, frees = (free h 0).freeList :: xs := hchain.exists_cons hH
    have hnext : next (free h 0).mem (free h 0).freeList = (free h 0).freeList :=
      (next_store_next _ _ _).trans I.freeChain.1
    have h2 : Chain (next (free h 0).mem) 0 (next (free h 0).mem (free h 0).freeList) xs := hchain.2.2
    rw [hnext] at h2
    exact absurd (congrArg List.length (hchain.unique h2)) (by simp)
  | some l =>
    cases (realloc_zero src (I.ptr_ne_zero (hold l rfl))).symm.trans hr
    have hnext : next (free (free h l.ptr) l.ptr).mem l.header = l.header := next_store_next _ _ _
    have h2 := hchain.2.2
    rw [hnext] at h2
    exact absurd (congrArg List.length (hchain.unique h2)) (by simp)

/-- With memory available, `realloc` does what it should exactly if the size is not 0 and the
block, if there is one, is large enough. -/
theorem reallocs_iff (r : Reachable src h live) (hold : ∀ l, old = some l → l ∈ live) (hn : size ≤ 0x7FFFFFFF)
    (hm : size ≠ 0 → (malloc src h size).any fun r => r.1 ≠ 0) :
    (∃ new h', Reallocs src h live old size new h') ↔
      size ≠ 0 ∧ ∀ l, old = some l → size ≤ actualSize h.mem l.header := by
  obtain ⟨pages, frees, I⟩ := r.inv
  constructor
  · rintro ⟨new, h', R⟩
    refine ⟨fun e => not_reallocs_zero I hold (e ▸ R), ?_⟩
    rintro l rfl
    by_contra hs
    exact not_reallocs_small I (hold l rfl) (BitVec.not_le.mp hs) R
  · rintro ⟨h0, hs⟩
    exact reallocs_of_le I hold h0 hn (hm h0) hs

end

/-- A block of 100 bytes, for which the heap has 112, is made smaller. -/
theorem reallocs_someHeap₁ :
    ∃ new h', Reallocs zeroPages someHeap₁ [⟨0xF000001C, 100⟩] (some ⟨0xF000001C, 100⟩) 64 new h' := by
  have r : Reachable zeroPages someHeap₁ [⟨0xF000001C, 100⟩] :=
    zeroMalloc_reachable (.empty _) (by decide) (by decide) (by decide)
  refine (reallocs_iff r ?_ (by decide) fun _ => by decide).mpr ⟨by decide, ?_⟩
  · rintro _ ⟨⟩
    exact List.mem_cons_self
  · rintro _ ⟨⟩
    decide

/-- It is not made larger. -/
theorem not_reallocs : ¬ ∀ (src : PageSource) (h : Heap) (live : List Live) (old : Option Live) (size : Word),
    Reachable src h live → (∀ l, old = some l → l ∈ live) → size ≤ 0x7FFFFFFF →
      (size ≠ 0 → (malloc src h size).any fun r => r.1 ≠ 0) →
        ∃ new h', Reallocs src h live old size new h' := by
  intro hall
  have r : Reachable zeroPages someHeap₁ [⟨0xF000001C, 100⟩] :=
    zeroMalloc_reachable (.empty _) (by decide) (by decide) (by decide)
  obtain ⟨new, h', R⟩ := hall zeroPages someHeap₁ _ (some ⟨0xF000001C, 100⟩) 200 r
    (by rintro _ ⟨⟩; exact List.mem_cons_self) (by decide)
    fun _ => by decide
  obtain ⟨pages, frees, I⟩ := r.inv
  exact not_reallocs_small I List.mem_cons_self (by decide) R

end AlexOS.Malloc
