import AlexOS.Heap.Realloc
import AlexOS.Lib.Allocator

/-!
# The heap as an allocator

`malloc` and `free` are a lawful allocator (`heap_lawful`), so what is proved
of the kernel's lists over any allocator holds of them. Some blocks may be set
apart: the allocator and the owners of the others leave what is in them, and
their `actual_size`, as it is (`Owns`).
-/

namespace AlexOS.Malloc

open AlexOS.Malloc.Inv

/-- The block of a pointer, as large as was asked for. -/
def Live.block (l : Live) : AlexOS.Block := ⟨l.ptr, l.asked.toNat⟩

/-- The heap, beside the memory. -/
def heapAllocator (src : PageSource) : Allocator Heap where
  malloc h m size := (malloc src { h with mem := m } size).map fun r => (r.1, r.2, r.2.mem)
  free h m ptr := (free { h with mem := m } ptr, (free { h with mem := m } ptr).mem)

/-- The blocks `live` are handed out, beside those of `fixed`, which are as they were in `m₀`. -/
def Owns (fixed : List Live) (m₀ : Mem) (h : Heap) (m : Mem) (live : List AlexOS.Block) : Prop :=
  ∃ pages frees ls, Inv { h with mem := m } pages frees (fixed ++ ls) ∧ Frame fixed m₀ m ∧
    live.Perm (ls.map Live.block)

/-- No block is free, and the first page has room for `k` bytes, headers included. -/
structure Room (h : Heap) (m : Mem) (k : Nat) : Prop where
  free : h.freeList = 0
  page : h.pageList ≠ 0
  le : usedEnd m h.pageList + k ≤ pageEnd m h.pageList

section

variable {src : PageSource} {h h' : Heap} {pages frees : List Addr} {live live' fixed ls : List Live} {l l' : Live}
  {m m' m₀ : Mem} {p : Addr} {n : Word} {bs : List AlexOS.Block}

theorem Inv.perm (I : Inv h pages frees live) (hp : live.Perm live') : Inv h pages frees live' := by
  have hm := hp.map Live.header
  refine ⟨I.pageChain, I.freeChain, I.layout.mono fun b hb => hb.imp id hm.mem_iff.mpr, hm.nodup_iff.mp I.nodup,
    fun b hb h' => I.apart b hb (hm.mem_iff.mpr h'), fun l hl => I.asked l (hp.mem_iff.mpr hl)⟩

/-- What was asked for is in the payload. -/
theorem Inv.block_payload (I : Inv h pages frees live) (hl : l ∈ live) {k : Nat} (hk : k ∈ l.block.addresses) :
    l.header.toNat + 12 ≤ k ∧ k < l.payloadEnd h.mem := by
  have hp := I.ptr_eq hl; have ha := (I.asked l hl).2
  rw [Live.block, AlexOS.Block.addresses, Mem.mem_range] at hk
  simp only [Live.payloadEnd] at hk ⊢
  omega

theorem Inv.payload_top (I : Inv h pages frees live) (hl : l ∈ live) : l.payloadEnd h.mem ≤ 2 ^ 32 := by
  have := (I.layout.block_top (block_live frees hl)).2
  rw [Live.payloadEnd, I.ptr_eq hl]
  exact this

/-- Live blocks keep the bytes that were asked for. -/
theorem Inv.keeps_of_frame (I : Inv h pages frees live) (hsub : ∀ l ∈ ls, l ∈ live)
    (hp : bs.Perm (ls.map Live.block)) (F : Frame ls h.mem m) : AlexOS.Block.Keeps bs h.mem m := by
  rintro x ⟨b, hb, hx⟩
  obtain ⟨l, hl, rfl⟩ := List.mem_map.mp (hp.mem_iff.mp hb)
  have hk := I.block_payload (hsub l hl) hx; have hp := I.ptr_eq (hsub l hl)
  simp only [Live.payloadEnd] at hk
  exact F l hl x (by omega) (by omega)

/-- The owners of some live blocks write to them, and not to a header. -/
theorem Inv.write_kept (I : Inv h pages frees live) (hsub : ∀ l ∈ ls, l ∈ live)
    (hc : Mem.Changes (AlexOS.Block.footprint (ls.map Live.block)) h.mem m) {x : Addr}
    (hx : Header pages (Block frees live) x) : Kept h.mem m x := by
  refine Kept.of_eqOn (fun y h1 h2 => hc y ?_) (I.layout.header_top hx).2
  rintro ⟨b, hb, hy⟩
  obtain ⟨l, hl, rfl⟩ := List.mem_map.mp hb
  have hk := I.block_payload (hsub l hl) hy; have hp := I.ptr_eq (hsub l hl)
  have := I.layout.clear_payload (block_live frees (hsub l hl)) x hx
  simp only [Live.payloadEnd] at hk
  omega

theorem Inv.write_blocks (I : Inv h pages frees live) (hsub : ∀ l ∈ ls, l ∈ live)
    (hc : Mem.Changes (AlexOS.Block.footprint (ls.map Live.block)) h.mem m) :
    Inv { h with mem := m } pages frees live ∧
      ∀ l' ∈ live, l' ∉ ls →
        Mem.EqOn (l'.header.toNat + 8) (4 + (actualSize h.mem l'.header).toNat) h.mem m := by
  refine ⟨I.keep rfl rfl fun x hx => I.write_kept hsub hc hx, fun l' hl' hno y h1 h2 => hc y ?_⟩
  rintro ⟨b, hb, hy⟩
  obtain ⟨l, hl, rfl⟩ := List.mem_map.mp hb
  have hk := I.block_payload (hsub l hl) hy; have hp := I.ptr_eq hl'
  have hd := I.live_apart (hsub l hl) hl' fun e => hno (e ▸ hl)
  simp only [Live.payloadEnd] at hk hd
  omega

/-! ## The laws -/

theorem Owns.pairwise (I : Inv h pages frees live) :
    (live.map Live.block).Pairwise fun b b' => Disjoint b.addresses b'.addresses := by
  have hne : live.Pairwise fun l l' => l ≠ l' := (List.Nodup.of_map _ I.nodup)
  refine List.pairwise_map.mpr (hne.imp_of_mem fun {l l'} hl hl' hne => Set.disjoint_left.mpr fun k hk hk' => ?_)
  have h1 := I.block_payload hl hk; have h2 := I.block_payload hl' hk'
  have := I.live_apart hl hl' hne
  omega

theorem malloc_ok (O : Owns fixed m₀ h m bs) (hn : n ≤ 0x7FFFFFFF)
    (hm : (heapAllocator src).malloc h m n = some (p, h', m')) :
    Owns fixed m₀ h' m' (if p = 0 then bs else ⟨p, n.toNat⟩ :: bs) ∧ AlexOS.Block.Keeps bs m m' := by
  obtain ⟨pages, frees, ls, I, F₀, hp⟩ := O
  obtain ⟨q, h₁, pages', frees', e, F, J⟩ := malloc_spec src I (.inl hn)
  obtain ⟨r, hr, hq⟩ := Option.map_eq_some_iff.mp hm
  obtain rfl := Option.some.inj (e.symm.trans hr)
  simp only [Prod.mk.injEq] at hq
  obtain ⟨rfl, rfl, rfl⟩ := hq
  have hleft : ∀ l ∈ fixed, l ∈ fixed ++ ls := fun _ hl => List.mem_append_left _ hl
  have hright : ∀ l ∈ ls, l ∈ fixed ++ ls := fun _ hl => List.mem_append_right _ hl
  have hfix := F₀.trans (F.mono hleft) fun l hl => I.header_top (hleft l hl)
  refine ⟨?_, I.keeps_of_frame hright hp (F.mono hright)⟩
  by_cases h0 : q = 0
  · rw [if_pos h0] at J ⊢
    exact ⟨pages', frees', ls, J, hfix, hp⟩
  · rw [if_neg h0] at J ⊢
    exact ⟨pages', frees', ⟨q, n⟩ :: ls, J.perm List.perm_middle.symm, hfix, hp.cons _⟩

theorem free_ok {b : AlexOS.Block} (O : Owns fixed m₀ h m (b :: bs)) :
    Owns fixed m₀ ((heapAllocator src).free h m b.ptr).1 ((heapAllocator src).free h m b.ptr).2 bs ∧
      AlexOS.Block.Keeps bs m ((heapAllocator src).free h m b.ptr).2 := by
  obtain ⟨pages, frees, ls, I, F₀, hp⟩ := O
  obtain ⟨l, hl, rfl⟩ := List.mem_map.mp (hp.mem_iff.mp List.mem_cons_self)
  have hls := List.perm_cons_erase hl
  have hp' : bs.Perm ((ls.erase l).map Live.block) := (hp.trans (hls.map Live.block)).cons_inv
  have I' : Inv { h with mem := m } pages frees (l :: (fixed ++ ls.erase l)) :=
    I.perm ((hls.append_left fixed).trans List.perm_middle)
  have J := I'.push List.mem_cons_self
  rw [List.erase_cons_head] at J
  have F : Frame (l :: (fixed ++ ls.erase l)) m (free { h with mem := m } l.ptr).mem :=
    I'.frame_header (header_live List.mem_cons_self) (Nat.le_refl l.header.toNat) (by rw [Live.header]; omega)
  have hleft : ∀ x ∈ fixed, x ∈ l :: (fixed ++ ls.erase l) := fun _ h =>
    List.mem_cons_of_mem _ (List.mem_append_left _ h)
  have hright : ∀ x ∈ ls.erase l, x ∈ l :: (fixed ++ ls.erase l) := fun _ h =>
    List.mem_cons_of_mem _ (List.mem_append_right _ h)
  exact ⟨⟨pages, _, ls.erase l, J, F₀.trans (F.mono hleft) fun x hx => I'.header_top (hleft x hx), hp'⟩,
    I'.keeps_of_frame hright hp' (F.mono hright)⟩

theorem heap_lawful (src : PageSource) (fixed : List Live) (m₀ : Mem) :
    (heapAllocator src).Lawful (Owns fixed m₀) where
  perm := fun ⟨pages, frees, ls, I, F, hp⟩ h => ⟨pages, frees, ls, I, F, h.symm.trans hp⟩
  ptr_ne_zero := fun ⟨pages, frees, ls, I, F, hp⟩ b hb => by
    obtain ⟨l, hl, rfl⟩ := List.mem_map.mp (hp.mem_iff.mp hb)
    exact I.ptr_ne_zero (List.mem_append_right _ hl)
  size_pos := fun ⟨pages, frees, ls, I, F, hp⟩ b hb => by
    obtain ⟨l, hl, rfl⟩ := List.mem_map.mp (hp.mem_iff.mp hb)
    exact (I.asked l (List.mem_append_right _ hl)).1
  fits := fun ⟨pages, frees, ls, I, F, hp⟩ b hb => by
    obtain ⟨l, hl, rfl⟩ := List.mem_map.mp (hp.mem_iff.mp hb)
    have := I.payload_top (List.mem_append_right _ hl)
    have := (I.asked l (List.mem_append_right _ hl)).2
    simp only [Live.payloadEnd, Live.block] at *
    omega
  disjoint := fun ⟨pages, frees, ls, I, F, hp⟩ => by
    have h := Owns.pairwise I
    rw [List.map_append] at h
    exact (hp.pairwise_iff fun hd => hd.symm).mpr (List.pairwise_append.mp h).2.1
  write := fun ⟨pages, frees, ls, I, F, hp⟩ hc => by
    obtain ⟨J, hkeep⟩ := I.write_blocks (fun l hl => List.mem_append_right _ hl)
      (hc.mono (AlexOS.Block.footprint_mono hp.subset))
    have hno := (List.nodup_append.mp (List.Nodup.of_map _ I.nodup)).2.2
    refine ⟨pages, frees, ls, J, F.trans (fun l hl => ?_) fun l hl => ?_, hp⟩
    · exact hkeep l (List.mem_append_left _ hl) fun h => hno l hl l h rfl
    · exact I.header_top (List.mem_append_left _ hl)
  malloc := malloc_ok
  free := free_ok

/-- At the start nothing is handed out. -/
theorem Owns.empty (mem : Mem) : Owns [] mem ⟨mem, 0, 0, 0⟩ mem [] := by
  have r : Reachable zeroPages ⟨mem, 0, 0, 0⟩ [] := .empty mem
  obtain ⟨pages, frees, I⟩ := r.inv
  exact ⟨pages, frees, [], I, .refl _ _, .refl _⟩

/-! ## A block that is set apart -/

/-- A block is set apart from the others. -/
theorem Owns.fix (O : Owns [] m₀ h m (l.block :: bs)) : Owns [l] m h m bs := by
  obtain ⟨pages, frees, ls, I, -, hp⟩ := O
  obtain ⟨l', hl', e⟩ := List.mem_map.mp (hp.mem_iff.mp List.mem_cons_self)
  obtain rfl : l' = l := by
    obtain ⟨e1, e2⟩ := AlexOS.Block.mk.inj e
    cases l'
    cases l
    exact congrArg₂ Live.mk e1 (BitVec.eq_of_toNat_eq e2)
  have hls := List.perm_cons_erase hl'
  exact ⟨pages, frees, ls.erase l', I.perm hls, .refl _ _, (hp.trans (hls.map Live.block)).cons_inv⟩

/-- It is set apart as it is now. -/
theorem Owns.rebase (O : Owns fixed m₀ h m bs) : Owns fixed m h m bs := by
  obtain ⟨pages, frees, ls, I, -, hp⟩ := O
  exact ⟨pages, frees, ls, I, .refl _ _, hp⟩

theorem Owns.payload (O : Owns [l] m₀ h m bs) : l.ptr.toNat = l.header.toNat + 12 ∧
    l.asked.toNat ≤ (actualSize m l.header).toNat ∧ l.payloadEnd m ≤ 2 ^ 32 := by
  obtain ⟨pages, frees, ls, I, -, -⟩ := O
  exact ⟨I.ptr_eq List.mem_cons_self, (I.asked l List.mem_cons_self).2, I.payload_top List.mem_cons_self⟩

/-- It is as it was. -/
theorem Owns.same (O : Owns [l] m₀ h m bs) (hw : l.header.toNat + 12 ≤ 2 ^ 32) :
    actualSize m l.header = actualSize m₀ l.header ∧
      Mem.EqOn l.ptr.toNat (actualSize m₀ l.header).toNat m₀ m := by
  obtain ⟨pages, frees, ls, I, F, -⟩ := O
  have hp := I.ptr_eq List.mem_cons_self
  exact ⟨F.actualSize List.mem_cons_self hw, (F l List.mem_cons_self).mono (by omega) (by omega)⟩

/-- Its owner writes to it. -/
theorem Owns.write_fixed {k : Nat} (O : Owns [l] m₀ h m bs) (hc : Mem.Changes (Mem.range l.ptr k) m m')
    (hk : k ≤ (actualSize m l.header).toNat) :
    Owns [l] m' h m' bs ∧ AlexOS.Block.Keeps bs m m' ∧ actualSize m' l.header = actualSize m l.header := by
  obtain ⟨pages, frees, ls, I, -, hp⟩ := O
  have J := I.write_payload List.mem_cons_self hc hk
  have hptr := I.ptr_eq List.mem_cons_self
  refine ⟨⟨pages, frees, ls, J, .refl _ _, hp⟩, fun x ⟨b, hb, hx⟩ => hc x ?_, ?_⟩
  · obtain ⟨l', hls, rfl⟩ := List.mem_map.mp (hp.mem_iff.mp hb)
    have hl' : l' ∈ [l] ++ ls := List.mem_append_right _ hls
    have hne : l ≠ l' := fun e => (List.nodup_cons.mp I.nodup).1 (e ▸ List.mem_map_of_mem hls)
    have hd := I.live_apart List.mem_cons_self hl' hne
    have hpay := I.block_payload hl' hx
    simp only [Live.payloadEnd] at hd hpay
    rw [Mem.mem_range]
    omega
  · have ht := I.header_top List.mem_cons_self
    have e : (l.header + 8).toNat = l.header.toNat + 8 := toNat_add_const (by simp; omega)
    exact hc.load32 (by omega) fun i hi => by rw [Mem.mem_range]; omega

/-- The heap writes to its `size`. -/
theorem Owns.size_fixed (O : Owns [l] m₀ h m bs) (v : Word) :
    Owns [l] m h (m.store32 (l.header + 4) v) bs ∧ AlexOS.Block.Keeps bs m (m.store32 (l.header + 4) v) := by
  obtain ⟨pages, frees, ls, I, -, hp⟩ := O
  have hb : Block frees ([l] ++ ls) l.header := block_live frees List.mem_cons_self
  have F : Frame ([l] ++ ls) m (m.store32 (l.header + 4) v) := I.frame_size hb
  have hright : ∀ x ∈ ls, x ∈ [l] ++ ls := fun _ hl => List.mem_append_right _ hl
  exact ⟨⟨pages, frees, ls, I.store_size hb, F.mono fun _ hl => List.mem_append_left _ hl, hp⟩,
    I.keeps_of_frame hright hp (F.mono hright)⟩

/-! ## A page with room -/

theorem Inv.page_mem (I : Inv h pages frees live) (hp : h.pageList ≠ 0) : h.pageList ∈ pages := by
  obtain ⟨xs, e⟩ := I.pageChain.exists_cons hp
  exact e ▸ List.mem_cons_self

theorem roomyPage_first (src : PageSource) (I : Inv h pages frees live) (hp : h.pageList ≠ 0)
    (hr : usedEnd h.mem h.pageList + 12 + n.toNat ≤ pageEnd h.mem h.pageList) :
    roomyPage src h n = some (true, h.pageList, h) := by
  have hn : noRoom h.mem h.pageList n = false := by
    rw [← Bool.not_eq_true, noRoom_iff I (I.page_mem hp)]
    · omega
    · have := I.layout.top _ (I.page_mem hp); have := I.layout.low _ (I.page_mem hp)
      have : STARTING_PAGE.toNat = 0xF0000000 := rfl
      simp only [usedEnd, pageEnd] at *
      omega
  rw [roomyPage, walk_stop (by rw [hn, Bool.and_false]; rfl) (by decide)]
  simp only [Option.bind_eq_bind, Option.bind_some, hn, Bool.false_eq_true, if_false]
  rfl

theorem Owns.malloc_room {k : Nat} (src : PageSource) (O : Owns fixed m₀ h m bs) (h0 : n ≠ 0)
    (hn : n ≤ 0x7FFFFFFF) (R : Room h m (12 + (align n 0x10).toNat + k)) :
    ∃ p h' m', (heapAllocator src).malloc h m n = some (p, h', m') ∧ p ≠ 0 ∧ Room h' m' k := by
  obtain ⟨pages, frees, ls, I, -, -⟩ := O
  obtain ⟨-, ha, -⟩ := align_fits src h0 (.inl hn)
  have hmem := I.page_mem R.page
  have hle := R.le
  have hr : usedEnd m h.pageList + 12 + (align n 0x10).toNat ≤ pageEnd m h.pageList := by omega
  have hm := malloc_of_roomy (h := { h with mem := m }) h0 R.page R.free (roomyPage_first src I R.page hr)
  have J := I.carve n hmem hr ⟨Nat.pos_of_ne_zero fun e => h0 (BitVec.eq_of_toNat_eq e), ha⟩
  obtain ⟨hw, hu, -⟩ := I.carve_words n hmem hr rfl
  refine ⟨_, _, _, congrArg (Option.map _) hm, J.ptr_ne_zero List.mem_cons_self, R.free, R.page, ?_⟩
  show usedEnd (Malloc.carve _ h.pageList n _).2.mem h.pageList + k ≤
    pageEnd (Malloc.carve _ h.pageList n _).2.mem h.pageList
  rw [usedEnd, pageEnd, (hw _ (.inl hmem)).2.1, hu]
  simp only [usedEnd, pageEnd] at hle
  show h.pageList.toNat + ((usedSize m h.pageList).toNat + 12 + (align n 0x10).toNat) + k ≤
    h.pageList.toNat + (pageSize m h.pageList).toNat
  omega

theorem Owns.write_room {k : Nat} (O : Owns fixed m₀ h m bs) (R : Room h m k)
    (hc : Mem.Changes (AlexOS.Block.footprint bs) m m') : Room h m' k := by
  obtain ⟨pages, frees, ls, I, -, hp⟩ := O
  have K := I.write_kept (m := m') (fun l hl => List.mem_append_right fixed hl)
    (hc.mono fun x ⟨b, hb, hx⟩ => ⟨b, hp.mem_iff.mp hb, hx⟩) (.inl (I.page_mem R.page))
  refine ⟨R.free, R.page, ?_⟩
  rw [usedEnd, pageEnd, K.usedSize, K.pageSize]
  exact R.le

end

end AlexOS.Malloc
