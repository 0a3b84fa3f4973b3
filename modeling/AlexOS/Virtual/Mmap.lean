import AlexOS.Virtual.FindFree
import AlexOS.Virtual.Undo

/-!
# What mmap gives

`mmap(NULL, len)` searches two free pages, whatever the length, maps `len`
bytes from there on, and returns the address even if that fails. So the memory
is fresh if the pages after those two happen to be free as well, the bitmap has
a run for them and the blocks for their tables, and the entries keep nothing of
an earlier frame (`Served`).
-/

namespace AlexOS.Virtual

open Physical

/-- `n` pages from `a` on that were not present are mapped, each to a block of its own that was free; the other
pages are mapped as before. -/
structure FreshMemory (s s' : Paging) (a : Addr) (n : Nat) : Prop where
  bound : a.toNat + 4096 * n ≤ 2 ^ 32
  absent : ∀ i < n, ¬ present s (pageAfter a i)
  mapped : ∀ i < n, present s' (pageAfter a i)
  free : ∀ i < n, bit s.phys (blockOf (getPhysAddr s' (pageAfter a i))) = false
  distinct : ∀ i < n, ∀ j < n,
    blockOf (getPhysAddr s' (pageAfter a i)) = blockOf (getPhysAddr s' (pageAfter a j)) → i = j
  others : ∀ v, page v ∉ pagesOf a n →
    (present s' v ↔ present s v) ∧ (present s v → getPhysAddr s' v = getPhysAddr s v)

/-- `mmap(NULL, len)` gives fresh memory or `NULL`, and `NULL` if the memory cannot be obtained. -/
def GivesFresh (s : Paging) (len : Word) : Prop :=
  ((mmap s 0 len).1 ≠ 0 → FreshMemory s (mmap s 0 len).2 (mmap s 0 len).1 ((len.toNat + 4095) / 4096)) ∧
    ((allocateNewPage (findFreePage s 1).2 (findFreePage s 1).1 (NB_PAGE len)).1 = 0 → (mmap s 0 len).1 = 0)

/-- An entry with bit 31 set gets a block from 2 GiB on. Where it gets another one, the page is mapped 2 GiB too high,
to a block that may be free by chance. -/
def CleanEntries (s : Paging) (a base : Addr) (n : Nat) : Prop :=
  ∀ i < n, (entryOf s (pageAfter a i)).getLsbD 31 = true → (pageAfter base i).toNat < 2 ^ 31 →
    bit s.phys (blockOf (pageAfter base i + 0x80000000)) = false ∧
      ∀ j < n, pageAfter base j ≠ pageAfter base i + 0x80000000

/-- The blocks that `mmap(NULL, len)` is given are fresh, those of the search and those of the range. -/
structure FreshMmap (s : Paging) (len : Word) : Prop where
  search : FreshSearch s 1
  allocation : (findFreePage s 1).1 ≠ 0 →
    FreshAllocation (findFreePage s 1).2 (findFreePage s 1).1 (NB_PAGE len)

/-- What `mmap` relies on when the search has given `a` and left `u`: the pages are within 4 GiB and free, there are
blocks for them and for their tables, and the entries are clean. -/
structure Served (s u : Paging) (a : Addr) (nbPage : Word) : Prop where
  bound : a.toNat + 4096 * nbPage.toNat ≤ 2 ^ 32
  absent : ∀ i < nbPage.toNat, ¬ present s (pageAfter a i)
  blocks : (allocateBlocks u.phys nbPage).1 ≠ 0
  tables : (singles (allocateBlocks u.phys nbPage).2 (lacking u a nbPage.toNat).card).isSome
  clean : CleanEntries s a (allocateBlocks u.phys nbPage).1 nbPage.toNat

section

variable {s s' u : Paging} {a base v : Addr} {e p len nbPage : Word} {i j n : Nat}

/-- Bit 31 of the old entry is left over. -/
theorem frame_mapEntry_stale (hp : Aligned p) (he : e.getLsbD 31 = true) (hlt : p.toNat < 2 ^ 31) :
    frame (mapEntry e p) = p + 0x80000000 := by
  have hbit : ∀ i < 32, (0x80000000 : Word).getLsbD i = decide (i = 31) := by decide
  have hand : p &&& 0x80000000 = 0 := by
    apply BitVec.eq_of_getLsbD_eq
    intro i hi
    rw [BitVec.getLsbD_and, hbit i hi, show (0 : Word).getLsbD i = false from BitVec.getLsbD_zero]
    by_cases h31 : i = 31
    · subst h31
      have h : p.getLsbD 31 = false := Nat.testBit_lt_two_pow hlt
      rw [h, Bool.false_and]
    · rw [decide_eq_false h31, Bool.and_false]
  rw [BitVec.add_eq_or_of_and_eq_zero p 0x80000000 hand]
  apply BitVec.eq_of_getLsbD_eq
  intro i hi
  rw [getLsbD_frame_mapEntry hp hi, BitVec.getLsbD_or, hbit i hi, Bool.or_comm]
  by_cases h31 : i = 31
  · subst h31
    rw [he]
    rfl
  · rw [decide_eq_false h31, Bool.false_and]

/-! ## The memory that is mapped -/

/-- The range is mapped if there are blocks for it and for the tables that it lacks. -/
theorem Layout.allocateNewPage_iff (L : Layout s) (F : FreshAllocation s a nbPage) (ha : a ≠ 0) :
    (allocateNewPage s a nbPage).1 ≠ 0 ↔
    (allocateBlocks s.phys nbPage).1 ≠ 0 ∧
      (singles (allocateBlocks s.phys nbPage).2 (lacking s a nbPage.toNat).card).isSome := by
  simp only [allocateNewPage]
  by_cases h0 : (allocateBlocks s.phys nbPage).1 = 0
  · rw [if_pos h0]
    exact iff_of_false (fun h => h rfl) fun h => h.1 h0
  have S := L.allocateBlocks_still F.blocks
  have K := L.kept_allocateBlocks F.blocks
  obtain ⟨new, -, hI⟩ := S.layout.mapPages_installs (F.tables h0)
  rw [K.lacking_eq] at hI
  rw [if_neg h0, and_iff_right h0]
  split
  · rename_i hn
    rw [if_pos hn] at hI
    obtain ⟨rfl, phys, hp, -⟩ := hI
    rw [hp]
    exact iff_of_true ha rfl
  · rename_i hn
    rw [if_neg hn] at hI
    rw [hI]
    exact iff_of_false (fun h => h rfl) (fun h => Bool.false_ne_true h)

/-- The block of a page that has been mapped. -/
theorem Obtained.block (O : Obtained u s' a n base) (hi : i < n) (hent : ∀ v, entryOf u v = entryOf s v) :
    present s' (pageAfter a i) ∧ blockOf (getPhysAddr s' (pageAfter a i)) =
      blockOf (frame (mapEntry (entryOf s (pageAfter a i)) (pageAfter base i))) := by
  have he := O.entries i hi (pageAfter a i) rfl
  have hp : present s' (pageAfter a i) := by
    rw [present, he]
    exact isPresent_mapEntry _ _
  exact ⟨hp, by rw [blockOf_getPhysAddr hp, he, hent]⟩

theorem aligned_add_2GiB (hp : Aligned p) : Aligned (p + 0x80000000) := by
  rw [Aligned] at *
  rw [BitVec.toNat_add, show (0x80000000 : Word).toNat = 0x80000000 from rfl]
  omega

theorem Obtained.fresh_iff (O : Obtained u s' a n base) (hent : ∀ v, entryOf u v = entryOf s v)
    (hfree : ∀ i < n, bit s.phys (blockOf (pageAfter base i)) = false) : FreshMemory s s' a n ↔
      a.toNat + 4096 * n ≤ 2 ^ 32 ∧ (∀ i < n, ¬ present s (pageAfter a i)) ∧ CleanEntries s a base n := by
  -- the blocks of the pages, by their entries
  have hstale : ∀ i < n, (entryOf s (pageAfter a i)).getLsbD 31 = true → (pageAfter base i).toNat < 2 ^ 31 →
      blockOf (getPhysAddr s' (pageAfter a i)) = blockOf (pageAfter base i + 0x80000000) := fun i hi he hlt => by
    rw [(O.block hi hent).2, frame_mapEntry_stale (O.aligned i hi) he hlt]
  have hclean : ∀ i < n, ((entryOf s (pageAfter a i)).getLsbD 31 = true → 2 ^ 31 ≤ (pageAfter base i).toNat) →
      blockOf (getPhysAddr s' (pageAfter a i)) = blockOf (pageAfter base i) := fun i hi h => by
    rw [(O.block hi hent).2, (frame_mapEntry_iff (O.aligned i hi)).mpr fun he => getLsbD_31_iff.mpr (h he)]
  have hinj : ∀ i < n, ∀ j < n, pageAfter base i = pageAfter base j → i = j := fun i hi j hj e => by
    have := congrArg page e
    rw [O.blocks i hi, O.blocks j hj] at this
    omega
  have hblock : ∀ x y : Addr, Aligned x → Aligned y → blockOf x = blockOf y → x = y := fun x y hx hy e =>
    eq_of_page_eq hx hy (blockOf_eq_iff.mp e)
  constructor
  · intro F
    refine ⟨F.bound, F.absent, fun i hi he hlt => ⟨?_, fun j hj e => ?_⟩⟩
    · rw [← hstale i hi he hlt]
      exact F.free i hi
    · have hj31 : 2 ^ 31 ≤ (pageAfter base j).toNat := by
        rw [e, BitVec.toNat_add, show (0x80000000 : Word).toNat = 2 ^ 31 from rfl]
        omega
      have hij := F.distinct i hi j hj (by rw [hstale i hi he hlt, hclean j hj fun _ => hj31, e])
      rw [hij] at hlt
      omega
  · rintro ⟨hbound, habsent, hC⟩
    refine ⟨hbound, habsent, fun i hi => (O.block hi hent).1, fun i hi => ?_, fun i hi j hj e => ?_, fun v hv => ?_⟩
    · by_cases h : (entryOf s (pageAfter a i)).getLsbD 31 = true ∧ (pageAfter base i).toNat < 2 ^ 31
      · rw [hstale i hi h.1 h.2]
        exact (hC i hi h.1 h.2).1
      · rw [hclean i hi fun he => Nat.le_of_not_lt fun hlt => h ⟨he, hlt⟩]
        exact hfree i hi
    · by_cases h : (entryOf s (pageAfter a i)).getLsbD 31 = true ∧ (pageAfter base i).toNat < 2 ^ 31 <;>
        by_cases h' : (entryOf s (pageAfter a j)).getLsbD 31 = true ∧ (pageAfter base j).toNat < 2 ^ 31
      · rw [hstale i hi h.1 h.2, hstale j hj h'.1 h'.2] at e
        exact hinj i hi j hj (add_right_cancel
          (hblock _ _ (aligned_add_2GiB (O.aligned i hi)) (aligned_add_2GiB (O.aligned j hj)) e))
      · rw [hstale i hi h.1 h.2, hclean j hj fun he => Nat.le_of_not_lt fun hlt => h' ⟨he, hlt⟩] at e
        exact absurd (hblock _ _ (aligned_add_2GiB (O.aligned i hi)) (O.aligned j hj) e).symm ((hC i hi h.1 h.2).2 j hj)
      · rw [hclean i hi fun he => Nat.le_of_not_lt fun hlt => h ⟨he, hlt⟩, hstale j hj h'.1 h'.2] at e
        exact absurd (hblock _ _ (O.aligned i hi) (aligned_add_2GiB (O.aligned j hj)) e) ((hC j hj h'.1 h'.2).2 i hi)
      · rw [hclean i hi fun he => Nat.le_of_not_lt fun hlt => h ⟨he, hlt⟩,
          hclean j hj fun he => Nat.le_of_not_lt fun hlt => h' ⟨he, hlt⟩] at e
        exact hinj i hi j hj (hblock _ _ (O.aligned i hi) (O.aligned j hj) e)
    · have he : entryOf s' v = entryOf s v := (O.others v hv).trans (hent v)
      exact ⟨by rw [present, he, present], fun hp => getPhysAddr_congr hp he⟩

theorem mmap_of_null (h : (findFreePage s 1).1 = 0) : (mmap s 0 len).1 = 0 := by
  simp only [mmap, if_true]
  rw [if_pos h]

theorem mmap_of_found (h : (findFreePage s 1).1 ≠ 0) : mmap s 0 len =
    ((findFreePage s 1).1, (allocateNewPage (findFreePage s 1).2 (findFreePage s 1).1 (NB_PAGE len)).2) := by
  simp only [mmap, if_true]
  rw [if_neg h]

/-- `mmap(NULL, len)` gives fresh memory if the pages after the first two that are free are served. -/
theorem Layout.givesFresh_iff (L : Layout s) (F : FreshMmap s len) : GivesFresh s len ↔
    ∀ start u, FirstRun (Free s) 2 start → start + 1 < 3 * 2 ^ 20 →
      reached s ((start + 1) / 1024 + 1) = some u →
      Served s u (baseAt start) (NB_PAGE len) := by
  rw [GivesFresh, ← toNat_NB_PAGE]
  rcases findFreePage_first s 1 (by decide) with ⟨start, H, hlt, hr, hs⟩ | ⟨hr, hclear, -⟩
  swap
  · have h0 : (mmap s 0 len).1 = 0 := mmap_of_null hr
    refine iff_of_true ⟨fun h => absurd h0 h, fun _ => h0⟩ fun start u H hlt _ => ?_
    exact absurd H.run (hclear start (show start + 2 ≤ 3 * 2 ^ 20 by omega))
  have hne : (findFreePage s 1).1 ≠ 0 := by
    rw [hr]
    exact baseAt_ne_zero start
  have FA := F.allocation hne
  obtain ⟨g, hent⟩ := L.findFreePage_ok (show FreshSearch s (1 : Word).toNat from F.search) (by decide)
  rw [mmap_of_found hne]
  have key : (allocateNewPage (findFreePage s 1).2 (findFreePage s 1).1 (NB_PAGE len)).1 ≠ 0 →
      (FreshMemory s (allocateNewPage (findFreePage s 1).2 (findFreePage s 1).1 (NB_PAGE len)).2 (findFreePage s 1).1
        (NB_PAGE len).toNat ↔ _) := fun h => by
    -- a block that is free after the search was free before
    refine (g.layout.obtained FA h).2.fresh_iff hent fun i hi => Bool.eq_false_iff.mpr fun hb => ?_
    obtain ⟨-, -, hlow, hfree, -⟩ := g.layout.allocated_blocks FA.blocks (mapPages_of_obtained h).1 hi
    refine Bool.eq_false_iff.mp hfree (g.used _ ?_ hb)
    rw [BitVec.le_def, toNat_blockOf, ← g.same.maxBlocks]
    exact Nat.le_of_lt hlow
  constructor
  · rintro ⟨hF, hnull⟩ start' u H' - hs'
    obtain rfl := H'.unique H
    obtain rfl := Option.some.inj (hs.symm.trans hs')
    have halloc : (allocateNewPage (findFreePage s 1).2 (findFreePage s 1).1 (NB_PAGE len)).1 ≠ 0 :=
      fun h => hne (hnull h)
    obtain ⟨hbound, habsent, hclean⟩ := (key halloc).mp (hF hne)
    obtain ⟨hblocks, htables⟩ := (g.layout.allocateNewPage_iff FA hne).mp halloc
    rw [← hr]
    exact ⟨hbound, habsent, hblocks, htables, hclean⟩
  · intro h
    have S := h start _ H hlt hs
    rw [← hr] at S
    have halloc := (g.layout.allocateNewPage_iff FA hne).mpr ⟨S.blocks, S.tables⟩
    exact ⟨fun _ => (key halloc).mpr ⟨S.bound, S.absent, S.clean⟩, fun h => absurd h halloc⟩

theorem Guarded.freshMmap (G : Guarded s) (len : Word) : FreshMmap s len := by
  refine ⟨G.freshSearch 1, fun _ => ?_⟩
  exact ((G.findFreePage_ok 1).guarded G).freshAllocation _ _

/-- 256 blocks, seven of them free, the last two in a row. -/
def pairPhys : Phys where
  mem x := if x = 0x30014 then 0xFC else somePhys.mem x
  memoryMap := 0x30000
  maxBlocks := 256
  usedBlocks := 0

theorem left_pairPhys : Left pairPhys [64, 65, 66, 96, 128, 160, 161] 0 := .of_forall rfl rfl (by decide +kernel)

theorem protected_pairPhys : Protected pairPhys := .of_block48 rfl rfl (by decide) (by decide)

/-- Two pages are mapped to two blocks. -/
theorem givesFresh_pairPhys : ∃ s, (mmap s 0 8192).1 = 0x1000 ∧ FreshMemory s (mmap s 0 8192).2 0x1000 2 := by
  obtain ⟨s, G, B, hp, hs, H, hv⟩ := unmapped_two left_pairPhys (by simp) protected_pairPhys
  obtain ⟨e, -⟩ := B.allocate [] G.prot 5 2 (by decide) (by decide) (by decide) (by simp) (by decide) (by decide)
  have hn : NB_PAGE 8192 = 2 := by decide
  have hpage : ∀ i < (2 : Word).toNat, pageAfter (baseAt 1) i = pageAt (1 + i) ∧ (1 + i = 1 ∨ 1 + i = 2) :=
    fun i hi => by
    have hi : i < 2 := hi
    rw [show baseAt 1 = pageAt 1 by decide, pageAfter_pageAt]
    exact ⟨rfl, by omega⟩
  have S : Served s s (baseAt 1) 2 := by
    refine ⟨by decide, fun i hi => ?_, ?_, ?_, fun i hi h => ?_⟩
    · rw [(hpage i hi).1]
      exact (hv _ (hpage i hi).2).1
    · rw [e]
      decide
    · have hl : lacking s (baseAt 1) (2 : Word).toNat = ∅ := by
        refine Finset.filter_eq_empty_iff.mpr fun i hi => not_not.mpr ?_
        obtain ⟨j, hj, rfl⟩ := Finset.mem_image.mp hi
        have hj : j < 2 := Finset.mem_range.mp hj
        rw [(hpage j hj).1]
        rcases (hpage j hj).2 with h | h <;> rw [h] <;> exact hp
      rw [hl]
      rfl
    · rw [(hpage i hi).1, (hv _ (hpage i hi).2).2] at h
      cases h
  have hF : GivesFresh s 8192 := (G.toLayout.givesFresh_iff (G.freshMmap 8192)).mpr fun start u H' _ hu => by
    obtain rfl := H.unique H'
    obtain rfl := Option.some.inj (hs.symm.trans hu)
    rwa [hn]
  have hm : (mmap s 0 8192).1 = 0x1000 := by
    have hne : (findFreePage s 1).1 ≠ 0 := by
      rw [findFreePage_of_firstRun H hs]
      exact show (0x1000 : Word) ≠ 0 by decide
    rw [mmap_of_found hne, findFreePage_of_firstRun H hs]
  have h := hF.1 (by rw [hm]; decide)
  rw [hm] at h
  exact ⟨s, hm, h⟩

/-- `mmap(NULL, 8192)` with one block left: the address is returned, and nothing is mapped there. -/
theorem not_givesFresh : ¬ ∀ (s : Paging) (len : Word), Guarded s → 1 ≤ len.toNat → GivesFresh s len := by
  intro hall
  obtain ⟨s, G, B, -, hs, H, -⟩ := unmapped_two left_somePhys (by simp) protected_somePhys
  have hnone : (allocateBlocks s.phys 2).1 = 0 := by
    -- both blocks of a run would be the one that is free
    by_contra hne
    have R := (G.prot.allocateBlocks_ok 2).1
    have hbit : ∀ c, InRun (blockOf (allocateBlocks s.phys 2).1) 2 c → c = 160 := fun c hc => by
      obtain ⟨hb, hh⟩ := (R.run hne).2 c hc
      have hle : c ≤ 256 := BitVec.le_of_lt (hh.below.trans_eq (R.same.maxBlocks.trans B.maxBlocks))
      by_contra hc160
      exact Bool.eq_false_iff.mp hb ((B.bits c hle).mpr fun h => hc160 (List.mem_singleton.mp h))
    have e₀ := hbit _ (inRun_self (by decide))
    have e₁ := hbit (blockOf (allocateBlocks s.phys 2).1 + 1) (by
      rw [InRun, add_sub_cancel_left]
      decide)
    rw [e₀] at e₁
    exact absurd e₁ (by decide)
  have hfound := findFreePage_of_firstRun H hs
  have hne : (findFreePage s 1).1 ≠ 0 := by
    rw [hfound]
    exact show (0x1000 : Word) ≠ 0 by decide
  have h := (hall s 8192 G (by decide)).2
  rw [mmap_of_found hne] at h
  refine hne (h ?_)
  rw [hfound, show NB_PAGE 8192 = 2 by decide]
  simp only [allocateNewPage]
  rw [if_pos hnone]

end

end AlexOS.Virtual
