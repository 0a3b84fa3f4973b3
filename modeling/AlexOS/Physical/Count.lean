import AlexOS.Physical.Boot
import Mathlib.Data.Finset.Card

/-!
# `used_blocks`

`Counted s`: `used_blocks` is the number of set bits among the blocks below
`max_blocks`. A bit set or cleared changes that number by one at most
(`setBits_le_of_diff`), while both region functions count every block down:
`init_physical_memory_region` leaves a counted state never counted
(`not_counted_initPhysicalMemoryRegion`), and `delete_physical_memory_region`
only if the region holds no block (`lt_of_counted_deletePhysicalMemoryRegion`).
A boot sequence is counted throughout exactly when it makes no such call and
`memset` leaves no clear bit (`counted_iff`); then nothing is ever allocated.
-/

namespace AlexOS.Physical

/-- The number of blocks below `max_blocks` that are marked used. -/
def setBits (s : Phys) : Nat :=
  ((Finset.range s.maxBlocks.toNat).filter fun b => bit s (BitVec.ofNat 32 b)).card

def Counted (s : Phys) : Prop := s.usedBlocks.toNat = setBits s

section Steps

variable {s s' : Phys} {base size c : Word}

theorem setBits_le (s : Phys) : setBits s ≤ s.maxBlocks.toNat := by
  apply (Finset.card_filter_le _ _).trans
  rw [Finset.card_range]

theorem setBits_le_of_imp (hm : s'.maxBlocks = s.maxBlocks) (h : ∀ b, bit s' b → bit s b) :
    setBits s' ≤ setBits s := by
  rw [setBits, hm]
  exact Finset.card_le_card (Finset.monotone_filter_right _ fun b _ hb => h _ hb)

/-- Two bitmaps that differ at block `c` only. -/
theorem setBits_le_of_diff (hm : s'.maxBlocks = s.maxBlocks)
    (h : ∀ b, b ≠ c → bit s' b → bit s b) : setBits s' ≤ setBits s + 1 := by
  rw [setBits, hm]
  refine le_trans (Finset.card_le_card (t := insert c.toNat _) fun b hb => ?_)
    (Finset.card_insert_le _ _)
  obtain ⟨hr, hb⟩ := Finset.mem_filter.mp hb
  apply Finset.mem_insert.mpr
  by_cases hc : BitVec.ofNat 32 b = c
  · have hlt := s.maxBlocks.isLt
    have := Finset.mem_range.mp hr
    apply Or.inl
    rw [← hc, BitVec.toNat_ofNat, Nat.mod_eq_of_lt (by omega)]
  · exact .inr (Finset.mem_filter.mpr ⟨hr, h _ hc hb⟩)

theorem setBits_setBlock (s : Phys) (c : Word) :
    setBits s ≤ setBits (setBlock s c) ∧ setBits (setBlock s c) ≤ setBits s + 1 := by
  refine ⟨setBits_le_of_imp rfl fun b hb => ?_, setBits_le_of_diff (c := c) rfl fun b hc hb => ?_⟩
  · rw [bit_setBlock, hb, Bool.or_true]
  · rwa [bit_setBlock, decide_eq_false hc, Bool.false_or] at hb

theorem setBits_releaseBlock (s : Phys) (c : Word) :
    setBits (releaseBlock s c) ≤ setBits s ∧ setBits s ≤ setBits (releaseBlock s c) + 1 := by
  refine ⟨setBits_le_of_imp rfl fun b hb => ?_, setBits_le_of_diff (c := c) rfl fun b hc hb => ?_⟩
  · rw [bit_releaseBlock, Bool.and_eq_true] at hb
    exact hb.2
  · rw [bit_releaseBlock, decide_eq_false hc, hb]
    rfl

theorem setBits_forBlocks_reserve (s : Phys) (start : Word) (n : Nat) :
    setBits s ≤ setBits (forBlocks reserveBlock s start n) ∧
      setBits (forBlocks reserveBlock s start n) ≤ setBits s + n := by
  induction n with
  | zero => exact ⟨le_refl _, le_refl _⟩
  | succ n ih =>
    have h := setBits_setBlock (forBlocks reserveBlock s start n) (start + BitVec.ofNat 32 n)
    exact ⟨ih.1.trans h.1, h.2.trans (by omega)⟩

theorem setBits_forBlocks_release (s : Phys) (start : Word) (n : Nat) :
    setBits (forBlocks releaseBlock s start n) ≤ setBits s ∧
      setBits s ≤ setBits (forBlocks releaseBlock s start n) + n := by
  induction n with
  | zero => exact ⟨le_refl _, le_refl _⟩
  | succ n ih =>
    have h := setBits_releaseBlock (forBlocks releaseBlock s start n) (start + BitVec.ofNat 32 n)
    exact ⟨h.1.trans ih.1, by rw [forBlocks]; omega⟩

theorem setBits_delete (s : Phys) (base size : Word) :
    setBits s ≤ setBits (deletePhysicalMemoryRegion s base size) ∧
      setBits (deletePhysicalMemoryRegion s base size) ≤
        setBits s + (size / BLOCK_SIZE).toNat + 1 := by
  have h := setBits_forBlocks_reserve s (base / BLOCK_SIZE) (size / BLOCK_SIZE).toNat
  have h' := setBits_setBlock
    (forBlocks reserveBlock s (base / BLOCK_SIZE) (size / BLOCK_SIZE).toNat) 0
  exact ⟨h.1.trans h'.1, h'.2.trans (by omega)⟩

theorem usedBlocks_delete (s : Phys) (base size : Word) :
    (deletePhysicalMemoryRegion s base size).usedBlocks = s.usedBlocks - size / BLOCK_SIZE := by
  rw [deletePhysicalMemoryRegion, usedBlocks_setBlock,
    usedBlocks_forBlocks_dec usedBlocks_reserveBlock, BitVec.ofNat_toNat, BitVec.setWidth_eq]

theorem usedBlocks_init (s : Phys) (base size : Word) :
    (initPhysicalMemoryRegion s base size).usedBlocks = s.usedBlocks - size / BLOCK_SIZE - 1 := by
  rw [initPhysicalMemoryRegion, usedBlocks_delete,
    usedBlocks_forBlocks_dec usedBlocks_releaseBlock, BitVec.ofNat_toNat, BitVec.setWidth_eq]
  rfl

theorem toNat_blocks (size : Word) : (size / BLOCK_SIZE).toNat = size.toNat / 4096 :=
  BitVec.toNat_udiv

/-- `delete_physical_memory_region` counts a block it sets down, not up. -/
theorem lt_of_counted_deletePhysicalMemoryRegion (hm : s.maxBlocks.toNat ≤ 2 ^ 20) (h : Counted s)
    (h' : Counted (deletePhysicalMemoryRegion s base size)) : size.toNat < 4096 := by
  have hlt := size.isLt
  have hs := setBits_le s
  have hb := setBits_delete s base size
  rw [Counted] at h
  rw [Counted, usedBlocks_delete, BitVec.toNat_sub, toNat_blocks] at h'
  rw [toNat_blocks] at hb
  omega

/-- `init_physical_memory_region` counts block 0 down once more. -/
theorem not_counted_initPhysicalMemoryRegion (h : Counted s) :
    ¬ Counted (initPhysicalMemoryRegion s base size) := by
  intro h'
  have hlt := size.isLt
  have hs := setBits_le s
  have hr := setBits_forBlocks_release s (base / BLOCK_SIZE) (size / BLOCK_SIZE).toNat
  have hd := setBits_delete (forBlocks releaseBlock s (base / BLOCK_SIZE) (size / BLOCK_SIZE).toNat)
    0 0x1000
  rw [show ((0x1000 : Word) / BLOCK_SIZE).toNat = 1 from rfl] at hd
  rw [Counted] at h
  rw [Counted, usedBlocks_init, BitVec.toNat_sub, BitVec.toNat_sub, toNat_blocks,
    show (1 : Word).toNat = 1 from rfl] at h'
  rw [toNat_blocks] at hr hd
  rw [initPhysicalMemoryRegion, toNat_blocks] at h'
  omega

end Steps

/-! ## Boot sequences and what follows them -/

structure Region where
  base : Word
  size : Word

def Region.Apart (r r' : Region) : Prop :=
  r.base.toNat + r.size.toNat ≤ r'.base.toNat ∨ r'.base.toNat + r'.size.toNat ≤ r.base.toNat

/-- Calls of `init_physical_memory_manager`, of `init_physical_memory_region` for available
regions, and of `delete_physical_memory_region` for reserved ones. -/
structure BootSequence where
  start : Addr
  size : Word
  available : List Region
  reserved : List Region
  apart : available.Pairwise Region.Apart
  inside : ∀ r ∈ available ++ reserved,
    r.base.toNat + r.size.toNat ≤ 4096 * (size / BLOCK_SIZE).toNat

/-- The state when the calls for `available` and `reserved` are still to come. -/
inductive Boots (mem : Mem) (B : BootSequence) : List Region → List Region → Phys → Prop
  | manager : Boots mem B B.available B.reserved (initPhysicalMemoryManager mem B.start B.size)
  | available {r : Region} {rs ds : List Region} {s : Phys} (h : Boots mem B (r :: rs) ds s) :
      Boots mem B rs ds (initPhysicalMemoryRegion s r.base r.size)
  | reserved {d : Region} {ds : List Region} {s : Phys} (h : Boots mem B [] (d :: ds) s) :
      Boots mem B [] ds (deletePhysicalMemoryRegion s d.base d.size)

/-- The states during boot, and those that `allocate_blocks` and `free_blocks` reach after it. -/
inductive Reached (mem : Mem) (B : BootSequence) : Phys → Prop
  | boot {rs ds : List Region} {s : Phys} (h : Boots mem B rs ds s) : Reached mem B s
  | run {s₀ s : Phys} {live : List Allocation} (h : Boots mem B [] [] s₀)
      (r : Reachable s₀ s live) : Reached mem B s

section Runs

variable {mem : Mem} {B : BootSequence} {rs ds : List Region} {s s₀ : Phys} {live : List Allocation}

/-- `memset` leaves no block below `max_blocks` free. -/
def AllSet (mem : Mem) (B : BootSequence) : Prop :=
  ∀ b : Word, b < B.size / BLOCK_SIZE → 8 * ((B.size / BLOCK_SIZE).toNat / 8) ≤ b.toNat →
    mem.bit B.start b

/-- Every block is used, and counted. -/
structure Full (B : BootSequence) (s : Phys) : Prop where
  maxBlocks : s.maxBlocks = B.size / BLOCK_SIZE
  usedBlocks : s.usedBlocks = s.maxBlocks
  bits : ∀ b, b < s.maxBlocks → bit s b

theorem Full.counted (h : Full B s) : Counted s := by
  have hlt := s.maxBlocks.isLt
  rw [Counted, h.usedBlocks, setBits, Finset.filter_true_of_mem, Finset.card_range]
  intro b hb
  have hb := Finset.mem_range.mp hb
  apply h.bits _
  rw [BitVec.lt_def, BitVec.toNat_ofNat, Nat.mod_eq_of_lt (by omega)]
  exact hb

theorem full_manager (h : AllSet mem B) : Full B (initPhysicalMemoryManager mem B.start B.size) := by
  refine ⟨rfl, rfl, fun b hb => ?_⟩
  rw [bit_initPhysicalMemoryManager]
  by_cases hl : b.toNat < 8 * ((B.size / BLOCK_SIZE).toNat / 8)
  · rw [decide_eq_true hl, Bool.true_or]
  · rw [h b hb (by omega), Bool.or_true]

/-- A region without a block changes nothing in a full bitmap. -/
theorem Full.delete {d : Region} (h : Full B s) (hd : d.size.toNat < 4096) :
    Full B (deletePhysicalMemoryRegion s d.base d.size) := by
  have hs := same_deletePhysicalMemoryRegion s d.base d.size
  have h0 : d.size / BLOCK_SIZE = 0 := BitVec.eq_of_toNat_eq (by
    rw [toNat_blocks, Nat.div_eq_of_lt hd]
    rfl)
  refine ⟨hs.maxBlocks.trans h.maxBlocks, ?_, fun b hb => ?_⟩
  · rw [usedBlocks_delete, h0, sub_zero, h.usedBlocks, hs.maxBlocks]
  · rw [hs.maxBlocks] at hb
    rw [bit_deletePhysicalMemoryRegion, h.bits b hb, Bool.or_true]

theorem Full.allocateBlocks (h : Full B s) (n : Word) : allocateBlocks s n = (0, s) := by
  rw [Physical.allocateBlocks, if_pos]
  rw [h.usedBlocks, sub_self]
  exact Nat.zero_le _

/-- Nothing is allocated in a full bitmap. -/
theorem Full.run (h : Full B s₀) (r : Reachable s₀ s live) : s = s₀ ∧ live = [] := by
  induction r with
  | init => exact ⟨rfl, rfl⟩
  | allocate r n ha ih =>
    obtain ⟨rfl, -⟩ := ih
    exact absurd (by rw [h.allocateBlocks]) ha
  | fail r n ha ih =>
    obtain ⟨rfl, rfl⟩ := ih
    exact ⟨by rw [h.allocateBlocks], rfl⟩
  | free r ha ih =>
    rw [ih.2] at ha
    cases ha

theorem Boots.full (h : Boots mem B rs ds s) (hm : AllSet mem B) (ha : B.available = [])
    (hr : ∀ d ∈ B.reserved, d.size.toNat < 4096) :
    Full B s ∧ rs = [] ∧ ∀ d ∈ ds, d.size.toNat < 4096 := by
  induction h with
  | manager => exact ⟨full_manager hm, ha, hr⟩
  | available h ih => cases ih.2.1
  | reserved h ih =>
    obtain ⟨hf, -, hd⟩ := ih
    exact ⟨hf.delete (hd _ List.mem_cons_self), rfl, fun d h => hd d (List.mem_cons_of_mem _ h)⟩

theorem Boots.maxBlocks (h : Boots mem B rs ds s) : s.maxBlocks.toNat ≤ 2 ^ 20 := by
  have hlt := B.size.isLt
  have e : s.maxBlocks = B.size / BLOCK_SIZE := by
    induction h with
    | manager => rfl
    | available h ih => exact (same_initPhysicalMemoryRegion _ _ _).maxBlocks.trans ih
    | reserved h ih => exact (same_deletePhysicalMemoryRegion _ _ _).maxBlocks.trans ih
  rw [e, toNat_blocks]
  omega

/-- If every state is counted, the reserved regions hold no blocks. -/
theorem Boots.reserved_small (h : Boots mem B [] ds s) (hc : ∀ s, Reached mem B s → Counted s) :
    ∀ d ∈ ds, d.size.toNat < 4096 := by
  induction ds generalizing s with
  | nil => intro d hd; cases hd
  | cons d ds ih =>
    intro d' hd'
    rcases List.mem_cons.mp hd' with rfl | hd'
    · exact lt_of_counted_deletePhysicalMemoryRegion h.maxBlocks (hc s (.boot h))
        (hc _ (.boot h.reserved))
    · exact ih h.reserved d' hd'

theorem allSet_of_counted (h : Counted (initPhysicalMemoryManager mem B.start B.size)) :
    AllSet mem B := by
  intro b hb hge
  have hall := Finset.filter_card_eq (s := Finset.range (B.size / BLOCK_SIZE).toNat)
    (p := fun b => bit (initPhysicalMemoryManager mem B.start B.size) (BitVec.ofNat 32 b))
    (by rw [Finset.card_range]; exact h.symm)
  have hbit := hall b.toNat (Finset.mem_range.mpr hb)
  rw [BitVec.ofNat_toNat, BitVec.setWidth_eq, bit_initPhysicalMemoryManager,
    decide_eq_false (by omega), Bool.false_or] at hbit
  exact hbit

/-- `used_blocks` is the number of used blocks in every state exactly when boot releases and
reserves no block. -/
theorem counted_iff (mem : Mem) (B : BootSequence) : (∀ s, Reached mem B s → Counted s) ↔
    AllSet mem B ∧ B.available = [] ∧ ∀ d ∈ B.reserved, d.size.toNat < 4096 := by
  constructor
  · intro hc
    have hm : Boots mem B B.available B.reserved _ := .manager
    have ha : B.available = [] := by
      cases e : B.available with
      | nil => rfl
      | cons r rs =>
        rw [e] at hm
        exact absurd (hc _ (.boot hm.available))
          (not_counted_initPhysicalMemoryRegion (hc _ (.boot hm)))
    refine ⟨allSet_of_counted (hc _ (.boot hm)), ha, ?_⟩
    rw [ha] at hm
    exact hm.reserved_small hc
  · rintro ⟨hm, ha, hr⟩ s (h | ⟨h, r⟩)
    · exact (h.full hm ha hr).1.counted
    · have hf := (h.full hm ha hr).1
      rw [(hf.run r).1]
      exact hf.counted

/-- 256 blocks, of which the first is available. -/
def oneAvailable : BootSequence :=
  ⟨0x30000, 0x100000, [⟨0, 0x1000⟩], [], by simp, by simp +decide⟩

theorem not_counted_oneAvailable :
    ¬ ∀ (mem : Mem) (B : BootSequence) (s : Phys), Reached mem B s → Counted s := by
  intro H
  have hm : Boots (fun _ => 0) oneAvailable [⟨0, 0x1000⟩] [] _ := .manager
  exact not_counted_initPhysicalMemoryRegion (H _ _ _ (.boot hm))
    (H _ _ _ (.boot hm.available))

end Runs

end AlexOS.Physical
