import AlexOS.Physical.Runs

/-!
# The bitmap at boot

`init_memory_management`, up to the virtual memory manager: every block below
`max_blocks` is marked used, those of the available regions are released, and
the kernel, the bitmap and block 0 are reserved. A clear bit is that of a block
`Released` by a region, or left `Stale` by `memset`, and not `Reserved`
(`bit_initBlocks`).

The bitmap lies at `MEMORY_MAP_LOCATION`. If no region releases a block of it
that is not reserved, no allocation ever contains one (`storage_kept`).
-/

namespace AlexOS.Physical

/-- An entry of the memory map of the firmware. -/
structure MemoryRegion where
  begin : BitVec 64
  length : BitVec 64
  type : Word

/-- The boot parameters; the last region must exist to be read. -/
structure BootParameters where
  regions : List MemoryRegion
  kernelLocation : Word
  nonempty : regions ≠ []

def MEMORY_MAP_LOCATION : Word := 0x30000
def MEMORY_MAP_SIZE (size : Word) : Word := size / BLOCK_SIZE / 8
def ARBITRARY_KERNEL_SIZE : Word := 0x9000

def totalMemory (p : BootParameters) : Word :=
  let last := p.regions.getLast p.nonempty
  (last.begin + last.length - 1).setWidth 32

/-- The loop over the regions. -/
def initRegions (s : Phys) : List MemoryRegion → Phys
  | [] => s
  | r :: rs =>
    initRegions (if r.type = 1 then
      initPhysicalMemoryRegion s (r.begin.setWidth 32) (r.length.setWidth 32) else s) rs

/-- `init_memory_management`, before paging. -/
def initBlocks (mem : Mem) (p : BootParameters) : Phys :=
  let s := initPhysicalMemoryManager mem MEMORY_MAP_LOCATION (totalMemory p)
  let s := initRegions s p.regions
  let s := deletePhysicalMemoryRegion s p.kernelLocation ARBITRARY_KERNEL_SIZE
  let s := deletePhysicalMemoryRegion s MEMORY_MAP_LOCATION (MEMORY_MAP_SIZE (totalMemory p))
  deletePhysicalMemoryRegion s 0 0x1000

/-! ## Which bits are clear -/

section

variable {mem : Mem} {p : BootParameters} {b : Word}

/-- The number of blocks the bitmap is for. -/
def maxBlocks (p : BootParameters) : Nat := (totalMemory p / BLOCK_SIZE).toNat

/-- The blocks that `init_physical_memory_region` clears for a region. -/
def MemoryRegion.Covers (r : MemoryRegion) (b : Word) : Prop :=
  InRun (r.begin.setWidth 32 / BLOCK_SIZE) (r.length.setWidth 32 / BLOCK_SIZE : Word).toNat b

def Released (p : BootParameters) (b : Word) : Prop := ∃ r ∈ p.regions, r.type = 1 ∧ r.Covers b

/-- The bit is past the bytes that `memset` fills, and was clear. -/
def Stale (mem : Mem) (p : BootParameters) (b : Word) : Prop :=
  8 * (maxBlocks p / 8) ≤ b.toNat ∧ mem.bit MEMORY_MAP_LOCATION b = false

/-- Block 0, nine blocks of the kernel, and some of the bitmap's. -/
def Reserved (p : BootParameters) (b : Word) : Prop :=
  b = 0 ∨ InRun (p.kernelLocation / BLOCK_SIZE) 9 b ∨ InRun 48 (maxBlocks p / 8 / 4096) b

/-- The blocks that are free after boot (`bit_initBlocks`). -/
def Free (mem : Mem) (p : BootParameters) (b : Word) : Prop :=
  ¬ Reserved p b ∧ (Released p b ∨ Stale mem p b)

theorem maxBlocks_lt (p : BootParameters) : maxBlocks p < 2 ^ 20 := by
  have e : (totalMemory p / BLOCK_SIZE).toNat = (totalMemory p).toNat / 4096 := BitVec.toNat_udiv
  have := (totalMemory p).isLt
  rw [maxBlocks, e]
  omega

theorem same_initRegions (s : Phys) (rs : List MemoryRegion) : Same s (initRegions s rs) := by
  induction rs generalizing s with
  | nil => exact Same.refl s
  | cons r rs ih =>
    rw [initRegions]
    refine Same.trans ?_ (ih _)
    split
    · exact same_initPhysicalMemoryRegion _ _ _
    · exact Same.refl s

theorem same_initBlocks (mem : Mem) (p : BootParameters) :
    Same (initPhysicalMemoryManager mem MEMORY_MAP_LOCATION (totalMemory p)) (initBlocks mem p) :=
  (same_initRegions _ _).trans <| (same_deletePhysicalMemoryRegion _ _ _).trans <|
    (same_deletePhysicalMemoryRegion _ _ _).trans (same_deletePhysicalMemoryRegion _ _ _)

theorem bit_initRegions (hb : b ≠ 0) (s : Phys) (rs : List MemoryRegion) :
    bit (initRegions s rs) b = false ↔ (∃ r ∈ rs, r.type = 1 ∧ r.Covers b) ∨ bit s b = false := by
  induction rs generalizing s with
  | nil => simp [initRegions]
  | cons r rs ih =>
    rw [initRegions, ih]
    simp only [List.exists_mem_cons_iff]
    split
    · rename_i ht
      rw [bit_initPhysicalMemoryRegion, decide_eq_false hb, Bool.false_or, Bool.and_eq_false_iff,
        Bool.not_eq_false', decide_eq_true_iff]
      simp only [ht, true_and]
      exact or_left_comm.trans or_assoc.symm
    · rename_i ht
      simp only [ht, false_and, false_or]

theorem bit_initPhysicalMemoryManager (mem : Mem) (start size b : Word) :
    bit (initPhysicalMemoryManager mem start size) b =
      (decide (b.toNat < 8 * ((size / BLOCK_SIZE).toNat / 8)) || mem.bit start b) := by
  have e : (size / BLOCK_SIZE / BLOCK_PER_BYTE).toNat = (size / BLOCK_SIZE).toNat / 8 :=
    BitVec.toNat_udiv
  have := (size / BLOCK_SIZE).isLt
  rw [bit, initPhysicalMemoryManager, e]
  exact bit_memset (by omega)

/-- The clear bits after boot. -/
theorem bit_initBlocks : bit (initBlocks mem p) b = false ↔ Free mem p b := by
  have h9 : (ARBITRARY_KERNEL_SIZE / BLOCK_SIZE).toNat = 9 := rfl
  have h48 : MEMORY_MAP_LOCATION / BLOCK_SIZE = 48 := rfl
  have hm : (MEMORY_MAP_SIZE (totalMemory p) / BLOCK_SIZE).toNat = maxBlocks p / 8 / 4096 := by
    rw [MEMORY_MAP_SIZE, BitVec.toNat_udiv, BitVec.toNat_udiv]
    rfl
  have h1 : InRun ((0 : Word) / BLOCK_SIZE) ((0x1000 : Word) / BLOCK_SIZE).toNat b → b = 0 := by
    rw [show (0 : Word) / BLOCK_SIZE = 0 from rfl, InRun, sub_zero]
    intro h
    exact BitVec.eq_of_toNat_eq (Nat.lt_one_iff.mp h)
  by_cases hb : b = 0
  · refine iff_of_false (fun h => ?_) (fun h => h.1 (.inl hb))
    rw [initBlocks, bit_deletePhysicalMemoryRegion, decide_eq_true hb, Bool.true_or, Bool.true_or] at h
    cases h
  · simp only [initBlocks, bit_deletePhysicalMemoryRegion,
      decide_eq_false (fun h => hb (h1 h)), h9, h48, hm, Bool.or_eq_false_iff, decide_eq_false_iff_not,
      bit_initRegions hb, bit_initPhysicalMemoryManager, Free, Reserved, Released, Stale, hb, false_or,
      not_or, maxBlocks, not_lt, not_false_eq_true, true_and, and_true]
    exact and_left_comm.trans and_assoc.symm

end

/-! ## The bitmap's own blocks -/

section Storage

variable {mem : Mem} {p : BootParameters} {b : Word}

/-- Block `b` overlaps the bytes of the bitmap. -/
def Stored (p : BootParameters) (b : Word) : Prop :=
  0x30000 < 4096 * b.toNat + 4096 ∧ 4096 * b.toNat < 0x30000 + (maxBlocks p + 7) / 8

/-- From no block at which the search may start a run do free blocks lead to one of the bitmap's. -/
def Guarded (mem : Mem) (p : BootParameters) : Prop :=
  ∀ start b : Word, 32 ≤ start.toNat → start.toNat < 32 * (maxBlocks p / 32) →
    Passes (Free mem p) start → start ≤ b → Stored p b →
    ∃ c, start ≤ c ∧ c ≤ b ∧ ¬ Free mem p c

/-- The bits of the bitmap's blocks are among those that `memset` sets. -/
theorem not_stale_of_stored (mem : Mem) (hm : 64 ≤ maxBlocks p) (h : Stored p b) : ¬ Stale mem p b := by
  have := maxBlocks_lt p
  rintro ⟨hs, -⟩
  obtain ⟨-, h⟩ := h
  omega

/-- It is enough that no region releases a block of the bitmap that is not reserved. -/
theorem guarded_of_reserved (h : ∀ b, Stored p b → Reserved p b ∨ ¬ Released p b) :
    Guarded mem p := by
  intro start b h32 hlt _ hle hs
  refine ⟨b, hle, BitVec.le_refl b, fun ⟨hr, hf⟩ => ?_⟩
  have := not_stale_of_stored mem (by omega) hs
  exact (h b hs).elim hr fun h => hf.elim h this

theorem interval_of_has {a : Allocation} {c : Word} (hb : a.Has b) (h1 : a.addr / BLOCK_SIZE ≤ c)
    (h2 : c ≤ b) : a.Has c := by
  have := b.isLt; have := c.isLt; have := (a.addr / BLOCK_SIZE).isLt
  rw [BitVec.le_def] at h1 h2
  simp only [Allocation.Has, InRun, BitVec.toNat_sub] at hb ⊢
  omega

/-- A run of free blocks does not go around past block 0, which is reserved. -/
theorem start_le_of_has {a : Allocation} (hf : ∀ b, a.Has b → Free mem p b) (hb : a.Has b) :
    a.addr / BLOCK_SIZE ≤ b := by
  by_contra hlt
  rw [BitVec.not_le, BitVec.lt_def] at hlt
  refine (hf 0 ?_).1 (.inl rfl)
  have := b.isLt; have := (a.addr / BLOCK_SIZE).isLt
  simp only [Allocation.Has, InRun, BitVec.toNat_sub] at hb ⊢
  rw [show (0 : Word).toNat = 0 from rfl]
  omega

/-- While free blocks do not lead to it, no allocation contains a block of the bitmap. -/
theorem storage_kept {s : Phys} {live : List Allocation} (hg : Guarded mem p)
    (r : Reachable (initBlocks mem p) s live) :
    ∀ a ∈ live, ∀ b, a.Has b → ¬ Stored p b := by
  intro a ha b hb hst
  have hmb : (initBlocks mem p).maxBlocks.toNat = maxBlocks p :=
    congrArg BitVec.toNat (same_initBlocks mem p).maxBlocks
  have hlt := maxBlocks_lt p
  have R := r.runs (by omega)
  have hf : ∀ b, a.Has b → Free mem p b := fun b hb => bit_initBlocks.mp (R.fresh a ha b hb)
  obtain ⟨h32, hbelow, hpass⟩ := R.place a ha
  obtain ⟨c, h1, h2, hc⟩ := hg (a.addr / BLOCK_SIZE) b h32 (by omega)
    (fun b hb ht => bit_initBlocks.mp (hpass b hb ht)) (start_le_of_has hf hb) hst
  exact hc (hf c (interval_of_has hb h1 h2))

/-- With the kernel at block 1 and a bitmap of less than a block, only ten blocks are reserved. -/
theorem not_reserved (hk : p.kernelLocation = 0x1000) (hm : maxBlocks p < 32768)
    (hb : 10 ≤ b.toNat) : ¬ Reserved p b := by
  rintro (rfl | h | h)
  · exact absurd hb (by decide)
  · rw [hk] at h
    obtain ⟨-, h⟩ := (inRun_iff_lt (by decide)).mp h
    exact absurd (show b.toNat < 1 + 9 from h) (by omega)
  · rw [show maxBlocks p / 8 / 4096 = 0 by omega] at h
    exact absurd h (Nat.not_lt_zero _)

/-- Two available regions, up to the block of the bitmap and after it, and a kernel at block 1. -/
def twoRegions : BootParameters := ⟨[⟨0, 0x30000, 1⟩, ⟨0x31000, 0x1F000, 1⟩], 0x1000, by decide⟩

def zeroMem : Mem := fun _ => 0

theorem guarded_twoRegions : Guarded zeroMem twoRegions := by
  refine guarded_of_reserved fun b hs => .inr ?_
  have hb : b.toNat = 48 := by
    obtain ⟨h1, h2⟩ := hs
    have : (maxBlocks twoRegions + 7) / 8 = 10 := rfl
    omega
  obtain rfl : b = 48 := BitVec.eq_of_toNat_eq hb
  rintro ⟨r, hr, -, hc⟩
  simp only [twoRegions, List.mem_cons, List.not_mem_nil, or_false] at hr
  rcases hr with rfl | rfl <;> revert hc <;> rw [MemoryRegion.Covers] <;> decide

theorem storage_kept_twoRegions :
    ¬ ∃ b, (⟨0x20000, 16⟩ : Allocation).Has b ∧ Stored twoRegions b := by
  have hf : ∀ b, InRun 32 (16 : Word).toNat b → bit (initBlocks zeroMem twoRegions) b = false := by
    intro b hb
    obtain ⟨h1, h2⟩ := (inRun_iff_lt (by decide)).mp hb
    have h1 : 32 ≤ b.toNat := h1
    have h2 : b.toNat < 32 + 16 := h2
    have hc : InRun (0 : Word) 48 b := (inRun_iff_lt (by decide)).mpr ⟨Nat.zero_le _, by omega⟩
    exact bit_initBlocks.mpr ⟨not_reserved rfl (by decide) (by omega),
      .inl ⟨⟨0, 0x30000, 1⟩, List.mem_cons_self, rfl, hc⟩⟩
  have he : (allocateBlocks (initBlocks zeroMem twoRegions) 16).1 = 0x20000 :=
    allocateBlocks_of_free (i := 1) (by decide) (by decide) (by decide)
      (by decide +kernel) (by decide) (fun c _ _ => by omega) hf
  have r := reachable_allocate .init he (by decide)
  rintro ⟨b, hb, hs⟩
  exact storage_kept guarded_twoRegions r _ (List.mem_singleton_self _) b hb hs

/-- One available region, with the bitmap's block in it. -/
def oneRegion : BootParameters := ⟨[⟨0, 0x50000, 1⟩], 0x1000, by decide⟩

theorem free_oneRegion (hb : 10 ≤ b.toNat) (hb' : b.toNat < 79) : Free zeroMem oneRegion b := by
  have hc : InRun (0 : Word) 80 b := (inRun_iff_lt (by decide)).mpr ⟨Nat.zero_le _, by omega⟩
  exact ⟨not_reserved rfl (by decide) hb, .inl ⟨_, List.mem_singleton_self _, rfl, hc⟩⟩

/-- `allocate_blocks(17)` then returns a run that contains block 48, where the bitmap is. -/
theorem storage_not_kept : ¬ ∀ (mem : Mem) (p : BootParameters) (s : Phys) (live : List Allocation),
    Reachable (initBlocks mem p) s live → ∀ a ∈ live, ∀ b, a.Has b → ¬ Stored p b := by
  intro H
  have hf : ∀ b, InRun 32 (17 : Word).toNat b → bit (initBlocks zeroMem oneRegion) b = false := by
    intro b hb
    obtain ⟨h1, h2⟩ := (inRun_iff_lt (by decide)).mp hb
    have h1 : 32 ≤ b.toNat := h1
    have h2 : b.toNat < 32 + 17 := h2
    exact bit_initBlocks.mpr (free_oneRegion (by omega) (by omega))
  have he : (allocateBlocks (initBlocks zeroMem oneRegion) 17).1 = 0x20000 :=
    allocateBlocks_of_free (i := 1) (by decide) (by decide) (by decide)
      (by decide +kernel) (by decide) (fun c _ _ => by omega) hf
  have r := reachable_allocate .init he (by decide)
  exact H _ _ _ _ r _ (List.mem_singleton_self _) 48 (by decide) (by
    rw [Stored]
    decide)

end Storage

end AlexOS.Physical
