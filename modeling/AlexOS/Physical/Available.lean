import AlexOS.Physical.Boot

/-!
# The blocks that are free after boot

A region is released from the block its base lies in, for as many blocks as its
length holds, base and length cut to 32 bits. `free_available_iff` says when
all the blocks that end up free are available memory, apart from the kernel:
`Exact` lists what must hold of the first block of a region that does not start
at a block, of the blocks of a region above 4 GiB, of the last block of a
kernel that does not start at a block, and of the blocks that `memset` leaves
as they were.
-/

namespace AlexOS.Physical

variable {mem : Mem} {p : BootParameters} {b : Word} {r : MemoryRegion}

/-- All of block `b` is memory of available regions, at the regions' 64-bit addresses. -/
def Available (p : BootParameters) (b : Word) : Prop :=
  ∀ x, 4096 * b.toNat ≤ x → x < 4096 * b.toNat + 4096 →
    ∃ r ∈ p.regions, r.type = 1 ∧ r.begin.toNat ≤ x ∧ x < r.begin.toNat + r.length.toNat

/-- Block `b` contains none of the kernel's bytes. -/
def ApartFromKernel (p : BootParameters) (b : Word) : Prop :=
  4096 * b.toNat + 4096 ≤ p.kernelLocation.toNat ∨ p.kernelLocation.toNat + 0x9000 ≤ 4096 * b.toNat

/-- Whatever releases block `b` does no harm. -/
def Excused (p : BootParameters) (b : Word) : Prop :=
  maxBlocks p ≤ b.toNat ∨ Reserved p b ∨ Available p b

structure Exact (mem : Mem) (p : BootParameters) : Prop where
  head : ∀ r ∈ p.regions, r.type = 1 → r.begin.toNat < 2 ^ 32 → r.begin.toNat % 4096 ≠ 0 →
    4096 ≤ r.length.toNat % 2 ^ 32 → Excused p (r.begin.setWidth 32 / BLOCK_SIZE)
  high : ∀ r ∈ p.regions, r.type = 1 → 2 ^ 32 ≤ r.begin.toNat → ∀ b, r.Covers b → Excused p b
  kernel : p.kernelLocation.toNat % 4096 ≠ 0 →
    p.kernelLocation.toNat / 4096 + 9 < maxBlocks p → ¬ Free mem p (p.kernelLocation / BLOCK_SIZE + 9)
  stale : ∀ b, Stale mem p b → Excused p b

theorem covers_iff : r.Covers b ↔ r.begin.toNat % 2 ^ 32 / 4096 ≤ b.toNat ∧
    b.toNat < r.begin.toNat % 2 ^ 32 / 4096 + r.length.toNat % 2 ^ 32 / 4096 := by
  have e : ∀ v : BitVec 64, (v.setWidth 32 / BLOCK_SIZE : Word).toNat = v.toNat % 2 ^ 32 / 4096 :=
    fun v => by rw [BitVec.toNat_udiv, BitVec.toNat_setWidth]; rfl
  rw [MemoryRegion.Covers, inRun_iff_lt, e, e]
  rw [e, e]
  omega

/-- A block of a region below 4 GiB, except a first block that the region does not start. -/
theorem available_of_covers (hr : r ∈ p.regions) (ht : r.type = 1) (hb : r.begin.toNat < 2 ^ 32)
    (hc : r.Covers b) (hh : r.begin.toNat % 4096 ≠ 0 → b ≠ r.begin.setWidth 32 / BLOCK_SIZE) :
    Available p b := by
  have e : (r.begin.setWidth 32 / BLOCK_SIZE : Word).toNat = r.begin.toNat / 4096 := by
    rw [BitVec.toNat_udiv, BitVec.toNat_setWidth, Nat.mod_eq_of_lt hb]
    rfl
  obtain ⟨h1, h2⟩ := covers_iff.mp hc
  intro x hx hx'
  refine ⟨r, hr, ht, ?_, ?_⟩
  · by_cases ha : r.begin.toNat % 4096 = 0
    · omega
    · have : b.toNat ≠ r.begin.toNat / 4096 := fun h =>
        hh ha (BitVec.eq_of_toNat_eq (h.trans e.symm))
      omega
  · omega

/-- A free block is excused, if the four conditions hold. -/
theorem Exact.available (E : Exact mem p) (hb : b.toNat < maxBlocks p) (hf : Free mem p b) :
    Available p b := by
  have hex : Excused p b → Available p b := fun h =>
    h.elim (fun h => absurd h (by omega)) fun h => h.elim (fun h => absurd h hf.1) id
  rcases hf.2 with ⟨r, hr, ht, hc⟩ | hs
  · by_cases hlow : r.begin.toNat < 2 ^ 32
    · by_cases hh : r.begin.toNat % 4096 ≠ 0 ∧ b = r.begin.setWidth 32 / BLOCK_SIZE
      · obtain ⟨hm, rfl⟩ := hh
        obtain ⟨h1, h2⟩ := covers_iff.mp hc
        exact hex (E.head r hr ht hlow hm (by omega))
      · exact available_of_covers hr ht hlow hc fun hm h => hh ⟨hm, h⟩
    · exact hex (E.high r hr ht (by omega) b hc)
  · exact hex (E.stale b hs)

theorem toNat_kernelBlock (p : BootParameters) :
    (p.kernelLocation / BLOCK_SIZE).toNat = p.kernelLocation.toNat / 4096 := BitVec.toNat_udiv

/-- The block after those reserved for the kernel. -/
theorem toNat_afterKernel (p : BootParameters) :
    (p.kernelLocation / BLOCK_SIZE + 9).toNat = p.kernelLocation.toNat / 4096 + 9 := by
  have hk := p.kernelLocation.isLt
  rw [BitVec.toNat_add, toNat_kernelBlock, show (9 : Word).toNat = 9 from rfl]
  omega

theorem Exact.apartFromKernel (E : Exact mem p) (hb : b.toNat < maxBlocks p) (hf : Free mem p b) :
    ApartFromKernel p b := by
  have hk := p.kernelLocation.isLt
  have e := toNat_kernelBlock p
  have hout : ¬ InRun (p.kernelLocation / BLOCK_SIZE) 9 b := fun h => hf.1 (.inr (.inl h))
  rw [inRun_iff_lt (by omega), e] at hout
  have hlast : p.kernelLocation.toNat % 4096 ≠ 0 → b.toNat ≠ p.kernelLocation.toNat / 4096 + 9 := by
    intro hm h
    obtain rfl : b = p.kernelLocation / BLOCK_SIZE + 9 := BitVec.eq_of_toNat_eq (h.trans (toNat_afterKernel p).symm)
    exact E.kernel hm (by omega) hf
  rw [ApartFromKernel]
  omega

/-- The blocks below `max_blocks` that boot leaves free are available memory, other than block 0
and the kernel's, exactly when the four conditions hold. -/
theorem free_available_iff (mem : Mem) (p : BootParameters) :
    (∀ b : Word, b < (initBlocks mem p).maxBlocks → bit (initBlocks mem p) b = false →
      Available p b ∧ b ≠ 0 ∧ ApartFromKernel p b) ↔ Exact mem p := by
  have hmb : (initBlocks mem p).maxBlocks.toNat = maxBlocks p :=
    congrArg BitVec.toNat (same_initBlocks mem p).maxBlocks
  constructor
  · intro H
    have hex : ∀ b, Released p b ∨ Stale mem p b → Excused p b := by
      intro b hb
      by_cases hm : maxBlocks p ≤ b.toNat
      · exact .inl hm
      by_cases hr : Reserved p b
      · exact .inr (.inl hr)
      · exact .inr (.inr (H b (by rw [BitVec.lt_def]; omega) (bit_initBlocks.mpr ⟨hr, hb⟩)).1)
    refine ⟨fun r hr ht hlow _ hl => hex _ (.inl ⟨r, hr, ht, covers_iff.mpr ?_⟩),
      fun r hr ht _ b hc => hex b (.inl ⟨r, hr, ht, hc⟩), fun hm hk hf => ?_,
      fun b hs => hex b (.inr hs)⟩
    · rw [BitVec.toNat_udiv, BitVec.toNat_setWidth, show (BLOCK_SIZE).toNat = 4096 from rfl]
      omega
    · have e9 := toNat_afterKernel p
      have := (H _ (by rw [BitVec.lt_def]; omega) (bit_initBlocks.mpr hf)).2.2
      rw [ApartFromKernel] at this
      omega
  · intro E b hb hf
    have hb : b.toNat < maxBlocks p := by rw [← hmb]; exact hb
    have hf := bit_initBlocks.mp hf
    exact ⟨E.available hb hf, fun h => hf.1 (.inl h), E.apartFromKernel hb hf⟩

/-- An available region that starts in the middle of block 64. -/
def midBlock : BootParameters := ⟨[⟨0x40800, 0x40000, 1⟩], 0x1000, by decide⟩

/-- Block 64 is free, and its first half is not available memory. -/
theorem free_not_available : ¬ ∀ (mem : Mem) (p : BootParameters) (b : Word),
    b < (initBlocks mem p).maxBlocks → bit (initBlocks mem p) b = false →
      Available p b ∧ b ≠ 0 ∧ ApartFromKernel p b := by
  intro H
  have hc : (⟨0x40800, 0x40000, 1⟩ : MemoryRegion).Covers 64 := covers_iff.mpr (by decide)
  have hf : Free zeroMem midBlock 64 := ⟨not_reserved rfl (by decide) (by decide),
    .inl ⟨_, List.mem_singleton_self _, rfl, hc⟩⟩
  have hm : (64 : Word) < (initBlocks zeroMem midBlock).maxBlocks := by
    rw [(same_initBlocks zeroMem midBlock).maxBlocks]
    decide
  obtain ⟨r, hr, -, hb, -⟩ := (H zeroMem midBlock 64 hm (bit_initBlocks.mpr hf)).1 0x40000
    (by decide) (by decide)
  obtain rfl := List.mem_singleton.mp hr
  exact absurd hb (by decide)

end AlexOS.Physical
