import AlexOS.Lib.Bitmap
import AlexOS.Lib.Page

/-!
# The physical memory manager

`physical_memory_manager.c`: a bitmap of 4 KiB blocks at `memory_map`, one bit
per block, set when the block is used. Its words are words of memory, and so
are the words that follow it: `set_block`, `unset_block` and `test_block` do
not look at `max_blocks`.

`bit s b` is block `b`'s bit. Each function is described by the bits it leaves
(`bit_setBlock`, `bit_freeBlocks`, `bit_initPhysicalMemoryRegion`,
`bit_deletePhysicalMemoryRegion`), the search by the run it returns
(`findFirstFreeBlocks_spec`), and `allocate_blocks` by both
(`allocateBlocks_cases`).
-/

namespace AlexOS.Physical

def BLOCK_SIZE : Word := 4096
def BLOCK_PER_BYTE : Word := 8

/-- Memory, and the static variables of the physical memory manager. -/
structure Phys where
  mem : Mem
  memoryMap : Addr
  maxBlocks : Word
  usedBlocks : Word

def setBlock (s : Phys) (bit : Word) : Phys :=
  let a := wordAt s.memoryMap bit
  { s with mem := s.mem.store32 a (s.mem.load32 a ||| (1 : Word) <<< (bit % 32)) }

def unsetBlock (s : Phys) (bit : Word) : Phys :=
  let a := wordAt s.memoryMap bit
  { s with mem := s.mem.store32 a (s.mem.load32 a &&& ~~~((1 : Word) <<< (bit % 32))) }

def testBlock (s : Phys) (bit : Word) : Word :=
  s.mem.load32 (wordAt s.memoryMap bit) &&& (1 : Word) <<< (bit % 32)

/-! ## The search -/

/-- The loop over `count`, for at most the given number of rounds: whether it
returns, having found `num_blocks` free blocks in a row. -/
def countFree (s : Phys) (startBit numBlocks : Word) : Nat → Word → Word → Bool
  | 0, _, _ => false
  | n + 1, count, freeBlocks =>
    if count ≤ numBlocks then
      if testBlock s (startBit + count) = 0 then
        if freeBlocks + 1 = numBlocks then true
        else countFree s startBit numBlocks n (count + 1) (freeBlocks + 1)
      else false
    else false

/-- The loop over `j`, from `j` on. The candidates are filtered by `memory_map[i] & j`. -/
def scanWord (s : Phys) (numBlocks i : Word) : Nat → Word → Option Word
  | 0, _ => none
  | n + 1, j =>
    if s.mem.load32 (s.memoryMap + 4 * i) &&& j = 0 ∧
        countFree s (i * 32 + j) numBlocks (numBlocks.toNat + 1) 0 0 then
      some (i * 32 + j)
    else scanWord s numBlocks i n (j + 1)

/-- The loop over `i`, from `i` on. -/
def scanMap (s : Phys) (numBlocks : Word) : Nat → Word → Option Word
  | 0, _ => none
  | n + 1, i =>
    if s.mem.load32 (s.memoryMap + 4 * i) ≠ 0xFFFFFFFF then
      match scanWord s numBlocks i 32 0 with
      | some start => some start
      | none => scanMap s numBlocks n (i + 1)
    else scanMap s numBlocks n (i + 1)

/-- The first block of the run found, or `-1`. -/
def findFirstFreeBlocks (s : Phys) (numBlocks : Word) : Word :=
  if numBlocks = 0 then -1
  else (scanMap s numBlocks ((s.maxBlocks / 32).toNat - 1) 1).getD (-1)

/-! ## Allocation, release, boot -/

/-- `for (i = 0; i < n; i++) mark(start + i);` -/
def forBlocks (mark : Phys → Word → Phys) (s : Phys) (start : Word) : Nat → Phys
  | 0 => s
  | n + 1 => mark (forBlocks mark s start n) (start + BitVec.ofNat 32 n)

/-- The address of the run, or `NULL`. -/
def allocateBlocks (s : Phys) (numBlocks : Word) : Addr × Phys :=
  if s.maxBlocks - s.usedBlocks ≤ numBlocks then (0, s) else
  let startingBlock := findFirstFreeBlocks s numBlocks
  if startingBlock.slt 0 then (0, s) else
  let s := forBlocks setBlock s startingBlock numBlocks.toNat
  (startingBlock * BLOCK_SIZE, { s with usedBlocks := s.usedBlocks + numBlocks })

def freeBlocks (s : Phys) (address : Addr) (numBlocks : Word) : Phys :=
  let startingBlock := address / BLOCK_SIZE
  let s := forBlocks unsetBlock s startingBlock numBlocks.toNat
  setBlock { s with usedBlocks := s.usedBlocks - numBlocks } 0

def initPhysicalMemoryManager (mem : Mem) (startAddress size : Word) : Phys :=
  let maxBlocks := size / BLOCK_SIZE
  { mem := mem.memset startAddress 0xFF (maxBlocks / BLOCK_PER_BYTE).toNat
    memoryMap := startAddress
    maxBlocks := maxBlocks
    usedBlocks := maxBlocks }

/-- The body of the loop of `delete_physical_memory_region`. -/
def reserveBlock (s : Phys) (bit : Word) : Phys :=
  let s := setBlock s bit
  { s with usedBlocks := s.usedBlocks - 1 }

def deletePhysicalMemoryRegion (s : Phys) (baseAddress size : Word) : Phys :=
  let numBlocks := size / BLOCK_SIZE
  setBlock (forBlocks reserveBlock s (baseAddress / BLOCK_SIZE) numBlocks.toNat) 0

/-- The body of the loop of `init_physical_memory_region`. -/
def releaseBlock (s : Phys) (bit : Word) : Phys :=
  let s := unsetBlock s bit
  { s with usedBlocks := s.usedBlocks - 1 }

def initPhysicalMemoryRegion (s : Phys) (baseAddress size : Word) : Phys :=
  let numBlocks := size / BLOCK_SIZE
  deletePhysicalMemoryRegion
    (forBlocks releaseBlock s (baseAddress / BLOCK_SIZE) numBlocks.toNat) 0 0x1000

/-! ## The bits -/

/-- Block `b`'s bit: whether it is used. -/
def bit (s : Phys) (b : Word) : Bool := s.mem.bit s.memoryMap b

section Bits

variable {s : Phys} {b c start : Word} {n : Nat}

theorem mask_eq (b : Word) : (1 : Word) <<< (b % 32) = (1 : Word) <<< (b.toNat % 32) := by
  have e : (b % 32).toNat = b.toNat % 32 := BitVec.toNat_umod
  rw [BitVec.shiftLeft_eq', e]

theorem testBlock_eq_zero : testBlock s b = 0 ↔ bit s b = false := by
  rw [testBlock, mask_eq, Word.and_one_shl_eq_zero _ (Nat.mod_lt _ (by decide))]
  rfl

theorem bit_setBlock : bit (setBlock s b) c = (decide (c = b) || bit s c) := by
  simp only [bit, setBlock, mask_eq]
  exact bit_set

theorem bit_unsetBlock : bit (unsetBlock s b) c = (!decide (c = b) && bit s c) := by
  simp only [bit, unsetBlock, mask_eq]
  exact bit_clear

theorem bit_reserveBlock : bit (reserveBlock s b) c = (decide (c = b) || bit s c) := bit_setBlock

theorem bit_releaseBlock : bit (releaseBlock s b) c = (!decide (c = b) && bit s c) := bit_unsetBlock

/-- What setting or clearing blocks leaves alone. -/
structure Same (s s' : Phys) : Prop where
  memoryMap : s'.memoryMap = s.memoryMap
  maxBlocks : s'.maxBlocks = s.maxBlocks

theorem Same.refl (s : Phys) : Same s s := ⟨rfl, rfl⟩

theorem Same.trans {s₁ s₂ s₃ : Phys} (h₁ : Same s₁ s₂) (h₂ : Same s₂ s₃) : Same s₁ s₃ :=
  ⟨h₂.memoryMap.trans h₁.memoryMap, h₂.maxBlocks.trans h₁.maxBlocks⟩

theorem same_forBlocks {mark : Phys → Word → Phys} (hm : ∀ s b, Same s (mark s b)) (s : Phys)
    (start : Word) (n : Nat) : Same s (forBlocks mark s start n) := by
  induction n with
  | zero => exact Same.refl s
  | succ n ih => exact ih.trans (hm _ _)

theorem usedBlocks_forBlocks {mark : Phys → Word → Phys}
    (hm : ∀ s b, (mark s b).usedBlocks = s.usedBlocks) (s : Phys) (start : Word) (n : Nat) :
    (forBlocks mark s start n).usedBlocks = s.usedBlocks := by
  induction n with
  | zero => rfl
  | succ n ih => exact (hm _ _).trans ih

/-- `used_blocks--` for each block. -/
theorem usedBlocks_forBlocks_dec {mark : Phys → Word → Phys}
    (hm : ∀ s b, (mark s b).usedBlocks = s.usedBlocks - 1) (s : Phys) (start : Word) (n : Nat) :
    (forBlocks mark s start n).usedBlocks = s.usedBlocks - BitVec.ofNat 32 n := by
  induction n with
  | zero => exact (sub_zero _).symm
  | succ n ih => rw [forBlocks, hm, ih, sub_sub, BitVec.ofNat_add, BitVec.ofNat_eq_ofNat]

theorem usedBlocks_setBlock (s : Phys) (b : Word) : (setBlock s b).usedBlocks = s.usedBlocks := rfl

theorem usedBlocks_unsetBlock (s : Phys) (b : Word) : (unsetBlock s b).usedBlocks = s.usedBlocks := rfl

theorem usedBlocks_reserveBlock (s : Phys) (b : Word) :
    (reserveBlock s b).usedBlocks = s.usedBlocks - 1 := rfl

theorem usedBlocks_releaseBlock (s : Phys) (b : Word) :
    (releaseBlock s b).usedBlocks = s.usedBlocks - 1 := rfl

/-- A loop that sets each block of a run. -/
theorem bit_forBlocks_set {mark : Phys → Word → Phys}
    (hm : ∀ s b c, bit (mark s b) c = (decide (c = b) || bit s c)) (hn : n ≤ 2 ^ 32) :
    bit (forBlocks mark s start n) c = (decide (InRun start n c) || bit s c) := by
  induction n with
  | zero => simp [forBlocks, InRun]
  | succ n ih =>
    rw [forBlocks, hm, ih (by omega), decide_eq_decide.mpr (inRun_succ (by omega)), Bool.decide_or,
      Bool.or_assoc]

/-- A loop that clears each block of a run. -/
theorem bit_forBlocks_clear {mark : Phys → Word → Phys}
    (hm : ∀ s b c, bit (mark s b) c = (!decide (c = b) && bit s c)) (hn : n ≤ 2 ^ 32) :
    bit (forBlocks mark s start n) c = (!decide (InRun start n c) && bit s c) := by
  induction n with
  | zero => simp [forBlocks, InRun]
  | succ n ih =>
    rw [forBlocks, hm, ih (by omega), decide_eq_decide.mpr (inRun_succ (by omega)), Bool.decide_or,
      Bool.not_or, Bool.and_assoc]

end Bits

section Spec

variable {s : Phys} {b c n : Word}

theorem bit_freeBlocks (a : Addr) : bit (freeBlocks s a n) c =
    (decide (c = 0) || !decide (InRun (a / BLOCK_SIZE) n.toNat c) && bit s c) := by
  rw [freeBlocks, bit_setBlock]
  exact congrArg _ (bit_forBlocks_clear (fun _ _ _ => bit_unsetBlock) n.isLt.le)

theorem bit_deletePhysicalMemoryRegion (base size : Word) :
    bit (deletePhysicalMemoryRegion s base size) c =
      (decide (c = 0) || decide (InRun (base / BLOCK_SIZE) (size / BLOCK_SIZE).toNat c) || bit s c) := by
  rw [deletePhysicalMemoryRegion, bit_setBlock, Bool.or_assoc]
  exact congrArg _ (bit_forBlocks_set (fun _ _ _ => bit_reserveBlock) (BitVec.isLt _).le)

theorem bit_initPhysicalMemoryRegion (base size : Word) :
    bit (initPhysicalMemoryRegion s base size) c =
      (decide (c = 0) || !decide (InRun (base / BLOCK_SIZE) (size / BLOCK_SIZE).toNat c) && bit s c) := by
  rw [initPhysicalMemoryRegion, bit_deletePhysicalMemoryRegion,
    bit_forBlocks_clear (fun _ _ _ => bit_releaseBlock) (BitVec.isLt _).le]
  have e : InRun ((0 : Word) / BLOCK_SIZE) (0x1000 / BLOCK_SIZE).toNat c ↔ c = 0 := by
    have h1 : ((0x1000 : Word) / BLOCK_SIZE).toNat = 1 := rfl
    have h2 : (0 : Word) / BLOCK_SIZE = 0 := rfl
    rw [h1, h2, InRun, BitVec.toNat_eq, sub_zero, Nat.lt_one_iff]
    rfl
  rw [decide_eq_decide.mpr e, Bool.or_self]

theorem same_setBlock (s : Phys) (b : Word) : Same s (setBlock s b) := ⟨rfl, rfl⟩

theorem same_unsetBlock (s : Phys) (b : Word) : Same s (unsetBlock s b) := ⟨rfl, rfl⟩

theorem same_reserveBlock (s : Phys) (b : Word) : Same s (reserveBlock s b) := ⟨rfl, rfl⟩

theorem same_releaseBlock (s : Phys) (b : Word) : Same s (releaseBlock s b) := ⟨rfl, rfl⟩

theorem same_freeBlocks (s : Phys) (a : Addr) (n : Word) : Same s (freeBlocks s a n) := by
  obtain ⟨h1, h2⟩ := same_forBlocks same_unsetBlock s (a / BLOCK_SIZE) n.toNat
  exact ⟨h1, h2⟩

theorem same_deletePhysicalMemoryRegion (s : Phys) (base size : Word) :
    Same s (deletePhysicalMemoryRegion s base size) :=
  (same_forBlocks same_reserveBlock _ _ _).trans (same_setBlock _ _)

theorem same_initPhysicalMemoryRegion (s : Phys) (base size : Word) :
    Same s (initPhysicalMemoryRegion s base size) :=
  (same_forBlocks same_releaseBlock _ _ _).trans (same_deletePhysicalMemoryRegion _ _ _)

end Spec

/-! ## The rest of memory -/

section Words

variable {s : Phys} {a : Addr} {b start : Word} {n : Nat}

theorem wordAt_aligned (h : s.memoryMap.toNat % 4 = 0) (b : Word) :
    (wordAt s.memoryMap b).toNat % 4 = 0 := by
  rw [wordAt, BitVec.toNat_add, toNat_word]
  omega

theorem load_setBlock (h : s.memoryMap.toNat % 4 = 0) (ha : a.toNat % 4 = 0)
    (hb : wordAt s.memoryMap b ≠ a) : (setBlock s b).mem.load32 a = s.mem.load32 a :=
  Mem.load32_store32_of_ne (wordAt_aligned h b) ha hb

theorem load_unsetBlock (h : s.memoryMap.toNat % 4 = 0) (ha : a.toNat % 4 = 0)
    (hb : wordAt s.memoryMap b ≠ a) : (unsetBlock s b).mem.load32 a = s.mem.load32 a :=
  Mem.load32_store32_of_ne (wordAt_aligned h b) ha hb

/-- A loop changes the words of the bitmap that hold the bits of its run. -/
theorem load_forBlocks {mark : Phys → Word → Phys} (hs : ∀ s b, Same s (mark s b))
    (hm : ∀ s b, s.memoryMap.toNat % 4 = 0 → wordAt s.memoryMap b ≠ a →
      (mark s b).mem.load32 a = s.mem.load32 a)
    (h : s.memoryMap.toNat % 4 = 0) (hn : n ≤ 2 ^ 32)
    (hr : ∀ b, InRun start n b → wordAt s.memoryMap b ≠ a) :
    (forBlocks mark s start n).mem.load32 a = s.mem.load32 a := by
  induction n with
  | zero => rfl
  | succ n ih =>
    have hmap := (same_forBlocks hs s start n).memoryMap
    have hlast : InRun start (n + 1) (start + BitVec.ofNat 32 n) :=
      (inRun_succ (by omega)).mpr (.inl rfl)
    rw [forBlocks, hm _ _ (hmap ▸ h) (hmap ▸ hr _ hlast)]
    exact ih (by omega) fun b hb => hr b ((inRun_succ (by omega)).mpr (.inr hb))

theorem load_freeBlocks {p : Addr} {n : Word} (h : s.memoryMap.toNat % 4 = 0) (ha : a.toNat % 4 = 0)
    (h0 : wordAt s.memoryMap 0 ≠ a)
    (hr : ∀ b, InRun (p / BLOCK_SIZE) n.toNat b → wordAt s.memoryMap b ≠ a) :
    (freeBlocks s p n).mem.load32 a = s.mem.load32 a := by
  have hmap := (same_forBlocks same_unsetBlock s (p / BLOCK_SIZE) n.toNat).memoryMap
  rw [freeBlocks, load_setBlock (hmap ▸ h) ha (hmap ▸ h0)]
  exact load_forBlocks same_unsetBlock (fun _ _ h hb => load_unsetBlock h ha hb) h n.isLt.le hr

end Words

/-! ## What the search returns -/

section Search

variable {s : Phys} {start n i : Word}

/-- `count` and `free_blocks` run together: the blocks counted so far are free. -/
theorem countFree_spec {k : Nat} {free : Word}
    (hf : ∀ b, InRun start free.toNat b → bit s b = false)
    (h : countFree s start n k free free) : ∀ b, InRun start n.toNat b → bit s b = false := by
  induction k generalizing free with
  | zero => cases h
  | succ k ih =>
    simp only [countFree] at h
    split at h
    case isFalse => cases h
    split at h
    case isFalse => cases h
    rename_i ht
    have hstep : ∀ b, InRun start (free + 1).toNat b → bit s b = false := by
      intro b hb
      have hlt := free.isLt
      have e : (free + 1).toNat = (free.toNat + 1) % 2 ^ 32 := BitVec.toNat_add _ _
      by_cases hw : free.toNat + 1 < 2 ^ 32
      · rw [e, Nat.mod_eq_of_lt hw, inRun_succ (by omega), BitVec.ofNat_toNat,
          BitVec.setWidth_eq] at hb
        rcases hb with rfl | hb
        · exact testBlock_eq_zero.mp ht
        · exact hf b hb
      · rw [e, show free.toNat + 1 = 2 ^ 32 by omega] at hb
        exact absurd hb (Nat.not_lt_zero _)
    split at h
    · rename_i e
      subst e
      exact hstep
    · exact ih hstep h

/-- The filter `memory_map[i] & j`: the blocks of the word of `start` whose index in it is that of
a one bit of `j`, the index of `start`. -/
def Passes (free : Word → Prop) (start : Word) : Prop :=
  ∀ b : Word, b.toNat / 32 = start.toNat / 32 → (start.toNat % 32).testBit (b.toNat % 32) → free b

theorem passes_of_and {d : Word} (hi : i.toNat < 2 ^ 27) (hd : d.toNat < 32)
    (h : s.mem.load32 (s.memoryMap + 4 * i) &&& d = 0) :
    Passes (fun b => bit s b = false) (i * 32 + d) := by
  have e : (i * 32 + d).toNat = i.toNat * 32 + d.toNat := by
    rw [BitVec.toNat_add, BitVec.toNat_mul, show (32 : Word).toNat = 32 from rfl]
    omega
  intro b hb ht
  have hw : b / 32 = i := BitVec.eq_of_toNat_eq (by
    rw [BitVec.toNat_udiv, show (32 : Word).toNat = 32 from rfl]
    omega)
  rw [e, show (i.toNat * 32 + d.toNat) % 32 = d.toNat by omega, BitVec.testBit_toNat] at ht
  have hz : (s.mem.load32 (s.memoryMap + 4 * i) &&& d).getLsbD (b.toNat % 32) = false := by
    rw [h]
    exact BitVec.getLsbD_zero
  rw [BitVec.getLsbD_and, ht, Bool.and_true] at hz
  rwa [bit, Mem.bit, wordAt, hw]

/-- What the search returns: a run that starts in a word of the map other than the first,
at an index that passes the filter, and is free. -/
structure Found (s : Phys) (n start : Word) : Prop where
  first : 32 ≤ start.toNat
  below : start.toNat < 32 * (s.maxBlocks.toNat / 32)
  passes : Passes (fun b => bit s b = false) start
  free : ∀ b, InRun start n.toNat b → bit s b = false

theorem scanWord_spec {k : Nat} {j start : Word} (hj : j.toNat + k ≤ 32)
    (h : scanWord s n i k j = some start) :
    (∃ d : Word, d.toNat < 32 ∧ start = i * 32 + d ∧
      s.mem.load32 (s.memoryMap + 4 * i) &&& d = 0) ∧
      ∀ b, InRun start n.toNat b → bit s b = false := by
  induction k generalizing j with
  | zero => cases h
  | succ k ih =>
    rw [scanWord] at h
    split at h
    · rename_i hc
      obtain rfl := Option.some.inj h
      exact ⟨⟨j, by omega, rfl, hc.1⟩,
        countFree_spec (fun b hb => absurd hb (Nat.not_lt_zero _)) hc.2⟩
    · refine ih ?_ h
      have e : (j + 1).toNat = (j.toNat + 1) % 2 ^ 32 := BitVec.toNat_add _ _
      omega

theorem scanMap_spec {k : Nat} {start : Word} (hi : 1 ≤ i.toNat)
    (hk : i.toNat + k ≤ s.maxBlocks.toNat / 32) (h : scanMap s n k i = some start) :
    Found s n start := by
  have hm := s.maxBlocks.isLt
  induction k generalizing i with
  | zero => cases h
  | succ k ih =>
    have e1 : (i + 1).toNat = (i.toNat + 1) % 2 ^ 32 := BitVec.toNat_add _ _
    rw [scanMap] at h
    split at h
    case isFalse => exact ih (by omega) (by omega) h
    split at h
    · rename_i hs
      obtain rfl := Option.some.inj h
      obtain ⟨⟨d, hd, rfl, ha⟩, hf⟩ := scanWord_spec (by decide) hs
      have e : (i * 32 + d).toNat = (i.toNat * 32 % 2 ^ 32 + d.toNat) % 2 ^ 32 := by
        rw [BitVec.toNat_add, BitVec.toNat_mul]
        rfl
      exact ⟨by omega, by omega, passes_of_and (by omega) hd ha, hf⟩
    · exact ih (by omega) (by omega) h

theorem findFirstFreeBlocks_spec (h : (findFirstFreeBlocks s n).slt 0 = false) :
    0 < n.toNat ∧ Found s n (findFirstFreeBlocks s n) := by
  rw [findFirstFreeBlocks] at h ⊢
  split at h
  case isTrue => cases h
  rename_i hn
  rw [if_neg hn]
  refine ⟨Nat.pos_of_ne_zero fun e => hn (BitVec.eq_of_toNat_eq e), ?_⟩
  cases hs : scanMap s n ((s.maxBlocks / 32).toNat - 1) 1 with
  | none => rw [hs] at h; cases h
  | some start =>
    have e : (s.maxBlocks / 32).toNat = s.maxBlocks.toNat / 32 := BitVec.toNat_udiv
    have h1 : (1 : Word).toNat = 1 := rfl
    have hk : (s.maxBlocks / 32).toNat - 1 ≠ 0 := by
      intro h0
      rw [h0] at hs
      cases hs
    exact scanMap_spec (by omega) (by omega) hs

/-- What a call of `allocate_blocks` does that finds the run at `start`. -/
structure Allocated (s : Phys) (n start : Word) (s' : Phys) : Prop extends Found s n start where
  same : Same s s'
  usedBlocks : s'.usedBlocks = s.usedBlocks + n
  guard : n < s.maxBlocks - s.usedBlocks
  pos : 0 < n.toNat
  bits : ∀ b, bit s' b = (decide (InRun start n.toNat b) || bit s b)
  words : s.memoryMap.toNat % 4 = 0 → ∀ a : Addr, a.toNat % 4 = 0 →
    (∀ b, InRun start n.toNat b → wordAt s.memoryMap b ≠ a) → s'.mem.load32 a = s.mem.load32 a

/-- `allocate_blocks` fails and changes nothing, or marks a free run and returns its address. -/
theorem allocateBlocks_cases (s : Phys) (n : Word) :
    allocateBlocks s n = (0, s) ∨
    ∃ start : Word, (allocateBlocks s n).1 = start * BLOCK_SIZE ∧
      Allocated s n start (allocateBlocks s n).2 := by
  by_cases hg : s.maxBlocks - s.usedBlocks ≤ n
  · exact .inl (by rw [allocateBlocks, if_pos hg])
  by_cases hs : (findFirstFreeBlocks s n).slt 0
  · apply Or.inl
    simp only [allocateBlocks]
    rw [if_neg hg, if_pos hs]
  have e : allocateBlocks s n = (findFirstFreeBlocks s n * BLOCK_SIZE,
      { forBlocks setBlock s (findFirstFreeBlocks s n) n.toNat with
        usedBlocks := (forBlocks setBlock s (findFirstFreeBlocks s n) n.toNat).usedBlocks + n }) := by
    simp only [allocateBlocks]
    rw [if_neg hg, if_neg hs]
  obtain ⟨hn, hf⟩ := findFirstFreeBlocks_spec (Bool.not_eq_true _ ▸ hs)
  obtain ⟨hm, hx⟩ := same_forBlocks same_setBlock s (findFirstFreeBlocks s n) n.toNat
  have hu := usedBlocks_forBlocks usedBlocks_setBlock s (findFirstFreeBlocks s n) n.toNat
  refine .inr ⟨findFirstFreeBlocks s n, by rw [e], ?_⟩
  rw [e]
  exact ⟨hf, ⟨hm, hx⟩, congrArg (· + n) hu, BitVec.not_le.mp hg, hn,
    fun b => bit_forBlocks_set (fun _ _ _ => bit_setBlock) n.isLt.le,
    fun h a ha hr => load_forBlocks same_setBlock (fun _ _ h hb => load_setBlock h ha hb) h n.isLt.le hr⟩

/-! ## A search that succeeds at once -/

/-- The inner loop returns when the blocks are free. -/
theorem countFree_of_free (hf : ∀ b, InRun start n.toNat b → bit s b = false) {k : Nat} {free : Word}
    (hk : free.toNat + k = n.toNat + 1) (hlt : free.toNat < n.toNat) :
    countFree s start n k free free := by
  induction k generalizing free with
  | zero => omega
  | succ k ih =>
    have := n.isLt
    have e : (free + 1).toNat = (free.toNat + 1) % 2 ^ 32 := BitVec.toNat_add _ _
    have ht : testBlock s (start + free) = 0 := testBlock_eq_zero.mpr <| hf _ (by
      rwa [InRun, add_sub_cancel_left])
    rw [countFree, if_pos (show free ≤ n from hlt.le), if_pos ht]
    split
    · rfl
    · rename_i hne
      have : (free + 1).toNat ≠ n.toNat := fun h => hne (BitVec.eq_of_toNat_eq h)
      exact ih (by omega) (by omega)

/-- Word `i` of the map, by the bits of its blocks. -/
theorem load_word_eq {i : Nat} (hi : i < 2 ^ 27)
    (h : ∀ c : Word, c.toNat / 32 = i → bit s c) :
    s.mem.load32 (s.memoryMap + 4 * BitVec.ofNat 32 i) = 0xFFFFFFFF := by
  apply BitVec.eq_of_getLsbD_eq
  intro j hj
  have e : (BitVec.ofNat 32 (32 * i + j)).toNat = 32 * i + j := by
    rw [BitVec.toNat_ofNat]
    omega
  have hw : BitVec.ofNat 32 (32 * i + j) / 32 = BitVec.ofNat 32 i := BitVec.eq_of_toNat_eq (by
    rw [BitVec.toNat_udiv, e, BitVec.toNat_ofNat, show (32 : Word).toNat = 32 from rfl]
    omega)
  have hb := h (BitVec.ofNat 32 (32 * i + j)) (by omega)
  rw [bit, Mem.bit, wordAt, hw, e, show (32 * i + j) % 32 = j by omega] at hb
  have hones : ∀ j < 32, (0xFFFFFFFF : Word).getLsbD j = true := by decide
  rw [hb, hones j hj]

/-- The search passes over words that are full, and tries the first block of the next. -/
theorem scanMap_eq {i k m : Nat} (hk : k < m) (hm : i + m ≤ 2 ^ 27) (hn : 0 < n.toNat)
    (hfull : ∀ c : Word, 32 * i ≤ c.toNat → c.toNat < 32 * (i + k) → bit s c)
    (hf : ∀ b, InRun (BitVec.ofNat 32 (32 * (i + k))) n.toNat b → bit s b = false) :
    scanMap s n m (BitVec.ofNat 32 i) = some (BitVec.ofNat 32 (32 * (i + k))) := by
  induction k generalizing i m with
  | zero =>
    obtain ⟨m, rfl⟩ : ∃ m', m = m' + 1 := ⟨m - 1, by omega⟩
    have e : BitVec.ofNat 32 i * 32 = BitVec.ofNat 32 (32 * i) := BitVec.eq_of_toNat_eq (by
      rw [BitVec.toNat_mul, BitVec.toNat_ofNat, BitVec.toNat_ofNat, show (32 : Word).toNat = 32 from rfl]
      omega)
    have h32 : bit s (BitVec.ofNat 32 (32 * i)) = false := hf _ (inRun_self hn)
    have hw : s.mem.load32 (s.memoryMap + 4 * BitVec.ofNat 32 i) ≠ 0xFFFFFFFF := fun h => by
      have hd : BitVec.ofNat 32 (32 * i) / 32 = BitVec.ofNat 32 i := BitVec.eq_of_toNat_eq (by
        rw [BitVec.toNat_udiv, BitVec.toNat_ofNat, BitVec.toNat_ofNat,
          show (32 : Word).toNat = 32 from rfl]
        omega)
      rw [bit, Mem.bit, wordAt, hd, h, BitVec.toNat_ofNat,
        show 32 * i % 2 ^ 32 % 32 = 0 by omega] at h32
      cases h32
    have hc : countFree s (BitVec.ofNat 32 i * 32 + 0) n (n.toNat + 1) 0 0 := by
      rw [e, add_zero]
      exact countFree_of_free hf (Nat.zero_add _) hn
    rw [scanMap, if_pos hw, scanWord, if_pos ⟨BitVec.and_zero, hc⟩, e, add_zero]
    rfl
  | succ k ih =>
    obtain ⟨m, rfl⟩ : ∃ m', m = m' + 1 := ⟨m - 1, by omega⟩
    have hw := load_word_eq (s := s) (i := i) (by omega) fun c hc => hfull c (by omega) (by omega)
    have e1 : BitVec.ofNat 32 i + 1 = BitVec.ofNat 32 (i + 1) := by
      rw [BitVec.ofNat_add]
      rfl
    rw [scanMap, if_neg (not_not.mpr hw), e1, show i + (k + 1) = i + 1 + k by omega]
    rw [show i + (k + 1) = i + 1 + k by omega] at hf hfull
    exact ih (by omega) (by omega) (fun c hc => hfull c (by omega)) hf

/-- The run at the first word that is not full, if all of its blocks are free. -/
theorem allocateBlocks_of_free {i : Nat} (hi : 1 ≤ i) (hm : i < s.maxBlocks.toNat / 32)
    (hm' : s.maxBlocks.toNat ≤ 2 ^ 20) (hg : n < s.maxBlocks - s.usedBlocks) (hn : 0 < n.toNat)
    (hfull : ∀ c : Word, 32 ≤ c.toNat → c.toNat < 32 * i → bit s c)
    (hf : ∀ b, InRun (BitVec.ofNat 32 (32 * i)) n.toNat b → bit s b = false) :
    (allocateBlocks s n).1 = BitVec.ofNat 32 (32 * i) * BLOCK_SIZE := by
  have e : (s.maxBlocks / 32).toNat = s.maxBlocks.toNat / 32 := BitVec.toNat_udiv
  obtain ⟨k, rfl⟩ : ∃ k, i = 1 + k := ⟨i - 1, by omega⟩
  have hn0 : n ≠ 0 := by
    rintro rfl
    exact absurd hn (by decide)
  have hs := scanMap_eq (i := 1) (k := k) (m := (s.maxBlocks / 32).toNat - 1) (by omega) (by omega)
    hn (fun c hc => hfull c (by omega)) hf
  have hfind : findFirstFreeBlocks s n = BitVec.ofNat 32 (32 * (1 + k)) := by
    rw [findFirstFreeBlocks, if_neg hn0]
    exact congrArg (Option.getD · (-1)) hs
  have hpos : (BitVec.ofNat 32 (32 * (1 + k))).slt 0 = false := by
    rw [BitVec.slt, decide_eq_false_iff_not, BitVec.toInt_eq_toNat_of_lt, BitVec.toNat_ofNat]
    · exact not_lt.mpr (Int.natCast_nonneg _)
    · rw [BitVec.toNat_ofNat]
      omega
  simp only [allocateBlocks, hfind]
  rw [if_neg (BitVec.not_le.mpr hg), if_neg (by rw [hpos]; decide)]

end Search

end AlexOS.Physical
