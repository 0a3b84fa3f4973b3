import AlexOS.Stage2.Elf

/-!
# Loading a program in the bootloader

`ELF_read` on files that are read exactly (`Exact`). `memset` and `memcpy` take
lengths of 16 bits: of a segment, `ELF_read` clears the bytes up to its size
modulo 64 KiB, and copies the bytes after the last whole 64 KiB of the file
(`Copied`). What is left in the others is what was in memory before
(`leftByte`), and the program is loaded exactly if that is what should be there
(`elfRead_loaded_iff`).
-/

namespace AlexOS.Stage2

open Mem

/-- The driver opens the file whenever none is open (`idle`), and reads from it at its position
(`At`). -/
structure Exact {σ φ : Type} (D : Files σ φ) (file : List Byte) (idle : σ → Prop)
    (At : φ → Nat → σ → Prop) : Prop where
  opens : ∀ s, idle s → ∃ fd s', D.fatOpen s = (some fd, s') ∧ At fd 0 s'
  reads : ∀ fd, Stream.Delivers (D.fatRead fd) (Buffer.ofList file) file.length (At fd)
  closes : ∀ fd i s, At fd i s → idle (D.fatClose s fd)

/-- The header of a file. -/
def headerOf (file : List Byte) : ElfHdr := ElfHdr.ofBuffer (Buffer.ofList file)

/-- The segments that a file has loaded. -/
def segmentsOf (file : List Byte) : List Segment :=
  loadSegmentsOf (Buffer.ofList file) (headerOf file).headerTable.toNat
    (headerOf file).prgHeaderTableEntrySize.toNat (headerOf file).prgHeaderTableEntryCount.toNat

/-- The buffers of the loader and of its FAT driver, from `MEMORY_FAT_ADDR` on. -/
def buffers : Set Nat := Set.Ico 0x20000 0x50000

/-- The buffers that the loader reads to. -/
def loadBuffer : Set Nat := range MEMORY_LOAD_KERNEL 0x10000

/-- A program for the loader. -/
structure Loadable (file : List Byte) : Prop where
  length : file.length < 2 ^ 32
  entrySize : 32 ≤ (headerOf file).prgHeaderTableEntrySize.toNat
  table : (headerOf file).prgHeaderTableEntrySize.toNat *
    (headerOf file).prgHeaderTableEntryCount.toNat ≤ 0x10000
  sizes : ∀ g ∈ segmentsOf file, g.filesz.toNat ≤ g.memsz.toNat
  noWrap : ∀ g ∈ segmentsOf file, g.vaddr.toNat + g.memsz.toNat ≤ 2 ^ 32
  disjoint : (segmentsOf file).Pairwise fun g g' => Disjoint g.addresses g'.addresses
  apart : ∀ g ∈ segmentsOf file, Disjoint g.addresses buffers

/-- Byte `k` of the segment is copied from the file. -/
def Copied (g : Segment) (k : Nat) : Prop :=
  g.filesz.toNat / 0x10000 * 0x10000 ≤ k ∧ k < g.filesz.toNat

instance (g : Segment) (k : Nat) : Decidable (Copied g k) := inferInstanceAs (Decidable (_ ∧ _))

/-- The memory when what is between the header and the program headers has been read. -/
def skipped (file : List Byte) (m : Mem) : Mem :=
  m.write MEMORY_ELF_ADDR ((Buffer.ofList file).slice 52 ((headerOf file).headerTable - sizeofElfHdr).toNat)

/-- What is left in byte `k` of a segment that is not copied. -/
def leftByte (file : List Byte) (m : Mem) (g : Segment) (k : Nat) : Byte :=
  if k < g.memsz.toNat % 0x10000 then 0 else skipped file m (g.vaddr + BitVec.ofNat 32 k)

section

variable {σ φ : Type} {D : Files σ φ} {file : List Byte} {idle : σ → Prop} {At : φ → Nat → σ → Prop}
  {M M' : Machine σ} {fd : φ} {hd : Addr} {i n : Nat} {count a virt : Word}

/-! ## Reads -/

/-- A read that returns what it was asked for. -/
theorem read_ok (X : Exact D file idle At) (hA : At fd i M.files) (h : (M.read D fd count a).1 = count) :
    At fd (i + count.toNat) (M.read D fd count a).2.files ∧
      (M.read D fd count a).2.mem = M.mem.write a ((Buffer.ofList file).slice i count.toNat) := by
  obtain ⟨hret, hout, hat⟩ := X.reads fd M.files i count hA
  have hk : min count.toNat (file.length - i) = count.toNat := hret ▸ congrArg BitVec.toNat h
  rw [hk] at hout hat
  refine ⟨hat, ?_⟩
  rw [Machine.read, hout]

theorem toNat_minLoadSize (x : Word) : (minLoadSize x).toNat = min x.toNat 0x10000 := by
  rw [minLoadSize]
  split
  · rename_i h
    exact (Nat.min_eq_right (Nat.le_of_lt h)).symm
  · rename_i h
    exact (Nat.min_eq_left (BitVec.not_lt.mp h)).symm

/-- A read to the load buffer. -/
theorem read_load_ok (X : Exact D file idle At) (hA : At fd i M.files) {x : Word}
    (h : (M.read D fd (minLoadSize x) MEMORY_LOAD_KERNEL).1 = minLoadSize x) :
    let r := M.read D fd (minLoadSize x) MEMORY_LOAD_KERNEL
    At fd (i + min x.toNat 0x10000) r.2.files ∧ Changes loadBuffer M.mem r.2.mem ∧
      ∀ k < min x.toNat 0x10000, r.2.mem (MEMORY_LOAD_KERNEL + BitVec.ofNat 32 k) =
        Buffer.ofList file (i + k) := by
  obtain ⟨hat, hmem⟩ := read_ok X hA h
  rw [toNat_minLoadSize] at hat hmem
  have hlen : ((Buffer.ofList file).slice i (min x.toNat 0x10000)).length ≤ 0x10000 := by
    rw [Buffer.length_slice]
    exact Nat.min_le_right _ _
  have h4 : MEMORY_LOAD_KERNEL.toNat = 0x40000 := rfl
  refine ⟨hat, ?_, fun k hk => ?_⟩
  · rw [hmem]
    refine (write_changes (by omega)).mono fun k hk => ?_
    rw [mem_range] at hk
    rw [loadBuffer, mem_range]
    omega
  · rw [hmem]
    exact view_write_slice hk (by omega)

/-! ## The loops -/

/-- Where the program headers are. -/
def InHeaders (hd : Addr) : Prop := 0x30000 ≤ hd.toNat ∧ hd.toNat + 32 ≤ 0x40000

theorem toNat_field (H : InHeaders hd) {k : Word} (hk : k.toNat ≤ 28) :
    (hd + k).toNat = hd.toNat + k.toNat := by
  have := H.2
  rw [BitVec.toNat_add]
  omega

/-- A field of a program header outlives a change elsewhere. -/
theorem load32_field (H : InHeaders hd) {k : Word} (hk : k.toNat ≤ 28) {S : Set Nat} {m m' : Mem}
    (h : Changes S m m') (hS : ∀ i < 4, hd.toNat + k.toNat + i ∉ S) :
    m'.load32 (hd + k) = m.load32 (hd + k) := by
  have e := toNat_field H hk
  have := H.2
  apply h.load32 (by omega)
  rwa [e]

theorem toNat_four : (4 : Word).toNat = 4 := rfl

theorem toNat_loadKernel : MEMORY_LOAD_KERNEL.toNat = 0x40000 := rfl

theorem loadBuffer_subset : loadBuffer ⊆ buffers := by
  intro k hk
  rw [loadBuffer, mem_range, toNat_loadKernel] at hk
  rw [buffers, Set.mem_Ico]
  omega

theorem field_not_loadBuffer (H : InHeaders hd) {k : Word} (hk : k.toNat ≤ 28) :
    ∀ i < 4, hd.toNat + k.toNat + i ∉ loadBuffer := by
  intro j hj hmem
  have := H.2
  rw [loadBuffer, mem_range, toNat_loadKernel] at hmem
  omega

theorem field_subset (H : InHeaders hd) {k : Word} (hk : k.toNat ≤ 28) : range (hd + k) 4 ⊆ buffers := by
  intro j hj
  have h1 := H.1
  have h2 := H.2
  rw [mem_range, toNat_field H hk] at hj
  rw [buffers, Set.mem_Ico]
  omega

theorem eq_zero_of_not_pos {x : Word} (h : ¬ x > 0) : x = 0 := BitVec.le_zero_iff.mp (BitVec.not_lt.mp h)

/-- What is left of a field that is counted down. -/
theorem toNat_sub_minLoadSize (x : Word) : (x - minLoadSize x).toNat = x.toNat - min x.toNat 0x10000 := by
  rw [BitVec.toNat_sub_of_le (by rw [BitVec.le_def, toNat_minLoadSize]; exact Nat.min_le_left _ _),
    toNat_minLoadSize]

theorem skipLoop_ok (X : Exact D file idle At) (H : InHeaders hd)
    (h : skipLoop D fd hd n M = some (true, M')) (hA : At fd i M.files) :
    At fd (i + (M.mem.load32 (hd + 4)).toNat) M'.files ∧
      Changes (loadBuffer ∪ range (hd + 4) 4) M.mem M'.mem := by
  have hfield := toNat_field (k := 4) H (by decide)
  induction n generalizing M i with
  | zero =>
    rw [skipLoop] at h
    split at h
    · cases h
    · rename_i h0
      rw [eq_zero_of_not_pos h0]
      cases h
      exact ⟨hA, .refl _ _⟩
  | succ n ih =>
    simp only [skipLoop] at h
    split at h
    swap
    · rename_i h0
      rw [eq_zero_of_not_pos h0]
      cases h
      exact ⟨hA, .refl _ _⟩
    split at h
    · cases h
    rename_i h0 hread
    have hread := not_not.mp hread
    obtain ⟨hat, hmem, -⟩ := read_load_ok X hA hread
    have hcell := load32_field H (k := 4) (by decide) hmem (field_not_loadBuffer H (by decide))
    rw [hread, hcell] at h
    obtain ⟨hat', hmem'⟩ := ih h hat
    rw [load32_store32_self, toNat_sub_minLoadSize] at hat'
    refine ⟨?_, ?_⟩
    · rwa [show i + (M.mem.load32 (hd + 4)).toNat = i + min (M.mem.load32 (hd + 4)).toNat 0x10000 +
        ((M.mem.load32 (hd + 4)).toNat - min (M.mem.load32 (hd + 4)).toNat 0x10000) by omega]
    · have := H.2
      refine (hmem.mono Set.subset_union_left).trans (.trans ?_ hmem')
      refine (store32_changes ?_).mono Set.subset_union_right
      rw [hfield, toNat_four]
      omega

/-- The bytes that `memcpy` copies of a chunk. -/
theorem toNat_setWidth_chunk (x : Word) :
    ((minLoadSize x).setWidth 16).toNat = if x.toNat < 0x10000 then x.toNat else 0 := by
  rw [BitVec.toNat_setWidth, toNat_minLoadSize]
  split <;> omega

/-- The bytes of a segment are not in the buffers. -/
theorem not_mem_buffers {n : Nat} (hw : virt.toNat + n ≤ 2 ^ 32) (hb : Disjoint (range virt n) buffers) {k : Nat}
    (hk : k < n) : (virt + BitVec.ofNat 32 k).toNat ∉ buffers := fun hmem => by
  refine Set.disjoint_left.mp hb ?_ hmem
  rw [mem_range, toNat_add_lt hk hw]
  omega

/-- A segment is before the load buffer or after it. -/
theorem apart_loadKernel {n : Nat} (hn : n ≤ 0x10000) (hb : Disjoint (range virt n) buffers) :
    virt.toNat + n ≤ MEMORY_LOAD_KERNEL.toNat ∨ MEMORY_LOAD_KERNEL.toNat + n ≤ virt.toNat := by
  rw [toNat_loadKernel]
  by_contra hnot
  have hin : max virt.toNat 0x40000 ∈ range virt n := by
    rw [mem_range]
    omega
  apply Set.disjoint_left.mp hb hin
  rw [buffers, Set.mem_Ico]
  omega

theorem chunk_subset (a x : Word) : range a ((minLoadSize x).setWidth 16).toNat ⊆ range a x.toNat := fun k hk => by
  rw [mem_range, toNat_setWidth_chunk] at hk
  rw [mem_range]
  split at hk <;> omega

/-- What a round of the loop does to the memory, after the read to the load buffer: the field is counted down, and the
chunk is copied unless it is a whole one. -/
theorem chunk_ok (H : InHeaders hd) {x : Word} {m r : Mem} (hw : virt.toNat + x.toNat ≤ 2 ^ 32)
    (hb : Disjoint (range virt x.toNat) buffers) (hmem : Changes loadBuffer m r)
    (hbytes : ∀ k < min x.toNat 0x10000, r (MEMORY_LOAD_KERNEL + BitVec.ofNat 32 k) = Buffer.ofList file (i + k)) :
    let m' := (r.store32 (hd + 16) (x - minLoadSize x)).memcpy virt MEMORY_LOAD_KERNEL
      ((minLoadSize x).setWidth 16).toNat
    m'.load32 (hd + 16) = x - minLoadSize x ∧
      Changes (loadBuffer ∪ range (hd + 16) 4 ∪ range virt x.toNat) m m' ∧
      ∀ k < x.toNat, m' (virt + BitVec.ofNat 32 k) =
        if x.toNat < 0x10000 then Buffer.ofList file (i + k) else m (virt + BitVec.ofNat 32 k) := by
  have hfield := toNat_field (k := 16) H (by decide)
  have hlen := toNat_setWidth_chunk x
  have hsub := chunk_subset virt x
  have hlt := H.2
  have h16 : (hd + 16).toNat + 4 ≤ 2 ^ 32 := by
    rw [hfield, show (16 : Word).toNat = 16 from rfl]
    omega
  have hstore : Changes (range (hd + 16) 4) r (r.store32 (hd + 16) (x - minLoadSize x)) := store32_changes h16
  have hcopy : Changes (range virt ((minLoadSize x).setWidth 16).toNat) (r.store32 (hd + 16) (x - minLoadSize x))
      ((r.store32 (hd + 16) (x - minLoadSize x)).memcpy virt MEMORY_LOAD_KERNEL ((minLoadSize x).setWidth 16).toNat) :=
    memcpy_changes (by rw [hlen]; split <;> omega)
  have hbefore : Changes (loadBuffer ∪ range (hd + 16) 4) m (r.store32 (hd + 16) (x - minLoadSize x)) :=
    (hmem.mono Set.subset_union_left).trans (hstore.mono Set.subset_union_right)
  refine ⟨?_, (hbefore.mono Set.subset_union_left).trans (hcopy.mono fun k hk => .inr (hsub hk)), fun k hk => ?_⟩
  · rw [hcopy.load32 h16 fun j hj hin => ?_, load32_store32_self]
    refine Set.disjoint_left.mp hb (hsub hin) (field_subset H (k := 16) (by decide) ?_)
    rw [mem_range]
    omega
  split
  · -- the last chunk, which is copied
    rename_i hsmall
    rw [if_pos hsmall] at hlen
    have hload := toNat_add_lt (a := MEMORY_LOAD_KERNEL) hk (by rw [toNat_loadKernel]; omega)
    rw [hlen, memcpy_byte hw (by rw [toNat_loadKernel]; omega) (apart_loadKernel hsmall.le hb) hk,
      hstore, hbytes k (by omega)]
    rw [mem_range, hload, toNat_loadKernel, hfield, show (16 : Word).toNat = 16 from rfl]
    omega
  · -- a whole chunk, which is not
    rename_i hwhole
    rw [if_neg hwhole] at hlen
    have hU : loadBuffer ∪ range (hd + 16) 4 ⊆ buffers :=
      Set.union_subset loadBuffer_subset (field_subset H (by decide))
    rw [hlen]
    exact hbefore _ fun hin => not_mem_buffers hw hb hk (hU hin)

theorem loadLoop_ok (X : Exact D file idle At) (H : InHeaders hd)
    (h : loadLoop D fd hd n M virt = some (true, M')) (hA : At fd i M.files)
    (hw : virt.toNat + (M.mem.load32 (hd + 16)).toNat ≤ 2 ^ 32)
    (hb : Disjoint (range virt (M.mem.load32 (hd + 16)).toNat) buffers) :
    At fd (i + (M.mem.load32 (hd + 16)).toNat) M'.files ∧
      Changes (loadBuffer ∪ range (hd + 16) 4 ∪ range virt (M.mem.load32 (hd + 16)).toNat) M.mem M'.mem ∧
      ∀ k < (M.mem.load32 (hd + 16)).toNat, M'.mem (virt + BitVec.ofNat 32 k) =
        if (M.mem.load32 (hd + 16)).toNat / 0x10000 * 0x10000 ≤ k then Buffer.ofList file (i + k)
        else M.mem (virt + BitVec.ofNat 32 k) := by
  induction n generalizing M i virt with
  | zero =>
    rw [loadLoop] at h
    split at h
    · cases h
    · rename_i h0
      rw [eq_zero_of_not_pos h0]
      cases h
      exact ⟨hA, .refl _ _, fun k hk => absurd hk (Nat.not_lt_zero _)⟩
  | succ n ih =>
    simp only [loadLoop] at h
    split at h
    swap
    · rename_i h0
      rw [eq_zero_of_not_pos h0]
      cases h
      exact ⟨hA, .refl _ _, fun k hk => absurd hk (Nat.not_lt_zero _)⟩
    split at h
    · cases h
    rename_i h0 hread
    have hread := not_not.mp hread
    obtain ⟨hat, hmem, hbytes⟩ := read_load_ok X hA hread
    have hcell := load32_field H (k := 16) (by decide) hmem (field_not_loadBuffer H (by decide))
    rw [hread, hcell] at h
    generalize M.mem.load32 (hd + 16) = x at *
    obtain ⟨hcell', hround, hchunk⟩ := chunk_ok H hw hb hmem hbytes
    have hrest := toNat_sub_minLoadSize x
    have hsum : (virt + minLoadSize x).toNat = (virt.toNat + min x.toNat 0x10000) % 2 ^ 32 := by
      rw [BitVec.toNat_add, toNat_minLoadSize]
    have hsub : range (virt + minLoadSize x) (x - minLoadSize x).toNat ⊆ range virt x.toNat := fun k hk => by
      rw [mem_range, hsum, hrest] at hk
      rw [mem_range]
      omega
    obtain ⟨hat', hmem', hbytes'⟩ := ih h hat (by rw [hcell', hsum, hrest]; omega)
      (by rw [hcell']; exact hb.mono_left hsub)
    rw [hcell'] at hat' hmem' hbytes'
    refine ⟨?_, hround.trans (hmem'.mono (Set.union_subset_union_right _ hsub)), fun k hk => ?_⟩
    · rwa [hrest, show i + min x.toNat 0x10000 + (x.toNat - min x.toNat 0x10000) = i + x.toNat by omega] at hat'
    have hU : loadBuffer ∪ range (hd + 16) 4 ⊆ buffers :=
      Set.union_subset loadBuffer_subset (field_subset H (by decide))
    -- a byte of this chunk is left by the rounds after it
    have hkeep : k < min x.toNat 0x10000 → M'.mem (virt + BitVec.ofNat 32 k) =
        if x.toNat < 0x10000 then Buffer.ofList file (i + k) else M.mem (virt + BitVec.ofNat 32 k) := fun hfirst => by
      refine (hmem' _ ?_).trans (hchunk k hk)
      rintro (hin | hin)
      · exact not_mem_buffers hw hb hk (hU hin)
      · rw [mem_range, hsum, hrest, toNat_add_lt hk hw] at hin
        omega
    by_cases hsmall : x.toNat < 0x10000
    · rw [hkeep (by omega), if_pos hsmall, if_pos (by omega)]
    · have hmin : min x.toNat 0x10000 = 0x10000 := by omega
      by_cases hfirst : k < 0x10000
      · rw [hkeep (by omega), if_neg hsmall, if_neg (by omega)]
      · obtain ⟨j, rfl⟩ := Nat.exists_eq_add_of_le (not_lt.mp hfirst)
        have hshift : virt + minLoadSize x + BitVec.ofNat 32 j = virt + BitVec.ofNat 32 (0x10000 + j) := by
          apply BitVec.eq_of_toNat_eq
          simp only [BitVec.toNat_add, BitVec.toNat_ofNat, toNat_minLoadSize, hmin]
          omega
        have hb' := hbytes' j (by omega)
        have hold := hchunk _ hk
        rw [hshift, hrest, hmin, Nat.add_assoc] at hb'
        rw [if_neg hsmall] at hold
        exact hb'.trans (if_congr (by omega) rfl hold)

/-! ## Segments -/

/-- What is in byte `k` of a segment that is loaded over `m`. -/
def finalByte (file : List Byte) (m : Mem) (g : Segment) (k : Nat) : Byte :=
  if Copied g k then Buffer.ofList file (g.offset.toNat + k)
  else if k < g.memsz.toNat % 0x10000 then 0 else m (g.vaddr + BitVec.ofNat 32 k)

/-- The program header at `hd` is of segment `g`. -/
structure HeaderAt (m : Mem) (hd : Addr) (g : Segment) : Prop where
  offset : m.load32 (hd + 4) = g.offset
  vaddr : m.load32 (hd + 8) = g.vaddr
  filesz : m.load32 (hd + 16) = g.filesz
  memsz : m.load32 (hd + 20) = g.memsz

theorem mem_addresses {g : Segment} {k : Nat} (hk : k < g.memsz.toNat) (hw : g.vaddr.toNat + g.memsz.toNat ≤ 2 ^ 32) :
    (g.vaddr + BitVec.ofNat 32 k).toNat ∈ g.addresses := by
  rw [Segment.addresses, mem_range, toNat_add_lt hk hw]
  omega

/-- What `memset` leaves of a segment: it clears the size modulo 64 KiB. -/
theorem memset_segment {g : Segment} (m : Mem) (hw : g.vaddr.toNat + g.memsz.toNat ≤ 2 ^ 32) :
    let m' := m.memset g.vaddr 0 (g.memsz.setWidth 16).toNat
    Changes g.addresses m m' ∧ ∀ k < g.memsz.toNat, m' (g.vaddr + BitVec.ofNat 32 k) =
      if k < g.memsz.toNat % 0x10000 then 0 else m (g.vaddr + BitVec.ofNat 32 k) := by
  have hlen : (g.memsz.setWidth 16).toNat = g.memsz.toNat % 0x10000 := BitVec.toNat_setWidth 16 _
  rw [hlen]
  refine ⟨(memset_changes (by omega)).mono fun k hk => ?_, fun k hk => ?_⟩
  · rw [mem_range] at hk
    rw [Segment.addresses, mem_range]
    omega
  · rw [memset_apply _ _ _ _ (by omega), add_sub_cancel_left, BitVec.toNat_ofNat, Nat.mod_eq_of_lt (by omega)]

/-- A byte of a segment, after `memset` and both loops: what these leave alone is as `memset` leaves it. -/
theorem segment_byte {g : Segment} {m m₁ m₂ : Mem} (H : InHeaders hd)
    (hw : g.vaddr.toNat + g.memsz.toNat ≤ 2 ^ 32) (hb : Disjoint g.addresses buffers) {k : Nat}
    (hk : k < g.memsz.toNat)
    (hclear : m₁ (g.vaddr + BitVec.ofNat 32 k) =
      if k < g.memsz.toNat % 0x10000 then 0 else m (g.vaddr + BitVec.ofNat 32 k))
    (hload : Changes (loadBuffer ∪ range (hd + 16) 4 ∪ range g.vaddr g.filesz.toNat) m₁ m₂)
    (hbytes : ∀ k < g.filesz.toNat, m₂ (g.vaddr + BitVec.ofNat 32 k) =
      if g.filesz.toNat / 0x10000 * 0x10000 ≤ k then Buffer.ofList file (g.offset.toNat + k)
      else m₁ (g.vaddr + BitVec.ofNat 32 k)) :
    m₂ (g.vaddr + BitVec.ofNat 32 k) = finalByte file m g k := by
  rw [finalByte]
  by_cases hlt : k < g.filesz.toNat
  · rw [hbytes k hlt]
    by_cases hle : g.filesz.toNat / 0x10000 * 0x10000 ≤ k
    · rw [if_pos hle, if_pos (show Copied g k from ⟨hle, hlt⟩)]
    · rw [if_neg hle, if_neg fun hc : Copied g k => hle hc.1, hclear]
  · rw [if_neg fun hc : Copied g k => hlt hc.2, ← hclear]
    apply hload _
    rintro (hin | hin)
    · exact not_mem_buffers hw hb hk (Set.union_subset loadBuffer_subset (field_subset H (by decide)) hin)
    · rw [mem_range, toNat_add_lt hk hw] at hin
      omega

theorem loadSegment_ok {g : Segment} (X : Exact D file idle At) (H : InHeaders hd) (G : HeaderAt M.mem hd g)
    (hi : idle M.files) (hs : g.filesz.toNat ≤ g.memsz.toNat) (hw : g.vaddr.toNat + g.memsz.toNat ≤ 2 ^ 32)
    (hb : Disjoint g.addresses buffers) (h : loadSegment D M hd = some (true, M')) :
    idle M'.files ∧ Changes (loadBuffer ∪ range hd 32 ∪ g.addresses) M.mem M'.mem ∧
      ∀ k < g.memsz.toNat, M'.mem (g.vaddr + BitVec.ofNat 32 k) = finalByte file M.mem g k := by
  simp only [loadSegment, G.vaddr, G.memsz] at h
  obtain ⟨fd, files, hopen, hat⟩ := X.opens _ hi
  rw [hopen] at h
  obtain ⟨hm₁, hclear⟩ := memset_segment M.mem hw
  generalize M.mem.memset g.vaddr 0 (g.memsz.setWidth 16).toNat = m at h hm₁ hclear
  have field : ∀ k : Word, k.toNat ≤ 28 → m.load32 (hd + k) = M.mem.load32 (hd + k) := fun k hk =>
    load32_field H hk hm₁ fun j hj hin => Set.disjoint_left.mp hb hin (field_subset H hk (by
      rw [mem_range, toNat_field H hk]
      omega))
  obtain ⟨⟨ok, M₁⟩, hskip, h⟩ := Option.bind_eq_some_iff.mp h
  cases ok with
  | false => simp at h
  | true =>
  rw [if_neg (not_not.mpr rfl)] at h
  obtain ⟨⟨ok, M₂⟩, hload, h⟩ := Option.bind_eq_some_iff.mp h
  cases ok with
  | false => simp at h
  | true =>
  rw [if_neg (not_not.mpr rfl)] at h
  cases h
  -- the file is read from the offset of the segment on
  obtain ⟨hat₁, hmem₁⟩ := skipLoop_ok X H hskip hat
  have hoffset : m.load32 (hd + 4) = g.offset := (field 4 (by decide)).trans G.offset
  have hfilesz : M₁.mem.load32 (hd + 16) = g.filesz := by
    rw [load32_field H (by decide) hmem₁ fun j hj hin => ?_, field 16 (by decide), G.filesz]
    rcases hin with hin | hin
    · exact field_not_loadBuffer H (k := 16) (by decide) j hj hin
    · rw [mem_range, toNat_field H (by decide), toNat_four, show (16 : Word).toNat = 16 from rfl] at hin
      omega
  rw [show (Machine.mk m files).mem.load32 (hd + 4) = g.offset from hoffset, Nat.zero_add] at hat₁
  have hsub : range g.vaddr g.filesz.toNat ⊆ g.addresses := fun k hk => by
    rw [mem_range] at hk
    rw [Segment.addresses, mem_range]
    omega
  obtain ⟨hat₂, hmem₂, hbytes⟩ := loadLoop_ok X H hload hat₁ (by rw [hfilesz]; omega)
    (by rw [hfilesz]; exact hb.mono_left hsub)
  rw [hfilesz] at hmem₂ hbytes
  have hhd : ∀ k : Word, k.toNat ≤ 28 → range (hd + k) 4 ⊆ range hd 32 := fun k hk j hj => by
    rw [mem_range, toNat_field H hk] at hj
    rw [mem_range]
    omega
  have hskip' : Changes (loadBuffer ∪ range hd 32 ∪ g.addresses) m M₁.mem :=
    hmem₁.mono (Set.union_subset (fun k hk => .inl (.inl hk)) fun k hk => .inl (.inr (hhd 4 (by decide) hk)))
  refine ⟨X.closes _ _ _ hat₂, ?_, fun k hk => ?_⟩
  · refine ((hm₁.mono Set.subset_union_right).trans hskip').trans (hmem₂.mono ?_)
    rintro k ((hk | hk) | hk)
    · exact .inl (.inl hk)
    · exact .inl (.inr (hhd 16 (by decide) hk))
    · exact .inr (hsub hk)
  refine segment_byte H hw hb hk ((hmem₁ _ fun hin => ?_).trans (hclear k hk)) hmem₂ hbytes
  exact not_mem_buffers hw hb hk (Set.union_subset loadBuffer_subset (field_subset H (by decide)) hin)

/-! ## The program -/

/-- Program header `i` of a file. -/
def programHeader (file : List Byte) (i : Nat) : ProgramHeader :=
  ProgramHeader.ofBuffer (Buffer.ofList file)
    ((headerOf file).headerTable.toNat + i * (headerOf file).prgHeaderTableEntrySize.toNat)

/-- Where program header `i` is in memory. -/
def headerAddr (file : List Byte) (i : Nat) : Addr :=
  MEMORY_ELF_ADDR + BitVec.ofNat 32 i * (headerOf file).prgHeaderTableEntrySize.setWidth 32

/-- The segments of `n` program headers from `i` on. -/
def segmentsFrom (file : List Byte) (i n : Nat) : List Segment :=
  (List.range' i n).filterMap fun j =>
    if (programHeader file j).type = PT_LOAD then some (programHeader file j).segment else none

theorem segmentsOf_eq (file : List Byte) :
    segmentsOf file = segmentsFrom file 0 (headerOf file).prgHeaderTableEntryCount.toNat := by
  rw [segmentsOf, loadSegmentsOf, segmentsFrom, List.range_eq_range']
  rfl

theorem segmentsFrom_succ (file : List Byte) (i n : Nat) : segmentsFrom file i (n + 1) =
    if (programHeader file i).type = PT_LOAD then (programHeader file i).segment :: segmentsFrom file (i + 1) n
    else segmentsFrom file (i + 1) n := by
  rw [segmentsFrom, List.range'_succ]
  split
  · rename_i h
    exact List.filterMap_cons_some (if_pos h)
  · rename_i h
    exact List.filterMap_cons_none (if_neg h)

/-- `n` program headers are in memory, from header `i` on. -/
def TableAt (file : List Byte) (m : Mem) (i n : Nat) : Prop :=
  ∀ x, i * (headerOf file).prgHeaderTableEntrySize.toNat ≤ x →
    x < (i + n) * (headerOf file).prgHeaderTableEntrySize.toNat →
      m.view MEMORY_ELF_ADDR x = Buffer.ofList file ((headerOf file).headerTable.toNat + x)

/-- The headers are in the buffer. -/
theorem Loadable.header_le (V : Loadable file) {i n : Nat}
    (h : i + n ≤ (headerOf file).prgHeaderTableEntryCount.toNat) :
    i * (headerOf file).prgHeaderTableEntrySize.toNat + n * (headerOf file).prgHeaderTableEntrySize.toNat ≤
      0x10000 := by
  rw [← Nat.add_mul, Nat.mul_comm]
  exact (Nat.mul_le_mul_left _ h).trans V.table

theorem toNat_header (x : Nat) (hx : x < 0x10000) :
    (MEMORY_ELF_ADDR + BitVec.ofNat 32 x).toNat = 0x30000 + x :=
  toNat_add_lt (a := MEMORY_ELF_ADDR) hx (by decide)

theorem headerAddr_add (file : List Byte) (i k : Nat) : headerAddr file i + BitVec.ofNat 32 k =
    MEMORY_ELF_ADDR + BitVec.ofNat 32 (i * (headerOf file).prgHeaderTableEntrySize.toNat + k) := by
  rw [headerAddr, ← BitVec.ofNat_toNat, BitVec.add_assoc, ← BitVec.ofNat_mul, ← BitVec.ofNat_add]

theorem toNat_headerAddr (V : Loadable file) {i : Nat}
    (h : i + 1 ≤ (headerOf file).prgHeaderTableEntryCount.toNat) :
    (headerAddr file i).toNat = 0x30000 + i * (headerOf file).prgHeaderTableEntrySize.toNat := by
  have h1 := V.header_le h
  have h2 := V.entrySize
  have e := headerAddr_add file i 0
  rw [BitVec.add_zero, Nat.add_zero] at e
  rw [e, toNat_header _ (by omega)]

theorem Loadable.inHeaders (V : Loadable file) {i : Nat}
    (h : i + 1 ≤ (headerOf file).prgHeaderTableEntryCount.toNat) : InHeaders (headerAddr file i) := by
  have h1 := V.header_le h
  have h2 := V.entrySize
  have h3 := toNat_headerAddr V h
  exact ⟨by omega, by omega⟩

/-- A field of a program header, in memory. -/
theorem TableAt.load32 {m : Mem} {i n : Nat} (T : TableAt file m i (n + 1)) (V : Loadable file) {k : Nat}
    (hk : k ≤ 28) : m.load32 (headerAddr file i + BitVec.ofNat 32 k) =
      (Buffer.ofList file).load32 ((headerOf file).headerTable.toNat +
        i * (headerOf file).prgHeaderTableEntrySize.toNat + k) := by
  have he := V.entrySize
  rw [headerAddr_add, ← load32_view]
  refine Buffer.load32_congr fun j hj => ?_
  rw [Nat.add_assoc _ _ j, T _ (by omega) ?_]
  · congr 1
    omega
  · rw [Nat.add_mul, Nat.add_mul]
    omega

theorem TableAt.header {m : Mem} {i n : Nat} (T : TableAt file m i (n + 1)) (V : Loadable file) :
    m.load32 (headerAddr file i) = (programHeader file i).type ∧
      HeaderAt m (headerAddr file i) (programHeader file i).segment := by
  have h0 := T.load32 V (k := 0) (by decide)
  rw [BitVec.add_zero] at h0
  exact ⟨h0, T.load32 V (by decide), T.load32 V (by decide), T.load32 V (by decide), T.load32 V (by decide)⟩

/-- The program headers outlive the loading of a segment before them. -/
theorem TableAt.next {m m' : Mem} {i n : Nat} (T : TableAt file m i (n + 1)) (V : Loadable file)
    (hin : i + (n + 1) ≤ (headerOf file).prgHeaderTableEntryCount.toNat) {S : Set Nat}
    (hS : Disjoint S buffers) (h : Changes (loadBuffer ∪ range (headerAddr file i) 32 ∪ S) m m') :
    TableAt file m' (i + 1) n := by
  intro x hlo hhi
  have he := V.entrySize
  have hle := V.header_le hin
  rw [Nat.add_mul, Nat.one_mul] at hle
  rw [Nat.add_mul, Nat.one_mul] at hlo
  rw [Nat.add_mul, Nat.add_mul, Nat.one_mul] at hhi
  have hx : (MEMORY_ELF_ADDR + BitVec.ofNat 32 x).toNat = 0x30000 + x := toNat_header x (by omega)
  rw [view, h _ ?_]
  · exact T x (by omega) (by rw [Nat.add_mul, Nat.add_mul, Nat.one_mul]; omega)
  · rw [hx]
    rintro ((hin' | hin') | hin')
    · rw [loadBuffer, mem_range, toNat_loadKernel] at hin'
      omega
    · rw [mem_range, toNat_headerAddr V (by omega)] at hin'
      omega
    · apply Set.disjoint_left.mp hS hin'
      rw [buffers, Set.mem_Ico]
      omega

/-- The loop over the program headers, from `i` on. -/
theorem loadSegments_ok (X : Exact D file idle At) (V : Loadable file) {i n : Nat}
    (h : loadSegments D ((headerOf file).prgHeaderTableEntrySize.setWidth 32) n (BitVec.ofNat 32 i) M =
      some (true, M'))
    (hin : i + n ≤ (headerOf file).prgHeaderTableEntryCount.toNat) (T : TableAt file M.mem i n)
    (hsub : (segmentsFrom file i n).Sublist (segmentsOf file)) (hi : idle M.files) :
    Changes (buffers ∪ {x | ∃ g ∈ segmentsFrom file i n, x ∈ g.addresses}) M.mem M'.mem ∧
      ∀ g ∈ segmentsFrom file i n, ∀ k < g.memsz.toNat,
        M'.mem (g.vaddr + BitVec.ofNat 32 k) = finalByte file M.mem g k := by
  induction n generalizing M i with
  | zero =>
    cases h
    exact ⟨.refl _ _, fun g hg => absurd hg List.not_mem_nil⟩
  | succ n ih =>
    obtain ⟨htype, G⟩ := T.header V
    have hnext : BitVec.ofNat 32 i + 1 = BitVec.ofNat 32 (i + 1) := (BitVec.ofNat_add ..).symm
    have hhd : MEMORY_ELF_ADDR + BitVec.ofNat 32 i * (headerOf file).prgHeaderTableEntrySize.setWidth 32 =
        headerAddr file i := rfl
    simp only [loadSegments, hnext, hhd, htype] at h
    rw [segmentsFrom_succ] at hsub ⊢
    by_cases hload : (programHeader file i).type = PT_LOAD
    swap
    · rw [if_neg hload] at h hsub ⊢
      exact ih h (by omega) (T.next V hin (Set.disjoint_left.mpr fun _ hx => hx.elim) (S := ∅) (.refl _ _)) hsub hi
    rw [if_pos hload] at h hsub ⊢
    generalize (programHeader file i).segment = g at G hsub ⊢
    have hg : g ∈ segmentsOf file := hsub.subset List.mem_cons_self
    have hpair := List.pairwise_cons.mp (V.disjoint.sublist hsub)
    obtain ⟨⟨ok, M₁⟩, hseg, h⟩ := Option.bind_eq_some_iff.mp h
    cases ok with
    | false => simp at h
    | true =>
    rw [if_pos rfl] at h
    obtain ⟨hi₁, hmem₁, hbytes⟩ := loadSegment_ok X (V.inHeaders (by omega)) G hi (V.sizes g hg)
      (V.noWrap g hg) (V.apart g hg) hseg
    obtain ⟨hmem, htail⟩ := ih h (by omega) (T.next V hin (V.apart g hg) hmem₁)
      ((List.sublist_cons_self _ _).trans hsub) hi₁
    have hhead : loadBuffer ∪ range (headerAddr file i) 32 ⊆ buffers := by
      have H := V.inHeaders (i := i) (by omega)
      have h1 := H.1
      have h2 := H.2
      apply Set.union_subset loadBuffer_subset
      intro x hx
      rw [mem_range] at hx
      rw [buffers, Set.mem_Ico]
      omega
    have hat : ∀ g' ∈ segmentsOf file, ∀ k < g'.memsz.toNat,
        (g'.vaddr + BitVec.ofNat 32 k).toNat ∈ g'.addresses := fun g' hg' _ hk => mem_addresses hk (V.noWrap g' hg')
    refine ⟨.trans (hmem₁.mono ?_) (hmem.mono ?_), fun g' hg' k hk => ?_⟩
    · rintro x (hx | hx)
      · exact .inl (hhead hx)
      · exact .inr ⟨g, List.mem_cons_self, hx⟩
    · rintro x (hx | ⟨g', hg', hx⟩)
      · exact .inl hx
      · exact .inr ⟨g', List.mem_cons_of_mem _ hg', hx⟩
    rcases List.mem_cons.mp hg' with rfl | hg'
    · -- the segments after it are somewhere else
      rw [← hbytes k hk]
      apply hmem _
      rintro (hx | ⟨g'', hg'', hx⟩)
      · exact Set.disjoint_left.mp (V.apart g' hg) (hat g' hg k hk) hx
      · exact Set.disjoint_left.mp (hpair.1 g'' hg'') (hat g' hg k hk) hx
    · have hg₁ : g' ∈ segmentsOf file := hsub.subset (List.mem_cons_of_mem _ hg')
      have hkeep : M₁.mem (g'.vaddr + BitVec.ofNat 32 k) = M.mem (g'.vaddr + BitVec.ofNat 32 k) := by
        apply hmem₁ _
        rintro (hx | hx)
        · exact Set.disjoint_left.mp (V.apart g' hg₁) (hat g' hg₁ k hk) (hhead hx)
        · exact Set.disjoint_left.mp (hpair.1 g' hg') hx (hat g' hg₁ k hk)
      rw [htail g' hg' k hk, finalByte, finalByte, hkeep]

/-- What is read before the program headers does not matter to the fields of the header. -/
theorem headerOf_eq {b : Buffer} (h : ∀ i < 52, b i = Buffer.ofList file i) :
    ElfHdr.ofBuffer b = headerOf file := by
  have h16 : ∀ i, i + 2 ≤ 52 → b.load16 i = (Buffer.ofList file).load16 i := fun i hi =>
    Buffer.load16_congr fun j hj => h _ (by omega)
  have h32 : ∀ i, i + 4 ≤ 52 → b.load32 i = (Buffer.ofList file).load32 i := fun i hi =>
    Buffer.load32_congr fun j hj => h _ (by omega)
  have h4 : b.slice 0 4 = (Buffer.ofList file).slice 0 4 := Buffer.slice_congr fun j hj => h _ (by omega)
  simp only [headerOf, ElfHdr.ofBuffer, h4, h 4 (by decide), h 5 (by decide), h 6 (by decide),
    h16 16 (by decide), h16 18 (by decide), h16 42 (by decide), h16 44 (by decide), h32 20 (by decide),
    h32 24 (by decide), h32 28 (by decide)]

/-- The program headers are read whole, from their place in the file. -/
theorem table_read {gap size len offset : Nat} (hsize : 0 < size)
    (h : min size (len - (52 + min gap (len - 52))) = size) (hlen : len < 2 ^ 32)
    (hgap : gap = (offset + (2 ^ 32 - 52)) % 2 ^ 32) (hoffset : offset < 2 ^ 32) :
    min gap (len - 52) = gap ∧ 52 + gap = offset := by
  omega

theorem toNat_sizeofElfHdr : sizeofElfHdr.toNat = 52 := rfl

theorem header_subset {n : Nat} (hn : n ≤ 0x10000) : range MEMORY_ELF_ADDR n ⊆ buffers := fun x hx => by
  rw [mem_range, show MEMORY_ELF_ADDR.toNat = 0x30000 from rfl] at hx
  rw [buffers, Set.mem_Ico]
  omega

/-- The program headers when they have been read. -/
theorem Loadable.table_ok (V : Loadable file) {m m₁ m₂ m₃ : Mem} {gap size k : Nat}
    (hgap : gap = ((headerOf file).headerTable - sizeofElfHdr).toNat)
    (hsize : size = (headerOf file).prgHeaderTableEntrySize.toNat *
      (headerOf file).prgHeaderTableEntryCount.toNat)
    (hpos : 0 < size) (hk : k = min gap (file.length - 52)) (hfull : min size (file.length - (52 + k)) = size)
    (hmem₁ : m₁ = m.write MEMORY_ELF_ADDR ((Buffer.ofList file).slice 0 52))
    (hmem₂ : m₂ = m₁.write MEMORY_ELF_ADDR ((Buffer.ofList file).slice 52 k))
    (hmem₃ : m₃ = m₂.write MEMORY_ELF_ADDR ((Buffer.ofList file).slice (52 + k) size)) :
    TableAt file m₃ 0 (headerOf file).prgHeaderTableEntryCount.toNat ∧
      ∀ x : Addr, x.toNat ∉ buffers → m₃ x = skipped file m x := by
  have hle : size ≤ 0x10000 := hsize ▸ V.table
  have hlen := V.length
  have hsub : gap = ((headerOf file).headerTable.toNat + (2 ^ 32 - 52)) % 2 ^ 32 := by
    rw [hgap, BitVec.toNat_sub, toNat_sizeofElfHdr, Nat.add_comm]
  obtain ⟨hkgap, hoffset⟩ := table_read hpos (hk ▸ hfull) hlen hsub (headerOf file).headerTable.isLt
  rw [← hk] at hkgap
  rw [hkgap] at hmem₂ hmem₃
  refine ⟨fun x _ hx => ?_, fun x hx => ?_⟩
  · rw [hmem₃, view_write_slice (by rwa [Nat.zero_add, Nat.mul_comm, ← hsize] at hx) (by omega), hoffset]
  · rw [hmem₃, write_changes (by rw [Buffer.length_slice, show MEMORY_ELF_ADDR.toNat = 0x30000 from rfl]; omega)
      _ fun hin => hx (header_subset (by rwa [Buffer.length_slice]) hin), hmem₂, skipped, ← hgap]
    apply write_congr
    rw [hmem₁, write_changes (by rw [Buffer.length_slice]; decide) _ fun hin =>
      hx (header_subset (by rw [Buffer.length_slice]; decide) hin)]

/-- What `ELF_read` leaves in the segments. -/
theorem elfRead_ok (X : Exact D file idle At) (V : Loadable file) (hi : idle M.files) {entry : Option Word}
    (h : elfRead D M = some (1, entry, M')) :
    ∀ g ∈ segmentsOf file, ∀ k < g.memsz.toNat, M'.mem (g.vaddr + BitVec.ofNat 32 k) =
      if Copied g k then Buffer.ofList file (g.offset.toNat + k) else leftByte file M.mem g k := by
  obtain ⟨fd, files, hopen, hat⟩ := X.opens _ hi
  have hne : (0 : Word) ≠ 1 := by decide
  simp only [elfRead, hopen] at h
  split at h
  · exact absurd (Prod.ext_iff.mp (Option.some.inj h)).1 hne
  rename_i hret
  obtain ⟨hat₁, hmem₁⟩ := read_ok X (M := { M with files := files })
    (a := MEMORY_ELF_ADDR) hat (not_not.mp hret)
  rw [not_not.mp hret] at h
  generalize (Machine.read D { M with files := files } fd sizeofElfHdr MEMORY_ELF_ADDR).2 = M₁ at h hat₁ hmem₁
  replace hmem₁ : M₁.mem = M.mem.write MEMORY_ELF_ADDR ((Buffer.ofList file).slice 0 52) := hmem₁
  rw [toNat_sizeofElfHdr, Nat.zero_add] at hat₁
  have hheader : ElfHdr.ofBuffer (M₁.mem.view MEMORY_ELF_ADDR) = headerOf file := by
    apply headerOf_eq
    intro i hi
    rw [hmem₁, view_write_slice hi (by decide), Nat.zero_add]
  rw [hheader] at h
  split at h
  · exact absurd (Prod.ext_iff.mp (Option.some.inj h)).1 hne
  split at h
  · exact absurd (Prod.ext_iff.mp (Option.some.inj h)).1 hne
  rename_i hret₂
  -- what is before the program headers, and they
  obtain ⟨-, hout, hat₂⟩ := X.reads fd M₁.files _ ((headerOf file).headerTable - sizeofElfHdr) hat₁
  have hmem₂ : (M₁.read D fd ((headerOf file).headerTable - sizeofElfHdr) MEMORY_ELF_ADDR).2.mem =
      M₁.mem.write MEMORY_ELF_ADDR ((Buffer.ofList file).slice 52
        (min ((headerOf file).headerTable - sizeofElfHdr).toNat (file.length - 52))) := by
    rw [Machine.read, hout]
  have hsize : ((headerOf file).prgHeaderTableEntrySize.setWidth 32 *
      (headerOf file).prgHeaderTableEntryCount.setWidth 32 : Word).toNat =
        (headerOf file).prgHeaderTableEntrySize.toNat * (headerOf file).prgHeaderTableEntryCount.toNat := by
    have := V.table
    rw [BitVec.toNat_mul, BitVec.toNat_setWidth_of_le (by decide), BitVec.toNat_setWidth_of_le (by decide)]
    exact Nat.mod_eq_of_lt (by omega)
  generalize hM₂ : (M₁.read D fd ((headerOf file).headerTable - sizeofElfHdr) MEMORY_ELF_ADDR).2 = M₂
    at h hret₂ hmem₂
  replace hat₂ : At fd (52 + min ((headerOf file).headerTable - sizeofElfHdr).toNat (file.length - 52))
    M₂.files := by
    rw [← hM₂]
    exact hat₂
  obtain ⟨hat₃, hmem₃⟩ := read_ok X (a := MEMORY_ELF_ADDR) hat₂ (not_not.mp hret₂)
  obtain ⟨hfull, -, -⟩ := X.reads fd M₂.files _ ((headerOf file).prgHeaderTableEntrySize.setWidth 32 *
    (headerOf file).prgHeaderTableEntryCount.setWidth 32) hat₂
  replace hfull := hfull.symm.trans (congrArg BitVec.toNat (not_not.mp hret₂))
  rw [hsize] at hfull hmem₃
  generalize hM₃ : (M₂.read D fd ((headerOf file).prgHeaderTableEntrySize.setWidth 32 *
    (headerOf file).prgHeaderTableEntryCount.setWidth 32) MEMORY_ELF_ADDR).2 = M₃ at h hat₃ hmem₃
  rcases Nat.eq_zero_or_pos (headerOf file).prgHeaderTableEntryCount.toNat with h0 | hcount
  · rw [segmentsOf_eq, h0]
    exact fun g hg => absurd hg List.not_mem_nil
  obtain ⟨T, hmem⟩ := V.table_ok rfl rfl (Nat.mul_pos (by have := V.entrySize; omega) hcount) rfl hfull
    hmem₁ hmem₂ hmem₃
  cases hl : loadSegments D ((headerOf file).prgHeaderTableEntrySize.setWidth 32)
    (headerOf file).prgHeaderTableEntryCount.toNat 0 (M₃.close D fd) with
  | none =>
    rw [hl] at h
    cases h
  | some r =>
  obtain ⟨loaded, M₄⟩ := r
  rw [hl] at h
  cases loaded with
  | false => exact absurd (Prod.ext_iff.mp (Option.some.inj h)).1 hne
  | true =>
  cases h
  obtain ⟨-, hbytes⟩ := loadSegments_ok X V (i := 0) hl (Nat.le_of_eq (Nat.zero_add _)) T
    (segmentsOf_eq file ▸ List.Sublist.refl _) (X.closes _ _ _ hat₃)
  intro g hg k hk
  rw [hbytes g (segmentsOf_eq file ▸ hg) k hk, finalByte, leftByte]
  refine if_congr Iff.rfl rfl (if_congr Iff.rfl rfl (hmem _ fun hin => ?_))
  exact Set.disjoint_left.mp (V.apart g hg) (mem_addresses hk (V.noWrap g hg)) hin

/-- The segments are loaded exactly if the bytes that are not copied are left as they should be. -/
theorem elfRead_loaded_iff (X : Exact D file idle At) (V : Loadable file) (hi : idle M.files)
    {entry : Option Word} (h : elfRead D M = some (1, entry, M')) :
    (∀ g ∈ segmentsOf file, g.LoadedIn (Buffer.ofList file) M'.mem) ↔
      ∀ g ∈ segmentsOf file, ∀ k < g.memsz.toNat, ¬ Copied g k →
        leftByte file M.mem g k = g.byte (Buffer.ofList file) k := by
  have hbytes := elfRead_ok X V hi h
  refine ⟨fun H g hg k hk hc => ?_, fun H g hg k hk => ?_⟩
  · rw [← H g hg k hk, hbytes g hg k hk, if_neg hc]
  · rw [hbytes g hg k hk]
    split
    · rename_i hc
      rw [Segment.byte, if_pos hc.2]
    · rename_i hc
      exact H g hg k hk hc

/-! ## A program of one segment -/

/-- A driver of one file: its state is the position in the file, if it is open. -/
def oneFile (file : List Byte) : Files (Option Nat) Unit where
  fatOpen
    | none => (some (), some 0)
    | some i => (none, some i)
  fatRead _ s count :=
    let i := s.getD 0
    let n := min count.toNat (file.length - i)
    (BitVec.ofNat 32 n, (Buffer.ofList file).slice i n, some (i + n))
  fatClose _ _ := none

theorem exact_oneFile (file : List Byte) :
    Exact (oneFile file) file (· = none) fun _ i s => s = some i where
  opens := fun s hs => ⟨(), some 0, by rw [hs]; rfl, rfl⟩
  reads := fun _ s i count hs => by
    subst hs
    have hlt : min count.toNat (file.length - i) < 2 ^ 32 := (Nat.min_le_left _ _).trans_lt count.isLt
    exact ⟨Nat.mod_eq_of_lt hlt, rfl, rfl⟩
  closes := fun _ _ _ _ => rfl

/-- A program of a segment at 1 MiB: 4 bytes in the file, and 8 bytes in memory, or `high` times 64 KiB
more. -/
def program (high : Byte) : List Byte :=
  [0x7F, 0x45, 0x4C, 0x46, 1, 1, 1, 0, 0, 0, 0, 0, 0, 0, 0, 0, 2, 0, 3, 0, 1, 0, 0, 0, 0, 0, 0x10, 0,
    52, 0, 0, 0, 0, 0, 0, 0, 0, 0, 0, 0, 52, 0, 32, 0, 1, 0, 0, 0, 0, 0, 0, 0,
    1, 0, 0, 0, 84, 0, 0, 0, 0, 0, 0x10, 0, 0, 0, 0x10, 0, 4, 0, 0, 0, 8, 0, high, 0,
    7, 0, 0, 0, 0, 0x10, 0, 0, 0xB8, 1, 2, 3]

/-- A machine with `0xFF` in all of its memory. -/
def dirty : Machine (Option Nat) := ⟨fun _ => 0xFF, none⟩

theorem loadable_of_segment {g : Segment} (hg : segmentsOf file = [g]) (hlength : file.length < 2 ^ 32)
    (hsize : (headerOf file).prgHeaderTableEntrySize = 32) (hcount : (headerOf file).prgHeaderTableEntryCount = 1)
    (hs : g.filesz.toNat ≤ g.memsz.toNat) (hw : g.vaddr.toNat + g.memsz.toNat ≤ 2 ^ 32)
    (hb : 0x50000 ≤ g.vaddr.toNat) : Loadable file where
  length := hlength
  entrySize := by rw [hsize]; decide
  table := by rw [hsize, hcount]; decide
  sizes := by
    rw [hg]
    exact List.forall_mem_singleton.mpr hs
  noWrap := by
    rw [hg]
    exact List.forall_mem_singleton.mpr hw
  disjoint := hg ▸ List.pairwise_singleton _ _
  apart := by
    rw [hg]
    refine List.forall_mem_singleton.mpr (Set.disjoint_left.mpr fun x hx hin => ?_)
    rw [Segment.addresses, mem_range] at hx
    rw [buffers, Set.mem_Ico] at hin
    omega

theorem segmentsOf_program : segmentsOf (program 0) = [⟨84, 0x100000, 4, 8⟩] := by decide

theorem segmentsOf_program_one : segmentsOf (program 1) = [⟨84, 0x100000, 4, 0x10008⟩] := by decide

theorem loadable_program : Loadable (program 0) :=
  loadable_of_segment segmentsOf_program (by decide) (by decide) (by decide) (by decide)
    (by decide) (by decide)

theorem loadable_program_one : Loadable (program 1) :=
  loadable_of_segment segmentsOf_program_one (by decide) (by decide) (by decide) (by decide)
    (by decide) (by decide)

/-- A run that returns 1. -/
theorem exists_run (h : (elfRead D M).map (·.1) = some 1) :
    ∃ entry M', elfRead D M = some (1, entry, M') := by
  obtain ⟨⟨ret, entry, M'⟩, hrun, rfl⟩ := Option.map_eq_some_iff.mp h
  exact ⟨entry, M', hrun⟩

theorem elfRead_loaded_program : ∃ entry M', elfRead (oneFile (program 0)) dirty = some (1, entry, M') ∧
    ∀ g ∈ segmentsOf (program 0), g.LoadedIn (Buffer.ofList (program 0)) M'.mem := by
  obtain ⟨entry, M', hrun⟩ := exists_run (D := oneFile (program 0)) (M := dirty) (by decide)
  refine ⟨entry, M', hrun, (elfRead_loaded_iff (exact_oneFile _) loadable_program rfl hrun).mpr ?_⟩
  decide

/-- What is after the file's bytes of a segment of more than 64 KiB is not all cleared. -/
theorem elfRead_not_loaded : ¬ ∀ (σ φ : Type) (D : Files σ φ) (file : List Byte) (idle : σ → Prop)
    (At : φ → Nat → σ → Prop) (M M' : Machine σ) (entry : Option Word),
    Exact D file idle At → Loadable file → idle M.files → elfRead D M = some (1, entry, M') →
      ∀ g ∈ segmentsOf file, g.LoadedIn (Buffer.ofList file) M'.mem := by
  intro H
  obtain ⟨entry, M', hrun⟩ := exists_run (D := oneFile (program 1)) (M := dirty) (by decide)
  have hg : (⟨84, 0x100000, 4, 0x10008⟩ : Segment) ∈ segmentsOf (program 1) := by
    rw [segmentsOf_program_one]
    exact List.mem_singleton_self _
  have hbyte := H _ _ _ _ _ _ dirty M' entry (exact_oneFile (program 1)) loadable_program_one rfl hrun _ hg 8
    (by decide)
  have hleft : (elfRead (oneFile (program 1)) dirty).map (·.2.2.mem (0x100000 + BitVec.ofNat 32 8)) =
      some 0xFF := by decide
  rw [hrun, Option.map_some] at hleft
  exact absurd (hbyte.symm.trans (Option.some.inj hleft)) (by decide)

end

end AlexOS.Stage2
