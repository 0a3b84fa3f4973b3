import AlexOS.Physical.Blocks
import Mathlib.Order.Bounds.Basic

/-!
# The first free blocks

`find_first_free_blocks` finds the first run that begins in a full word of the
map, at an index that passes `memory_map[i] & j` (`findFirstFreeBlocks_first`).
That is the first run below `max_blocks` exactly if the first one begins at
such a place, and if no other is taken where there is none (`firstFit_iff`).
-/

namespace AlexOS.Physical

/-- A run of `n` clear blocks from block `k` on, after the first word of the map and below `max_blocks`. -/
structure Fits (s : Phys) (n : Word) (k : Nat) : Prop where
  first : 32 ≤ k
  last : k + n.toNat ≤ s.maxBlocks.toNat
  free : ∀ b : Word, k ≤ b.toNat → b.toNat < k + n.toNat → bit s b = false

/-- What is returned is the first of the runs that fit, or -1 if there is none. -/
def FirstFit (s : Phys) (n : Word) : Prop :=
  (∀ k, IsLeast {k | Fits s n k} k → (findFirstFreeBlocks s n).toInt = k) ∧
    ((¬ ∃ k, Fits s n k) → findFirstFreeBlocks s n = -1)

/-- The first run that fits begins in a full word of the map, where the mask lets it pass, and its number is one of
an `int32_t`; where none fits, none runs over the end from such a place. -/
structure Searched (s : Phys) (n : Word) : Prop where
  word : ∀ k, IsLeast {k | Fits s n k} k → k < 32 * (s.maxBlocks.toNat / 32)
  passes : ∀ k, IsLeast {k | Fits s n k} k → Passes (fun b => bit s b = false) (BitVec.ofNat 32 k)
  signed : ∀ k, IsLeast {k | Fits s n k} k → k < 2 ^ 31
  past : (¬ ∃ k, Fits s n k) → ∀ start, ¬ Found s n start

section

variable {s : Phys} {n start i j : Word} {k : Nat}

/-! ## Where the search stops -/

/-- The loop over `j` stops at a block. -/
def Stops (s : Phys) (n start : Word) : Prop :=
  Passes (fun b => bit s b = false) start ∧ ∀ b, InRun start n.toNat b → bit s b = false

theorem toNat_block {d : Word} (hi : i.toNat < 2 ^ 27) (hd : d.toNat < 32) :
    (i * 32 + d).toNat = 32 * i.toNat + d.toNat := by
  rw [BitVec.toNat_add, BitVec.toNat_mul, show (32 : Word).toNat = 32 from rfl]
  omega

/-- The blocks of a word of the map. -/
theorem wordAt_block {b : Word} (hb : b.toNat / 32 = i.toNat) :
    wordAt s.memoryMap b = s.memoryMap + 4 * i := by
  have e : b / 32 = i := BitVec.eq_of_toNat_eq (by
    rw [BitVec.toNat_udiv, show (32 : Word).toNat = 32 from rfl, hb])
  rw [wordAt, e]

theorem and_eq_zero_iff {d : Word} (hi : i.toNat < 2 ^ 27) (hd : d.toNat < 32) :
    s.mem.load32 (s.memoryMap + 4 * i) &&& d = 0 ↔ Passes (fun b => bit s b = false) (i * 32 + d) := by
  refine ⟨passes_of_and hi hd, fun h => BitVec.eq_of_getLsbD_eq fun x hx => ?_⟩
  have e := toNat_block hi hd
  rw [BitVec.getLsbD_and, show (0 : Word).getLsbD x = false from BitVec.getLsbD_zero]
  by_cases hbit : d.getLsbD x
  · -- bit `x` of the word is that of a block of the same word
    have hb : (i * 32 + BitVec.ofNat 32 x).toNat = 32 * i.toNat + x := by
      rw [toNat_block hi (by rw [BitVec.toNat_ofNat]; omega), BitVec.toNat_ofNat, Nat.mod_eq_of_lt (by omega)]
    have hclear : bit s (i * 32 + BitVec.ofNat 32 x) = false := h _ (by omega) (by
      rwa [e, hb, show (32 * i.toNat + d.toNat) % 32 = d.toNat by omega,
        show (32 * i.toNat + x) % 32 = x by omega, BitVec.testBit_toNat])
    rw [bit, Mem.bit, wordAt_block (i := i) (by omega), hb, show (32 * i.toNat + x) % 32 = x by omega] at hclear
    rw [hclear, Bool.false_and]
  · rw [Bool.eq_false_iff.mpr hbit, Bool.and_false]

theorem countFree_iff (hn : n ≠ 0) :
    countFree s start n (n.toNat + 1) 0 0 = true ↔ ∀ b, InRun start n.toNat b → bit s b = false := by
  have hpos : 0 < n.toNat := Nat.pos_of_ne_zero fun e => hn (BitVec.eq_of_toNat_eq e)
  constructor
  · exact countFree_spec fun b hb => absurd hb (Nat.not_lt_zero _)
  · intro h
    exact countFree_of_free h (Nat.zero_add _) hpos

theorem stops_iff {d : Word} (hn : n ≠ 0) (hi : i.toNat < 2 ^ 27) (hd : d.toNat < 32) :
    s.mem.load32 (s.memoryMap + 4 * i) &&& d = 0 ∧ countFree s (i * 32 + d) n (n.toNat + 1) 0 0 ↔
      Stops s n (i * 32 + d) := by
  rw [and_eq_zero_iff hi hd, countFree_iff hn]
  rfl

/-- A word that is full has no block to stop at. -/
theorem not_stops_of_full (hn : n ≠ 0)
    (h : s.mem.load32 (s.memoryMap + 4 * i) = 0xFFFFFFFF) (hs : start.toNat / 32 = i.toNat) : ¬ Stops s n start := by
  rintro ⟨-, hfree⟩
  have hclear := hfree start (inRun_self (Nat.pos_of_ne_zero fun e => hn (BitVec.eq_of_toNat_eq e)))
  have hones : ∀ j < 32, (0xFFFFFFFF : Word).getLsbD j = true := by decide
  rw [bit, Mem.bit, wordAt_block hs, h, hones _ (Nat.mod_lt _ (by decide))] at hclear
  cases hclear

/-! ## The first of the blocks -/

/-- The first block from `lo` on and below `hi` that the search stops at, or nothing. -/
def FirstStop (s : Phys) (n : Word) (lo hi : Nat) : Option Word → Prop
  | none => ∀ start : Word, lo ≤ start.toNat → start.toNat < hi → ¬ Stops s n start
  | some start => lo ≤ start.toNat ∧ start.toNat < hi ∧ Stops s n start ∧
      ∀ start' : Word, lo ≤ start'.toNat → start'.toNat < start.toNat → ¬ Stops s n start'

/-- Blocks before are passed over. -/
theorem FirstStop.cons {lo mid hi : Nat} {r : Option Word} (hle : lo ≤ mid)
    (hno : ∀ start : Word, lo ≤ start.toNat → start.toNat < mid → ¬ Stops s n start)
    (h : FirstStop s n mid hi r) :
    FirstStop s n lo hi r := by
  have hbefore : ∀ start : Word, lo ≤ start.toNat → (mid ≤ start.toNat → ¬ Stops s n start) →
    ¬ Stops s n start := by
    intro start h1 h2
    rcases Nat.lt_or_ge start.toNat mid with hlt | hge
    · exact hno start h1 hlt
    · exact h2 hge
  cases r with
  | none => exact fun start h1 h2 => hbefore start h1 fun hm => h start hm h2
  | some start =>
    obtain ⟨h1, h2, h3, h4⟩ := h
    exact ⟨hle.trans h1, h2, h3, fun start' h1' h2' => hbefore start' h1' fun hm => h4 start' hm h2'⟩

/-- The loop over `j`. -/
theorem scanWord_first (hn : n ≠ 0) (hi : i.toNat < 2 ^ 27) (hj : j.toNat + k = 32) :
    FirstStop s n (32 * i.toNat + j.toNat) (32 * i.toNat + 32) (scanWord s n i k j) := by
  induction k generalizing j with
  | zero =>
    intro start h1 h2
    omega
  | succ k ih =>
    have hd : j.toNat < 32 := by omega
    have e := toNat_block hi hd
    have hnext : (j + 1).toNat = j.toNat + 1 := by
      rw [BitVec.toNat_add, show (1 : Word).toNat = 1 from rfl]
      omega
    rw [scanWord]
    split
    · rename_i h
      refine ⟨e.ge, by omega, (stops_iff hn hi hd).mp h, fun start' h1 h2 => ?_⟩
      omega
    · rename_i h
      have hrest := ih (j := j + 1) (by omega)
      rw [hnext] at hrest
      apply hrest.cons (by omega)
      intro start h1 h2
      obtain rfl : start = i * 32 + j := BitVec.eq_of_toNat_eq (by omega)
      exact mt (stops_iff hn hi hd).mpr h

/-- The loop over `i`. -/
theorem scanMap_first (hn : n ≠ 0) (hk : i.toNat + k ≤ 2 ^ 27) :
    FirstStop s n (32 * i.toNat) (32 * (i.toNat + k)) (scanMap s n k i) := by
  induction k generalizing i with
  | zero =>
    intro start h1 h2
    omega
  | succ k ih =>
    have hnext : (i + 1).toNat = i.toNat + 1 := by
      rw [BitVec.toNat_add, show (1 : Word).toNat = 1 from rfl]
      omega
    have hrest := ih (i := i + 1) (by omega)
    rw [hnext, show i.toNat + 1 + k = i.toNat + (k + 1) by omega] at hrest
    rw [scanMap]
    split
    · have hword := scanWord_first (s := s) (j := 0) (k := 32) hn (by omega : i.toNat < 2 ^ 27) rfl
      cases hw : scanWord s n i 32 0 with
      | none =>
        rw [hw] at hword
        exact hrest.cons (by omega) fun start h1 h2 => hword start h1 (by omega)
      | some start =>
        rw [hw] at hword
        obtain ⟨h1, h2, h3⟩ := hword
        exact ⟨h1, by omega, h3⟩
    · rename_i hfull
      apply hrest.cons (by omega)
      intro start h1 h2
      exact not_stops_of_full hn (not_not.mp hfull) (by omega)

/-- What is returned is the first run that begins in a full word of the map, other than the first word. -/
theorem findFirstFreeBlocks_first (hn : n ≠ 0) : ∃ r : Option Word, findFirstFreeBlocks s n = r.getD (-1) ∧
    FirstStop s n 32 (32 * (s.maxBlocks.toNat / 32)) r := by
  have e : (s.maxBlocks / 32).toNat = s.maxBlocks.toNat / 32 := BitVec.toNat_udiv
  have hlt := s.maxBlocks.isLt
  have h := scanMap_first (s := s) (i := 1) (k := (s.maxBlocks / 32).toNat - 1) hn (by
    rw [show (1 : Word).toNat = 1 from rfl]
    omega)
  rw [show (1 : Word).toNat = 1 from rfl, e, Nat.mul_one] at h
  refine ⟨_, if_neg hn, ?_⟩
  rw [e]
  rcases Nat.eq_zero_or_pos (s.maxBlocks.toNat / 32) with h0 | hpos
  · rw [h0] at h ⊢
    intro start h1 h2
    omega
  · rwa [show 1 + (s.maxBlocks.toNat / 32 - 1) = s.maxBlocks.toNat / 32 by omega] at h

/-! ## The first run that fits -/

/-- The blocks of a run that does not go over the end are those of a run that fits. -/
theorem fits_iff : Fits s n start.toNat ↔
    32 ≤ start.toNat ∧ start.toNat + n.toNat ≤ s.maxBlocks.toNat ∧
      ∀ b, InRun start n.toNat b → bit s b = false := by
  have hlt := s.maxBlocks.isLt
  constructor
  · intro F
    have hrun : ∀ b, InRun start n.toNat b → bit s b = false := by
      intro b hb
      have hb := (inRun_iff_lt (F.last.trans hlt.le)).mp hb
      exact F.free b hb.1 hb.2
    exact ⟨F.first, F.last, hrun⟩
  · rintro ⟨h1, h2, h3⟩
    refine ⟨h1, h2, fun b hb hb' => h3 b ?_⟩
    exact (inRun_iff_lt (h2.trans hlt.le)).mpr ⟨hb, hb'⟩

theorem found_iff : Found s n start ↔
    32 ≤ start.toNat ∧ start.toNat < 32 * (s.maxBlocks.toNat / 32) ∧ Stops s n start :=
  ⟨fun F => ⟨F.first, F.below, F.passes, F.free⟩, fun ⟨h1, h2, h3, h4⟩ => ⟨h1, h2, h3, h4⟩⟩

theorem toNat_of_toInt (h : start.toInt = k) : start.toNat = k ∧ k < 2 ^ 31 := by
  have hlt := start.isLt
  rw [BitVec.toInt_eq_toNat_cond] at h
  split at h <;> omega

theorem ne_neg_one_of_found (F : Found s n start) : start ≠ -1 := by
  rintro rfl
  have hlt := s.maxBlocks.isLt
  have := F.below
  rw [show (-1 : Word).toNat = 2 ^ 32 - 1 from rfl] at this
  omega

/-- What is returned is the first place that the search accepts, or -1. -/
theorem findFirstFreeBlocks_cases (hn : n ≠ 0) :
    (Found s n (findFirstFreeBlocks s n) ∧
        ∀ start, Found s n start → (findFirstFreeBlocks s n).toNat ≤ start.toNat) ∨
      findFirstFreeBlocks s n = -1 ∧ ∀ start, ¬ Found s n start := by
  obtain ⟨r, hr, hfirst⟩ := findFirstFreeBlocks_first (s := s) hn
  rw [hr]
  cases r with
  | none =>
    refine .inr ⟨rfl, fun start F => ?_⟩
    obtain ⟨h1, h2, h3⟩ := found_iff.mp F
    exact hfirst start h1 h2 h3
  | some start =>
    obtain ⟨h1, h2, h3, hbefore⟩ := hfirst
    refine .inl ⟨found_iff.mpr ⟨h1, h2, h3⟩, fun start' F => ?_⟩
    obtain ⟨h1', -, h3'⟩ := found_iff.mp F
    by_contra hlt
    exact hbefore start' h1' (not_le.mp hlt) h3'

/-- A first run that is found is a place that the search accepts. -/
theorem FirstFit.found (H : FirstFit s n) (hn : n ≠ 0) (hk : IsLeast {k | Fits s n k} k) :
    ∃ start, Found s n start ∧ start.toNat = k ∧ k < 2 ^ 31 := by
  have hret := H.1 k hk
  rcases findFirstFreeBlocks_cases (s := s) hn with ⟨F, -⟩ | ⟨h, -⟩
  · exact ⟨_, F, toNat_of_toInt hret⟩
  · rw [h, show (-1 : Word).toInt = -1 from rfl] at hret
    omega

/-- A first run that the search accepts is returned. -/
theorem Searched.returned (S : Searched s n) (hn : n ≠ 0) (hk : IsLeast {k | Fits s n k} k) :
    (findFirstFreeBlocks s n).toInt = k := by
  have hlt := S.signed k hk
  have e : (BitVec.ofNat 32 k).toNat = k := by
    rw [BitVec.toNat_ofNat]
    omega
  have hfits : Fits s n (BitVec.ofNat 32 k).toNat := e.symm ▸ hk.1
  obtain ⟨h1, h2, hfree⟩ := fits_iff.mp hfits
  have hfound : Found s n (BitVec.ofNat 32 k) :=
    found_iff.mpr ⟨h1, e.symm ▸ S.word k hk, S.passes k hk, hfree⟩
  rcases findFirstFreeBlocks_cases (s := s) hn with ⟨F, hfirst⟩ | ⟨-, hno⟩
  · have hle := hfirst _ hfound
    -- it does not go over the end, as the first run does not
    have hstart : Fits s n (findFirstFreeBlocks s n).toNat := fits_iff.mpr ⟨F.first, by omega, F.free⟩
    have hge : k ≤ (findFirstFreeBlocks s n).toNat := hk.2 hstart
    rw [BitVec.toInt_eq_toNat_of_lt (by omega)]
    omega
  · exact absurd hfound (hno _)

/-- The first run is found if, and only if, it begins where the search looks, and no other run is taken for one. -/
theorem firstFit_iff (s : Phys) {n : Word} (hn : n ≠ 0) : FirstFit s n ↔ Searched s n := by
  constructor
  · intro H
    refine ⟨fun k hk => ?_, fun k hk => ?_, fun k hk => ?_, fun hno start F => ?_⟩
    · obtain ⟨start, F, rfl, -⟩ := H.found hn hk
      exact F.below
    · obtain ⟨start, F, rfl, -⟩ := H.found hn hk
      rw [BitVec.ofNat_toNat, BitVec.setWidth_eq]
      exact F.passes
    · obtain ⟨start, -, -, hlt⟩ := H.found hn hk
      exact hlt
    · rcases findFirstFreeBlocks_cases (s := s) hn with ⟨F', -⟩ | ⟨-, hnone⟩
      · exact ne_neg_one_of_found F' (H.2 hno)
      · exact hnone start F
  · intro S
    refine ⟨fun k hk => S.returned hn hk, fun hno => ?_⟩
    rcases findFirstFreeBlocks_cases (s := s) hn with ⟨F, -⟩ | ⟨h, -⟩
    · exact absurd F (S.past hno _)
    · exact h

end

/-- 64 blocks, all of them free. -/
def allFree : Phys := ⟨fun _ => 0, 0, 64, 0⟩

/-- 96 blocks, of which 36 to 39 are in use. -/
def fourUsed : Phys := forBlocks setBlock ⟨fun _ => 0, 0, 96, 0⟩ 36 4

theorem bit_fourUsed (b : Word) : bit fourUsed b = decide (InRun 36 4 b) := by
  rw [fourUsed, bit_forBlocks_set (fun _ _ _ => bit_setBlock) (by decide)]
  simp [bit, Mem.bit, Mem.load32]

theorem free_fourUsed {b : Word} : bit fourUsed b = false ↔ b.toNat < 36 ∨ 40 ≤ b.toNat := by
  rw [bit_fourUsed, decide_eq_false_iff_not, InRun]
  bv_omega

/-- The first run of 26 blocks begins at block 40, and goes over into the next word of the map. -/
theorem isLeast_fourUsed : IsLeast {k | Fits fourUsed 26 k} 40 := by
  refine ⟨⟨by decide, by decide, fun b h _ => free_fourUsed.mpr (.inr h)⟩, fun k F => ?_⟩
  by_contra hk
  -- a run that begins before block 40 holds block 39
  have := free_fourUsed.mp (F.free 39 (by have := F.first; bv_omega) (by have := F.first; bv_omega))
  bv_omega

theorem firstFit_fourUsed : FirstFit fourUsed 26 := by
  apply (firstFit_iff fourUsed (by decide)).mpr
  have key : ∀ k, IsLeast {k | Fits fourUsed 26 k} k → k = 40 := fun k hk => hk.unique isLeast_fourUsed
  refine ⟨fun k hk => ?_, fun k hk b hb hj => ?_, fun k hk => ?_,
    fun hno => absurd ⟨40, isLeast_fourUsed.1⟩ hno⟩
  · rw [key k hk]
    decide
  · -- the bit of 40 % 32 is that of block 35
    rw [key k hk] at hb hj
    have h3 : 3 = b.toNat % 32 := of_decide_eq_true ((Nat.testBit_two_pow (n := 3) ..).symm.trans hj)
    refine free_fourUsed.mpr (.inl ?_)
    change b.toNat / 32 = 1 at hb
    omega
  · rw [key k hk]
    decide

/-- All but block 32 are free: block 34 is found, and not block 33. -/
theorem not_firstFit : ¬ ∀ (s : Phys) (n : Word), n ≠ 0 → FirstFit s n := by
  intro H
  have hleast : IsLeast {k | Fits (setBlock allFree 32) 1 k} 33 := by
    refine ⟨⟨by decide, by decide, fun b h1 h2 => ?_⟩, fun k F => ?_⟩
    · obtain rfl : b = 33 := BitVec.eq_of_toNat_eq (by
        rw [show (1 : Word).toNat = 1 from rfl] at h2
        rw [show (33 : Word).toNat = 33 from rfl]
        omega)
      decide
    · have h32 : k ≠ 32 := by
        rintro rfl
        exact absurd (F.free 32 (by decide) (by decide)) (by decide)
      have := F.first
      omega
  have hret := (H (setBlock allFree 32) 1 (by decide)).1 33 hleast
  exact absurd hret (by decide)

end AlexOS.Physical
