import AlexOS.Lib.Mem
import Mathlib.Data.List.GetD

/-!
# The memory map of the bootloader

`Memory_detect`, in `bootloader/stage2/memdetect.c`, and `x86_E820GetNextBlock`,
in `x86.asm`. The BIOS gives one reply after another (`Reply`); it is asked for
blocks until one fails, or has continuation id 0. The loop tests the id before
it stores the block that came with it, so that the last block is left out, and
does not ask again after a block of length 0, so that it goes on forever
(`detectLoop_empty`). The map is complete iff the last block, and no other, is
empty, and there are at most 256 (`detects_iff`). The `printf` is left out.
-/

namespace AlexOS.Stage2

structure E820MemoryBlock where
  base : BitVec 64
  length : BitVec 64
  type : Word
  acpi : Word

structure MemoryRegion where
  begin : BitVec 64
  length : BitVec 64
  type : Word
  acpi : Word
deriving DecidableEq

def E820Signature : Word := 0x534D4150
def MAX_REGION : Nat := 256

/-- What `int 0x15` leaves in the registers, and in the buffer: it need not write the last word. -/
structure Reply where
  carry : Bool
  eax : Word
  ebx : Word
  ecx : Word
  base : BitVec 64
  length : BitVec 64
  type : Word
  acpi : Option Word

/-- The buffer. The last word is set to 1 before. -/
def Reply.block (r : Reply) : E820MemoryBlock := ⟨r.base, r.length, r.type, r.acpi.getD 1⟩

/-- The variables of `Memory_detect`, how often the BIOS was asked, and what was written to the
entries of `g_MemRegions`, and past them. -/
structure Detection where
  calls : Nat
  ret : Int
  block : E820MemoryBlock
  continuationId : Word
  memRegions : Nat → Option MemoryRegion
  memRegionsCount : Nat

/-- The return code is the size of the block, or -1, and then the continuation id is kept. -/
def x86E820GetNextBlock (replies : Nat → Reply) (s : Detection) : Detection :=
  let r := replies s.calls
  if r.carry ∨ r.eax ≠ E820Signature then { s with calls := s.calls + 1, ret := -1, block := r.block }
  else { s with calls := s.calls + 1, ret := r.ecx.toInt, block := r.block, continuationId := r.ebx }

def regionOf (b : E820MemoryBlock) : MemoryRegion := ⟨b.base, b.length, b.type, b.acpi⟩

/-- The block becomes the next region. -/
def Detection.store (s : Detection) : Detection where
  __ := s
  memRegions := Function.update s.memRegions s.memRegionsCount (some (regionOf s.block))
  memRegionsCount := s.memRegionsCount + 1

/-- The loop, for the given number of rounds. -/
def detectLoop (replies : Nat → Reply) : Nat → Detection → Option Detection
  | 0, s => if s.ret > 0 ∧ s.continuationId ≠ 0 then none else some s
  | n + 1, s =>
    if s.ret > 0 ∧ s.continuationId ≠ 0 then
      if s.block.length = 0 then detectLoop replies n s
      else detectLoop replies n (x86E820GetNextBlock replies s.store)
    else some s

/-- No region is written before. -/
def Detection.init : Detection := ⟨0, 0, ⟨0, 0, 0, 0⟩, 0, fun _ => none, 0⟩

/-- What is written to `g_MemRegions`, and the region count. -/
def memoryDetect (replies : Nat → Reply) (fuel : Nat) : Option ((Nat → Option MemoryRegion) × Nat) :=
  (detectLoop replies fuel (x86E820GetNextBlock replies .init)).map fun s => (s.memRegions, s.memRegionsCount)

/-! ## The answers -/

/-- The reply has a block. -/
def Reply.Success (r : Reply) : Prop := ¬ r.carry ∧ r.eax = E820Signature ∧ 0 < r.ecx.toInt

instance (r : Reply) : Decidable r.Success := inferInstanceAs (Decidable (_ ∧ _))

/-- Replies up to number `n` are the answers: the ones before have a block and say that there are more, and this one
fails, or has the last block. -/
structure Answers (replies : Nat → Reply) (n : Nat) : Prop where
  more : ∀ i < n, (replies i).Success ∧ (replies i).ebx ≠ 0
  last : (replies n).Success → (replies n).ebx = 0

/-- The blocks that are answered. -/
def answered (replies : Nat → Reply) (n : Nat) : List E820MemoryBlock :=
  (List.range n).map (fun i => (replies i).block) ++ if (replies n).Success then [(replies n).block] else []

/-- The regions are the blocks that are not empty. -/
def regionsOf (blocks : List E820MemoryBlock) : List MemoryRegion :=
  (blocks.filter fun b => b.length ≠ 0).map regionOf

/-- The detection ends, and these are the regions, all of them in the array. -/
structure DetectsAll (replies : Nat → Reply) (n fuel : Nat) (regions : Nat → Option MemoryRegion) (count : Nat) :
    Prop where
  ends : memoryDetect replies fuel = some (regions, count)
  stored : ∀ i, regions i = (regionsOf (answered replies n))[i]?
  bound : ∀ i, MAX_REGION ≤ i → regions i = none
  count : count = (regionsOf (answered replies n)).length

/-- Every region is recorded, and the detection stops. -/
def Detects (replies : Nat → Reply) (n : Nat) : Prop :=
  ∃ fuel regions count, DetectsAll replies n fuel regions count

section

variable {replies : Nat → Reply} {i j m n f f' : Nat} {s s' a b : Detection} {L : List MemoryRegion}

/-- Reply `i` is the last, and the regions are those of the list. -/
structure Fetched (replies : Nat → Reply) (i : Nat) (L : List MemoryRegion) (s : Detection) : Prop where
  calls : s.calls = i + 1
  block : s.block = (replies i).block
  regions : s.memRegions = fun k => L[k]?
  count : s.memRegionsCount = L.length
  goesOn : s.ret > 0 ∧ s.continuationId ≠ 0 ↔ (replies i).Success ∧ (replies i).ebx ≠ 0

theorem fetched_next (hc : s.calls = i) (hr : s.memRegions = fun k => L[k]?) (hn : s.memRegionsCount = L.length) :
    Fetched replies i L (x86E820GetNextBlock replies s) := by
  subst hc
  by_cases h : (replies s.calls).carry ∨ (replies s.calls).eax ≠ E820Signature
  · have hfail : ¬ (replies s.calls).Success := fun hs => h.elim hs.1 fun h => h hs.2.1
    rw [x86E820GetNextBlock, if_pos h]
    exact ⟨rfl, rfl, hr, hn, iff_of_false (fun h => absurd h.1 (Int.negSucc_lt_zero 0).not_gt) fun h => hfail h.1⟩
  · obtain ⟨hcarry, hsig⟩ := not_or.mp h
    rw [x86E820GetNextBlock, if_neg h]
    exact ⟨rfl, rfl, hr, hn,
      and_congr_left fun _ => ⟨fun h => ⟨hcarry, not_not.mp hsig, h⟩, fun h => h.2.2⟩⟩

theorem fetched_init : Fetched replies 0 [] (x86E820GetNextBlock replies .init) := fetched_next rfl rfl rfl

/-- A list with one more entry. -/
theorem update_getElem? {α : Type} (L : List α) (x : α) :
    Function.update (fun k => L[k]?) L.length (some x) = fun k => (L ++ [x])[k]? := by
  funext k
  rcases lt_trichotomy k L.length with h | rfl | h
  · rw [Function.update_of_ne h.ne, List.getElem?_append_left h]
  · rw [Function.update_self, List.getElem?_concat_length]
  · rw [Function.update_of_ne h.ne', List.getElem?_eq_none h.le, List.getElem?_eq_none]
    rw [List.length_append, List.length_singleton]
    exact h

/-- The next reply, when the block of this one is stored. -/
theorem Fetched.next (F : Fetched replies i L s) :
    Fetched replies (i + 1) (L ++ [regionOf (replies i).block]) (x86E820GetNextBlock replies s.store) := by
  refine fetched_next F.calls ?_ ?_
  · change Function.update s.memRegions s.memRegionsCount (some (regionOf s.block)) = _
    rw [F.regions, F.count, F.block, update_getElem?]
  · rw [Detection.store, F.count, List.length_append, List.length_singleton]

/-! ## The loop -/

/-- It stops at the last reply. -/
theorem detectLoop_stop (F : Fetched replies i L s) (h : ¬ ((replies i).Success ∧ (replies i).ebx ≠ 0)) (f : Nat) :
    detectLoop replies f s = some s := by
  rw [← F.goesOn] at h
  cases f with
  | zero => exact if_neg h
  | succ f => exact if_neg h

theorem detectLoop_goesOn (F : Fetched replies i L s) (h : (replies i).Success ∧ (replies i).ebx ≠ 0) (f : Nat) :
    detectLoop replies (f + 1) s = if (replies i).length = 0 then detectLoop replies f s
      else detectLoop replies f (x86E820GetNextBlock replies s.store) := by
  rw [detectLoop, if_pos (F.goesOn.mpr h), F.block]
  rfl

/-- A block of length 0 that is not the last: the loop does not end. -/
theorem detectLoop_empty (A : Answers replies n) (F : Fetched replies i L s) (hij : i ≤ j) (hj : j < n)
    (h0 : (replies j).length = 0) (f : Nat) : detectLoop replies f s = none := by
  have hmore := A.more i (hij.trans_lt hj)
  induction f generalizing i L s with
  | zero => exact if_pos (F.goesOn.mpr hmore)
  | succ f ih =>
    rw [detectLoop_goesOn F hmore]
    split
    · exact ih F hij hmore
    · rename_i hi
      have hlt : i < j := lt_of_le_of_ne hij fun e => hi (e ▸ h0)
      exact ih F.next hlt (A.more _ (Nat.lt_of_le_of_lt hlt hj))

/-- If there is none, the blocks before the last are stored. -/
theorem detectLoop_full (A : Answers replies (i + m)) (F : Fetched replies i L s)
    (h : ∀ j, i ≤ j → j < i + m → (replies j).length ≠ 0) : ∃ s', detectLoop replies m s = some s' ∧
      Fetched replies (i + m) (L ++ (List.range' i m).map fun j => regionOf (replies j).block) s' := by
  induction m generalizing i L s with
  | zero => exact ⟨s, detectLoop_stop F (fun hs => hs.2 (A.last hs.1)) 0, by simpa using F⟩
  | succ m ih =>
    rw [Nat.add_comm m 1, ← Nat.add_assoc] at A h ⊢
    obtain ⟨s', e, F'⟩ := ih A F.next fun j hij hj => h j (Nat.le_of_succ_le hij) hj
    refine ⟨s', ?_, ?_⟩
    · rw [Nat.add_comm 1 m, detectLoop_goesOn F (A.more i (by omega)), if_neg (h i (Nat.le_refl i) (by omega)), e]
    · rwa [Nat.add_comm 1 m, List.range'_succ, List.map_cons, List.append_cons]

/-- Two runs that end, end in the same state. -/
theorem detectLoop_unique (ha : detectLoop replies f s = some a) (hb : detectLoop replies f' s = some b) : a = b := by
  induction f generalizing f' s with
  | zero =>
    rw [detectLoop] at ha
    split at ha
    · cases ha
    · rename_i hstop
      cases f' <;> rw [detectLoop, if_neg hstop] at hb <;> exact Option.some.inj (ha.symm.trans hb)
  | succ f ih =>
    rw [detectLoop] at ha
    cases f' with
    | zero =>
      rw [detectLoop] at hb
      split at hb
      · cases hb
      · rename_i hstop
        rw [if_neg hstop] at ha
        exact Option.some.inj (ha.symm.trans hb)
    | succ f' =>
      rw [detectLoop] at hb
      split at hb
      · rename_i hgo
        rw [if_pos hgo] at ha
        split at hb
        · rename_i h0
          rw [if_pos h0] at ha
          exact ih ha hb
        · rename_i h0
          rw [if_neg h0] at ha
          exact ih ha hb
      · rename_i hstop
        rw [if_neg hstop] at ha
        exact Option.some.inj (ha.symm.trans hb)

/-! ## The map -/

/-- If no block before the last is empty, these are the regions to record. -/
theorem regionsOf_answered (h : ∀ j < n, (replies j).length ≠ 0) : regionsOf (answered replies n) =
    (List.range n).map (fun j => regionOf (replies j).block) ++
      if (replies n).Success ∧ (replies n).length ≠ 0 then [regionOf (replies n).block] else [] := by
  have hfirst : ((List.range n).map fun j => (replies j).block).filter (fun b => b.length ≠ 0) =
      (List.range n).map fun j => (replies j).block := by
    refine List.filter_eq_self.mpr fun b hb => ?_
    obtain ⟨j, hj, rfl⟩ := List.mem_map.mp hb
    exact decide_eq_true (h j (List.mem_range.mp hj))
  rw [answered, regionsOf, List.filter_append, List.map_append, hfirst, List.map_map]
  congr 1
  have hlength : (replies n).block.length = (replies n).length := rfl
  by_cases hs : (replies n).Success
  · by_cases h0 : (replies n).length = 0
    · rw [if_pos hs, if_neg fun h => h.2 h0]
      simp [hlength, h0]
    · rw [if_pos hs, if_pos ⟨hs, h0⟩, List.filter_eq_self.mpr]
      · rfl
      · intro b hb
        rw [List.mem_singleton.mp hb]
        exact decide_eq_true h0
  · rw [if_neg hs, if_neg fun h => hs h.1]
    rfl

/-- The map is complete iff no block is empty but the last, that one is if there is one, and the array has room. -/
theorem detects_iff (A : Answers replies n) : Detects replies n ↔
    (∀ i < n, (replies i).length ≠ 0) ∧ ((replies n).Success → (replies n).length = 0) ∧
      n ≤ MAX_REGION := by
  have hrun : (∀ i < n, (replies i).length ≠ 0) →
    ∃ s', detectLoop replies n (x86E820GetNextBlock replies .init) = some s' ∧
      Fetched replies n ((List.range n).map fun j => regionOf (replies j).block) s' := fun h => by
    have F : Fetched replies 0 [] _ := fetched_init
    have h' := detectLoop_full (m := n) (by rwa [Nat.zero_add]) F fun j _ hj => h j (by omega)
    rwa [Nat.zero_add, List.nil_append, ← List.range_eq_range'] at h'
  constructor
  · rintro ⟨fuel, regions, count, D⟩
    obtain ⟨s, hs, e⟩ := Option.map_eq_some_iff.mp D.ends
    have hne : ∀ i < n, (replies i).length ≠ 0 := fun i hi h0 => by
      rw [detectLoop_empty A fetched_init (Nat.zero_le i) hi h0] at hs
      cases hs
    obtain ⟨s', hs', F⟩ := hrun hne
    cases detectLoop_unique hs hs'
    cases e
    have hlen := D.count
    rw [F.count, regionsOf_answered hne, List.length_append, List.length_map, List.length_range] at hlen
    refine ⟨hne, fun hsucc => ?_, ?_⟩
    · by_contra h0
      rw [if_pos ⟨hsucc, h0⟩, List.length_singleton] at hlen
      omega
    · have hbound := D.bound MAX_REGION (Nat.le_refl _)
      rw [F.regions] at hbound
      simpa using hbound
  · rintro ⟨hne, hlast, hle⟩
    obtain ⟨s, hs, F⟩ := hrun hne
    have hall : regionsOf (answered replies n) = (List.range n).map fun j => regionOf (replies j).block := by
      rw [regionsOf_answered hne, if_neg fun h => h.2 (hlast h.1), List.append_nil]
    refine ⟨n, s.memRegions, s.memRegionsCount, ?_, fun i => ?_, fun i hi => ?_, ?_⟩
    · rw [memoryDetect, hs]
      rfl
    · rw [F.regions, hall]
    · rw [F.regions]
      simpa using hle.trans hi
    · rw [F.count, hall]

/-- Two regions, and then a failure. -/
def failsAtEnd : Nat → Reply
  | 0 => ⟨false, E820Signature, 1, 20, 0, 0x9FC00, 1, none⟩
  | 1 => ⟨false, E820Signature, 2, 24, 0x100000, 0x7F00000, 1, some 1⟩
  | _ => ⟨true, 0, 0, 0, 0, 0, 0, none⟩

theorem detects_failsAtEnd : Detects failsAtEnd 2 := by
  have A : Answers failsAtEnd 2 := ⟨by decide, fun h => absurd h (by decide)⟩
  exact (detects_iff A).mpr ⟨by decide, fun h => absurd h (by decide), by decide⟩

/-- Two regions, the second with continuation id 0. -/
def twoRegions : Nat → Reply
  | 0 => ⟨false, E820Signature, 1, 20, 0, 0x9FC00, 1, none⟩
  | _ => ⟨false, E820Signature, 0, 20, 0x100000, 0x7F00000, 1, none⟩

/-- The second is left out. -/
theorem not_detects : ¬ ∀ replies n, Answers replies n → Detects replies n := by
  intro H
  have A : Answers twoRegions 1 := ⟨fun i hi => by
    rw [Nat.lt_one_iff.mp hi]
    decide, fun _ => rfl⟩
  obtain ⟨fuel, regions, count, D⟩ := H twoRegions 1 A
  obtain ⟨s, hs, e⟩ := Option.map_eq_some_iff.mp D.ends
  have hrun : detectLoop twoRegions 1 (x86E820GetNextBlock twoRegions .init) = some _ := rfl
  cases detectLoop_unique hs hrun
  cases e
  have hcount := D.count
  revert hcount
  decide

end

end AlexOS.Stage2
