import AlexOS.Virtual.Reserved
import AlexOS.Lib.Region

/-!
# Memory through the page tables

The processor translates an address by the entry of its page (`space`). If the
page is not present there is a page fault, from which the kernel does not
return: a load or a store that faults has no result. What the processor keeps
of earlier translations is left out.

Pages that are mapped to frames of their own, none of them the directory or a
table, are `Private`. A store to such a page changes what is at its address, and
nothing else of these pages (`Private.storeBytes_ok`). If the frames are in spare
blocks, the pages are `Live`, and the bitmap is as before too
(`Live.storeBytes_ok`).
-/

namespace AlexOS.Virtual

open Physical

instance (s : Paging) (v : Word) : Decidable (present s v) := inferInstanceAs (Decidable (isPresent _))

/-- What the processor sees. -/
def space (s : Paging) : Mem := fun v => s.mem (getPhysAddr s v)

/-- The pages of the `n` bytes from `v` on are present. -/
def Accessible (s : Paging) (v : Addr) (n : Nat) : Prop := ∀ i < n, present s (v + BitVec.ofNat 32 i)

instance (s : Paging) (v : Addr) (n : Nat) : Decidable (Accessible s v n) :=
  inferInstanceAs (Decidable (∀ i < n, _))

def load32 (s : Paging) (v : Addr) : Option Word :=
  if Accessible s v 4 then some ((space s).load32 v) else none

/-- `*v = b`, where the page is present. -/
def store8 (s : Paging) (v : Addr) (b : Byte) : Paging := s.withMem (s.mem.store8 (getPhysAddr s v) b)

/-- Bytes are stored, one after the other, from `v` on. -/
def storeBytes : Paging → Addr → List Byte → Option Paging
  | s, _, [] => some s
  | s, v, b :: bytes => if present s v then storeBytes (store8 s v b) (v + 1) bytes else none

/-- The pages `P` are mapped to frames of their own, which are not those of tables. -/
structure Private (s : Paging) (P : Set Nat) : Prop where
  present : ∀ v, page v ∈ P → present s v
  notInUse : ∀ v, page v ∈ P → ∀ t, InUse s t → blockOf t ≠ blockOf (frame (entryOf s v))
  apart : ∀ v v', page v ∈ P → page v' ∈ P → frame (entryOf s v) = frame (entryOf s v') → page v = page v'

/-- The page of `v` is mapped to a spare block. -/
structure Owned (s : Paging) (v : Addr) : Prop where
  present : present s v
  spare : Spare s (blockOf (frame (entryOf s v)))

/-- The pages `P` are mapped to spare blocks of their own. -/
structure Live (s : Paging) (P : Set Nat) : Prop where
  owned : ∀ v, page v ∈ P → Owned s v
  apart : ∀ v v', page v ∈ P → page v' ∈ P → frame (entryOf s v) = frame (entryOf s v') → page v = page v'

section

variable {s s' : Paging} {P Q : Set Nat} {a u v : Addr} {b : Byte} {bytes : List Byte}

/-! ## Translation -/

theorem entryOf_congr (s : Paging) (h : page u = page v) : entryOf s u = entryOf s v := by
  obtain ⟨h1, h2⟩ := page_eq_iff.mp h
  rw [entryOf, entryOf, getPage_eq, getPage_eq, h1, h2]

theorem isPresent_pde (h : present s v) : isPresent (pde s (PD_INDEX v)) := by
  by_contra hp
  rw [present, entryOf, if_neg hp] at h
  exact absurd h (by decide)

theorem getPhysAddr_eq (h : present s v) : getPhysAddr s v = frame (entryOf s v) + (v &&& 0xFFF) := by
  rw [entryOf, if_pos (isPresent_pde h)]
  rfl

theorem toNat_offset (v : Addr) : (v &&& 0xFFF).toNat = v.toNat % 4096 := by
  rw [BitVec.toNat_and, show (0xFFF : Word).toNat = 2 ^ 12 - 1 from rfl, Nat.and_two_pow_sub_one_eq_mod]

theorem toNat_getPhysAddr (h : present s v) :
    (getPhysAddr s v).toNat = (frame (entryOf s v)).toNat + v.toNat % 4096 := by
  have ha := aligned_frame (entryOf s v)
  have := (frame (entryOf s v)).isLt
  rw [Aligned] at ha
  rw [getPhysAddr_eq h, BitVec.toNat_add, toNat_offset]
  omega

theorem page_getPhysAddr (h : present s v) : page (getPhysAddr s v) = page (frame (entryOf s v)) := by
  have ha := aligned_frame (entryOf s v)
  rw [Aligned] at ha
  rw [page, page, toNat_getPhysAddr h]
  omega

theorem blockOf_getPhysAddr (h : present s v) :
    blockOf (getPhysAddr s v) = blockOf (frame (entryOf s v)) :=
  blockOf_eq_iff.mpr (page_getPhysAddr h)

/-- Translation is by the entry. -/
theorem getPhysAddr_congr (hs : present s v) (h : entryOf s' v = entryOf s v) :
    getPhysAddr s' v = getPhysAddr s v := by
  rw [getPhysAddr_eq hs, getPhysAddr_eq (by rwa [present, h]), h]

theorem space_congr (hs : present s v) (h : entryOf s' v = entryOf s v)
    (hm : s'.mem (getPhysAddr s v) = s.mem (getPhysAddr s v)) : space s' v = space s v := by
  rw [space, getPhysAddr_congr hs h, hm]
  rfl

/-- The pages in use are none of the spare blocks. -/
theorem Spare.notInUse {c : Word} (h : Spare s c) {t : Addr} (ht : InUse s t) : blockOf t ≠ c := by
  rintro rfl
  rcases ht with rfl | ⟨i, hi, hp, rfl⟩
  · exact h.notInDir (inDir_self s)
  · exact h.notInTable ⟨i, hi, hp, rfl⟩

namespace Private

variable (V : Private s P)

include V

theorem mono (h : Q ⊆ P) : Private s Q :=
  ⟨fun v hv => V.present v (h hv), fun v hv => V.notInUse v (h hv),
    fun v v' hv hv' => V.apart v v' (h hv) (h hv')⟩

/-- Different addresses of these pages are at different places. -/
theorem getPhysAddr_ne (hu : page u ∈ P) (hv : page v ∈ P) (h : u ≠ v) :
    getPhysAddr s u ≠ getPhysAddr s v := by
  intro e
  have hpu := V.present u hu
  have hpv := V.present v hv
  have hpage := congrArg page e
  rw [page_getPhysAddr hpu, page_getPhysAddr hpv] at hpage
  have hframe := eq_of_page_eq (aligned_frame _) (aligned_frame _) hpage
  have hoff := congrArg BitVec.toNat e
  rw [toNat_getPhysAddr hpu, toNat_getPhysAddr hpv, hframe] at hoff
  have := V.apart u v hu hv hframe
  rw [page, page] at this
  exact h (BitVec.eq_of_toNat_eq (by omega))

/-- As long as the pages in use are as before. -/
theorem of_kept (K : Kept s s') : Private s' P := by
  refine ⟨fun v hv => ?_, fun v hv t ht => ?_, fun v v' hv hv' h => ?_⟩
  · rw [Virtual.present, K.entryOf_eq]
    exact V.present v hv
  · rw [K.entryOf_eq]
    exact V.notInUse v hv t (K.sameDir.inUse ht)
  · rw [K.entryOf_eq, K.entryOf_eq] at h
    exact V.apart v v' hv hv' h

end Private

namespace Live

variable (L : Live s P)

include L

theorem mono (h : Q ⊆ P) : Live s Q :=
  ⟨fun v hv => L.owned v (h hv), fun v v' hv hv' => L.apart v v' (h hv) (h hv')⟩

theorem toPrivate : Private s P :=
  ⟨fun v hv => (L.owned v hv).present, fun v hv _ ht => (L.owned v hv).spare.notInUse ht, L.apart⟩

theorem spare (hv : page v ∈ P) : Spare s (blockOf (getPhysAddr s v)) := by
  rw [blockOf_getPhysAddr (L.owned v hv).present]
  exact (L.owned v hv).spare

/-- As long as the entries are the same, and the spare blocks are spare. -/
theorem of_entries (he : ∀ v, page v ∈ P → entryOf s' v = entryOf s v)
    (hs : ∀ c, Spare s c → Spare s' c) : Live s' P := by
  refine ⟨fun v hv => ?_, fun v v' hv hv' h => ?_⟩
  · have O := L.owned v hv
    refine ⟨?_, ?_⟩
    · rw [present, he v hv]
      exact O.present
    · rw [he v hv]
      exact hs _ O.spare
  · rw [he v hv, he v' hv'] at h
    exact L.apart v v' hv hv' h

end Live

/-- One page. -/
theorem Live.single (hp : present s a) (hs : Spare s (blockOf (frame (entryOf s a)))) : Live s {page a} where
  owned v hv := by
    have e : entryOf s v = entryOf s a := entryOf_congr s hv
    refine ⟨?_, ?_⟩
    · rwa [Virtual.present, e]
    · rwa [e]
  apart v v' hv hv' _ := hv.trans hv'.symm

/-! ## Stores -/

/-- A word in another page. -/
theorem load32_store8 {m : Mem} (ha : a.toNat % 4 = 0) (h : page a ≠ page u) :
    (m.store8 u b).load32 a = m.load32 a := by
  refine Mem.load32_congr fun i hi => Mem.store8_apply fun e => h ?_
  have := Mem.toNat_add_of_aligned ha hi
  rw [← e, page, page, this]
  omega

/-- A store to a frame that is not in use. -/
theorem Tables.kept_store8 (T : Tables s) (h : ∀ t, InUse s t → blockOf t ≠ blockOf a) :
    Kept s (s.withMem (s.mem.store8 a b)) := by
  refine ⟨rfl, fun t ht i hi => ?_⟩
  have hal := T.aligned_inUse ht
  refine load32_store8 (slot_aligned hal hi) fun e => h t ht ?_
  rw [blockOf_eq_iff, ← page_slot hal hi, e]

/-- What stores to private pages do: no words outside their frames change. -/
structure Wrote (P : Set Nat) (s s' : Paging) (v : Addr) (bytes : List Byte) : Prop extends Kept s s' where
  same : Same s.phys s'.phys
  accessible : Accessible s v bytes.length
  space : ∀ u, page u ∈ P → space s' u = (space s).write v bytes u
  outside : ∀ a : Addr, a.toNat % 4 = 0 → (∀ u, page u ∈ P → blockOf a ≠ blockOf (frame (entryOf s u))) →
    s'.mem.load32 a = s.mem.load32 a

theorem Private.store8_ok (T : Tables s) (V : Private s P) (hv : page v ∈ P) :
    Kept s (store8 s v b) ∧ ∀ u, page u ∈ P → space (store8 s v b) u = (space s).store8 v b u := by
  have K : Kept s (store8 s v b) := T.kept_store8 fun t ht => by
    rw [blockOf_getPhysAddr (V.present v hv)]
    exact V.notInUse v hv t ht
  refine ⟨K, fun u hu => ?_⟩
  have hphys := getPhysAddr_congr (V.present u hu) (K.entryOf_eq u)
  have e : Virtual.space (store8 s v b) u = s.mem.store8 (getPhysAddr s v) b (getPhysAddr s u) :=
    congrArg (s.mem.store8 (getPhysAddr s v) b) hphys
  by_cases huv : u = v
  · rw [e, huv, Mem.store8_self, Mem.store8_self]
  · rw [e, Mem.store8_apply (V.getPhysAddr_ne hu hv huv), Mem.store8_apply huv]
    rfl

theorem add_one_ofNat (v : Addr) (i : Nat) : v + 1 + BitVec.ofNat 32 i = v + BitVec.ofNat 32 (i + 1) := by
  rw [Nat.add_comm i 1, BitVec.ofNat_add, ← BitVec.add_assoc]
  rfl

/-- Stores to private pages, as far as the pages are present. -/
theorem Private.storeBytes_ok (T : Tables s) (V : Private s P) (hlen : bytes.length ≤ 2 ^ 32)
    (hP : ∀ i < bytes.length, Virtual.present s (v + BitVec.ofNat 32 i) → page (v + BitVec.ofNat 32 i) ∈ P)
    (h : storeBytes s v bytes = some s') : Wrote P s s' v bytes := by
  induction bytes generalizing s v with
  | nil =>
    cases h
    exact ⟨⟨rfl, fun _ _ _ _ => rfl⟩, Same.refl _, fun i hi => absurd hi (Nat.not_lt_zero _), fun _ _ => rfl,
      fun _ _ _ => rfl⟩
  | cons b bytes ih =>
    rw [List.length_cons] at hlen hP
    rw [storeBytes] at h
    split at h
    case isFalse => cases h
    rename_i hv
    have hvP : page v ∈ P := by
      have := hP 0 (by omega)
      rw [BitVec.add_zero] at this
      exact this hv
    obtain ⟨K, hs⟩ := V.store8_ok (b := b) T hvP
    have W := ih (K.sameDir.tables T) (V.of_kept K) (by omega) (fun i hi hp => by
      rw [add_one_ofNat] at hp ⊢
      rw [Virtual.present, K.entryOf_eq] at hp
      exact hP (i + 1) (by omega) hp) h
    refine ⟨K.trans W.toKept, (⟨rfl, rfl⟩ : Same s.phys (store8 s v b).phys).trans W.same, fun i hi => ?_,
      fun u hu => ?_, fun a ha hout => ?_⟩
    · rcases Nat.eq_zero_or_pos i with rfl | hpos
      · rwa [BitVec.add_zero]
      · obtain ⟨i, rfl⟩ := Nat.exists_eq_add_of_le' hpos
        have := W.accessible i (by rw [List.length_cons] at hi; omega)
        rwa [add_one_ofNat, Virtual.present, K.entryOf_eq] at this
    · rw [W.space u hu, Mem.write_cons (by omega)]
      exact Mem.write_congr (hs u hu)
    · refine (W.outside a ha fun u hu => ?_).trans (load32_store8 ha fun e => hout v hvP ?_)
      · rw [K.entryOf_eq]
        exact hout u hu
      · rw [← blockOf_getPhysAddr hv, blockOf_eq_iff]
        exact e

/-- Stores to private pages do not fault. -/
theorem Private.storeBytes_some (T : Tables s) (V : Private s P)
    (hP : ∀ i < bytes.length, page (v + BitVec.ofNat 32 i) ∈ P) : ∃ s', storeBytes s v bytes = some s' := by
  induction bytes generalizing s v with
  | nil => exact ⟨s, rfl⟩
  | cons b bytes ih =>
    have hv : page v ∈ P := by
      have := hP 0 (Nat.succ_pos _)
      rwa [BitVec.add_zero] at this
    obtain ⟨K, -⟩ := V.store8_ok (b := b) T hv
    rw [storeBytes, if_pos (V.present v hv)]
    refine ih (K.sameDir.tables T) (V.of_kept K) fun i hi => ?_
    rw [add_one_ofNat]
    exact hP (i + 1) (Nat.succ_lt_succ hi)

/-- What stores to live pages do. -/
structure Stored (P : Set Nat) (s s' : Paging) (v : Addr) (bytes : List Byte) : Prop extends Grows s s',
    SameDir s s' where
  bits : ∀ c, c ≤ s.phys.maxBlocks → bit s'.phys c = bit s.phys c
  accessible : Accessible s v bytes.length
  entries : ∀ u, entryOf s' u = entryOf s u
  live : Live s' P
  space : ∀ u, page u ∈ P → space s' u = (space s).write v bytes u

/-- Stores to live pages, as far as the pages are present. -/
theorem Live.storeBytes_ok (L : Layout s) (V : Live s P) (hlen : bytes.length ≤ 2 ^ 32)
    (hP : ∀ i < bytes.length, Virtual.present s (v + BitVec.ofNat 32 i) → page (v + BitVec.ofNat 32 i) ∈ P)
    (h : storeBytes s v bytes = some s') : Stored P s s' v bytes := by
  have W := V.toPrivate.storeBytes_ok L.toTables hlen hP h
  have he := W.toKept.entryOf_eq
  have Q : Quiet NoBlock s s' := by
    refine ⟨W.toKept.sameDir, W.same, fun c hc => ?_⟩
    rw [NoBlock, false_or, bit, bit, W.same.memoryMap]
    refine Bool.eq_iff_iff.mp (bit_congr (W.outside _ (wordAt_aligned L.map c) fun u hu e => ?_))
    exact (V.owned u hu).spare.notInMap ⟨c, hc, e.symm⟩
  have g := Q.grows L
  exact ⟨g, Q.pde, fun c hc => Q.bit_eq hc, W.accessible, he, V.of_entries (fun u _ => he u) fun _ => g.spare,
    W.space⟩

/-- Stores to live pages do not fault. -/
theorem Live.storeBytes_some (L : Layout s) (V : Live s P)
    (hP : ∀ i < bytes.length, page (v + BitVec.ofNat 32 i) ∈ P) : ∃ s', storeBytes s v bytes = some s' :=
  V.toPrivate.storeBytes_some L.toTables hP

end

end AlexOS.Virtual
