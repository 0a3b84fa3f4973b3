import AlexOS.Virtual.Reserved

/-!
# Translation as a finite map

Sequences of `map_page` and `unmap_page` after boot, where `allocate_blocks`
returns fresh blocks. A call changes the entry of its own page only, and
`unmap_page` unmaps it. After `map_page`, the page translates to the frame that
was asked for exactly if `SET_FRAME` leaves nothing of the frame before
(`translation_iff`): bit 31 of the entry must be clear, or be set in the new
frame.
-/

namespace AlexOS.Virtual

open Physical

inductive MapCall
  | mapPage (p v : Word)
  | unmapPage (v : Word)

namespace MapCall

def exec (s : Paging) : MapCall → Paging
  | mapPage p v => (Virtual.mapPage s p v).2
  | unmapPage v => Virtual.unmapPage s v

/-- Addresses are those of pages, the allocator gives a fresh block, and only mapped pages are
unmapped. -/
def Allowed (s : Paging) : MapCall → Prop
  | mapPage p v => Aligned p ∧ Aligned v ∧ Fresh (InUse s) s.phys
  | unmapPage v => Aligned v ∧ present s v

/-- The page of the call. -/
def address : MapCall → Word
  | mapPage _ v => v
  | unmapPage v => v

/-- What a call is to do to its own page. -/
def Done (s : Paging) : MapCall → Prop
  | mapPage p v => (Virtual.mapPage s p v).1 = true →
      present (Virtual.mapPage s p v).2 v ∧
        ∀ k : Word, k.toNat < 4096 → getPhysAddr (Virtual.mapPage s p v).2 (v + k) = p + k
  | unmapPage v => ¬ present (Virtual.unmapPage s v) v

/-- Translation is a finite map: the call does its work, and other pages are as before. -/
def Correct (s : Paging) (call : MapCall) : Prop :=
  call.Done s ∧ ∀ v, page v ≠ page call.address →
    (present (call.exec s) v ↔ present s v) ∧
      frame (entryOf (call.exec s) v) = frame (entryOf s v)

/-- Bit 31 of the entry before is clear, or set in the new frame. -/
def Clean (s : Paging) : MapCall → Prop
  | mapPage p v => (entryOf s v).getLsbD 31 = true → p.getLsbD 31 = true
  | unmapPage _ => True

end MapCall

/-- The states of sequences of allowed calls. -/
inductive Mapped (s₀ : Paging) : Paging → Prop
  | init : Mapped s₀ s₀
  | step {s : Paging} (r : Mapped s₀ s) (call : MapCall) (h : call.Allowed s) :
      Mapped s₀ (call.exec s)

section

variable {s : Paging}

theorem Tables.exec_ok (T : Tables s) {call : MapCall} (h : call.Allowed s) :
    Tables (call.exec s) ∧ ∀ v, page v ≠ page call.address →
      entryOf (call.exec s) v = entryOf s v := by
  cases call with
  | mapPage p v =>
    obtain ⟨-, -, hF⟩ := h
    obtain ⟨T', ⟨-, -, he⟩ | ⟨-, -, he⟩⟩ := T.mapPage_ok hF p v
    · exact ⟨T', fun v' _ => he v'⟩
    · exact ⟨T', fun v' hne => (he v').trans (if_neg hne)⟩
  | unmapPage v =>
    obtain ⟨T', he⟩ := T.unmapPage_ok h.2
    exact ⟨T', fun v' hne => (he v').trans (if_neg hne)⟩

theorem Tables.mapped {s₀ : Paging} (T : Tables s₀) (r : Mapped s₀ s) : Tables s := by
  induction r with
  | init => exact T
  | step _ _ h ih => exact (ih.exec_ok h).1

/-- After `map_page`, the page translates to what its entry holds. -/
theorem Tables.mapPage_done (T : Tables s) {p v : Word} (h : (MapCall.mapPage p v).Allowed s) :
    (MapCall.mapPage p v).Done s ↔ (MapCall.mapPage p v).Clean s := by
  obtain ⟨hp, hv, hF⟩ := h
  obtain ⟨-, ⟨hr, ht, -⟩ | ⟨hr, ht, he⟩⟩ := T.mapPage_ok hF p v
  · have hf : ¬ (mapPage s p v).1 = true := by rw [hr]; decide
    refine ⟨fun _ h => ?_, fun _ h => absurd h hf⟩
    rw [entryOf, if_neg ht] at h
    exact absurd h (by decide)
  have hself : entryOf (mapPage s p v).2 v = mapEntry (entryOf s v) p := (he v).trans (if_pos rfl)
  have hpresent : present (mapPage s p v).2 v := by
    rw [present, hself]
    exact isPresent_mapEntry _ _
  have hk : ∀ k : Word, k.toNat < 4096 →
      getPhysAddr (mapPage s p v).2 (v + k) = frame (mapEntry (entryOf s v) p) + k := fun k hk => by
    rw [getPhysAddr_add ht hv hk, hself]
  constructor
  · intro hd
    obtain ⟨-, htr⟩ := hd hr
    have h0 := htr 0 (by decide)
    rw [hk 0 (by decide), add_zero, add_zero] at h0
    exact (frame_mapEntry_iff hp).mp h0
  · intro hc _
    refine ⟨hpresent, fun k hk' => ?_⟩
    rw [hk k hk', (frame_mapEntry_iff hp).mpr hc]

theorem Tables.unmapPage_done (T : Tables s) {v : Word} (h : (MapCall.unmapPage v).Allowed s) :
    (MapCall.unmapPage v).Done s := by
  obtain ⟨-, he⟩ := T.unmapPage_ok h.2
  rw [MapCall.Done, present, he v, if_pos rfl]
  exact not_isPresent_unmapEntry _

/-- In every state of a sequence of calls after boot, a call treats translation as a finite map
exactly if it meets no bit 31 of an earlier frame that the new one has not. -/
theorem translation_iff {phys : Phys} {k : Word} {s₀ : Paging} (F : FreshInit phys)
    (h₀ : initVirtualMemoryManager phys k = (true, s₀)) (r : Mapped s₀ s) {call : MapCall}
    (h : call.Allowed s) : call.Correct s ↔ call.Clean s := by
  have T := (tables_init F h₀).mapped r
  obtain ⟨-, hother⟩ := T.exec_ok h
  have ho : ∀ v, page v ≠ page call.address → (present (call.exec s) v ↔ present s v) ∧
      frame (entryOf (call.exec s) v) = frame (entryOf s v) := fun v hne => by
    rw [present, present, hother v hne]
    exact ⟨Iff.rfl, rfl⟩
  rw [MapCall.Correct, and_iff_left ho]
  cases call with
  | mapPage p v => exact T.mapPage_done h
  | unmapPage v => exact ⟨fun _ => trivial, fun _ => T.unmapPage_done h⟩

theorem getLsbD_mapEntry_31 {e p : Word} (hp : p.getLsbD 31 = true) :
    (mapEntry e p).getLsbD 31 = true := by
  rw [mapEntry, BitVec.getLsbD_or, BitVec.getLsbD_or, hp, Bool.or_true, Bool.true_or]

theorem getLsbD_unmapEntry_31 {e : Word} (he : e.getLsbD 31 = true) :
    (unmapEntry e).getLsbD 31 = true := by
  rw [unmapEntry, BitVec.getLsbD_and, BitVec.getLsbD_or, BitVec.getLsbD_and, he,
    getLsbD_maskFrame (by decide)]
  decide

/-- A page is mapped to a frame from 2 GiB on, and unmapped: its entry keeps bit 31. -/
theorem leftOver_somePhys : ∃ s₀ s, initVirtualMemoryManager somePhys 0x100000 = (true, s₀) ∧
    FreshInit somePhys ∧ Mapped s₀ s ∧ Fresh (InUse s) s.phys ∧ (entryOf s 0x1000).getLsbD 31 = true := by
  obtain ⟨s₀, h₀, F, -⟩ := boot_somePhys
  have G₀ := (init_ok protected_somePhys h₀).1
  have a₀ : (MapCall.mapPage 0x80000000 0x1000).Allowed s₀ := ⟨by decide, by decide, G₀.fresh⟩
  have G₁ := (G₀.mapPage_ok 0x80000000 0x1000).guarded G₀
  have e₁ : present (mapPage s₀ 0x80000000 0x1000).2 0x1000 ∧
      (entryOf (mapPage s₀ 0x80000000 0x1000).2 0x1000).getLsbD 31 = true := by
    obtain ⟨-, ⟨-, hp, -⟩ | ⟨-, -, he⟩⟩ := G₀.toTables.mapPage_ok G₀.fresh 0x80000000 0x1000
    · exact absurd (present_zero_of_init h₀) hp
    · rw [present, he, if_pos rfl]
      exact ⟨isPresent_mapEntry _ _, getLsbD_mapEntry_31 (by decide)⟩
  have a₁ : (MapCall.unmapPage 0x1000).Allowed (mapPage s₀ 0x80000000 0x1000).2 :=
    ⟨by decide, e₁.1⟩
  have G₂ := ((G₁.toLayout.unmapPage_ok 0x1000).grows G₁.toLayout).guarded G₁
  refine ⟨s₀, _, h₀, F, ((Mapped.init : Mapped s₀ s₀).step _ a₀).step _ a₁, G₂.fresh, ?_⟩
  rw [show ∀ s, (MapCall.unmapPage 0x1000).exec s = unmapPage s 0x1000 from fun _ => rfl,
    show (MapCall.mapPage 0x80000000 0x1000).exec s₀ = (mapPage s₀ 0x80000000 0x1000).2 from rfl,
    (G₁.toTables.unmapPage_ok e₁.1).2, if_pos rfl]
  exact getLsbD_unmapEntry_31 e₁.2

/-- It may be mapped again to a frame from 2 GiB on. -/
theorem translation_somePhys : ∃ s₀ s, initVirtualMemoryManager somePhys 0x100000 = (true, s₀) ∧
    Mapped s₀ s ∧ (entryOf s 0x1000).getLsbD 31 = true ∧ (MapCall.mapPage 0x90000000 0x1000).Correct s := by
  obtain ⟨s₀, s, h₀, F, r, hF, h31⟩ := leftOver_somePhys
  have ha : (MapCall.mapPage 0x90000000 0x1000).Allowed s := ⟨by decide, by decide, hF⟩
  have hc : (MapCall.mapPage 0x90000000 0x1000).Clean s := fun _ => by decide
  exact ⟨s₀, s, h₀, r, h31, (translation_iff F h₀ r ha).mpr hc⟩

/-- Mapped to a frame below, it translates to the sum of both. -/
theorem translation_not_exact : ¬ ∀ (phys : Phys) (k : Word) (s₀ s : Paging) (call : MapCall),
    FreshInit phys → initVirtualMemoryManager phys k = (true, s₀) → Mapped s₀ s → call.Allowed s →
      call.Correct s := by
  intro h
  obtain ⟨s₀, s, h₀, F, r, hF, h31⟩ := leftOver_somePhys
  have ha : (MapCall.mapPage 0x5000 0x1000).Allowed s := ⟨by decide, by decide, hF⟩
  have hc := (((tables_init F h₀).mapped r).mapPage_done ha).mp (h somePhys 0x100000 s₀ s _ F h₀ r ha).1
  exact absurd (hc h31) (by decide)

end

end AlexOS.Virtual
