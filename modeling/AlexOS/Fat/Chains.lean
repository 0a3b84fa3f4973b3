import AlexOS.Fat.Write
import AlexOS.Fat.RoundTrip

/-!
# The chains of a volume

Runs of `FAT_create_file`, `FAT_write` and `FAT_append`. The chains of files are
sound if no two share a cluster and none contains one that is marked free
(`Sound`). `update_fat`, which writes the FAT to the wrong sector, is called by
`FAT_create_file`, and by the other two at the end of a chain. Calls that stay
on the chain of their file (`Good`) do not write to the FAT, and a volume on
which all calls do keeps its chains (`chains_sound`).
-/

set_option linter.constructorNameAsVariable false

namespace AlexOS.Fat

/-- The chains of the files that start at these clusters. -/
structure Sound (s : Driver) (files : List Word) : Prop where
  disjoint : files.Pairwise fun a b => ∀ c, OnChain s a c → ¬ OnChain s b c
  used : ∀ a ∈ files, ∀ c, OnChain s a c → fatEntry s 0 c ≠ 0

inductive FatCall
  | createFile (path : List Byte)
  | write (handle : Int) (count : Word) (input : Buffer)
  | append (handle : Int) (count : Word) (input : Buffer)

/-- The cluster that `FAT_create_file` takes for the file. -/
def createdCluster (fuel : Nat) (s : Driver) (path : List Byte) : Option Word := do
  let s := { s with errno := 0 }
  let r ← fatOpen fuel s (some (parseFilenameCreateFile path).1)
  let s ← fatSeek fuel r.2 r.1 0 .set
  some (findFreeCluster s).1

/-- The state after a call, and the files that there are then. -/
def FatCall.exec (fuel : Nat) (s : Driver) (files : List Word) : FatCall → Option (Driver × List Word)
  | createFile path => do
    let s' ← fatCreateFile fuel s path
    let c ← createdCluster fuel s path
    some (s', c :: files)
  | write h count input => some ((fatWrite s h count input).2, files)
  | append h count input => do
    let r ← fatAppend fuel s h count input
    some (r.2, files)

/-- In the rounds of `FAT_append` from cluster `c` on, the clusters belong to the chain, and no end
mark is found when a sector is filled. -/
def AppendStays (s : Driver) (chain : Word → Prop) : Nat → Word → Word → Word → Prop
  | 0, _, _, _ => True
  | n + 1, count, offset, c =>
    count > 0 → chain c ∧
      let toWrite := if count < 512 - offset then count else 512 - offset
      if toWrite ≥ 512 then
        successor s c ≤ 0xFFFFFFF8 ∧ AppendStays s chain n (count - toWrite) 0 (successor s c)
      else AppendStays s chain n (count - toWrite) 0 c

/-- Calls that stay on the chain of their file. -/
def FatCall.Good (fuel : Nat) (s : Driver) (files : List Word) : FatCall → Prop
  | createFile _ => False
  | write h count _ => (s.file h).firstCluster ∈ files ∧
      Stays s (OnChain s (s.file h).firstCluster) (rounds count) (s.file h).currentCluster
  | append h count _ => (s.file h).firstCluster ∈ files ∧
      ∀ s' ∈ fatSeek fuel s h 0 .end, AppendStays s (OnChain s (s.file h).firstCluster) count.toNat
        count ((s'.file h).position % 512) (s'.file h).currentCluster

/-- Runs of the calls that are `ok`. -/
inductive FatRun (ok : Nat → Driver → List Word → FatCall → Prop) (s₀ : Driver) (files₀ : List Word) :
    Driver → List Word → Prop
  | init : FatRun ok s₀ files₀ s₀ files₀
  | step {fuel : Nat} {s s' : Driver} {files files' : List Word} (r : FatRun ok s₀ files₀ s files)
      (call : FatCall) (hok : ok fuel s files call) (h : call.exec fuel s files = some (s', files')) :
      FatRun ok s₀ files₀ s' files'

section

variable {s s' s₀ : Driver} {files files' : List Word} {chain : Word → Prop} {a c d : Word} {h : Int}
  {fuel n : Nat} {count offset : Word}

/-! ## The clusters of a chain are not in the FAT -/

theorem WellFormed.isCluster_of_linked (W : WellFormed s) (hc : IsCluster s c) (hl : Linked s c d) :
    IsCluster s d := by
  obtain ⟨hend, h0, rfl⟩ := hl
  rcases W.entries c hc with e | h | h
  · rw [e, target] at h0
    split at h0 <;> exact absurd rfl h0
  · exact h
  · exact absurd h hend

theorem WellFormed.isCluster_of_onChain (W : WellFormed s) (ha : IsCluster s a) (hc : OnChain s a c) :
    IsCluster s c := by
  induction hc with
  | refl => exact ha
  | tail _ hl ih => exact W.isCluster_of_linked ih hl

theorem WellFormed.toNat_cluster2Lba (W : WellFormed s) (hc : IsCluster s c) :
    (cluster2Lba s c).toNat = s.firstDataSector.toNat + (c.toNat - 2) := by
  obtain ⟨h2, hlt⟩ := hc
  have := W.noWrap
  have e1 : s.bootSector.sectorPerCluster.setWidth 32 = (1 : Word) := by rw [W.sectorPerCluster]; rfl
  rw [cluster2Lba, e1, mul_one, BitVec.toNat_add, BitVec.toNat_sub_of_le (by rw [BitVec.le_def]; exact h2),
    show (2 : Word).toNat = 2 from rfl]
  omega

/-- The sectors of the FAT come before those of the clusters. -/
theorem WellFormed.fatSector_ne (W : WellFormed s) (hc : IsCluster s c) {copy j : Nat}
    (hcopy : copy < s.bootSector.nbFat.toNat) (hj : j < s.fatSectors.toNat) :
    s.firstFatSector + BitVec.ofNat 32 copy * s.fatSectors + BitVec.ofNat 32 j ≠ cluster2Lba s c := by
  intro e
  have hd := W.firstDataSector
  have hnw := W.noWrap
  have hle : copy * s.fatSectors.toNat + s.fatSectors.toNat ≤
      s.bootSector.nbFat.toNat * s.fatSectors.toNat := by
    rw [← Nat.succ_mul]
    exact Nat.mul_le_mul_right _ hcopy
  have hcl : copy * s.fatSectors.toNat < 2 ^ 32 := by omega
  have hn := s.bootSector.nbFat.isLt
  have e := congrArg BitVec.toNat e
  rw [W.toNat_cluster2Lba hc, BitVec.toNat_add, BitVec.toNat_add, BitVec.toNat_mul, BitVec.toNat_ofNat,
    BitVec.toNat_ofNat, Nat.mod_eq_of_lt (show copy < 2 ^ 32 by omega),
    Nat.mod_eq_of_lt (show j < 2 ^ 32 by omega), Nat.mod_eq_of_lt hcl] at e
  omega

/-! ## Steps that write to clusters only -/

namespace Wrote

variable (D : Wrote (IsCluster s) s s') (W : WellFormed s)

include D W

theorem fatBytes_eq {copy i : Nat} (hcopy : copy < s.bootSector.nbFat.toNat)
    (hi : i < 512 * s.fatSectors.toNat) : fatBytes s' copy i = fatBytes s copy i := by
  rw [fatBytes, fatBytes, D.firstFatSector, D.fatSectors]
  by_contra hne
  obtain ⟨c, hc, e⟩ := D.sector _ fun e => hne (congrFun e _)
  exact W.fatSector_ne hc hcopy (by omega) e

theorem fatEntry_eq (hc : IsCluster s c) : fatEntry s' 0 c = fatEntry s 0 c := by
  have hf := W.fits c hc
  have hb : ∀ i, i < 512 * s.fatSectors.toNat → fatBytes s' 0 i = fatBytes s 0 i :=
    fun i hi => D.fatBytes_eq W W.nbFat hi
  rw [fatEntry, fatEntry, D.fatType]
  cases he : entryOffset s.fatType c with
  | none => rfl
  | some fatOffset =>
    have hf := hf fatOffset he
    simp only [decode]
    by_cases h12 : s.fatType = 12
    · rw [if_neg (by rw [h12]; decide)] at hf
      rw [if_pos h12, if_pos h12, Buffer.load16, Buffer.load16, hb _ (by omega), hb _ (by omega)]
    rw [if_neg h12, if_neg h12]
    by_cases h16 : s.fatType = 16
    · rw [if_neg (by rw [h16]; decide)] at hf
      rw [if_pos h16, if_pos h16, Buffer.load16, Buffer.load16, hb _ (by omega), hb _ (by omega)]
    · have h32 : s.fatType = 32 := by
        rcases W.fatType with ⟨e, -⟩ | ⟨e, -⟩ | ⟨e, -⟩
        · exact absurd e h12
        · exact absurd e h16
        · exact e
      rw [if_pos h32] at hf
      rw [if_neg h16, if_neg h16, Buffer.load32, Buffer.load32, hb _ (by omega), hb _ (by omega),
        hb _ (by omega), hb _ (by omega)]

theorem linked_iff (hc : IsCluster s c) : Linked s' c d ↔ Linked s c d := by
  rw [Linked, Linked, D.fatEntry_eq W hc, D.fatType]

theorem onChain_iff (ha : IsCluster s a) : OnChain s' a c ↔ OnChain s a c := by
  constructor
  · intro hc
    induction hc with
    | refl => exact .refl
    | tail _ hl ih => exact ih.tail ((D.linked_iff W (W.isCluster_of_onChain ha ih)).mp hl)
  · intro hc
    induction hc with
    | refl => exact .refl
    | tail hc hl ih => exact ih.tail ((D.linked_iff W (W.isCluster_of_onChain ha hc)).mpr hl)

theorem wellFormed : WellFormed s' := by
  have hcl : ∀ c, IsCluster s' c ↔ IsCluster s c := fun c => by
    rw [IsCluster, IsCluster, D.totalClusters]
  have C := D.cached W.cached
  refine ⟨C.bytesPerSector, ?_, ?_, ?_, ?_, ?_, ?_, ?_, ?_, ?_, ?_, ?_, C.fatOffset, ?_⟩
  · rw [D.bootSector, W.sectorPerCluster]
  · rw [D.fatType, D.totalClusters]
    exact W.fatType
  · rw [D.bootSector]
    exact W.nbFat
  · rw [D.firstFatSector]
    exact W.reserved
  · rw [D.fatSectors]
    exact W.fatSectors
  · rw [D.firstDataSector, D.firstFatSector, D.bootSector, D.fatSectors, D.rootDirSectors]
    exact W.firstDataSector
  · rw [D.firstDataSector, D.totalClusters]
    exact W.noWrap
  · intro c hc
    rw [D.fatType, D.fatSectors]
    exact W.fits c ((hcl c).mp hc)
  · intro copy hcopy i hi
    rw [D.bootSector] at hcopy
    rw [D.fatSectors] at hi
    rw [D.fatBytes_eq W hcopy hi, D.fatBytes_eq W W.nbFat hi]
    exact W.copies copy hcopy i hi
  · intro c hc
    have hc := (hcl c).mp hc
    rw [D.fatEntry_eq W hc, D.fatType, hcl]
    exact W.entries c hc
  · rw [← file_root s', D.handle, file_root, W.rootHandle]
  · intro i hi
    have hpos := W.fatSectors
    rw [D.table, D.firstFatSector, W.table i hi, ← fatBytes_first hi,
      ← D.fatBytes_eq W W.nbFat (by omega), fatBytes_first hi, D.firstFatSector]

end Wrote

/-! ## The calls -/

theorem Wrote.mono {clusters : Word → Prop} (w : Wrote chain s s') (h : ∀ c, chain c → clusters c) :
    Wrote clusters s s' :=
  ⟨w.toSameVolume, fun l hl => (w.sector l hl).imp fun c hc => ⟨h c hc.1, hc.2⟩, w.firstCluster, w.handle⟩

theorem seekLoop_wrote (C : Cached s) (h : Int) (n : Nat) (offset : Word) :
    Wrote chain s (seekLoop h n s offset) := by
  induction n generalizing s offset with
  | zero => exact .refl s
  | succ n ih =>
    rw [seekLoop]
    split
    · have w : Wrote chain s (advance s h) := .advance C h
      exact w.trans (ih (w.cached C) _)
    · exact .refl s

theorem seekEnd_wrote {r : Bool × Driver} (hr : seekEnd h n s = some r) : Wrote chain s r.2 := by
  induction n generalizing s with
  | zero => cases hr
  | succ n ih =>
    simp only [seekEnd] at hr
    split at hr
    · split at hr
      · cases hr
        exact .cursor _ _ _ _ _ _
      · exact (Wrote.cursor _ _ _ _ _ _).trans (ih hr)
    · cases hr
      exact .refl s

theorem fatSeek_end_wrote (C : Cached s) (hs : fatSeek fuel s h offset .end = some s') :
    Wrote chain s s' := by
  obtain ⟨r, hr, hs⟩ := Option.bind_eq_some_iff.mp hs
  have w : Wrote chain s r.2 := (Wrote.cursor _ _ _ _ _ _).trans (seekEnd_wrote hr)
  split at hs
  · cases hs
    exact w
  · cases hs
    have w' : Wrote chain r.2 (r.2.setFile h { r.2.file h with currentCluster := (r.2.file h).firstCluster }) :=
      .cursor _ _ _ _ _ _
    exact (w.trans w').trans (seekLoop_wrote ((w.trans w').cached C) h _ _)

theorem nextForAppend_of_le (C : Cached s)
    (hle : successor s (s.file h).currentCluster ≤ 0xFFFFFFF8) : nextForAppend s h = advance s h := by
  simp only [nextForAppend]
  rw [if_neg]
  rw [currentCluster_advance C]
  exact BitVec.not_lt.mpr hle

theorem SameVolume.appendStays (S : SameVolume s s') (hs : AppendStays s chain n count offset c) :
    AppendStays s' chain n count offset c := by
  induction n generalizing count offset c with
  | zero => trivial
  | succ n ih =>
    intro h0
    obtain ⟨hc, hs⟩ := hs h0
    refine ⟨hc, ?_⟩
    simp only at hs ⊢
    rw [S.successor_eq]
    generalize (if count < 512 - offset then count else 512 - offset) = toWrite at hs ⊢
    by_cases h512 : toWrite ≥ 512
    · rw [if_pos h512] at hs ⊢
      exact ⟨hs.1, ih hs.2⟩
    · rw [if_neg h512] at hs ⊢
      exact ih hs

/-- The rounds of an append that stays on the chain. -/
theorem appendLoop_ok (C : Cached s) (input : Buffer) (writed : Word)
    (hs : AppendStays s chain n count offset (s.file h).currentCluster) :
    Wrote chain s (appendLoop h n s count offset input writed).2 := by
  induction n generalizing s count offset input writed with
  | zero => exact .refl s
  | succ n ih =>
    simp only [appendLoop]
    by_cases hc : count > 0
    swap
    · rw [if_neg hc]
      exact .refl s
    rw [if_pos hc]
    obtain ⟨hchain, hrest⟩ := hs hc
    simp only at hrest
    generalize (if count < 512 - offset then count else 512 - offset) = toWrite at hrest ⊢
    generalize (s.disk.read _ _).2.copy _ _ _ = buffer
    generalize hs₁ : Driver.setFile { s with disk := _ } h _ = s₁
    have w₁ : Wrote chain s s₁ := hs₁ ▸ (Wrote.writeCluster s hchain buffer).trans (.cursor _ h _ _ _ _)
    have C₁ := w₁.cached C
    have hcur : (s₁.file h).currentCluster = (s.file h).currentCluster := by
      rw [← hs₁, file_setFile_self]
    by_cases h512 : toWrite ≥ 512
    · rw [if_pos h512] at hrest ⊢
      have hnext : nextForAppend s₁ h = advance s₁ h :=
        nextForAppend_of_le C₁ (by rw [hcur, w₁.successor_eq]; exact hrest.1)
      have w₂ := w₁.trans (Wrote.advance C₁ h)
      have hcur₂ : ((advance s₁ h).file h).currentCluster = successor s (s.file h).currentCluster := by
        rw [currentCluster_advance C₁, hcur, w₁.successor_eq]
      rw [hnext]
      exact w₂.trans (ih (w₂.cached C) _ _ (by rw [hcur₂]; exact w₂.appendStays hrest.2))
    · rw [if_neg h512] at hrest ⊢
      exact w₁.trans (ih C₁ _ _ (by rw [hcur]; exact w₁.appendStays hrest))

/-- A call that stays on the chain of its file writes to clusters only. -/
theorem FatCall.Good.wrote (W : WellFormed s) (hfiles : ∀ a ∈ files, IsCluster s a) {call : FatCall}
    (hg : call.Good fuel s files) (he : call.exec fuel s files = some (s', files')) :
    Wrote (IsCluster s) s s' ∧ files' = files := by
  cases call with
  | createFile path => exact hg.elim
  | write h count input =>
    cases he
    have w : Wrote _ s (fatWrite s h count input).2 := writeLoop_ok W.cached input 0 hg.2
    exact ⟨w.mono fun c hc => W.isCluster_of_onChain (hfiles _ hg.1) hc, rfl⟩
  | append h count input =>
    obtain ⟨r, hr, he⟩ := Option.bind_eq_some_iff.mp he
    cases he
    obtain ⟨s₁, hseek, hr⟩ := Option.bind_eq_some_iff.mp hr
    cases hr
    have w₁ : Wrote (OnChain s (s.file h).firstCluster) s s₁ := fatSeek_end_wrote W.cached hseek
    have w := w₁.trans (appendLoop_ok (w₁.cached W.cached) input 0 (w₁.appendStays (hg.2 s₁ hseek)))
    exact ⟨w.mono fun c hc => W.isCluster_of_onChain (hfiles _ hg.1) hc, rfl⟩

/-- The chains of files, when only clusters are written to. -/
theorem Wrote.sound (D : Wrote (IsCluster s) s s') (W : WellFormed s) (hfiles : ∀ a ∈ files, IsCluster s a)
    (S : Sound s files) : Sound s' files := by
  refine ⟨?_, fun a ha c hc => ?_⟩
  · refine S.disjoint.imp_of_mem fun ha hb hd c => ?_
    rw [D.onChain_iff W (hfiles _ ha), D.onChain_iff W (hfiles _ hb)]
    exact hd c
  · rw [D.onChain_iff W (hfiles a ha)] at hc
    rw [D.fatEntry_eq W (W.isCluster_of_onChain (hfiles a ha) hc)]
    exact S.used a ha c hc

/-- What a run of good calls keeps. -/
structure Kept (s₀ s : Driver) (files₀ files : List Word) : Prop where
  wellFormed : WellFormed s
  sameFiles : files = files₀
  clusters : ∀ a ∈ files, IsCluster s a
  sound : Sound s files
  onChain : ∀ a ∈ files₀, ∀ c, OnChain s a c ↔ OnChain s₀ a c

theorem FatRun.kept {files₀ : List Word} (W : WellFormed s₀) (hfiles : ∀ a ∈ files₀, IsCluster s₀ a)
    (S : Sound s₀ files₀) (r : FatRun (fun fuel s files call => call.Good fuel s files) s₀ files₀ s files) :
    Kept s₀ s files₀ files := by
  induction r with
  | init => exact ⟨W, rfl, hfiles, S, fun _ _ _ => Iff.rfl⟩
  | step _ call hg he ih =>
    obtain ⟨D, rfl⟩ := hg.wrote ih.wellFormed ih.clusters he
    have hcl : ∀ a ∈ files₀, IsCluster _ a := fun a ha => ih.clusters a (ih.sameFiles ▸ ha)
    refine ⟨D.wellFormed ih.wellFormed, ih.sameFiles, fun a ha => ?_, D.sound ih.wellFormed ih.clusters ih.sound,
      fun a ha c => ?_⟩
    · rw [IsCluster, D.totalClusters]
      exact ih.clusters a ha
    · rw [D.onChain_iff ih.wellFormed (hcl a ha), ih.onChain a ha]

theorem onChain_closedFat : (OnChain closedFat 2 c → c = 2) ∧ (OnChain closedFat 4 c → c = 4 ∨ c = 5) := by
  refine ⟨onChain_of_isEnd (by decide), fun hc => ?_⟩
  rcases Relation.ReflTransGen.cases_head hc with e | ⟨d, ⟨-, -, rfl⟩, hd⟩
  · exact .inl e.symm
  · exact .inr (onChain_of_isEnd (by decide) hd)

theorem sound_closedFat : Sound closedFat [2, 4] := by
  refine ⟨?_, fun a ha c hc => ?_⟩
  · rw [List.pairwise_pair]
    intro c h2 h4
    obtain rfl := onChain_closedFat.1 h2
    exact absurd (onChain_closedFat.2 h4) (by decide)
  · rcases List.mem_pair.mp ha with rfl | rfl
    · obtain rfl := onChain_closedFat.1 hc
      decide
    · rcases onChain_closedFat.2 hc with rfl | rfl <;> decide

theorem clusters_closedFat : ∀ a ∈ [(2 : Word), 4], IsCluster closedFat a := by
  intro a ha
  rcases List.mem_pair.mp ha with rfl | rfl <;> exact ⟨by decide, by decide⟩

end

end AlexOS.Fat
