import AlexOS.Fat.Chains
import AlexOS.Fat.WriteSplit
import Mathlib.Data.List.Chain

/-!
# Appending

`FAT_append` writes at the position that `SEEK_END` finds, modulo 512, of the
first cluster. It moves on to the next cluster only where it has written 512
bytes at once: what does not fit after a part of a sector goes to the start of
the same one. So bytes are appended if they fit in the first sector, or if the
file is empty and `next_cluster` leads along its chain (`Fits`,
`append_extends`). At the end of the chain a cluster is taken, and `update_fat`
writes the FAT to the wrong sector.
-/

namespace AlexOS.Fat

/-- The first bytes of a file. -/
def contents (s : Driver) (chain : List Word) (k : Nat) : List Byte := (List.range k).map (chainByte s chain)

/-- Changed sectors belong to these clusters, or to the FAT, and then to their entries. -/
def WithinChain (s s' : Driver) (chain : List Word) : Prop :=
  ∀ l, s'.disk.sector l ≠ s.disk.sector l →
    (∃ c ∈ chain, l = cluster2Lba s c) ∨
    (∃ copy < s.bootSector.nbFat.toNat, ∃ j < s.fatSectors.toNat,
      l = s.firstFatSector + BitVec.ofNat 32 copy * s.fatSectors + BitVec.ofNat 32 j ∧
      ∀ c, IsCluster s c → c ∉ chain → fatEntry s' copy c = fatEntry s copy c)

/-- `d` is appended: `s₁` is the state after `SEEK_END`, and `s'` that after the call, which returned `ret`. -/
structure Appended (s s₁ s' : Driver) (h : Int) (chain : List Word) (ret : Word) (d : List Byte) : Prop where
  returned : ret.toNat = d.length
  size : (s'.file h).size = (s₁.file h).size + BitVec.ofNat 32 d.length
  content : ∃ chain', chain <+: chain' ∧ HasChain s' h chain' ∧
    (s₁.file h).position.toNat + d.length ≤ 512 * chain'.length ∧
      contents s' chain' ((s₁.file h).position.toNat + d.length) =
        contents s chain (s₁.file h).position.toNat ++ d ∧ WithinChain s s' chain'

/-- From place `i` of the chain on, `next_cluster` leads along it for `m` bytes, and to no end mark that `FAT_append`
takes a cluster at. -/
def Leads (s : Driver) (chain : List Word) (i m : Nat) : Prop :=
  ∀ j, 512 * (j + 1) ≤ m → ∃ c, chain[i + j]? = some c ∧ (nextCluster s c).1 ≤ 0xFFFFFFF8 ∧
    (512 * (j + 1) < m → chain[i + (j + 1)]? = some (nextCluster s c).1)

/-- The `m` bytes fit, where `SEEK_END` finds position `q`. -/
def Fits (s : Driver) (chain : List Word) (q m : Nat) : Prop :=
  m = 0 ∧ q ≤ 512 * chain.length ∨
  chain ≠ [] ∧ 0 < q ∧ q + m ≤ 512 ∨
  chain ≠ [] ∧ q = 0 ∧ Leads s chain 0 m

/-- The bytes that a round of `FAT_append` writes. -/
def toWrite (count offset : Word) : Word := if count < 512 - offset then count else 512 - offset

/-- The state after the write of a round. -/
def afterAppend (s : Driver) (h : Int) (count offset : Word) (input : Buffer) : Driver :=
  let buffer := ((s.disk.read (cluster2Lba s (s.file h).currentCluster) (s.file h).buffer).2).copy offset.toNat input
    (toWrite count offset).toNat
  Driver.setFile { s with disk := (s.disk.write (cluster2Lba s (s.file h).currentCluster) buffer).2 } h { s.file h with
    buffer := buffer
    position := (s.file h).position + toWrite count offset
    size := (s.file h).size + toWrite count offset }

/-- The sector of a place in the chain. -/
def lba (s : Driver) (chain : List Word) (i : Nat) : Word := cluster2Lba s (chain.getD i 0)

/-- The bytes are written from `offset` on in the sector of place `i`, and in those after it. -/
structure Ran (s t t' : Driver) (h : Int) (chain : List Word) (i : Nat) (offset count : Word) (input : Buffer) :
    Prop where
  wrote : Wrote (fun c => c ∈ chain) t t'
  size : (t'.file h).size = (t.file h).size + count
  bytes : ∀ j < count.toNat,
    t'.disk.sector (lba s chain (i + (offset.toNat + j) / 512)) ((offset.toNat + j) % 512) = input j
  frame : ∀ l x, (∀ j < count.toNat, l = lba s chain (i + (offset.toNat + j) / 512) →
    x ≠ (offset.toNat + j) % 512) → t'.disk.sector l x = t.disk.sector l x

/-- No read or write fails. -/
structure Faultless (d : Disk) : Prop where
  readFails : ∀ l, d.readFails l = false
  writeFails : ∀ l, d.writeFails l = false

section

variable {s s₁ t t' t'' : Driver} {h : Int} {chain : List Word} {count offset w c : Word} {input : Buffer}
  {n i : Nat} {d : List Byte}

/-! ## A round -/

theorem toNat_toWrite (count : Word) (ho : offset.toNat < 512) :
    (toWrite count offset).toNat = min count.toNat (512 - offset.toNat) := by
  have hsub : (512 - offset).toNat = 512 - offset.toNat :=
    BitVec.toNat_sub_of_le (by rw [BitVec.le_def]; exact ho.le)
  unfold toWrite
  split
  · rename_i hlt
    rw [BitVec.lt_def, hsub] at hlt
    omega
  · rename_i hlt
    rw [BitVec.lt_def, hsub] at hlt
    omega

theorem appendLoop_zero (h : Int) (n : Nat) (s : Driver) (offset : Word) (input : Buffer) (w : Word) :
    appendLoop h n s 0 offset input w = (w, s) := by
  cases n with
  | zero => rfl
  | succ n => exact if_neg (by decide)

theorem appendLoop_round (hc : 0 < count.toNat) : appendLoop h (n + 1) s count offset input w =
    appendLoop h n
      (if toWrite count offset ≥ 512 then nextForAppend (afterAppend s h count offset input) h
        else afterAppend s h count offset input)
      (count - toWrite count offset) 0 (fun i => input ((toWrite count offset).toNat + i))
      (w + toWrite count offset) := by
  have hgo : count > 0 := hc
  conv_lhs => unfold appendLoop
  simp only [if_pos hgo]
  rfl

theorem file_afterAppend (s : Driver) (h : Int) (count offset : Word) (input : Buffer) :
    ((afterAppend s h count offset input).file h).currentCluster = (s.file h).currentCluster ∧
      ((afterAppend s h count offset input).file h).size = (s.file h).size + toWrite count offset := by
  unfold afterAppend
  rw [file_setFile_self]
  exact ⟨rfl, rfl⟩

theorem afterAppend_wrote {clusters : Word → Prop} (hc : clusters (s.file h).currentCluster) (count offset : Word)
    (input : Buffer) : Wrote clusters s (afterAppend s h count offset input) :=
  (Wrote.writeCluster s hc _).trans (.cursor _ h _ _ _ _)

/-- A round changes the bytes that it writes. -/
theorem sector_afterAppend (N : Faultless s.disk) (ho : offset.toNat < 512) (l : Word) (x : Nat) :
    (afterAppend s h count offset input).disk.sector l x =
      if l = cluster2Lba s (s.file h).currentCluster ∧ offset.toNat ≤ x ∧
        x < offset.toNat + (toWrite count offset).toNat
      then input (x - offset.toNat) else s.disk.sector l x := by
  have htw := toNat_toWrite count ho
  unfold afterAppend
  rw [disk_setFile]
  simp only [Disk.write, N.writeFails, Disk.read, N.readFails, Bool.false_eq_true, if_false, SECTOR_SIZE]
  by_cases hl : l = cluster2Lba s (s.file h).currentCluster
  · rw [if_pos hl]
    simp only [hl, Buffer.copy, true_and, Nat.zero_le, Nat.zero_add, Nat.sub_zero]
    by_cases hx : x < 512
    · rw [if_pos hx, if_pos hx]
    · rw [if_neg hx, if_neg (by omega)]
  · rw [if_neg hl, if_neg fun e => hl e.1]

/-! ## The places of a chain -/

theorem SameVolume.lba_eq (S : SameVolume s t) (hc : chain[i]? = some c) : lba s chain i = cluster2Lba t c := by
  unfold lba
  rw [S.cluster2Lba_eq, List.getD_eq_getElem?_getD, hc]
  rfl

theorem lba_inj (hspc : s.bootSector.sectorPerCluster = 1) (hnodup : chain.Nodup) {j : Nat} (hi : i < chain.length)
    (hj : j < chain.length) (e : lba s chain i = lba s chain j) : i = j := by
  have h1 : s.bootSector.sectorPerCluster.setWidth 32 = (1 : Word) := by
    rw [hspc]
    rfl
  unfold lba cluster2Lba at e
  rw [h1, mul_one, mul_one, List.getD_eq_getElem _ _ hi, List.getD_eq_getElem _ _ hj] at e
  exact (List.Nodup.getElem_inj_iff hnodup).mp (sub_left_injective (add_right_cancel e))

theorem Leads.lt {m : Nat} (L : Leads s chain i m) (hi : i < chain.length) {j : Nat} (hj : j < m) :
    i + j / 512 < chain.length := by
  rcases Nat.eq_zero_or_pos (j / 512) with h0 | hpos
  · omega
  · obtain ⟨c, -, -, hnext⟩ := L (j / 512 - 1) (by omega)
    have hlt := (List.getElem?_eq_some_iff.mp (hnext (by omega))).1
    omega

theorem Leads.next {m : Nat} (L : Leads s chain i m) : Leads s chain (i + 1) (m - 512) := fun j hj => by
  obtain ⟨c, hc, hle, hnext⟩ := L (j + 1) (by omega)
  refine ⟨c, ?_, hle, fun hlt => ?_⟩
  · rw [← hc, Nat.add_right_comm, Nat.add_assoc]
  · rw [← hnext (by omega), Nat.add_right_comm, Nat.add_assoc]

/-! ## The loop -/

/-- The last round. -/
theorem ran_afterAppend (S : SameVolume s t) (N : Faultless t.disk) (ho : offset.toNat < 512)
    (hcur : chain[i]? = some (t.file h).currentCluster) (hall : offset.toNat + count.toNat ≤ 512) :
    Ran s t (afterAppend t h count offset input) h chain i offset count input := by
  have htw : toWrite count offset = count := BitVec.eq_of_toNat_eq (by
    rw [toNat_toWrite count ho]
    omega)
  have hlba : cluster2Lba t (t.file h).currentCluster = lba s chain i := (S.lba_eq hcur).symm
  refine ⟨afterAppend_wrote (List.mem_of_getElem? hcur) _ _ _, ?_, fun j hj => ?_, fun l x hx => ?_⟩
  · rw [(file_afterAppend t h count offset input).2, htw]
  · rw [sector_afterAppend N ho, hlba, htw, show (offset.toNat + j) / 512 = 0 by omega, Nat.add_zero,
      if_pos ⟨rfl, by omega, by omega⟩]
    exact congrArg input (by omega)
  · rw [sector_afterAppend N ho, hlba, htw]
    refine if_neg fun ⟨hl, h1, h2⟩ => hx (x - offset.toNat) (by omega) ?_ (by omega)
    rw [hl, show (offset.toNat + (x - offset.toNat)) / 512 = 0 by omega, Nat.add_zero]

/-- A round that fills a sector, and those after it. -/
theorem Ran.fill (C : Cached t) (S : SameVolume s t) (N : Faultless t.disk) (hspc : s.bootSector.sectorPerCluster = 1)
    (hnodup : chain.Nodup) (h512 : 512 ≤ count.toNat) (hcur : chain[i]? = some (t.file h).currentCluster)
    (L : Leads s chain i count.toNat)
    (R : Ran s (advance (afterAppend t h count 0 input) h) t' h chain (i + 1) 0 (count - 512)
      fun j => input (512 + j)) : Ran s t t' h chain i 0 count input := by
  have h0 : (0 : Word).toNat = 0 := rfl
  have htw : (toWrite count 0).toNat = 512 := by
    rw [toNat_toWrite count (by decide), h0]
    omega
  have hleft : (count - 512).toNat = count.toNat - 512 := BitVec.toNat_sub_of_le (by
    rw [BitVec.le_def]
    exact h512)
  have hi : i < chain.length := (List.getElem?_eq_some_iff.mp hcur).1
  have w₁ : Wrote (fun c => c ∈ chain) t (afterAppend t h count 0 input) :=
    afterAppend_wrote (List.mem_of_getElem? hcur) _ _ _
  have C₁ := w₁.cached C
  have hlba : cluster2Lba t (t.file h).currentCluster = lba s chain i := (S.lba_eq hcur).symm
  have hsector : ∀ l x, (advance (afterAppend t h count 0 input) h).disk.sector l x =
      if l = lba s chain i ∧ x < 512 then input x else t.disk.sector l x := fun l x => by
    rw [disk_advance C₁, sector_afterAppend N (by decide), hlba, htw, h0]
    simp only [Nat.zero_le, true_and, Nat.zero_add, Nat.sub_zero]
  have hR := R.bytes
  have hF := R.frame
  rw [hleft] at hR hF
  simp only [h0, Nat.zero_add] at hR hF
  refine ⟨w₁.trans ((Wrote.advance C₁ h).trans R.wrote), ?_, fun j hj => ?_, fun l x hx => ?_⟩
  · rw [R.size, advance_ok C₁, file_setFile_self]
    dsimp only
    rw [(file_afterAppend t h count 0 input).2, show toWrite count 0 = 512 from BitVec.eq_of_toNat_eq htw, add_assoc,
      add_sub_cancel]
  · rw [h0, Nat.zero_add]
    by_cases hfirst : j < 512
    · -- the sectors after it are others
      rw [Nat.div_eq_of_lt hfirst, Nat.mod_eq_of_lt hfirst, Nat.add_zero, hF, hsector, if_pos ⟨rfl, hfirst⟩]
      intro k hk e
      have hlt := L.next.lt (i := i + 1) (by have := L.lt hi (j := 512) (by omega); omega) hk
      have := lba_inj hspc hnodup hi hlt e
      omega
    · have e := hR (j - 512) (by omega)
      rw [show i + 1 + (j - 512) / 512 = i + j / 512 by omega, show (j - 512) % 512 = j % 512 by omega,
        show 512 + (j - 512) = j by omega] at e
      exact e
  · rw [h0] at hx
    rw [hF, hsector, if_neg]
    · rintro ⟨hl, hx512⟩
      refine hx x (by omega) ?_ ?_
      · rw [hl, Nat.zero_add, Nat.div_eq_of_lt hx512, Nat.add_zero]
      · rw [Nat.zero_add, Nat.mod_eq_of_lt hx512]
    · intro j hj e
      have := hx (512 + j) (by omega)
      rw [show i + (0 + (512 + j)) / 512 = i + 1 + j / 512 by omega,
        show (0 + (512 + j)) % 512 = j % 512 by omega] at this
      exact this e

theorem SameVolume.faultless (S : SameVolume s t) (N : Faultless s.disk) : Faultless t.disk :=
  ⟨fun l => by rw [S.readFails, N.readFails], fun l => by rw [S.writeFails, N.writeFails]⟩

theorem Ran.zero (s t : Driver) (h : Int) (chain : List Word) (i : Nat) (offset : Word) (input : Buffer) :
    Ran s t t h chain i offset 0 input :=
  ⟨.refl t, (BitVec.add_zero _).symm, fun j hj => absurd hj (Nat.not_lt_zero j), fun _ _ _ => rfl⟩

/-- Bytes that fit in a sector, or for which the chain goes on. -/
theorem appendLoop_run (input : Buffer) (C : Cached t) (S : SameVolume s t) (Cs : Cached s) (N : Faultless t.disk)
    (hspc : s.bootSector.sectorPerCluster = 1) (hnodup : chain.Nodup) (hn : count.toNat ≤ n)
    (ho : offset.toNat < 512) (hone : offset ≠ 0 → offset.toNat + count.toNat ≤ 512)
    (hcur : 0 < count.toNat → chain[i]? = some (t.file h).currentCluster)
    (L : offset = 0 → Leads s chain i count.toNat) :
    (appendLoop h n t count offset input w).1 = w + count ∧
      Ran s t (appendLoop h n t count offset input w).2 h chain i offset count input := by
  induction n generalizing t i count offset input w with
  | zero =>
    obtain rfl : count = 0 := BitVec.eq_of_toNat_eq (Nat.le_zero.mp hn)
    rw [appendLoop_zero]
    exact ⟨(BitVec.add_zero w).symm, .zero _ _ _ _ _ _ _⟩
  | succ n ih =>
    rcases Nat.eq_zero_or_pos count.toNat with h0 | hpos
    · obtain rfl : count = 0 := BitVec.eq_of_toNat_eq h0
      rw [appendLoop_zero]
      exact ⟨(BitVec.add_zero w).symm, .zero _ _ _ _ _ _ _⟩
    have htw := toNat_toWrite count ho
    have hcur := hcur hpos
    have h512 : toWrite count offset ≥ 512 ↔ 512 ≤ (toWrite count offset).toNat := Iff.rfl
    rw [appendLoop_round hpos]
    by_cases hfull : toWrite count offset ≥ 512
    swap
    · -- all of it is written
      have hfull' := mt h512.mpr hfull
      have hall : offset.toNat + count.toNat ≤ 512 := by
        by_cases h0 : offset = 0
        · subst h0
          rw [show (0 : Word).toNat = 0 from rfl] at htw ⊢
          omega
        · exact hone h0
      have e : toWrite count offset = count := BitVec.eq_of_toNat_eq (by omega)
      rw [if_neg hfull, e, sub_self, appendLoop_zero]
      exact ⟨rfl, ran_afterAppend S N ho hcur hall⟩
    have hfull' := h512.mp hfull
    obtain rfl : offset = 0 := BitVec.eq_of_toNat_eq (show offset.toNat = 0 by omega)
    have e : toWrite count 0 = 512 := BitVec.eq_of_toNat_eq (show (toWrite count 0).toNat = 512 by omega)
    have hleft : (count - 512).toNat = count.toNat - 512 := BitVec.toNat_sub_of_le (by
      rw [BitVec.le_def, show (512 : Word).toNat = 512 from rfl]
      omega)
    have L := L rfl
    obtain ⟨c, hc, hle, hnext⟩ := L 0 (by omega)
    obtain rfl : c = (t.file h).currentCluster := by
      rw [Nat.add_zero, hcur] at hc
      exact (Option.some.inj hc).symm
    have w₁ : Wrote (fun c => c ∈ chain) t (afterAppend t h count 0 input) :=
      afterAppend_wrote (List.mem_of_getElem? hcur) _ _ _
    have C₁ := w₁.cached C
    have S₁ := S.trans w₁.toSameVolume
    have hsucc : successor (afterAppend t h count 0 input)
        ((afterAppend t h count 0 input).file h).currentCluster = (nextCluster s (t.file h).currentCluster).1 := by
      rw [S₁.successor_eq, (file_afterAppend t h count 0 input).1, nextCluster_ok Cs]
    have w₂ := w₁.trans (Wrote.advance C₁ h)
    have S₂ := S.trans w₂.toSameVolume
    rw [if_pos hfull, nextForAppend_of_le C₁ (by rw [hsucc]; exact hle), e]
    have hcur' : 0 < (count - 512).toNat →
        chain[i + 1]? = some ((advance (afterAppend t h count 0 input) h).file h).currentCluster := fun h0 => by
      rw [currentCluster_advance C₁, hsucc]
      exact hnext (by omega)
    obtain ⟨hret, R⟩ : (appendLoop h n (advance (afterAppend t h count 0 input) h) (count - 512) 0
          (fun j => input (512 + j)) (w + 512)).1 = w + 512 + (count - 512) ∧
        Ran s (advance (afterAppend t h count 0 input) h) (appendLoop h n (advance (afterAppend t h count 0 input) h)
          (count - 512) 0 (fun j => input (512 + j)) (w + 512)).2 h chain (i + 1) 0 (count - 512)
          fun j => input (512 + j) :=
      ih _ (w₂.cached C) S₂ (w₂.toSameVolume.faultless N) (by omega) (by decide) (fun hne => absurd rfl hne) hcur'
        fun _ => by
          rw [hleft]
          exact L.next
    refine ⟨?_, Ran.fill C S N hspc hnodup (by omega) hcur L R⟩
    rw [show (512 : Word).toNat = 512 from rfl, hret, add_assoc, add_sub_cancel]

/-! ## The call -/

/-- The end is looked for, and bytes are written, from the first cluster on. -/
theorem fatSeek_end_current (hs : fatSeek n s h offset .end = some s₁) :
    (s₁.file h).currentCluster = (s.file h).firstCluster := by
  cases n with
  | zero => cases hs
  | succ n =>
    by_cases hlive : (s.file h).firstCluster < 0xFFFFFFF8
    · rcases delimiter_cases (s.file h).isDir (firstSector s h) with ⟨i, hi⟩ | hno
      · rw [fatSeek_found hlive hi] at hs
        cases hs
        rw [file_setFile_self]
      · rw [fatSeek_never hlive hno] at hs
        cases hs
    · rw [fatSeek_of_mark hlive] at hs
      cases hs
      rw [file_atStart]

theorem fatAppend_eq (hs : fatSeek n s h 0 .end = some s₁) (count : Word) (input : Buffer) :
    fatAppend n s h count input =
      some (appendLoop h count.toNat s₁ count ((s₁.file h).position % 512) input 0) := by
  unfold fatAppend
  rw [hs]
  rfl

/-- A file keeps its chain where only sectors of its clusters change. -/
theorem HasChain.of_wrote (W : WellFormed s) (H : HasChain s h chain) (D : Wrote (fun c => c ∈ chain) s t) :
    HasChain t h chain := by
  have hfirst := D.firstCluster h
  cases H with
  | chain c cs first nodup cluster linked last =>
    have D' := D.mono cluster
    refine .chain c cs (hfirst.trans first) nodup (fun d hd => ?_) ?_ ?_
    · rw [IsCluster, D.totalClusters]
      exact cluster d hd
    · exact linked.imp_of_mem_imp fun a b ha _ hl => (D'.linked_iff W (cluster a ha)).mpr hl
    · rw [D'.fatEntry_eq W (cluster _ (List.getLast_mem _)), D.fatType]
      exact last
  | empty first => exact .empty (hfirst.trans first)
  | root handle fatType =>
    rw [← hfirst, ← D.rootDirSectors, ← D.bootSector]
    exact .root handle (D.fatType ▸ fatType)

theorem chainByte_eq (hspc : s.bootSector.sectorPerCluster = 1) (x : Nat) :
    chainByte s chain x = s.disk.sector (lba s chain (x / 512)) (x % 512) := by
  have hsize : clusterSize s = 512 := by
    rw [clusterSize, hspc]
    rfl
  rw [chainByte, hsize, Nat.div_eq_of_lt (Nat.mod_lt x (by decide))]
  exact congrArg (fun l => s.disk.sector l (x % 512)) (BitVec.add_zero _)

/-- The end of the contents is inside the clusters, before and after. -/
theorem Fits.le {q m : Nat} (F : Fits s chain q m) : q + m ≤ 512 * chain.length := by
  rcases F with ⟨rfl, hq⟩ | ⟨hne, -, hle⟩ | ⟨hne, rfl, L⟩
  · exact hq
  · have := List.length_pos_iff.mpr hne
    omega
  · have hpos := List.length_pos_iff.mpr hne
    rcases Nat.eq_zero_or_pos m with rfl | hm
    · omega
    · have := L.lt hpos (j := m - 1) (by omega)
      omega

/-- The loop writes after the contents, or nothing. -/
theorem Fits.ran (input : Buffer) (W : WellFormed s) (N : Faultless s.disk) (H : HasChain s h chain)
    (D : Wrote (fun c => c ∈ chain) s s₁) (hcur : (s₁.file h).currentCluster = (s.file h).firstCluster)
    (F : Fits s chain (s₁.file h).position.toNat count.toNat) :
    (appendLoop h count.toNat s₁ count ((s₁.file h).position % 512) input 0).1 = count ∧
      ∃ offset : Word, (0 < count.toNat → offset.toNat = (s₁.file h).position.toNat ∧ offset.toNat < 512 ∧
          (0 < offset.toNat → offset.toNat + count.toNat ≤ 512)) ∧
        Ran s s₁ (appendLoop h count.toNat s₁ count ((s₁.file h).position % 512) input 0).2 h chain 0 offset count
          input := by
  have hmod : ((s₁.file h).position % 512).toNat = (s₁.file h).position.toNat % 512 := BitVec.toNat_umod
  rcases Nat.eq_zero_or_pos count.toNat with h0 | hpos
  · obtain rfl : count = 0 := BitVec.eq_of_toNat_eq h0
    rw [appendLoop_zero]
    exact ⟨rfl, 0, fun h => absurd h (lt_irrefl 0), .zero _ _ _ _ _ _ _⟩
  have hplace : chain ≠ [] ∧ (s₁.file h).position.toNat < 512 ∧
      (0 < (s₁.file h).position.toNat → (s₁.file h).position.toNat + count.toNat ≤ 512) ∧
        ((s₁.file h).position.toNat = 0 → Leads s chain 0 count.toNat) := by
    rcases F with ⟨h0, -⟩ | ⟨hne, hq, hle⟩ | ⟨hne, hq, L⟩
    · omega
    · exact ⟨hne, by omega, fun _ => hle, fun h0 => by omega⟩
    · exact ⟨hne, by omega, fun h0 => by omega, fun _ => L⟩
  obtain ⟨hne, hlt, hone, hl⟩ := hplace
  rcases H.head with e | ⟨cs, e, hnodup⟩
  · exact absurd e hne
  have hoff : ((s₁.file h).position % 512).toNat = (s₁.file h).position.toNat := by omega
  have hzero : ∀ x : Word, x = 0 ↔ x.toNat = 0 := fun x => BitVec.toNat_eq
  obtain ⟨hret, R⟩ := appendLoop_run (h := h) (i := 0) (w := 0) input (D.cached W.cached) D.toSameVolume
    W.cached (D.toSameVolume.faultless N) W.sectorPerCluster hnodup (le_refl count.toNat)
    (show ((s₁.file h).position % 512).toNat < 512 by omega)
    (fun h0 => by rw [Ne, hzero] at h0; omega)
    (fun _ => by rw [hcur, e]; rfl)
    (fun h0 => hl (by rw [hzero] at h0; omega))
  exact ⟨hret.trans (BitVec.zero_add count), _, fun _ => ⟨hoff, by omega, fun h0 => by omega⟩, R⟩

/-- Bytes that fit are appended. -/
theorem append_extends (W : WellFormed s) (N : Faultless s.disk) (O : HasContent s h chain)
    (hs : fatSeek n s h 0 .end = some s₁) (hlen : d.length < 2 ^ 32)
    (hfit : Fits s chain (s₁.file h).position.toNat d.length) :
    ∃ r, fatAppend n s h (BitVec.ofNat 32 d.length) (Buffer.ofList d) = some r ∧
      Appended s s₁ r.2 h chain r.1 d := by
  have hd : (BitVec.ofNat 32 d.length).toNat = d.length := by rw [BitVec.toNat_ofNat, Nat.mod_eq_of_lt hlen]
  have D₁ : Wrote (fun _ => False) s s₁ := fatSeek_end_wrote W.cached hs
  have D₁' : Wrote (fun c => c ∈ chain) s s₁ := D₁.mono fun _ h => h.elim
  have hsame : ∀ l, s₁.disk.sector l = s.disk.sector l := fun l => by
    by_contra hne
    obtain ⟨_, h, -⟩ := D₁.sector l hne
    exact h
  obtain ⟨hret, offset, hoff, R⟩ := Fits.ran (Buffer.ofList d) W N O.clusters D₁' (fatSeek_end_current hs)
    (hd.symm ▸ hfit)
  have D := D₁'.trans R.wrote
  refine ⟨_, fatAppend_eq hs _ _, ?_, R.size, chain, List.prefix_rfl, O.clusters.of_wrote W D, hfit.le, ?_,
    fun l hl => .inl (D.sector l hl)⟩
  · rw [hret, hd]
  generalize (appendLoop h _ s₁ _ _ _ 0).2 = s' at R D
  have hbytes := R.bytes
  have hframe := R.frame
  rw [hd] at hbytes hframe hoff
  have hlba : ∀ i, lba s' chain i = lba s chain i := fun i => D.cluster2Lba_eq _
  have hspc : s'.bootSector.sectorPerCluster = 1 := by rw [D.bootSector, W.sectorPerCluster]
  unfold contents
  rw [chainBytes_append]
  congr 1
  · -- the bytes before are in the first sector
    apply List.map_congr_left
    intro x hx
    have hx := List.mem_range.mp hx
    rw [chainByte_eq hspc, chainByte_eq W.sectorPerCluster, hlba, hframe, hsame]
    intro j hj _
    obtain ⟨ho, hlt, hone⟩ := hoff (by omega)
    have := hone (by omega)
    omega
  · refine List.ext_getElem (by simp) fun j h1 h2 => ?_
    obtain ⟨ho, hlt, hone⟩ := hoff (by omega)
    have e := hbytes j h2
    rw [ho, Nat.zero_add] at e
    rw [List.getElem_map, List.getElem_range, chainByte_eq hspc, hlba, e]
    exact List.getD_eq_getElem _ _ h2

/-! ## A file of one byte -/

def textDisk : Disk :=
  { someDisk with sector := fun l => if l = 3 then Buffer.ofList [0x41] else someDisk.sector l }

/-- File `A` holds one byte. -/
def textFat : Driver := { someFat with disk := textDisk }

theorem wellFormed_textFat : WellFormed textFat where
  bytesPerSector := rfl
  sectorPerCluster := rfl
  fatType := .inl ⟨rfl, by decide⟩
  nbFat := by decide
  reserved := by decide
  fatSectors := by decide
  firstDataSector := by decide
  noWrap := by decide
  fits := wellFormed_someFat.fits
  copies := by
    intro copy hcopy i _
    have h : copy < 1 := hcopy
    rw [Nat.lt_one_iff.mp h]
  entries := by
    intro c hc
    rcases cluster_someFat hc with rfl | rfl | rfl | rfl | rfl | rfl | rfl | rfl
    case inl => exact .inr (.inr (by decide))
    case inr.inr.inl => exact .inr (.inl ⟨by decide, by decide⟩)
    case inr.inr.inr.inl => exact .inr (.inr (by decide))
    all_goals exact .inl (by decide)
  rootHandle := rfl
  fatOffset := rfl
  table := fun _ _ => rfl

theorem faultless_textFat : Faultless textFat.disk := ⟨fun _ => rfl, fun _ => rfl⟩

theorem hasContent_textFat : HasContent textFat 3 [2] := by
  refine ⟨rfl, .chain 2 [] rfl (by decide) (fun c hc => ?_) (.singleton 2) (by decide), fun _ => by decide⟩
  obtain rfl := List.mem_singleton.mp hc
  exact ⟨by decide, by decide⟩

theorem seek_textFat : ∃ s₁, fatSeek 1 textFat 3 0 .end = some s₁ ∧ (s₁.file 3).position = 1 := by
  have hlive : (textFat.file 3).firstCluster < 0xFFFFFFF8 := by decide
  have hfirst : FirstDelimiter (textFat.file 3).isDir (firstSector textFat 3) 1 :=
    ⟨by decide, by decide, by decide, by decide⟩
  refine ⟨_, fatSeek_found hlive hfirst 0 0, ?_⟩
  rw [file_setFile_self]
  rfl

theorem append_extends_textFat : ∃ s₁ r, fatAppend 1 textFat 3 1 (Buffer.ofList [0x42]) = some r ∧
    Appended textFat s₁ r.2 3 [2] r.1 [0x42] := by
  obtain ⟨s₁, hs, hpos⟩ := seek_textFat
  have hfits : Fits textFat [2] (s₁.file 3).position.toNat [(0x42 : Byte)].length := by
    rw [hpos]
    exact .inr (.inl ⟨by decide, by decide, by decide⟩)
  have hlen : [(0x42 : Byte)].length < 2 ^ 32 := by decide
  obtain ⟨r, hr, A⟩ := append_extends wellFormed_textFat faultless_textFat hasContent_textFat hs hlen hfits
  exact ⟨s₁, r, hr, A⟩

theorem enoughFree_textFat : EnoughFree textFat 4 := by
  refine ⟨[6, 7, 8, 9], by decide, le_refl 4, fun c hc => ?_⟩
  simp only [List.mem_cons, List.not_mem_nil, or_false] at hc
  rcases hc with rfl | rfl | rfl | rfl <;> exact ⟨⟨by decide, by decide⟩, by decide⟩

/-- 512 bytes are appended. The last one does not fit, and is written over the first byte of the file. -/
theorem append_not_extends : ¬ ∀ (s s₁ : Driver) (h : Int) (chain : List Word) (n : Nat) (d : List Byte),
    WellFormed s →
    Faultless s.disk → HasContent s h chain → fatSeek n s h 0 .end = some s₁ → d.length < 2 ^ 32 →
      EnoughFree s (d.length / 512 + 2) →
        ∃ r, fatAppend n s h (BitVec.ofNat 32 d.length) (Buffer.ofList d) = some r ∧
        Appended s s₁ r.2 h chain r.1 d := by
  intro H
  obtain ⟨s₁, hs, hpos⟩ := seek_textFat
  have hlen : (List.replicate 512 (0x42 : Byte)).length = 512 := List.length_replicate
  obtain ⟨r, hr, A⟩ := H textFat s₁ 3 [2] 1 (List.replicate 512 0x42) wellFormed_textFat faultless_textFat
    hasContent_textFat hs (by rw [hlen]; decide) (by
      rw [hlen]
      obtain ⟨cs, h1, h2, h3⟩ := enoughFree_textFat
      exact ⟨cs, h1, by omega, h3⟩)
  obtain ⟨chain', ⟨rest, rfl⟩, -, -, hcontent, -⟩ := A.content
  have hbyte : (fatAppend 1 textFat 3 512 (Buffer.ofList (List.replicate 512 0x42))).map
      (fun r => r.2.disk.sector (cluster2Lba r.2 2 + 0) 0) = some 0x42 := by decide +kernel
  rw [hlen] at hr
  rw [show (512 : Word) = BitVec.ofNat 32 512 from rfl, hr, Option.map_some, Option.some.injEq] at hbyte
  -- the first byte of what is read back
  have hhead := congrArg (fun x => x.getD 0 0) hcontent
  unfold contents at hhead
  rw [hlen, hpos] at hhead
  have hnew : chainByte r.2 ([2] ++ rest) 0 = 0x42 := by
    rw [← hbyte, chainByte, Nat.zero_div, Nat.zero_mod, Nat.zero_div]
    rfl
  have hold : chainByte textFat [2] 0 = 0x41 := by decide
  rw [show (1 : Word).toNat = 1 from rfl, Nat.add_comm, List.range_succ_eq_map] at hhead
  simp only [List.map_cons, List.getD_cons_zero, List.range_one, List.map_nil, List.cons_append, hold] at hhead
  exact absurd (hnew.symm.trans hhead) (by decide)

end

end AlexOS.Fat
