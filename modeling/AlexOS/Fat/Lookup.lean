import AlexOS.Fat.Entry
import AlexOS.Fat.Mounted

/-!
# Lookups after mounting

From `FAT_init` on, the cache holds the first sector of the FAT, and neither
`next_cluster` nor `find_free_cluster` changes anything (`Lookup.exec_same`).
`next_cluster` looks at an offset modulo 512 in this sector: the entries it
finds are those of the first 512 bytes of the FAT, and any other only if the
same bits are in the first sector too, at the offset modulo 512
(`nextCluster_iff`).
-/

namespace AlexOS.Fat

inductive Lookup
  | init
  | next (cluster : Word)
  | free

def Lookup.exec (s : Driver) : Lookup → Driver
  | .init => (fatInit s).2
  | .next cluster => (nextCluster s cluster).2
  | .free => (findFreeCluster s).2

/-- The first sector of the FAT is in the cache. -/
structure FirstSector (s : Driver) : Prop extends Cached s where
  readable : s.disk.readFails s.firstFatSector = false
  table : ∀ i < 512, s.table i = s.disk.sector s.firstFatSector i

/-- What `FAT_detec` finds. -/
def Detected (s : Driver) : Prop :=
  s.fatType = 12 ∧ s.totalClusters < 4085 ∨ s.fatType = 16 ∨ s.fatType = 32

/-- Sectors are of 512 bytes, and the clusters no more than the type of FAT allows. -/
structure FatVolume (s : Driver) : Prop where
  bytesPerSector : s.bootSector.bytesPerSector = 512
  fat16 : s.fatType = 16 → s.totalClusters.toNat < 65525
  fat32 : s.fatType = 32 → s.totalClusters.toNat < 0x0FFFFFF5

section

variable {s s' t t' : Driver} {c e : Word}

/-! ## Mounting -/

/-- The figures depend on the disk only, and the bytes after the table stay. -/
theorem fatInit_congr (hd : t.disk = s.disk) (ht : ∀ i, 512 ≤ i → t.table i = s.table i)
    (h : fatInit s = (true, s')) : (fatInit t).1 = true ∧ SameVolume s' (fatInit t).2 ∧
      (fatInit t).2.disk = s'.disk := by
  rw [fatInit] at h ⊢
  simp only [readBootSector, Disk.read, hd] at h ⊢
  split at h
  · simp at h
  rename_i hb
  rw [if_neg hb]
  simp only [Bool.false_eq_true, if_false] at h ⊢
  simp only [readFat, Disk.read, layout, clearOpenedFiles] at h ⊢
  split at h
  · simp at h
  rename_i hf
  rw [if_neg hf]
  simp only [Bool.false_eq_true, if_false, Prod.mk.injEq, true_and] at h ⊢
  subst h
  refine ⟨⟨rfl, rfl, ?_, rfl, rfl, rfl, rfl, rfl, rfl, rfl, rfl⟩, rfl⟩
  funext i
  show t.table.copy 0 _ SECTOR_SIZE i = s.table.copy 0 _ SECTOR_SIZE i
  rw [Buffer.copy, Buffer.copy]
  split
  · rfl
  · rename_i hi
    exact ht i (by simp only [SECTOR_SIZE] at hi; omega)

theorem fatDetec_detected (s : Driver) : Detected (fatDetec s) := by
  simp only [Detected, fatDetec]
  split
  · exact .inr (.inr rfl)
  · split
    · rename_i h
      exact .inl ⟨rfl, h⟩
    · exact .inr (.inl rfl)

/-- It leaves the disk and the bytes after the table, and finds the type of the FAT. -/
theorem fatInit_keeps (h : fatInit s = (true, s')) : s'.disk = s.disk ∧
    (∀ i, 512 ≤ i → s'.table i = s.table i) ∧ Detected s' := by
  obtain ⟨hb, hf, rfl⟩ := fatInit_success h
  have hboot : (readBootSector s).2 = { s with bootSector := BootSector.ofSector (s.disk.read 0 fun _ => 0).2 } :=
    if_neg hb
  obtain ⟨-, hread⟩ := readFat_success hf
  rw [hread, hboot]
  refine ⟨rfl, fun i hi => ?_, fatDetec_detected _⟩
  show (s.table.copy 0 _ SECTOR_SIZE) i = _
  rw [Buffer.copy, if_neg (by rw [SECTOR_SIZE]; omega)]

theorem fatInit_firstSector (h : fatInit s = (true, s')) (hb : s'.bootSector.bytesPerSector = 512) :
    FirstSector s' := by
  obtain ⟨hb', hf, rfl⟩ := fatInit_success h
  have hboot : (readBootSector s).2 = { s with bootSector := BootSector.ofSector (s.disk.read 0 fun _ => 0).2 } :=
    if_neg hb'
  obtain ⟨hf, hread⟩ := readFat_success hf
  rw [hboot] at hf hread
  rw [hboot, hread] at hb ⊢
  have e : ∀ l : Word, l + (0 : Byte).setWidth 32 = l := fun l => BitVec.add_zero l
  rw [e] at hf
  refine ⟨⟨hb, rfl⟩, Bool.eq_false_iff.mpr hf, fun i hi => ?_⟩
  show (s.table.copy 0 _ SECTOR_SIZE) i = _
  rw [Buffer.copy, if_pos ⟨Nat.zero_le i, by rw [SECTOR_SIZE]; omega⟩, e, Nat.sub_zero]
  rfl

/-! ## Lookups change nothing -/

theorem readFat_zero (F : FirstSector s) : readFat s 0 = (false, s) := by
  have e : s.table.copy 0 (s.disk.sector s.firstFatSector) SECTOR_SIZE = s.table := by
    funext i
    rw [Buffer.copy]
    split
    · rename_i hi
      rw [Nat.sub_zero, F.table i (by simp only [SECTOR_SIZE] at hi; omega)]
    · rfl
  have e0 : s.firstFatSector + (0 : Byte).setWidth 32 = s.firstFatSector := BitVec.add_zero _
  simp only [readFat, Disk.read, e0, F.readable, Bool.false_eq_true, if_false, e]
  rw [← F.fatOffset]

theorem scanClusters_ok (F : FirstSector s) (n : Nat) (i : Word) : (scanClusters n s i).2 = s := by
  induction n generalizing i with
  | zero => rfl
  | succ n ih =>
    have e : (if i > s.fatOffset.setWidth 32 * 512 + 512 then (readFat s 0).2 else s) = s := by
      rw [readFat_zero F, ite_self]
    simp only [scanClusters, setWidth_sub_mod, e, nextCluster_ok F.toCached]
    split
    · rfl
    · exact ih _

theorem findFreeCluster_ok (F : FirstSector s) : (findFreeCluster s).2 = s := by
  have e : (if s.fatOffset ≠ 0 then (readFat s 0).2 else s) = s := if_neg (not_not.mpr F.fatOffset)
  simp only [findFreeCluster, e]
  exact scanClusters_ok F _ _

theorem SameVolume.firstSector (S : SameVolume s s') (hd : s'.disk = s.disk) (F : FirstSector s) :
    FirstSector s' where
  toCached := S.cached F.toCached
  readable := by rw [hd, S.firstFatSector, F.readable]
  table i hi := by rw [hd, S.firstFatSector, S.table, F.table i hi]

/-- The volume that was mounted stays, with the cache, whatever is looked up. -/
theorem Lookup.exec_same (h : fatInit s = (true, s')) (hb : s'.bootSector.bytesPerSector = 512)
    (S : SameVolume s' t) (hd : t.disk = s'.disk) (call : Lookup) :
    SameVolume s' (call.exec t) ∧ (call.exec t).disk = s'.disk := by
  have F : FirstSector t := S.firstSector hd (fatInit_firstSector h hb)
  cases call with
  | init =>
    obtain ⟨hd', ht, -⟩ := fatInit_keeps h
    exact (fatInit_congr (hd.trans hd') (fun i hi => by rw [S.table, ht i hi]) h).2
  | next cluster =>
    rw [Lookup.exec, nextCluster_ok F.toCached]
    exact ⟨S, hd⟩
  | free =>
    rw [Lookup.exec, findFreeCluster_ok F]
    exact ⟨S, hd⟩

theorem lookups_same (h : fatInit s = (true, s')) (hb : s'.bootSector.bytesPerSector = 512)
    (calls : List Lookup) (S : SameVolume s' t) (hd : t.disk = s'.disk) :
    SameVolume s' (calls.foldl Lookup.exec t) ∧ (calls.foldl Lookup.exec t).disk = s'.disk := by
  induction calls generalizing t with
  | nil => exact ⟨S, hd⟩
  | cons call calls ih =>
    obtain ⟨S', hd'⟩ := Lookup.exec_same h hb S hd call
    exact ih S' hd'

/-! ## What is found -/

/-- The first sector of the FAT, then the memory after the table. -/
def firstBytes (s : Driver) : Buffer := fun i => if i < 512 then fatBytes s 0 i else s.table i

theorem FirstSector.firstBytes_eq (F : FirstSector s) : firstBytes s = s.table := by
  funext i
  rw [firstBytes]
  split
  · rename_i hi
    rw [fatBytes_first hi, F.table i hi]
  · rfl

theorem setWidth_extend {fatType : Byte} (ht : KnownType fatType) (v : Word) :
    (extend fatType v).setWidth fatType.toNat = v.setWidth fatType.toNat := by
  have hor : ∀ (w : Nat) (m : Word), (∀ j < w, m.getLsbD j = false) → (v ||| m).setWidth w = v.setWidth w := by
    intro w m hm
    apply BitVec.eq_of_getLsbD_eq
    intro j hj
    rw [BitVec.getLsbD_setWidth, BitVec.getLsbD_setWidth, BitVec.getLsbD_or, hm j hj, Bool.or_false]
  obtain rfl | rfl | rfl := ht
  · show (if v ≥ 0x0FF8 then v ||| 0xFFFFF000 else v).setWidth 12 = v.setWidth 12
    split
    · exact hor 12 _ (by decide)
    · rfl
  · show (if v ≥ 0xFFF8 then v ||| 0xFFFF0000 else v).setWidth 16 = v.setWidth 16
    split
    · exact hor 16 _ (by decide)
    · rfl
  · rfl

/-- Different values of an entry are extended to different words. -/
theorem extend_field_inj {fatType : Byte} (ht : KnownType fatType) {b b' : Buffer} {k k' : Nat}
    (h : extend fatType (b.field k fatType.toNat) = extend fatType (b'.field k' fatType.toNat)) :
    b.field k fatType.toNat = b'.field k' fatType.toNat := by
  rw [← Buffer.setWidth_field ht.width_le, ← setWidth_extend ht, h, setWidth_extend ht,
    Buffer.setWidth_field ht.width_le]

theorem FatVolume.offset_lt (V : FatVolume s) (D : Detected s) (hc : IsCluster s c) :
    s.fatType.toNat * c.toNat < 8 * 2 ^ 32 := by
  have hlt := hc.2
  obtain ⟨h, hn⟩ | h | h := D
  · have hn' : s.totalClusters.toNat < 4085 := hn
    rw [h, show (12 : Byte).toNat = 12 from rfl]
    omega
  · have hn := V.fat16 h
    rw [h, show (16 : Byte).toNat = 16 from rfl]
    omega
  · have hn := V.fat32 h
    rw [h, show (32 : Byte).toNat = 32 from rfl]
    omega

theorem Detected.known (D : Detected s) : KnownType s.fatType := by
  obtain ⟨h, -⟩ | h | h := D
  · exact .inl h
  · exact .inr (.inl h)
  · exact .inr (.inr h)

/-- The entry is that at bit `w * c` of the FAT. -/
theorem fatEntry_field (ht : KnownType s.fatType) (hc : s.fatType.toNat * c.toNat < 8 * 2 ^ 32) (copy : Nat) :
    fatEntry s copy c =
      extend s.fatType ((fatBytes s copy).field (s.fatType.toNat * c.toNat) s.fatType.toNat) := by
  obtain ⟨e, he, hbits⟩ := entryOffset_eq ht hc
  simp only [fatEntry, he]
  rw [decode_eq ht, hbits]

/-- The offset modulo 512 is that of the bits modulo the bits of a sector. -/
theorem entry_mod {fatType : Byte} (ht : KnownType fatType) (hc : fatType.toNat * c.toNat < 8 * 2 ^ 32)
    (he : entryOffset fatType c = some e) :
    8 * (e % 512).toNat + entryShift fatType c = fatType.toNat * c.toNat % (8 * 512) := by
  obtain ⟨e', he', hbits⟩ := entryOffset_eq ht hc
  obtain rfl : e' = e := by rwa [he', Option.some.injEq] at he
  have hshift : entryShift fatType c < 8 := by
    rw [entryShift]
    split <;> omega
  rw [← hbits, BitVec.toNat_umod, show (512 : Word).toNat = 512 from rfl]
  omega

/-- The one that `next_cluster` looks at is in the first 512 bytes. -/
theorem successor_field (ht : KnownType s.fatType) (hc : s.fatType.toNat * c.toNat < 8 * 2 ^ 32) :
    successor s c = extend s.fatType
      (s.table.field (s.fatType.toNat * c.toNat % (8 * 512)) s.fatType.toNat) := by
  obtain ⟨e, he, -⟩ := entryOffset_eq ht hc
  simp only [successor, he]
  rw [decode_eq ht, entry_mod ht hc he]

/-- In the first sector, and by chance: where the bits at the same place in it are the same. -/
theorem nextCluster_iff {s₀ s₁ : Driver} {calls : List Lookup} (h : fatInit s₀ = (true, s₁))
    (V : FatVolume s₁) (hs : calls.foldl Lookup.exec s₁ = s) (hc : IsCluster s c) :
    (nextCluster s c).1 = fatEntry s 0 c ↔ EntryInside s.fatType c ∨
      (firstBytes s).field (s.fatType.toNat * c.toNat % (8 * 512)) s.fatType.toNat =
        (fatBytes s 0).field (s.fatType.toNat * c.toNat) s.fatType.toNat := by
  obtain ⟨S, hd⟩ := lookups_same h V.bytesPerSector calls (.refl s₁) rfl
  rw [hs] at S hd
  have F : FirstSector s := S.firstSector hd (fatInit_firstSector h V.bytesPerSector)
  have hlt : s.fatType.toNat * c.toNat < 8 * 2 ^ 32 := by
    rw [S.fatType]
    exact V.offset_lt (fatInit_keeps h).2.2 (by rwa [IsCluster, ← S.totalClusters])
  have ht : KnownType s.fatType := S.fatType ▸ (fatInit_keeps h).2.2.known
  rw [nextCluster_ok F.toCached, fatEntry_field ht hlt, successor_field ht hlt, F.firstBytes_eq]
  constructor
  · exact fun e => .inr (extend_field_inj ht e)
  · rintro (hin | e)
    · have hin : s.fatType.toNat * (c.toNat + 1) ≤ 8 * 512 := hin
      rw [mul_add, mul_one] at hin
      have hw := ht.width_pos
      rw [Nat.mod_eq_of_lt (by omega)]
      refine congrArg (extend s.fatType) (Buffer.field_congr ht.width_le fun j hj => Buffer.bit_congr ?_)
      rw [F.table _ (by omega), fatBytes_first (by omega)]
    · rw [e]

/-! ## A FAT of two sectors -/

/-- 400 clusters with 12 bits to an entry: the chain of cluster 342 goes on with cluster 5. -/
def twoSectors : Disk where
  sector l :=
    if l = 0 then Buffer.ofList [0, 0, 0, 0, 0, 0, 0, 0, 0, 0, 0, 0x00, 0x02, 1, 1, 0, 1, 16, 0, 0x94, 0x01, 0, 2, 0]
    else if l = 2 then Buffer.ofList [0x00, 0x05, 0x00]
    else fun _ => 0
  readFails _ := false
  writeFails _ := false

def unmountedTwo : Driver := { someFat with disk := twoSectors }

def mountedTwo : Driver := (fatInit unmountedTwo).2

theorem fatInit_twoSectors : fatInit unmountedTwo = (true, mountedTwo) := Prod.ext (by decide) rfl

theorem fatVolume_mountedTwo : FatVolume mountedTwo := ⟨by decide, by decide, by decide⟩

theorem nextCluster_iff_mountedTwo : (nextCluster mountedTwo 300).1 = fatEntry mountedTwo 0 300 :=
  (@nextCluster_iff mountedTwo 300 unmountedTwo mountedTwo [] fatInit_twoSectors fatVolume_mountedTwo rfl
    (show 2 ≤ 300 ∧ 300 < mountedTwo.totalClusters.toNat + 2 from by decide)).mpr
    (.inl (by decide))

theorem nextCluster_ne_fatEntry : ¬ ∀ (s₀ s₁ s : Driver) (calls : List Lookup) (c : Word),
    fatInit s₀ = (true, s₁) → FatVolume s₁ → calls.foldl Lookup.exec s₁ = s → IsCluster s c →
      (nextCluster s c).1 = fatEntry s 0 c := fun h =>
  absurd (h unmountedTwo mountedTwo mountedTwo [] 342 fatInit_twoSectors fatVolume_mountedTwo rfl
      (show 2 ≤ 342 ∧ 342 < mountedTwo.totalClusters.toNat + 2 from by decide)) (by decide)

end

end AlexOS.Fat
