import AlexOS.Fat.Names
import AlexOS.Stage2.Slots

/-!
# What a path denotes in the bootloader

The components of a path lead from directory to directory on the disk
(`Denotes`). `FAT_Open` looks each of them up by a string in a local buffer,
which ends after the component if a slash follows it. After the last component
the 0 is a byte too far, and the byte before it stays what it was (`leftover`).
So the lookups are those of the components exactly if that byte does not show
in the eleven bytes of the name (`resolves_iff`).
-/

namespace AlexOS.Stage2

open Fat (ShortName)

inductive Dir
  | root
  | sub (firstCluster : Word)

/-- The entries of a directory. -/
def dirEntry (p : Partition) (s₀ : FatData) : Dir → Nat → DirectoryEntry
  | .root, i => rootEntry p s₀ i
  | .sub c, i => entryAt (p.bytes (fatClusterToLba s₀ ((fatEntry p s₀)^[i / 16 / s₀.clusterSectors] c) +
      BitVec.ofNat 32 (i / 16 % s₀.clusterSectors))) (32 * (i % 16))

/-- The chain of a directory has `n` clusters. -/
structure ChainOf (p : Partition) (s₀ : FatData) (c : Word) (n : Nat) : Prop where
  pos : 0 < n
  inner : ∀ i < n, 0 < i → ¬ IsEnd s₀.fatType ((fatEntry p s₀)^[i] c)
  last : IsEnd s₀.fatType ((fatEntry p s₀)^[n] c)

/-- How many entries a directory has. -/
def DirLength (p : Partition) (s₀ : FatData) : Dir → Nat → Prop
  | .root, n => n = entryCount s₀
  | .sub c, n => ∃ k, ChainOf p s₀ c k ∧ n = 16 * (s₀.clusterSectors * k)

/-- What a directory has under a name. -/
def Has (p : Partition) (s₀ : FatData) (d : Dir) (N : List Byte) (o : Option DirectoryEntry) : Prop :=
  ∃ n m, DirLength p s₀ d n ∧ Search (dirEntry p s₀ d) n N o m

/-- The eleven bytes of a component that is a short name. -/
def NameOf (component N : List Byte) : Prop := ∃ n : ShortName, component = n.text ∧ N = n.encoded

/-- What components denote, from a directory on: nothing if one is missing, or one before a slash is no directory. -/
inductive Denotes (p : Partition) (s₀ : FatData) : Dir → List (List Byte × Bool) → Option DirectoryEntry → Prop
  | missing {d x N path o} (name : NameOf x.1 N) (has : Has p s₀ d N o) (ho : openable x.2 o = none) :
      Denotes p s₀ d (x :: path) none
  | last {d x N o e} (name : NameOf x.1 N) (has : Has p s₀ d N o) (ho : openable x.2 o = some e) :
      Denotes p s₀ d [x] (some e)
  | next {d x N y path o e r} (name : NameOf x.1 N) (has : Has p s₀ d N o) (ho : openable x.2 o = some e)
      (rest : Denotes p s₀ (.sub e.firstCluster) (y :: path) r) : Denotes p s₀ d (x :: y :: path) r

/-- `D` has the directories that components lead to. `FAT_Read` reads all of them: their clusters are below 0x0FF8, and
no entry of the FAT is cut. -/
structure DirTree (p : Partition) (s₀ : FatData) (D : Set Word) (path : List (List Byte × Bool)) : Prop where
  entries : ∀ d, (∀ c, d = .sub c → c ∈ D) → ∀ x ∈ path, ∀ e, Has p s₀ d (fatName x.1) (some e) →
    e.isDirectory = true → e.firstCluster ∈ D ∧ e.fileSize = 0
  chain : ∀ c ∈ D, ∃ n, ChainOf p s₀ c n ∧
    ∀ i < n, (fatEntry p s₀)^[i] c < 0x0FF8 ∧ Whole s₀.fatType ((fatEntry p s₀)^[i] c)

/-- Each lookup that a run makes is for the component of the path. -/
def LooksUp (p : Partition) : List (List Byte × Bool) → Buffer → FatData → Int → Prop
  | [], _, _, _ => True
  | x :: path, name, s, h => NameOf x.1 (searchName name x) ∧
      ∀ fuel e t handle u, findLoop p h (searchName name x) fuel s = some (some e, t) →
        openable x.2 (some e) = some e → fatOpenEntry p (fatClose t h) e = (some handle, u) →
          LooksUp p path (setName name x.1 x.2) u handle

/-- `FAT_Open` looks up the components of a path, and returns the file that they denote. -/
def Resolves (p : Partition) (name : Buffer) (s : FatData) (path : List Byte) : Prop :=
  let path' := components [] (stripPath path)
  LooksUp p path' name s ROOT_DIRECTORY_HANDLE ∧ ∃ fuel r, fatOpen fuel p name s path = some r ∧
    (path' = [] → r.1 = some ROOT_DIRECTORY_HANDLE) ∧
      (path' ≠ [] → ∃ o, Denotes p s .root path' o ∧ outcome r = o.map fun e => (e.key, 0))

/-- What is in the local buffer after the last component, up to a 0. -/
def leftover (name : Buffer) (component : List Byte) : List Byte :=
  if name component.length = 0 then [] else [name component.length]

/-- The path leads to its last component, with the local buffer as it is then. -/
inductive ComesTo (p : Partition) (s₀ : FatData) :
    Dir → Buffer → List (List Byte × Bool) → List Byte → Buffer → Prop
  | last {d name component} : ComesTo p s₀ d name [(component, true)] component name
  | next {d name x path o e component name'} (h : Has p s₀ d (fatName x.1) o) (ho : openable x.2 o = some e)
      (hrest : ComesTo p s₀ (.sub e.firstCluster) (setName name x.1 x.2) path component name') :
      ComesTo p s₀ d name (x :: path) component name'

/-- If the path leads to its last component, what is left after it in the buffer does not change the name. -/
def Unharmed (p : Partition) (s₀ : FatData) (name : Buffer) (path : List Byte) : Prop :=
  ∀ component name', ComesTo p s₀ .root name (components [] (stripPath path)) component name' →
    fatName (component ++ leftover name' component) = fatName component

section

variable {p : Partition} {s s₀ t : FatData} {D : Set Word} {c : Word} {d : Dir} {m n k len : Nat} {N : List Byte}
  {o : Option DirectoryEntry} {name : Buffer} {h : Int}

/-! ## The name in the buffer -/

theorem takeWhile_append_zero {xs ys : List Byte} (hx : ∀ b ∈ xs, b ≠ 0) :
    (xs ++ 0 :: ys).takeWhile (· ≠ 0) = xs := by
  rw [List.takeWhile_append_of_pos fun b hb => decide_eq_true (hx b hb)]
  simp

theorem setName_apply (component : List Byte) (isLast : Bool) {i : Nat} (hi : i ≤ component.length) :
    setName name component isLast i =
      if i < component.length then component.getD i 0 else if isLast then name i else 0 := by
  simp only [setName, Buffer.fill, Buffer.copy, Buffer.ofList]
  cases isLast with
  | true =>
    rw [if_pos rfl, if_neg (by omega)]
    simp
  | false =>
    rw [if_neg Bool.false_ne_true]
    by_cases hlt : i < component.length
    · simp [hlt, Nat.not_le.mpr hlt]
    · obtain rfl : i = component.length := by omega
      simp

/-- A component is looked up by its characters, and what is left after the last. -/
theorem stringOf_setName (component : List Byte) (isLast : Bool) (hx : ∀ b ∈ component, b ≠ 0) :
    stringOf (setName name component isLast) (component.length + 1) =
      component ++ if isLast then leftover name component else [] := by
  have hslice : (setName name component isLast).slice 0 (component.length + 1) =
      component ++ [if isLast then name component.length else 0] := by
    apply List.ext_getElem
    · simp
    · intro i hi hi'
      rw [Buffer.length_slice] at hi
      simp only [Buffer.slice, List.getElem_map, List.getElem_range, Nat.zero_add]
      rw [setName_apply component isLast (by omega)]
      by_cases hlt : i < component.length
      · rw [if_pos hlt, List.getElem_append_left hlt, List.getD_eq_getElem _ _ hlt]
      · obtain rfl : i = component.length := by omega
        simp
  rw [stringOf, hslice]
  cases isLast with
  | false => rw [if_neg Bool.false_ne_true, if_neg Bool.false_ne_true, takeWhile_append_zero hx, List.append_nil]
  | true =>
    rw [if_pos rfl, if_pos rfl, leftover]
    by_cases h0 : name component.length = 0
    · rw [h0, if_pos rfl, takeWhile_append_zero hx, List.append_nil]
    · rw [if_neg h0]
      refine List.takeWhile_eq_self_iff.mpr fun b hb => decide_eq_true ?_
      rcases List.mem_append.mp hb with hb | hb
      · exact hx b hb
      · rwa [List.mem_singleton.mp hb]

theorem searchName_eq (name : Buffer) {x : List Byte × Bool} (hx : ∀ b ∈ x.1, b ≠ 0) :
    searchName name x = fatName (x.1 ++ if x.2 then leftover name x.1 else []) := by
  rw [searchName, stringOf_setName x.1 x.2 hx]

theorem text_ne_zero (n : ShortName) : ∀ b ∈ n.text, b ≠ 0 := by
  intro b hb
  rw [ShortName.text] at hb
  split at hb
  · exact (n.base_chars b hb).1
  · rcases List.mem_append.mp hb with hb | hb
    · exact (n.base_chars b hb).1
    · rcases List.mem_cons.mp hb with rfl | hb
      · decide
      · exact (n.ext_chars b hb).1

/-! ## Directories -/

theorem ChainOf.unique (K : ChainOf p s₀ c n) (L : ChainOf p s₀ c k) : n = k := by
  rcases Nat.lt_trichotomy n k with hlt | e | hlt
  · exact absurd K.last (L.inner n hlt K.pos)
  · exact e
  · exact absurd L.last (K.inner k hlt L.pos)

theorem DirLength.unique (h : DirLength p s₀ d n) (h' : DirLength p s₀ d k) : n = k := by
  cases d with
  | root => exact Eq.trans h (Eq.symm h')
  | sub c =>
    obtain ⟨i, K, rfl⟩ := h
    obtain ⟨j, L, rfl⟩ := h'
    rw [K.unique L]

theorem Has.unique {o' : Option DirectoryEntry} (H : Has p s₀ d N o) (H' : Has p s₀ d N o') : o = o' := by
  obtain ⟨n, m, hn, hs⟩ := H
  obtain ⟨n', m', hn', hs'⟩ := H'
  obtain rfl := hn.unique hn'
  exact (hs.unique hs').1

/-- A directory of limited length has an entry with the name, or none. -/
theorem exists_search (e : Nat → DirectoryEntry) (hn : n ≠ 0) (N : List Byte) : ∃ o m, Search e n N o m := by
  classical
  by_cases hfound : ∃ i, i < n ∧ N = (e i).fileName
  · obtain ⟨hi, hname⟩ := Nat.find_spec hfound
    exact ⟨_, _, .found (.inr hi) (fun j hj hne => Nat.find_min hfound hj ⟨hj.trans hi, hne⟩) hname⟩
  · exact ⟨none, n, .missing hn fun j hj hne => hfound ⟨j, hj, hne⟩⟩

/-- A directory of a file that was opened, `m` entries after its start. -/
structure SubAt (p : Partition) (s₀ : FatData) (c : Word) (m : Nat) (s : FatData) : Prop where
  volume : OnVolume p s₀ s
  handle : (s.file 0).handle = 0
  isDirectory : (s.file 0).isDirectory = true
  size : (s.file 0).size = 0
  place : ∃ j sector, DirAt p s₀ c j sector m (s.file 0)

/-- `FAT_Read` reads the chain of a directory. -/
structure ReadChain (p : Partition) (s₀ : FatData) (c : Word) (n : Nat) : Prop extends ChainOf p s₀ c n where
  below : ∀ i < n, (fatEntry p s₀)^[i] c < 0x0FF8
  whole : ∀ i < n, Whole s₀.fatType ((fatEntry p s₀)^[i] c)

theorem SubAt.aligned (A : SubAt p s₀ c m s) : (s.file 0).position.toNat % 32 = 0 := by
  obtain ⟨j, sector, P⟩ := A.place
  rw [P.position, BitVec.toNat_ofNat]
  omega

theorem SubAt.entry_eq (A : SubAt p s₀ c m s) :
    entryAt (s.file 0).buffer ((s.file 0).position.toNat % 512) = dirEntry p s₀ (.sub c) m := by
  obtain ⟨j, sector, P⟩ := A.place
  have hlt := P.sector_lt
  have hpos : (s.file 0).position.toNat % 512 = 32 * (m % 16) := by
    rw [P.position, BitVec.toNat_ofNat]
    omega
  obtain ⟨hj, hsector⟩ : m / 16 / s₀.clusterSectors = j ∧ m / 16 % s₀.clusterSectors = sector :=
    (Nat.div_mod_unique (by omega)).mpr ⟨by rw [P.place, Nat.add_comm], hlt⟩
  rw [hpos, dirEntry, hj, hsector, ← P.cluster, ← P.sectorInCluster]
  exact entryAt_congr fun i hi => P.buffer _ (by omega)

/-- The size of a directory is set where its chain ends. -/
theorem size_entryRead {fd : FileData} {v : Word} {j sector : Nat} (P : DirAt p s₀ c j sector m fd)
    (hv : v = (fatEntry p s₀)^[j + 1] c) (hcur : fd.currentCluster < 0x0FF8) :
    (entryRead p s₀ v fd).size =
      if m % 16 = 15 ∧ sector + 1 = s₀.clusterSectors ∧
        ¬ (fatEntry p s₀)^[j + 1] c < 0x0FF8 then fd.position + 32
      else fd.size := by
  have hpos : fd.position.toNat % 512 = 480 ↔ m % 16 = 15 := by
    rw [P.position, BitVec.toNat_ofNat]
    omega
  have hcur' : ¬ fd.currentCluster ≥ 0x0FF8 := BitVec.not_le.mpr hcur
  simp only [entryRead, stepFile, hpos, P.isLast_iff, ← hv, BitVec.not_lt]
  by_cases hm : m % 16 = 15
  swap
  · rw [if_neg hm, if_neg fun h => hm h.1]
  rw [if_pos hm]
  by_cases hl : sector + 1 = s₀.clusterSectors
  · by_cases hend : v ≥ 0x0FF8
    · simp only [hm, hl, hend, and_self, if_true]
    · simp only [if_pos hl, hend, and_false, if_false]
  · simp only [if_neg hcur', hl, false_and, and_false, if_false]

/-- An entry is read, and the next is there unless it was the last. -/
theorem SubAt.step (A : SubAt p s₀ c m s) (K : ReadChain p s₀ c n) (hm : m < 16 * (s₀.clusterSectors * n)) :
    ∃ t, fatReadEntry p s 0 = (some (dirEntry p s₀ (.sub c) m), t) ∧ OnVolume p s₀ t ∧
      (m + 1 < 16 * (s₀.clusterSectors * n) → SubAt p s₀ c (m + 1) t) ∧
        (m + 1 = 16 * (s₀.clusterSectors * n) → (t.file 0).position.toNat % 32 = 0 ∧ ¬ HasEntry (t.file 0)) := by
  obtain ⟨j, sector, P⟩ := A.place
  have hplace := P.place
  have hlt := P.sector_lt
  have hj : j < n := by
    refine Nat.lt_of_mul_lt_mul_left (a := s₀.clusterSectors) ?_
    omega
  obtain ⟨V, -, v, hv, hfile⟩ := afterEntry_file A.volume A.handle
  have hv : v = (fatEntry p s₀)^[j + 1] c := by
    rw [hv (P.cluster ▸ K.whole j hj), P.cluster, Function.iterate_succ_apply']
  have hsize := size_entryRead P hv (P.cluster ▸ K.below j hj)
  obtain ⟨hh, hp, hd⟩ := entryRead_kept p s₀ v (s.file 0)
  have hread := fatReadEntry_some (p := p) A.aligned (.inl ⟨A.isDirectory, A.size⟩)
  rw [A.entry_eq] at hread
  refine ⟨_, hread, V, fun hmore => ?_, fun hend => ?_⟩
  · -- a sector is left, or a cluster
    have hsame : (entryRead p s₀ v (s.file 0)).size = 0 := by
      rw [hsize, if_neg, A.size]
      rintro ⟨h15, hl, hb⟩
      refine hb (K.below _ (Nat.lt_of_mul_lt_mul_left (a := s₀.clusterSectors) ?_))
      rw [Nat.mul_add]
      omega
    have he : HasEntry (entryRead p s₀ v (s.file 0)) := .inl ⟨hd.trans A.isDirectory, hsame⟩
    refine ⟨V, by rw [hfile, hh, A.handle], by rw [hfile, hd, A.isDirectory], by rw [hfile, hsame], ?_⟩
    rw [hfile]
    by_cases h15 : m % 16 = 15
    · exact P.across h15 (by rw [hv, P.cluster, Function.iterate_succ_apply']) he
    · exact ⟨j, sector, P.within h15⟩
  · -- the last entry of the last cluster
    have hlast : m % 16 = 15 ∧ sector + 1 = s₀.clusterSectors ∧ j + 1 = n := by
      have hq : s₀.clusterSectors * j + (sector + 1) = s₀.clusterSectors * n := by omega
      have hle : s₀.clusterSectors * n ≤ s₀.clusterSectors * (j + 1) := by
        rw [Nat.mul_add]
        omega
      have hn := Nat.le_of_mul_le_mul_left hle (by omega)
      obtain rfl : n = j + 1 := by omega
      rw [Nat.mul_add] at hq
      exact ⟨by omega, by omega, rfl⟩
    obtain ⟨h15, hl, rfl⟩ := hlast
    have hnot : ¬ (fatEntry p s₀)^[j + 1] c < 0x0FF8 := BitVec.not_lt.mpr (le_of_isEnd K.last)
    rw [hfile]
    refine ⟨?_, P.not_hasEntry (P.le hnot) h15 hp ?_⟩
    · have := A.aligned
      rw [hp, BitVec.toNat_add, show (32 : Word).toNat = 32 from rfl]
      omega
    · rw [hsize, if_pos ⟨h15, hl, hnot⟩, hp]

/-- A search of the rest of a directory ends with what the directory has. -/
theorem SubAt.findLoop (A : SubAt p s₀ c m s) (K : ReadChain p s₀ c n) (hm : m < 16 * (s₀.clusterSectors * n))
    (hbefore : ∀ j < m, N ≠ (dirEntry p s₀ (.sub c) j).fileName)
    (hs : Search (dirEntry p s₀ (.sub c)) (16 * (s₀.clusterSectors * n)) N o k) :
    ∃ fuel t, findLoop p 0 N fuel s = some (o, t) ∧ OnVolume p s₀ t := by
  obtain ⟨d, hd⟩ : ∃ d, m + d + 1 = 16 * (s₀.clusterSectors * n) :=
    ⟨16 * (s₀.clusterSectors * n) - m - 1, by omega⟩
  induction d generalizing m s with
  | zero =>
    obtain ⟨t, ht, V, -, hend⟩ := A.step K hm
    obtain ⟨hal, hno⟩ := hend hd
    by_cases hname : N = (dirEntry p s₀ (.sub c) m).fileName
    · have hfound := Search.found (.inr hm) hbefore hname
      refine ⟨1, t, ?_, V⟩
      rw [Stage2.findLoop, ht, (hs.unique hfound).1]
      exact if_pos hname
    · have hmissing : Search (dirEntry p s₀ (.sub c)) (16 * (s₀.clusterSectors * n)) N none _ :=
        .missing (by omega) (by rw [← hd]; exact Nat.forall_lt_succ_right.mpr ⟨hbefore, hname⟩)
      refine ⟨2, t.setFile 0 { t.file 0 with position := (t.file 0).size }, ?_, V.setFile _ _⟩
      rw [Stage2.findLoop, ht]
      dsimp only
      rw [if_neg hname, Stage2.findLoop, fatReadEntry_none hal hno, (hs.unique hmissing).1]
  | succ d ih =>
    obtain ⟨t, ht, V, hmore, -⟩ := A.step K hm
    by_cases hname : N = (dirEntry p s₀ (.sub c) m).fileName
    · have hfound := Search.found (.inr hm) hbefore hname
      refine ⟨1, t, ?_, V⟩
      rw [Stage2.findLoop, ht, (hs.unique hfound).1]
      exact if_pos hname
    · obtain ⟨fuel, u, hu, Vu⟩ := ih (hmore (by omega)) (by omega)
        (Nat.forall_lt_succ_right.mpr ⟨hbefore, hname⟩) (by omega)
      refine ⟨fuel + 1, u, ?_, Vu⟩
      rw [Stage2.findLoop, ht]
      exact (if_neg hname).trans hu

/-- A run of `FAT_Open` has come to a directory. -/
inductive At (p : Partition) (s₀ : FatData) (D : Set Word) : Dir → Int → FatData → Prop
  | root {u : FatData} (idle : Idle p s₀ 0 u) : At p s₀ D .root ROOT_DIRECTORY_HANDLE u
  | sub {u : FatData} {b : Buffer} (e : DirectoryEntry) (volume : OnVolume p s₀ u) (mem : e.firstCluster ∈ D)
      (isDirectory : e.isDirectory = true) (size : e.fileSize = 0) (file : u.file 0 = openedFile p s₀ e b) :
      At p s₀ D (.sub e.firstCluster) 0 u

theorem At.mem (A : At p s₀ D d h s) : ∀ c, d = .sub c → c ∈ D := by
  cases A with
  | root => exact fun c hc => by cases hc
  | sub e _ hmem => exact fun c hc => Dir.sub.inj hc ▸ hmem

theorem subAt_openedFile {e : DirectoryEntry} {b : Buffer} (V : OnVolume p s₀ s) (hdir : e.isDirectory = true)
    (hsize : e.fileSize = 0) (hfile : s.file 0 = openedFile p s₀ e b) : SubAt p s₀ e.firstCluster 0 s := by
  refine ⟨V, ?_, ?_, ?_, 0, 0, ?_⟩ <;> rw [hfile]
  · rfl
  · exact hdir
  · exact hsize
  · exact dirAt_openedFile e b

/-- A search finds what the directory has, and no handle is open after it is closed. -/
theorem At.search {path₀ : List (List Byte × Bool)} (A : At p s₀ D d h s) (T : DirTree p s₀ D path₀)
    (hcount : entryCount s₀ ≠ 0) (N : List Byte) :
    ∃ o fuel t, Has p s₀ d N o ∧ findLoop p h N fuel s = some (o, t) ∧ OnVolume p s₀ (fatClose t h) ∧
      ((fatClose t h).openedFiles 0).opened = false := by
  cases A with
  | root I =>
    obtain ⟨o, m, hs⟩ := exists_search (rootEntry p s₀) hcount N
    obtain ⟨t, ht⟩ := I.search_returns (leftEntry_zero ▸ hs)
    obtain ⟨m', -, J⟩ := I.search ht
    exact ⟨o, m + 1, t, ⟨_, m, rfl, hs⟩, ht, J.volume, J.free⟩
  | sub e V hmem hdir hsize hfile =>
    obtain ⟨n, K, hread⟩ := T.chain _ hmem
    have hcs : 0 < s₀.clusterSectors := Nat.lt_of_lt_of_le Nat.zero_lt_one (Nat.le_max_left 1 _)
    have hlen : 0 < 16 * (s₀.clusterSectors * n) := Nat.mul_pos (by decide) (Nat.mul_pos hcs K.pos)
    obtain ⟨o, m, hs⟩ := exists_search (dirEntry p s₀ (.sub e.firstCluster)) hlen.ne' N
    obtain ⟨fuel, t, ht, Vt⟩ := (subAt_openedFile V hdir hsize hfile).findLoop
      ⟨K, fun i hi => (hread i hi).1, fun i hi => (hread i hi).2⟩ hlen
        (fun j hj => absurd hj (Nat.not_lt_zero j)) hs
    exact ⟨o, fuel, t, ⟨_, m, ⟨n, K, rfl⟩, hs⟩, ht, Vt.close 0, opened_fatClose t⟩

/-! ## Paths -/

section

variable {path path₀ : List (List Byte × Bool)} {x : List Byte × Bool} {e : DirectoryEntry} {fuel fuel' : Nat}

theorem findLoop_unique {q q' : Option DirectoryEntry × FatData} (hq : findLoop p h N fuel s = some q)
    (hq' : findLoop p h N fuel' s = some q') : q = q' :=
  Option.some.inj ((findLoop_mono (Nat.le_max_left fuel fuel') hq).symm.trans
    (findLoop_mono (Nat.le_max_right fuel fuel') hq'))

/-- Components of a path are short names, and a slash follows all but the last. -/
structure ShortPath (path₀ path : List (List Byte × Bool)) : Prop where
  subset : ∀ x ∈ path, x ∈ path₀
  names : ∀ x ∈ path, ∃ n : ShortName, x.1 = n.text
  slashes : ∀ x ∈ path.dropLast, x.2 = false

namespace ShortPath

variable (P : ShortPath path₀ (x :: path))

include P

theorem tail : ShortPath path₀ path := by
  refine ⟨fun y hy => P.subset y (List.mem_cons_of_mem x hy), fun y hy => P.names y (List.mem_cons_of_mem x hy), ?_⟩
  by_cases hp : path = []
  · rw [hp]
    exact fun y hy => absurd hy List.not_mem_nil
  · exact (eq_false_of_dropLast P.slashes hp).2

theorem nameOf_iff : NameOf x.1 N ↔ N = fatName x.1 := by
  obtain ⟨n, hn⟩ := P.names x List.mem_cons_self
  constructor
  · rintro ⟨n', hn', rfl⟩
    rw [hn', Fat.fatName_text]
  · rintro rfl
    exact ⟨n, hn, by rw [hn, Fat.fatName_text]⟩

theorem ne_zero : ∀ b ∈ x.1, b ≠ 0 := by
  obtain ⟨n, hn⟩ := P.names x List.mem_cons_self
  rw [hn]
  exact text_ne_zero n

end ShortPath

/-- An entry that a path goes on from is opened, and is a directory of the tree. -/
theorem At.open (A : At p s₀ D d h s) (T : DirTree p s₀ D path₀) (V : OnVolume p s₀ t)
    (hfree : (t.openedFiles 0).opened = false) (P : ShortPath path₀ (x :: path))
    (hx : Has p s₀ d (fatName x.1) (some e)) (ho : openable x.2 (some e) = some e) :
    ∃ u, fatOpenEntry p t e = (some 0, u) ∧ outcome (some 0, u) = some (e.key, 0) ∧
      (path ≠ [] → At p s₀ D (.sub e.firstCluster) 0 u) := by
  obtain ⟨u, b, hu, Vu, -, hfile⟩ := fatOpenEntry_free V hfree e
  refine ⟨u, hu, ?_, fun hp => ?_⟩
  · simp only [outcome, Option.map_some, hfile]
    rfl
  · have hdir : e.isDirectory = true := by
      rw [isDirectory_iff]
      exact fun h0 => (openable_eq_some_iff.mp ho).2 ⟨(eq_false_of_dropLast P.slashes hp).1, h0⟩
    obtain ⟨hmem, hsize⟩ := T.entries d A.mem x (P.subset x List.mem_cons_self) e hx hdir
    exact .sub e Vu hmem hdir hsize hfile

/-- The lookups are those of the components if what is left in the buffer does not change the last. -/
theorem looksUp_iff (A : At p s₀ D d h s) (T : DirTree p s₀ D path₀) (hcount : entryCount s₀ ≠ 0)
    (P : ShortPath path₀ path) (hpath : path ≠ []) : LooksUp p path name s h ↔
      ∀ component name', ComesTo p s₀ d name path component name' →
        fatName (component ++ leftover name' component) = fatName component := by
  induction path generalizing d h s name with
  | nil => exact absurd rfl hpath
  | cons x path ih =>
    obtain ⟨component, isLast⟩ := x
    have hsearch := searchName_eq name P.ne_zero
    rw [LooksUp, P.nameOf_iff]
    constructor
    · rintro ⟨hN, hrest⟩ component' name' C
      cases C with
      | last => exact hsearch.symm.trans hN
      | @next _ _ _ _ o e _ _ hx ho C =>
        have hp : path ≠ [] := by
          rintro rfl
          cases C
        obtain ⟨rfl, hgo⟩ := openable_eq_some_iff.mp ho
        obtain ⟨o, fuel, t, hx', ht, V, hfree⟩ := A.search T hcount (fatName component)
        obtain rfl := hx.unique hx'
        obtain ⟨u, hu, -, A'⟩ := A.open T V hfree P hx ho
        exact (ih (A' hp) P.tail hp).mp (hrest fuel e t 0 u (hN ▸ ht) ho hu) _ _ C
    · intro H
      have hN : searchName name (component, isLast) = fatName component := by
        rw [hsearch]
        cases isLast with
        | false => rw [if_neg Bool.false_ne_true, List.append_nil]
        | true =>
          have hp : path = [] := by
            by_contra hp
            exact Bool.false_ne_true (eq_false_of_dropLast P.slashes hp).1.symm
          rw [if_pos rfl]
          subst hp
          exact H _ _ .last
      refine ⟨hN, fun fuel e t handle u hf ho hu => ?_⟩
      by_cases hp : path = []
      · rw [hp]
        trivial
      obtain ⟨o, fuel', t', hx, ht, V, hfree⟩ := A.search T hcount (fatName component)
      obtain ⟨rfl, rfl⟩ := Prod.mk.inj (findLoop_unique (hN ▸ hf) ht)
      obtain ⟨u', hu', -, A'⟩ := A.open T V hfree P hx ho
      obtain ⟨hh, rfl⟩ := Prod.mk.inj (hu.symm.trans hu')
      obtain rfl := Option.some.inj hh
      exact (ih (A' hp) P.tail hp).mpr fun component' name' C => H _ _ (.next hx ho C)

/-- Lookups of the components give the file that they denote. -/
theorem openLoop_denotes (A : At p s₀ D d h s) (T : DirTree p s₀ D path₀) (hcount : entryCount s₀ ≠ 0)
    (P : ShortPath path₀ path) (hpath : path ≠ []) (L : LooksUp p path name s h) :
    ∃ fuel r o, openLoop fuel p path name s h = some r ∧ Denotes p s₀ d path o ∧
      outcome r = o.map fun e => (e.key, 0) := by
  induction path generalizing d h s name with
  | nil => exact absurd rfl hpath
  | cons x path ih =>
    obtain ⟨hname, hrest⟩ := L
    have hN := P.nameOf_iff.mp hname
    obtain ⟨o, fuel, t, hx, ht, V, hfree⟩ := A.search T hcount (fatName x.1)
    rw [← hN] at ht
    have hloop : ∀ fuel', fuel ≤ fuel' → openLoop fuel' p (x :: path) name s h =
        afterSearch fuel' p path (setName name x.1 x.2) x.2 (fatClose t h) (openable x.2 o) := fun fuel' hle => by
      rw [openLoop_cons, findLoop_mono hle ht, Option.bind_some, afterSearch_openable]
    cases ho : openable x.2 o with
    | none => exact ⟨fuel, _, none, by rw [hloop fuel (le_refl fuel), ho]; rfl, .missing hname (hN ▸ hx) ho, rfl⟩
    | some e =>
      obtain ⟨rfl, hgo⟩ := openable_eq_some_iff.mp ho
      obtain ⟨u, hu, hout, A'⟩ := A.open T V hfree P hx ho
      have hafter : ∀ fuel', fuel ≤ fuel' → openLoop fuel' p (x :: path) name s h =
          openLoop fuel' p path (setName name x.1 x.2) u 0 := fun fuel' hle => by
        rw [hloop fuel' hle, ho]
        simp only [afterSearch, if_neg hgo, hu]
      cases path with
      | nil => exact ⟨fuel, _, some e, hafter fuel (le_refl fuel), .last hname (hN ▸ hx) ho, hout⟩
      | cons y path =>
        have hp : y :: path ≠ [] := List.cons_ne_nil y path
        obtain ⟨fuel', r, o, hr, hd, hout'⟩ := ih (A' hp) P.tail hp (hrest fuel e t 0 u ht ho hu)
        refine ⟨max fuel fuel', r, o, ?_, .next hname (hN ▸ hx) ho hd, hout'⟩
        rw [hafter _ (Nat.le_max_left _ _)]
        exact openLoop_mono (Nat.le_max_right _ _) hr

end

/-- On a mounted volume whose root directory has a limit, paths of short names through directories that are read whole
are resolved exactly if what is left in the buffer after the last component does not change its name. -/
theorem resolves_iff {s' : FatData} {path : List Byte} (hmount : fatInitialize p s' = (true, s₀)) (hf : NoFaults s₀)
    (hroot : entryCount s₀ ≠ 0) (T : DirTree p s₀ D (components [] (stripPath path)))
    (hnames : ∀ x ∈ components [] (stripPath path), ∃ n : ShortName, x.1 = n.text) (name : Buffer) :
    Resolves p name s₀ path ↔ Unharmed p s₀ name path := by
  have A : At p s₀ D .root ROOT_DIRECTORY_HANDLE s₀ := .root (idle_of_mounted hmount hf)
  have P : ShortPath (components [] (stripPath path)) (components [] (stripPath path)) :=
    ⟨fun x hx => hx, hnames, components_dropLast [] (stripPath path)⟩
  unfold Resolves Unharmed
  dsimp only
  by_cases hp : components [] (stripPath path) = []
  · rw [hp]
    have hopen : fatOpen 0 p name s₀ path = some (some ROOT_DIRECTORY_HANDLE, s₀) := by
      rw [fatOpen, hp]
      rfl
    exact iff_of_true ⟨trivial, 0, _, hopen, fun _ => rfl, fun h => absurd rfl h⟩
      fun component name' C => by cases C
  · rw [← looksUp_iff A T hroot P hp]
    refine ⟨And.left, fun L => ⟨L, ?_⟩⟩
    obtain ⟨fuel, r, o, hr, hd, hout⟩ := openLoop_denotes A T hroot P hp L
    exact ⟨fuel, r, hr, fun h => absurd h hp, fun _ => ⟨o, hd, hout⟩⟩

/-- The chain of `BIN`. -/
theorem chain_fileInDirectory : ChainOf fileInDirectory fileInDirectoryData 2 2 := by
  have h1 : ¬ IsEnd fileInDirectoryData.fatType ((fatEntry fileInDirectory fileInDirectoryData)^[1] 2) := by
    decide +kernel
  refine ⟨by decide, fun i hi h0 => ?_, by decide +kernel⟩
  obtain rfl : i = 1 := by omega
  exact h1

theorem dirTree_fileInDirectory (path : List (List Byte × Bool)) :
    DirTree fileInDirectory fileInDirectoryData {2} path := by
  have hroot : ∀ i < 224, (rootEntry fileInDirectory fileInDirectoryData i).isDirectory = true →
      (rootEntry fileInDirectory fileInDirectoryData i).firstCluster = 2 ∧
        (rootEntry fileInDirectory fileInDirectoryData i).fileSize = 0 := by decide +kernel
  have hsub : ∀ i < 32, ¬ (dirEntry fileInDirectory fileInDirectoryData (.sub 2) i).isDirectory = true := by
    decide +kernel
  have hread : ∀ i < 2, (fatEntry fileInDirectory fileInDirectoryData)^[i] 2 < 0x0FF8 ∧
      Whole fileInDirectoryData.fatType ((fatEntry fileInDirectory fileInDirectoryData)^[i] 2) := by
    unfold Whole
    decide +kernel
  refine ⟨fun d hd x _ e hhas hdir => ?_, fun c hc => ?_⟩
  · obtain ⟨len, m, hlen, hs⟩ := hhas
    obtain ⟨i, hi, rfl⟩ := hs.exists_eq
    cases d with
    | root =>
      rw [show len = 224 from hlen] at hi
      exact hroot i (by omega) hdir
    | sub c =>
      obtain rfl := hd c rfl
      obtain ⟨n, K, rfl⟩ := hlen
      rw [K.unique chain_fileInDirectory, show fileInDirectoryData.clusterSectors = 1 from rfl] at hi
      exact absurd hdir (hsub i (by omega))
  · obtain rfl := hc
    exact ⟨2, chain_fileInDirectory, hread⟩

theorem names_binCat : ∀ x ∈ components [] (stripPath binCat), ∃ n : ShortName, x.1 = n.text := by
  intro x hx
  rcases List.mem_cons.mp hx with rfl | hx
  · exact ⟨⟨[0x62, 0x69, 0x6E], [], by decide, by decide, by decide, by decide, by decide⟩, rfl⟩
  · obtain rfl := List.mem_singleton.mp hx
    exact ⟨⟨[0x63, 0x61, 0x74], [], by decide, by decide, by decide, by decide, by decide⟩, rfl⟩

/-- The buffer was full of `B`, but the 0 after `bin` is that after `cat`. -/
theorem resolves_fileInDirectory : Resolves fileInDirectory (fun _ => 0x42) fileInDirectoryData binCat := by
  refine (resolves_iff fatInitialize_fileInDirectory (fun _ => rfl) (by decide) (dirTree_fileInDirectory _) names_binCat
    _).mpr fun component name' C => ?_
  cases C with
  | next _ _ C =>
    cases C with
    | last => rfl
    | next _ _ C => cases C

/-- There is no directory. -/
theorem dirTree_twoFiles (path : List (List Byte × Bool)) : DirTree twoFiles twoFilesData ∅ path := by
  have key : ∀ i < 224, ¬ (rootEntry twoFiles twoFilesData i).isDirectory = true := by decide +kernel
  refine ⟨fun d hd x _ e hhas hdir => ?_, fun c hc => hc.elim⟩
  cases d with
  | sub c => exact (hd c rfl).elim
  | root =>
    obtain ⟨len, m, hlen, hs⟩ := hhas
    obtain ⟨i, hi, rfl⟩ := hs.exists_eq
    rw [show len = 224 from hlen] at hi
    exact absurd hdir (key i (by omega))

theorem names_twoFiles : ∀ x ∈ components [] (stripPath [0x61]), ∃ n : ShortName, x.1 = n.text := by
  rintro x hx
  obtain rfl := List.mem_singleton.mp hx
  exact ⟨⟨[0x61], [], by decide, by decide, by decide, by decide, by decide⟩, rfl⟩

/-- Where it was full of `B`, the file `A` is looked up as `AB`. -/
theorem not_resolves : ¬ ∀ (p : Partition) (s s₀ : FatData) (D : Set Word) (path : List Byte) (name : Buffer),
    fatInitialize p s = (true, s₀) → NoFaults s₀ → entryCount s₀ ≠ 0 →
      DirTree p s₀ D (components [] (stripPath path)) →
        (∀ x ∈ components [] (stripPath path), ∃ n : ShortName, x.1 = n.text) → Resolves p name s₀ path := by
  intro H
  have R := H twoFiles blankData twoFilesData ∅ [0x61] (fun _ => 0x42) fatInitialize_twoFiles
    (fun _ => rfl) (by decide) (dirTree_twoFiles _)
    names_twoFiles
  obtain ⟨n, hn, hN⟩ := R.1.1
  have hwrong : fatName [0x61] ≠ searchName (fun _ => 0x42) ([0x61], true) := by decide
  exact hwrong ((congrArg fatName hn).trans (Fat.fatName_text.trans hN.symm))

end

end AlexOS.Stage2
