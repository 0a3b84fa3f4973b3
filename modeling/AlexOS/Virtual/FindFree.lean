import AlexOS.Virtual.BootMap
import AlexOS.Lib.Run

/-!
# What find_free_page returns

`find_free_page` looks at the pages in order, and makes the tables that are
missing on its way (`reached`). It stops at the first run of `nb_page + 1`
pages that are not present (`findFreePage_first`). Since address 0 stands for
"no run yet", a run that begins there is returned from its second page on
(`baseAt`).

The loop runs over 3072 entries, those of the three blocks of the directory. The
pages of the last two thirds are beyond 4 GiB, and their addresses wrap: what is
returned for them are the addresses of other pages.
-/

namespace AlexOS.Virtual

open Physical

/-- The address of page `k` of the search. -/
def pageAt (k : Nat) : Addr := BitVec.ofNat 32 (4096 * k)

/-- The address returned for a run from page `start` on. -/
def baseAt (start : Nat) : Addr := if pageAt start = 0 then pageAt (start + 1) else pageAt start

/-- `base_addr`, when the last `c` of `k` pages were free. -/
def baseOf (k c : Nat) : Addr := if c = 0 then 0 else if c = 1 then pageAt (k - 1) else baseAt (k - c)

/-- The table that the search looks at, if it could be made. -/
def made (s : Paging) (i : Nat) : Option (Addr × Paging) :=
  let t := tableAt s (BitVec.ofNat 32 i)
  if ¬ isPresent (pde s (BitVec.ofNat 32 i)) ∧ t.1 = 0 then none else some t

/-- The state after the tables of the first `i` entries have been looked at. -/
def reached (s : Paging) : Nat → Option Paging
  | 0 => some s
  | i + 1 => (reached s i).bind fun s => (made s i).map Prod.snd

/-- Page `k` of the search is not present when it is looked at. -/
def Free (s : Paging) (k : Nat) : Prop :=
  ∃ t ∈ (reached s (k / 1024)).bind (made · (k / 1024)),
    tstAttribute t.2.mem (slot t.1 (BitVec.ofNat 32 (k % 1024))) PAGE_TABLE_ENTRY_PRESENT = 0

/-- The blocks of the tables that a search for `n` pages makes are fresh: it looks at entry `i` if there is
no run of `n + 1` free pages before. -/
def FreshSearch (s : Paging) (n : Nat) : Prop :=
  ∀ i < 3072, Clear (Free s) (n + 1) (1024 * i) → ∀ t, reached s i = some t →
    ¬ isPresent (pde t (BitVec.ofNat 32 i)) → FreshBlocks t 1

/-- Range `n` pages from `base` on, none of which is present. -/
structure FreeRange (s : Paging) (base : Addr) (n : Nat) : Prop where
  bound : base.toNat + 4096 * n ≤ 2 ^ 32
  absent : ∀ i < n, ¬ isPresent (s.mem.load32 (getPage s (pageAfter base i)))

/-- What the search returns is a range of free pages, and it changes the translation of none that is present. -/
def FindsFree (s : Paging) (nbPage : Word) : Prop :=
  ((findFreePage s nbPage).1 ≠ 0 → FreeRange (findFreePage s nbPage).2 (findFreePage s nbPage).1 nbPage.toNat) ∧
    ∀ v, present s v → present (findFreePage s nbPage).2 v ∧
      getPhysAddr (findFreePage s nbPage).2 v = getPhysAddr s v

/-- The page returned for a run from page `start` on. -/
def basePage (start : Nat) : Nat := if start % 2 ^ 20 = 0 then 1 else start % 2 ^ 20

/-- A run from page `start` on does not pass 4 GiB; if it is found beyond, none of the pages that have its
addresses is present. -/
def Within (s : Paging) (n start : Nat) : Prop :=
  basePage start + n ≤ 2 ^ 20 ∧ (2 ^ 20 ≤ start → ∀ i < n, ¬ present s (pageAt (basePage start + i)))

section

variable {s s₀ : Paging} {c i j k n start : Nat} {v : Addr} {nbPage : Word}

/-! ## Addresses -/

theorem pageAt_eq_zero_iff : pageAt k = 0 ↔ k % 2 ^ 20 = 0 := by
  rw [pageAt, BitVec.toNat_eq, BitVec.toNat_ofNat, show (0 : Word).toNat = 0 from rfl]
  omega

theorem baseAt_ne_zero (start : Nat) : baseAt start ≠ 0 := by
  rw [baseAt]
  split
  · rename_i h
    rw [pageAt_eq_zero_iff] at h
    rw [Ne, pageAt_eq_zero_iff]
    omega
  · assumption

theorem baseOf_succ (hc : c ≤ k) : (if baseOf k c = 0 then pageAt k else baseOf k c) = baseOf (k + 1) (c + 1) := by
  match c with
  | 0 => simp [baseOf]
  | 1 =>
    have e : k - 1 + 1 = k := by omega
    simp only [baseOf, baseAt, one_ne_zero, if_false, if_true, Nat.reduceAdd, OfNat.ofNat_ne_zero,
      OfNat.ofNat_ne_one, Nat.reduceSubDiff, e]
  | c + 2 =>
    have e : baseOf k (c + 2) = baseAt (k - (c + 2)) := by simp [baseOf]
    rw [e, if_neg (baseAt_ne_zero _)]
    simp [baseOf]

theorem shift_eq (hi : i < 3072) (hj : j < 1024) :
    BitVec.ofNat 32 i <<< 22 ||| BitVec.ofNat 32 j <<< 12 = pageAt (1024 * i + j) := by
  have hhigh : (BitVec.ofNat 32 i <<< 22).toNat = (i % 1024) <<< 22 := by
    rw [BitVec.toNat_shiftLeft, BitVec.toNat_ofNat, show i % 2 ^ 32 = i by omega, Nat.shiftLeft_eq, Nat.shiftLeft_eq]
    omega
  have hlow : (BitVec.ofNat 32 j <<< 12).toNat = 4096 * j := by
    rw [BitVec.toNat_shiftLeft, BitVec.toNat_ofNat, show j % 2 ^ 32 = j by omega, Nat.shiftLeft_eq]
    omega
  apply BitVec.eq_of_toNat_eq
  rw [BitVec.toNat_or, hhigh, hlow, ← Nat.shiftLeft_add_eq_or_of_lt (by omega), Nat.shiftLeft_eq, pageAt,
    BitVec.toNat_ofNat]
  omega

/-! ## One table -/

/-- How the loop over a table ends: at the first run, or at the end of the table. -/
def Scanned (p : Nat → Prop) (n k : Nat) : Except Addr (Addr × Word) → Prop
  | .error base => ∃ start, FirstRun p (n + 1) start ∧ start + n < k ∧ k ≤ start + n + 1024 ∧
      base = baseAt start
  | .ok (base, count) => ∃ c, Current p k c ∧ c ≤ n ∧ Clear p (n + 1) k ∧ base = baseOf k c ∧
      count = BitVec.ofNat 32 c

theorem scanTable_run {p : Nat → Prop} {m : Mem} {table : Addr} {i : Nat} (hi : i < 3072) (hnb : 1 ≤ nbPage.toNat)
    (hp : ∀ j < 1024, p (1024 * i + j) ↔
      tstAttribute m (slot table (BitVec.ofNat 32 j)) PAGE_TABLE_ENTRY_PRESENT = 0)
    (hj : j + n = 1024) (hcur : Current p (1024 * i + j) c) (hc : c ≤ nbPage.toNat)
    (hclear : Clear p (nbPage.toNat + 1) (1024 * i + j)) :
    Scanned p nbPage.toNat (1024 * (i + 1)) (scanTable m table nbPage (BitVec.ofNat 32 i) n (BitVec.ofNat 32 j)
      (baseOf (1024 * i + j) c) (BitVec.ofNat 32 c)) := by
  have hlt := nbPage.isLt
  induction n generalizing j c with
  | zero =>
    obtain rfl : j = 1024 := by omega
    exact ⟨c, hcur, hc, hclear, rfl, rfl⟩
  | succ n ih =>
    have hnext : BitVec.ofNat 32 j + 1 = BitVec.ofNat 32 (j + 1) := (BitVec.ofNat_add j 1).symm
    have hnextc : BitVec.ofNat 32 c + 1 = BitVec.ofNat 32 (c + 1) := (BitVec.ofNat_add c 1).symm
    have hcount : BitVec.ofNat 32 c = nbPage ↔ c = nbPage.toNat := by
      rw [BitVec.toNat_eq, BitVec.toNat_ofNat, Nat.mod_eq_of_lt (by omega)]
    simp only [scanTable]
    split
    · -- the page is free
      rename_i hfree
      have hk := (hp j (by omega)).mpr hfree
      rw [shift_eq hi (by omega), baseOf_succ hcur.le]
      split
      · rename_i he
        obtain rfl := hcount.mp he
        refine ⟨1024 * i + j - nbPage.toNat, hclear.firstRun hcur hk, ?_, ?_, ?_⟩
        · have := hcur.le
          omega
        · have := hcur.le
          omega
        · have e : 1024 * i + j + 1 - (nbPage.toNat + 1) = 1024 * i + j - nbPage.toNat := by omega
          rw [baseOf, if_neg (by omega), if_neg (by omega), e]
      · rename_i he
        have hne : c ≠ nbPage.toNat := mt hcount.mpr he
        rw [hnext, hnextc]
        exact ih (by omega) (hcur.succ hk) (by omega) (hclear.succ hcur (by omega))
    · rename_i hfree
      have hk := mt (hp j (by omega)).mp hfree
      rw [hnext]
      exact ih (j := j + 1) (c := 0) (by omega) (Current.reset hk) (Nat.zero_le _) (hclear.reset hk)

/-! ## The directory -/

theorem reached_none (h : reached s i = none) (hle : i ≤ j) : reached s j = none := by
  induction j, hle using Nat.le_induction with
  | base => exact h
  | succ j _ ih => rw [reached, ih, Option.bind_none]

theorem free_add {t : Addr × Paging} (hs : reached s₀ i = some s) (ht : made s i = some t) (hj : j < 1024) :
    Free s₀ (1024 * i + j) ↔ tstAttribute t.2.mem (slot t.1 (BitVec.ofNat 32 j)) PAGE_TABLE_ENTRY_PRESENT = 0 := by
  have e1 : (1024 * i + j) / 1024 = i := by omega
  have e2 : (1024 * i + j) % 1024 = j := by omega
  rw [Free, e1, e2, hs, Option.bind_some, ht]
  simp

/-- The search looks at no page after a table that could not be made. -/
theorem not_free (hs : reached s₀ (i + 1) = none) (hk : 1024 * i ≤ k) : ¬ Free s₀ k := by
  rintro ⟨t, ht, -⟩
  obtain ⟨u, hu, ht⟩ := Option.bind_eq_some_iff.mp ht
  have hnext : reached s₀ (k / 1024 + 1) = some t.2 := by rw [reached, hu, Option.bind_some, ht]; rfl
  rw [reached_none hs (by omega)] at hnext
  cases hnext

theorem scanDirectory_succ (s : Paging) (baseAddr : Addr) (count : Word) (n i : Nat) :
    scanDirectory nbPage (n + 1) s (BitVec.ofNat 32 i) baseAddr count =
      match made s i with
      | none => (0, (tableAt s (BitVec.ofNat 32 i)).2)
      | some t => match scanTable t.2.mem t.1 nbPage (BitVec.ofNat 32 i) 1024 0 baseAddr count with
        | .error baseAddr => (baseAddr, t.2)
        | .ok (baseAddr, count) => scanDirectory nbPage n t.2 (BitVec.ofNat 32 (i + 1)) baseAddr count := by
  have hnext : BitVec.ofNat 32 i + 1 = BitVec.ofNat 32 (i + 1) := (BitVec.ofNat_add i 1).symm
  simp only [scanDirectory, made, hnext]
  by_cases h : ¬ isPresent (pde s (BitVec.ofNat 32 i)) ∧ (tableAt s (BitVec.ofNat 32 i)).1 = 0
  · rw [if_pos h]
    exact if_pos h
  · rw [if_neg h]
    exact if_neg h

/-- The search returns the first run, or `NULL` if there is none. It has looked at all tables then, or at all
up to one that could not be made. -/
def Searches (s : Paging) (n : Nat) (r : Addr × Paging) : Prop :=
  (∃ start, FirstRun (Free s) (n + 1) start ∧ start + n < 3 * 2 ^ 20 ∧ r.1 = baseAt start ∧
      reached s ((start + n) / 1024 + 1) = some r.2) ∨
    r.1 = 0 ∧ Clear (Free s) (n + 1) (3 * 2 ^ 20) ∧
      (reached s 3072 = some r.2 ∨ ∃ i < 3072, ∃ t, reached s i = some t ∧ made t i = none ∧
        r.2 = (tableAt t (BitVec.ofNat 32 i)).2)

theorem scanDirectory_run (hnb : 1 ≤ nbPage.toNat) (hs : reached s₀ i = some s) (hi : i + n = 3072)
    (hcur : Current (Free s₀) (1024 * i) c) (hc : c ≤ nbPage.toNat)
    (hclear : Clear (Free s₀) (nbPage.toNat + 1) (1024 * i)) :
    Searches s₀ nbPage.toNat
      (scanDirectory nbPage n s (BitVec.ofNat 32 i) (baseOf (1024 * i) c) (BitVec.ofNat 32 c)) := by
  induction n generalizing s i c with
  | zero =>
    obtain rfl : i = 3072 := by omega
    exact .inr ⟨rfl, hclear, .inl hs⟩
  | succ n ih =>
    rw [scanDirectory_succ]
    cases ht : made s i with
    | none =>
      have hnone : reached s₀ (i + 1) = none := by rw [reached, hs, Option.bind_some, ht]; rfl
      refine .inr ⟨rfl, fun start _ hrun => ?_, .inr ⟨i, by omega, s, hs, ht, rfl⟩⟩
      rcases Nat.lt_or_ge (start + nbPage.toNat) (1024 * i) with hlt | hge
      · exact hclear start (by omega) hrun
      · exact not_free hnone hge (hrun _ (by omega) (by omega))
    | some t =>
      have hnext : reached s₀ (i + 1) = some t.2 := by rw [reached, hs, Option.bind_some, ht]; rfl
      have hscan := scanTable_run (by omega) hnb (fun j hj => free_add hs ht hj) (j := 0) (n := 1024) rfl hcur hc hclear
      rw [show BitVec.ofNat 32 0 = (0 : Word) from rfl, show 1024 * i + 0 = 1024 * i from rfl] at hscan
      simp only
      cases he : scanTable t.2.mem t.1 nbPage (BitVec.ofNat 32 i) 1024 0 (baseOf (1024 * i) c) (BitVec.ofNat 32 c) with
      | error base =>
        rw [he] at hscan
        obtain ⟨start, hfirst, h1, h2, rfl⟩ := hscan
        refine .inl ⟨start, hfirst, by omega, rfl, ?_⟩
        rw [show (start + nbPage.toNat) / 1024 = i by omega]
        exact hnext
      | ok r =>
        rw [he] at hscan
        obtain ⟨c', hcur', hc', hclear', e1, e2⟩ := hscan
        simp only
        rw [e1, e2]
        exact ih hnext (by omega) hcur' hc' hclear'

theorem findFreePage_first (s : Paging) (nbPage : Word) (hnb : 1 ≤ nbPage.toNat) :
    Searches s nbPage.toNat (findFreePage s nbPage) :=
  scanDirectory_run hnb rfl rfl (Current.zero _) (Nat.zero_le _) (Clear.zero _ (Nat.succ_pos _))

/-! ## The pages that are looked at -/

theorem tableAt_of_present {i : Word} (hp : isPresent (pde s i)) : tableAt s i = (frame (pde s i), s) := if_neg hp

theorem tableAt_of_absent {i : Word} (hp : ¬ isPresent (pde s i)) :
    tableAt s i = newTable s (slot s.currentPageDir i) := if_pos (not_not.mp hp)

/-- The search makes tables, but maps nothing. -/
theorem Layout.tableAt_ok {i : Word} (L : Layout s) (F : ¬ isPresent (pde s i) → FreshBlocks s 1)
    (hi : i.toNat < 3072) :
    Grows s (tableAt s i).2 ∧ ∀ v, entryOf (tableAt s i).2 v = entryOf s v := by
  by_cases hp : isPresent (pde s i)
  · rw [tableAt_of_present hp]
    exact ⟨.refl L, fun _ => rfl⟩
  · rw [tableAt_of_absent hp]
    exact ⟨L.newTable_ok (F hp) hi hp, L.newTable_entries (F hp) hi hp⟩

/-- The table is there, and no page has been mapped. -/
theorem Layout.made_ok {t : Addr × Paging} (L : Layout s)
    (F : ¬ isPresent (pde s (BitVec.ofNat 32 i)) → FreshBlocks s 1) (hi : i < 3072) (ht : made s i = some t) :
    Grows s t.2 ∧ (∀ v, entryOf t.2 v = entryOf s v) ∧
      (∀ j : Word, j.toNat < 1024 → isPresent (pde s j) → isPresent (pde t.2 j)) ∧
      (i < 1024 → isPresent (pde t.2 (BitVec.ofNat 32 i)) ∧ t.1 = frame (pde t.2 (BitVec.ofNat 32 i))) := by
  have hiw : (BitVec.ofNat 32 i).toNat = i := by
    rw [BitVec.toNat_ofNat]
    omega
  obtain ⟨g, hent⟩ := L.tableAt_ok F (by omega)
  simp only [made] at ht
  split at ht
  · cases ht
  rename_i hne
  obtain rfl := Option.some.inj ht
  refine ⟨g, hent, ?_⟩
  by_cases hp : isPresent (pde s (BitVec.ofNat 32 i))
  · rw [tableAt_of_present hp]
    exact ⟨fun _ _ h => h, fun _ => ⟨hp, rfl⟩⟩
  have e := tableAt_of_absent hp
  have h0 : (allocateBlocks s.phys 1).1 ≠ 0 := fun h => hne ⟨hp, by rw [e, newTable_of_null h]⟩
  rw [e, newTable_eq h0]
  obtain ⟨Q, -, hs⟩ := L.cleared_ok (F hp) h0
  have L₁ := (Q.grows L).layout
  by_cases hlow : i < 1024
  · have hp₁ : ¬ isPresent (pde (cleared s) (BitVec.ofNat 32 i)) := by rwa [Q.pde _ (by omega)]
    have hn : ¬ InUse (cleared s) (allocateBlocks s.phys 1).1 := fun hu => hs.notInUse hu rfl
    have A := L₁.toTables.addEntry_ok (aligned_allocateBlocks s.phys 1) hn (by omega) hp₁
    refine ⟨fun j hj hpj => ?_, fun _ => ⟨A.present_self, A.frame_self.symm⟩⟩
    have hji : j ≠ BitVec.ofNat 32 i := fun h => hp (h ▸ hpj)
    rwa [A.pde_other j hj hji, Q.pde j hj]
  · refine ⟨fun j hj hpj => ?_, fun h => absurd h hlow⟩
    obtain ⟨ha, hd, hne⟩ := L₁.slot_dir (i := BitVec.ofNat 32 i) (by omega)
    have Q' := L₁.quiet_store (w := tableEntry (pde (cleared s) (BitVec.ofNat 32 i)) (allocateBlocks s.phys 1).1) ha
      (L₁.dirUsable _ hd).notInMap (hne (by omega))
    have e' : pde (addEntry (cleared s) (BitVec.ofNat 32 i) (allocateBlocks s.phys 1).1) j = pde (cleared s) j :=
      Q'.pde j hj
    rwa [e', Q.pde j hj]

/-- The tables that have been looked at. -/
theorem Layout.reached_ok (L : Layout s₀) (F : FreshSearch s₀ n) (hi : i ≤ 3072)
    (hclear : ∀ j < i, Clear (Free s₀) (n + 1) (1024 * j)) (hs : reached s₀ i = some s) :
    Grows s₀ s ∧ (∀ v, entryOf s v = entryOf s₀ v) ∧
      ∀ j : Word, j.toNat < i → j.toNat < 1024 → isPresent (pde s j) := by
  induction i generalizing s with
  | zero =>
    obtain rfl := Option.some.inj hs
    exact ⟨.refl L, fun _ => rfl, fun j hj => absurd hj (Nat.not_lt_zero _)⟩
  | succ i ih =>
    obtain ⟨u, hu, hm⟩ := Option.bind_eq_some_iff.mp hs
    obtain ⟨t, ht, rfl⟩ := Option.map_eq_some_iff.mp hm
    obtain ⟨g, hent, htab⟩ := ih (by omega) (fun j hj => hclear j (by omega)) hu
    obtain ⟨g', hent', hkeep, hnew⟩ := g.layout.made_ok (F i (by omega) (hclear i (by omega)) u hu) (by omega) ht
    refine ⟨g.trans g', fun v => (hent' v).trans (hent v), fun j hj hlt => ?_⟩
    rcases Nat.lt_succ_iff_lt_or_eq.mp hj with hj | hj
    · exact hkeep j hlt (htab j hj hlt)
    · have e : BitVec.ofNat 32 i = j := by rw [← hj, BitVec.ofNat_toNat, BitVec.setWidth_eq]
      rw [← e]
      exact (hnew (by omega)).1

/-- Whatever it returns, the search adds tables, and changes no entry of a page. -/
theorem Layout.findFreePage_ok (L : Layout s) (F : FreshSearch s nbPage.toNat) (hnb : 1 ≤ nbPage.toNat) :
    Grows s (findFreePage s nbPage).2 ∧ ∀ v, entryOf (findFreePage s nbPage).2 v = entryOf s v := by
  rcases findFreePage_first s nbPage hnb with
    ⟨start, H, hlt, -, hs⟩ | ⟨-, hclear, hs | ⟨i, hi, t, hs, -, e⟩⟩
  · obtain ⟨g, hent, -⟩ := L.reached_ok F (by omega) (fun j hj => H.clear (by omega)) hs
    exact ⟨g, hent⟩
  · obtain ⟨g, hent, -⟩ := L.reached_ok F (Nat.le_refl _) (fun j hj => hclear.mono (by omega)) hs
    exact ⟨g, hent⟩
  · obtain ⟨g, hent, -⟩ := L.reached_ok F (by omega) (fun j hj => hclear.mono (by omega)) hs
    have hiw : (BitVec.ofNat 32 i).toNat < 3072 := by
      rw [BitVec.toNat_ofNat]
      omega
    obtain ⟨g', hent'⟩ := g.layout.tableAt_ok (F i hi (hclear.mono (by omega)) t hs) hiw
    rw [e]
    exact ⟨g.trans g', fun v => (hent' v).trans (hent v)⟩

/-- The blocks in use are marked used, so that the search is given fresh ones. -/
theorem Guarded.freshSearch (G : Guarded s₀) (n : Nat) : FreshSearch s₀ n := by
  suffices H : ∀ i ≤ 3072, ∀ t, reached s₀ i = some t → Guarded t from
    fun i hi _ t ht _ => (H i (Nat.le_of_lt hi) t ht).freshBlocks 1
  intro i
  induction i with
  | zero =>
    rintro - t ht
    obtain rfl := Option.some.inj ht
    exact G
  | succ i ih =>
    rintro hi t ht
    obtain ⟨u, hu, hm⟩ := Option.bind_eq_some_iff.mp ht
    obtain ⟨r, hr, rfl⟩ := Option.map_eq_some_iff.mp hm
    have G' := ih (by omega) u hu
    exact (G'.toLayout.made_ok (fun _ => G'.freshBlocks 1) (by omega) hr).1.guarded G'

theorem index_pageAt (hk : k < 2 ^ 20) : PD_INDEX (pageAt k) = BitVec.ofNat 32 (k / 1024) ∧
    PT_INDEX (pageAt k) = BitVec.ofNat 32 (k % 1024) := by
  have e : (pageAt k).toNat = 4096 * k := by
    rw [pageAt, BitVec.toNat_ofNat]
    omega
  refine ⟨BitVec.eq_of_toNat_eq ?_, BitVec.eq_of_toNat_eq ?_⟩
  · rw [toNat_PD_INDEX, e, BitVec.toNat_ofNat]
    omega
  · rw [toNat_PT_INDEX, e, BitVec.toNat_ofNat]
    omega

/-- A page of the first 4 GiB is free if it is not present. -/
theorem Layout.free_iff (L : Layout s₀) (F : FreshSearch s₀ n) (hk : k < 2 ^ 20)
    (hclear : Clear (Free s₀) (n + 1) k)
    (hs : reached s₀ (k / 1024 + 1) = some s) : Free s₀ k ↔ ¬ present s₀ (pageAt k) := by
  obtain ⟨u, hu, hm⟩ := Option.bind_eq_some_iff.mp hs
  obtain ⟨t, ht, rfl⟩ := Option.map_eq_some_iff.mp hm
  obtain ⟨g, hent, -⟩ := L.reached_ok F (by omega) (fun j hj => hclear.mono (by omega)) hu
  obtain ⟨-, hent', -, hnew⟩ := g.layout.made_ok (F _ (by omega) (hclear.mono (by omega)) u hu) (by omega) ht
  obtain ⟨hp, htab⟩ := hnew (by omega)
  obtain ⟨h1, h2⟩ := index_pageAt hk
  have hfree := free_add hu ht (j := k % 1024) (Nat.mod_lt _ (by decide))
  rw [show 1024 * (k / 1024) + k % 1024 = k by omega] at hfree
  rw [hfree, htab, ← h2, ← h1, present, ← hent, ← hent', entryOf, h1, if_pos hp, getPage_eq, h1, ← h1]
  exact not_not.symm

theorem Free.reached (h : Free s₀ k) : ∃ s, Virtual.reached s₀ (k / 1024 + 1) = some s := by
  obtain ⟨t, ht, -⟩ := h
  obtain ⟨u, hu, ht⟩ := Option.bind_eq_some_iff.mp ht
  exact ⟨t.2, by rw [Virtual.reached, hu, Option.bind_some, ht]; rfl⟩

theorem Layout.not_present (L : Layout s) (F : FreshSearch s n) (hk : k < 2 ^ 20) (hclear : Clear (Free s) (n + 1) k)
    (h : Free s k) : ¬ present s (pageAt k) := by
  obtain ⟨t, ht⟩ := h.reached
  exact (L.free_iff F hk hclear ht).mp h

/-! ## The range that is returned -/

theorem basePage_lt (start : Nat) : basePage start < 2 ^ 20 := by
  rw [basePage]
  split <;> omega

theorem pageAt_congr (h : j % 2 ^ 20 = k % 2 ^ 20) : pageAt j = pageAt k := by
  apply BitVec.eq_of_toNat_eq
  rw [pageAt, pageAt, BitVec.toNat_ofNat, BitVec.toNat_ofNat]
  omega

theorem baseAt_eq (start : Nat) : baseAt start = pageAt (basePage start) := by
  rw [baseAt, basePage]
  by_cases h : start % 2 ^ 20 = 0
  · rw [if_pos (pageAt_eq_zero_iff.mpr h), if_pos h]
    exact pageAt_congr (by omega)
  · rw [if_neg (mt pageAt_eq_zero_iff.mp h), if_neg h]
    exact pageAt_congr (by omega)

theorem toNat_pageAt (hk : k < 2 ^ 20) : (pageAt k).toNat = 4096 * k := by
  rw [pageAt, BitVec.toNat_ofNat]
  omega

theorem pageAfter_pageAt (k i : Nat) : pageAfter (pageAt k) i = pageAt (k + i) := by
  apply BitVec.eq_of_toNat_eq
  rw [pageAfter, pageAt, pageAt, BitVec.toNat_add, BitVec.toNat_mul, BitVec.toNat_ofNat, BitVec.toNat_ofNat,
    BitVec.toNat_ofNat, show PAGE_SIZE.toNat = 4096 from rfl]
  omega

/-- The pages of the run, if it is below 4 GiB, are free. -/
theorem Layout.freeRange_iff (L : Layout s₀) (F : FreshSearch s₀ n) (H : FirstRun (Free s₀) (n + 1) start)
    (hlt : start + n < 3 * 2 ^ 20) (hs : reached s₀ ((start + n) / 1024 + 1) = some s) :
    FreeRange s (baseAt start) n ↔ Within s₀ n start := by
  obtain ⟨-, hent, htab⟩ := L.reached_ok F (by omega) (fun j hj => H.clear (by omega)) hs
  have hbase := basePage_lt start
  have hb : (baseAt start).toNat + 4096 * n ≤ 2 ^ 32 ↔ basePage start + n ≤ 2 ^ 20 := by
    rw [baseAt_eq, toNat_pageAt hbase]
    omega
  constructor
  · intro R
    refine ⟨hb.mp R.bound, fun _ i hi hp => R.absent i hi ?_⟩
    rw [baseAt_eq, pageAfter_pageAt]
    rw [present, ← hent] at hp
    have hpde := isPresent_pde (s := s) hp
    rwa [entryOf, if_pos hpde] at hp
  · rintro ⟨hle, hbeyond⟩
    refine ⟨hb.mpr hle, fun i hi => ?_⟩
    have hk : basePage start + i < 2 ^ 20 := by omega
    have hsmall : start < 2 ^ 20 → start ≤ basePage start + i ∧ basePage start + i ≤ start + n := by
      rw [basePage]
      split <;> omega
    have habs : ¬ present s₀ (pageAt (basePage start + i)) := by
      rcases Nat.lt_or_ge start (2 ^ 20) with h | h
      · obtain ⟨h1, h2⟩ := hsmall h
        exact L.not_present F hk (H.clear (by omega)) (H.run _ h1 (by omega))
      · exact hbeyond h i hi
    have hpde : isPresent (pde s (PD_INDEX (pageAt (basePage start + i)))) := by
      have e : (PD_INDEX (pageAt (basePage start + i))).toNat = (basePage start + i) / 1024 := by
        rw [(index_pageAt hk).1, BitVec.toNat_ofNat]
        omega
      refine htab _ ?_ (PD_INDEX_lt _)
      rw [e]
      omega
    rw [present, ← hent, entryOf, if_pos hpde] at habs
    rwa [baseAt_eq, pageAfter_pageAt]

/-- The search is right if the run that it finds is within 4 GiB, or, by chance, if it is not. -/
theorem Layout.findsFree_iff (L : Layout s) (F : FreshSearch s nbPage.toNat) (hnb : 1 ≤ nbPage.toNat) :
    FindsFree s nbPage ↔ ∀ start, FirstRun (Free s) (nbPage.toNat + 1) start →
      start + nbPage.toNat < 3 * 2 ^ 20 →
      Within s nbPage.toNat start := by
  have hmap : ∀ v, present s v → present (findFreePage s nbPage).2 v ∧
      getPhysAddr (findFreePage s nbPage).2 v = getPhysAddr s v := fun v hv => by
    have he := (L.findFreePage_ok F hnb).2 v
    exact ⟨by rwa [present, he], getPhysAddr_congr hv he⟩
  rw [FindsFree, and_iff_left hmap]
  rcases findFreePage_first s nbPage hnb with ⟨start, H, hlt, hr, hs⟩ | ⟨hr, hclear, -⟩
  · rw [hr, forall_prop_of_true (baseAt_ne_zero start), L.freeRange_iff F H hlt hs]
    refine ⟨fun W start' H' _ => ?_, fun h => h start H hlt⟩
    rwa [← H.unique H']
  · refine iff_of_true (fun h => absurd hr h) fun start H hlt => ?_
    exact absurd H.run (hclear start (by omega))

/-- Of a page that was mapped to itself, below 2 GiB, bit 31 is clear. -/
theorem unmapEntry_bit31 (hp : present s v) (ht : getPhysAddr s v = v) (hal : v.toNat % 4096 = 0)
    (hv : v.toNat < 2 ^ 31) : (unmapEntry (entryOf s v)).getLsbD 31 = false := by
  have hlt := toNat_getPhysAddr hp
  rw [ht, hal, Nat.add_zero] at hlt
  refine Bool.eq_false_iff.mpr fun h => ?_
  have h31 := getLsbD_unmapEntry h
  rw [← getLsbD_frame_31, getLsbD_31_iff] at h31
  omega

/-- Two pages of the first 4 MiB are unmapped after boot. -/
theorem unmapped_two {phys : Phys} {rest : List Word} (B : Left phys (64 :: 65 :: 66 :: 96 :: 128 :: rest) 0)
    (hrest : ∀ c ∈ rest, 160 ≤ c.toNat ∧ c.toNat ≤ 256) (P : Protected phys) :
    ∃ s, Guarded s ∧ Left s.phys rest 5 ∧ isPresent (pde s 0) ∧ reached s 1 = some s ∧
      FirstRun (Free s) 2 1 ∧ ∀ k, k = 1 ∨ k = 2 → ¬ present s (pageAt k) ∧
        (entryOf s (pageAt k)).getLsbD 31 = false := by
  obtain ⟨s₀, h₀, F₀, L⟩ := B.boot hrest P 0x100000
  have G₀ := (init_ok P h₀).1
  have Q₁ := G₀.toLayout.unmapPage_ok 0x1000
  have G₁ := (Q₁.grows G₀.toLayout).guarded G₀
  have Q₂ := G₁.toLayout.unmapPage_ok 0x2000
  have G := (Q₂.grows G₁.toLayout).guarded G₁
  have M := init_bootMap F₀ (by decide) h₀
  have p₁ : present s₀ 0x1000 := (M.low 0x1000 (by decide)).1
  obtain ⟨-, e₁⟩ := G₀.toTables.unmapPage_ok p₁
  have p₂ : present (unmapPage s₀ 0x1000) 0x2000 := by
    rw [present, e₁, if_neg (by decide)]
    exact (M.low 0x2000 (by decide)).1
  obtain ⟨-, e₂⟩ := G₁.toTables.unmapPage_ok p₂
  have hpde : isPresent (pde (unmapPage (unmapPage s₀ 0x1000) 0x2000) 0) := by
    rw [Q₂.pde 0 (by decide), Q₁.pde 0 (by decide)]
    exact present_zero_of_init h₀
  have h0 : present (unmapPage (unmapPage s₀ 0x1000) 0x2000) 0 := by
    rw [present, e₂, if_neg (by decide), e₁, if_neg (by decide)]
    exact (M.low 0 (by decide)).1
  have h1 : entryOf (unmapPage (unmapPage s₀ 0x1000) 0x2000) 0x1000 = unmapEntry (entryOf s₀ 0x1000) := by
    rw [e₂, if_neg (by decide), e₁, if_pos rfl]
  have h2 : entryOf (unmapPage (unmapPage s₀ 0x1000) 0x2000) 0x2000 = unmapEntry (entryOf s₀ 0x2000) := by
    rw [e₂, if_pos rfl, e₁, if_neg (by decide)]
  have hbit : ∀ v : Addr, v.toNat < 2 ^ 22 → v.toNat % 4096 = 0 →
    (unmapEntry (entryOf s₀ v)).getLsbD 31 = false := fun v hv hal =>
    unmapEntry_bit31 (M.low v hv).1 (M.low v hv).2 hal (hv.trans (by decide))
  have hunmapped : ∀ k, k = 1 ∨ k = 2 → ¬ present (unmapPage (unmapPage s₀ 0x1000) 0x2000) (pageAt k) ∧
      (entryOf (unmapPage (unmapPage s₀ 0x1000) 0x2000) (pageAt k)).getLsbD 31 = false := by
    rintro k (rfl | rfl)
    · rw [present, show pageAt 1 = 0x1000 by decide, h1]
      exact ⟨not_isPresent_unmapEntry _, hbit _ (by decide) (by decide)⟩
    · rw [present, show pageAt 2 = 0x2000 by decide, h2]
      exact ⟨not_isPresent_unmapEntry _, hbit _ (by decide) (by decide)⟩
  have hl := (L.unmapPage G₀.toLayout 0x1000).unmapPage G₁.toLayout 0x2000
  generalize unmapPage (unmapPage s₀ 0x1000) 0x2000 = s at *
  have hs : reached s 1 = some s := by
    have hp : isPresent (pde s (BitVec.ofNat 32 0)) := hpde
    rw [reached, reached, Option.bind_some, made, if_neg fun h => h.1 hp, tableAt_of_present hp]
    rfl
  have hfree : ∀ k < 3, Free s k ↔ ¬ present s (pageAt k) := fun k hk =>
    G.toLayout.free_iff (G.freshSearch 3) (by omega) (fun start h => by omega) (by rwa [show k / 1024 + 1 = 1 by omega])
  refine ⟨s, G, hl, hpde, hs, ⟨fun k hk hk' => ?_, fun start hlt hrun => ?_⟩, hunmapped⟩
  · exact (hfree k (by omega)).mpr (hunmapped k (by omega)).1
  · obtain rfl : start = 0 := by omega
    exact (hfree 0 (by decide)).mp (hrun 0 (Nat.le_refl _) (by decide)) h0

/-- The search for a page, if pages 1 and 2 are the first that are free. -/
theorem findFreePage_of_firstRun (H : FirstRun (Free s) 2 1) (hs : reached s 1 = some s) :
    findFreePage s 1 = (0x1000, s) := by
  have H : FirstRun (Free s) ((1 : Word).toNat + 1) 1 := H
  rcases findFreePage_first s 1 (by decide) with ⟨start, H', -, hr, hs'⟩ | ⟨-, hclear, -⟩
  · obtain rfl := H'.unique H
    exact Prod.ext (hr.trans (show baseAt 1 = 0x1000 by decide)) (Option.some.inj (hs'.symm.trans hs))
  · refine absurd H.run (hclear 1 ?_)
    show 1 + 2 ≤ 3 * 2 ^ 20
    omega

/-- They are found. -/
theorem findsFree_somePhys : ∃ s, (findFreePage s 1).1 = 0x1000 ∧ FindsFree s 1 := by
  obtain ⟨s, G, -, -, hs, H, -⟩ := unmapped_two left_somePhys (by simp) protected_somePhys
  refine ⟨s, by rw [findFreePage_of_firstRun H hs],
    (G.toLayout.findsFree_iff (G.freshSearch _) (by decide)).mpr fun start H' _ => ?_⟩
  rw [← H.unique H']
  exact ⟨by decide, fun h => absurd h (by decide)⟩

/-! ## Every page is present -/

/-- 4096 blocks, all used. The directory is in block `0x800`, its tables are in the blocks before, and every page is
present. Entry 1024 of the three blocks of the directory has an empty table. -/
def fullDirectory : Paging where
  phys.mem := ((fillTable (fun _ => 0xFF) 0x800000 0x400000 0 1024).store32 0x801000 0x803003).memset 0x803000 0 4096
  phys.memoryMap := 0x30000
  phys.maxBlocks := 4096
  phys.usedBlocks := 4096
  currentPageDir := 0x800000

theorem load_fullDirectory {a : Addr} (ha : a.toNat % 4 = 0) (h1 : page a ≠ 0x800) (h2 : page a ≠ 0x801)
    (h3 : page a ≠ 0x803) : fullDirectory.mem.load32 a = 0xFFFFFFFF := by
  refine (Mem.load32_memset_other (t := 0x803000) (by decide) ha h3).trans ?_
  rw [Mem.load32_store32_of_ne (by decide) ha fun e => h2 (e ▸ rfl)]
  refine (load_fillTable_other (t := 0x800000) (by decide) ha h1).trans ?_
  exact show (0xFF ++ 0xFF ++ 0xFF ++ 0xFF : BitVec (8 + 8 + 8 + 8)) = 0xFFFFFFFF by decide

theorem pde_fullDirectory (hi : i < 1024) :
    pde fullDirectory (BitVec.ofNat 32 i) = pageEntry (pageAfter 0x400000 i) := by
  have hlt : (BitVec.ofNat 32 i).toNat < 1024 := by
    rw [BitVec.toNat_ofNat]
    omega
  have hd : Aligned 0x800000 := by decide
  have hp := page_slot hd hlt
  refine (Mem.load32_memset_other (by decide) (slot_aligned hd hlt) ?_).trans ?_
  · rw [hp]
    decide
  rw [Mem.load32_store32_of_ne (by decide) (slot_aligned hd hlt)]
  · exact load_fillTable_self hd (by decide) (Nat.le_refl _) hi
  · intro e
    rw [← e] at hp
    exact absurd hp (by decide)

theorem frame_fullDirectory (hi : i < 1024) : isPresent (pde fullDirectory (BitVec.ofNat 32 i)) ∧
    frame (pde fullDirectory (BitVec.ofNat 32 i)) = pageAfter 0x400000 i := by
  rw [pde_fullDirectory hi]
  exact ⟨isPresent_pageEntry _, frame_pageEntry (aligned_pageAfter (by decide) _)⟩

theorem bit_fullDirectory {c : Word} (hc : c.toNat ≤ 4096) : bit fullDirectory.phys c = true := by
  have hw := wordAt_aligned (s := fullDirectory.phys) (by decide) c
  have hp : page (wordAt fullDirectory.phys.memoryMap c) = 0x30 := by
    rw [wordAt, page, BitVec.toNat_add, toNat_word, show fullDirectory.phys.memoryMap.toNat = 0x30000 from rfl]
    omega
  have e := load_fullDirectory hw (by rw [hp]; decide) (by rw [hp]; decide) (by rw [hp]; decide)
  refine (congrArg (·.getLsbD (c.toNat % 32)) e).trans ?_
  have := Nat.mod_lt c.toNat (show 0 < 32 by decide)
  generalize c.toNat % 32 = k at this
  revert k
  decide

theorem inMap_fullDirectory {c : Word} (h : InMap fullDirectory.phys c) : c.toNat = 0x30 := by
  obtain ⟨b, hb, rfl⟩ := h
  have hb : b.toNat ≤ 4096 := hb
  rw [toNat_blockOf, page, wordAt, BitVec.toNat_add, toNat_word,
    show fullDirectory.phys.memoryMap.toNat = 0x30000 from rfl]
  omega

theorem held_fullDirectory {c : Word} (h : 0x400 ≤ c.toNat) (hc : c.toNat < 4096) : Held fullDirectory.phys c := by
  refine ⟨⟨by omega, hc, fun hm => ?_⟩, bit_fullDirectory (by omega)⟩
  have := inMap_fullDirectory hm
  omega

theorem guarded_fullDirectory : Guarded fullDirectory := by
  have hofNat : ∀ i : Word, BitVec.ofNat 32 i.toNat = i := fun i => by rw [BitVec.ofNat_toNat, BitVec.setWidth_eq]
  have hframe : ∀ i : Word, i.toNat < 1024 → isPresent (pde fullDirectory i) ∧
      (frame (pde fullDirectory i)).toNat = 0x400000 + 4096 * i.toNat := fun i hi => by
    have h := frame_fullDirectory hi
    rw [hofNat] at h
    refine ⟨h.1, ?_⟩
    rw [h.2, pageAfter, BitVec.toNat_add, BitVec.toNat_mul, hofNat, show PAGE_SIZE.toNat = 4096 from rfl,
      show (0x400000 : Word).toNat = 0x400000 from rfl]
    omega
  have hdir : ∀ c, InDir fullDirectory c → 0x800 ≤ c.toNat ∧ c.toNat < 0x803 := fun c hc => by
    have e : (blockOf fullDirectory.currentPageDir).toNat = 0x800 := by decide
    have := (inRun_iff_lt (by omega)).mp hc
    omega
  have hzero : ¬ InMap fullDirectory.phys 0 := fun h => absurd (inMap_fullDirectory h) (by decide)
  have htable : ∀ c, InTable fullDirectory c → 0x400 ≤ c.toNat ∧ c.toNat < 0x800 := by
    rintro c ⟨i, hi, -, rfl⟩
    rw [toNat_blockOf, page, (hframe i hi).2]
    omega
  refine ⟨⟨⟨by decide, fun i hi _ e => ?_, fun i j hi hj _ _ e => ?_, fun i hi h => absurd (hframe i hi).1 h⟩,
    by decide, by decide, hzero, fun c hc => ?_, fun c hc => ⟨?_, fun hc' => ?_⟩⟩,
    ⟨by decide, by decide, bit_fullDirectory (by decide), fun c hc _ => bit_fullDirectory (Nat.le_of_lt hc), hzero⟩,
    fun c hc => ?_, fun c hc => ?_⟩
  · have h := (hframe i hi).2
    rw [e, show fullDirectory.currentPageDir.toNat = 0x800000 from rfl] at h
    omega
  · have h := (hframe i hi).2
    rw [e, (hframe j hj).2] at h
    exact BitVec.eq_of_toNat_eq (by omega)
  · obtain ⟨h1, h2⟩ := hdir c hc
    exact (held_fullDirectory (by omega) (by omega)).toUsable
  · obtain ⟨h1, h2⟩ := htable c hc
    exact (held_fullDirectory h1 (by omega)).toUsable
  · have := (htable c hc).2
    have := (hdir c hc').1
    omega
  · obtain ⟨h1, h2⟩ := hdir c hc
    exact bit_fullDirectory (by omega)
  · obtain ⟨h1, h2⟩ := htable c hc
    exact bit_fullDirectory (by omega)

theorem made_fullDirectory (hi : i < 1024) : made fullDirectory i = some (pageAfter 0x400000 i, fullDirectory) := by
  obtain ⟨hp, hf⟩ := frame_fullDirectory hi
  rw [made, if_neg fun h => h.1 hp, tableAt_of_present hp, hf]

theorem reached_fullDirectory (hi : i ≤ 1024) : reached fullDirectory i = some fullDirectory := by
  induction i with
  | zero => rfl
  | succ i ih =>
    rw [reached, ih (by omega), Option.bind_some, made_fullDirectory (by omega)]
    rfl

/-- None of the pages of the first 4 GiB is free. -/
theorem not_free_fullDirectory (hk : k < 2 ^ 20) : ¬ Free fullDirectory k := by
  have h := free_add (reached_fullDirectory (i := k / 1024) (by omega)) (made_fullDirectory (i := k / 1024) (by omega))
    (Nat.mod_lt k (by decide))
  rw [show 1024 * (k / 1024) + k % 1024 = k by omega] at h
  rw [h, tstAttribute]
  have hlt : (BitVec.ofNat 32 (k % 1024)).toNat < 1024 := by
    rw [BitVec.toNat_ofNat]
    omega
  have ht := aligned_pageAfter (a := 0x400000) (by decide) (k / 1024)
  have hp : page (slot (pageAfter 0x400000 (k / 1024)) (BitVec.ofNat 32 (k % 1024))) = 0x400 + k / 1024 := by
    rw [page_slot ht hlt, page_pageAfter, show page 0x400000 = 0x400 by decide]
    omega
  rw [load_fullDirectory (slot_aligned ht hlt) (by omega) (by omega) (by omega)]
  decide

theorem made_ghost : made fullDirectory 1024 = some (0x803000, fullDirectory) := by
  have e : pde fullDirectory (BitVec.ofNat 32 1024) = 0x803003 :=
    (Mem.load32_memset_other (by decide) (by decide) (by decide)).trans (Mem.load32_store32_self _ _ _)
  have hp : isPresent (pde fullDirectory (BitVec.ofNat 32 1024)) := by
    rw [e]
    decide
  rw [made, if_neg fun h => h.1 hp, tableAt_of_present hp, e]
  rfl

/-- The pages of the next entry are, all of them. -/
theorem free_ghost (hj : j < 1024) : Free fullDirectory (2 ^ 20 + j) := by
  have h := free_add (reached_fullDirectory (Nat.le_refl _)) made_ghost hj
  refine h.mpr ?_
  have hlt : (BitVec.ofNat 32 j).toNat < 1024 := by
    rw [BitVec.toNat_ofNat]
    omega
  have e : fullDirectory.mem.load32 (slot 0x803000 (BitVec.ofNat 32 j)) = 0 :=
    Mem.load32_memset_page (by decide) (slot_aligned (by decide) hlt) (page_slot (by decide) hlt)
  rw [tstAttribute]
  exact (congrArg (· &&& PAGE_TABLE_ENTRY_PRESENT) e).trans (by decide)

/-- The address returned is that of page 1, which is present. -/
theorem finds_present : ¬ ∀ (s : Paging) (nbPage : Word), Guarded s → 1 ≤ nbPage.toNat →
    FindsFree s nbPage := by
  intro h
  have hfinds := (h fullDirectory 1 guarded_fullDirectory (by decide)).1
  have G := guarded_fullDirectory
  have H : FirstRun (Free fullDirectory) ((1 : Word).toNat + 1) (2 ^ 20) := by
    refine ⟨fun k h1 h2 => ?_, fun start hs hrun => not_free_fullDirectory hs (hrun start (Nat.le_refl _) ?_)⟩
    · obtain ⟨j, rfl⟩ := Nat.exists_eq_add_of_le h1
      exact free_ghost (by have : 2 ^ 20 + j < 2 ^ 20 + 2 := h2; omega)
    · exact Nat.lt_add_of_pos_right (Nat.succ_pos _)
  rcases findFreePage_first fullDirectory 1 (by decide) with ⟨start, H', hlt, hr, hs⟩ | ⟨-, hclear, -⟩
  · obtain rfl := H'.unique H
    have R := hfinds (by rw [hr]; exact baseAt_ne_zero _)
    rw [hr] at R
    have W := (G.toLayout.freeRange_iff (G.freshSearch _) H hlt hs).mp R
    have hclear : Clear (Free fullDirectory) ((1 : Word).toNat + 1) 1 := H.clear (by decide)
    refine not_free_fullDirectory (k := 1) (by decide)
      ((G.toLayout.free_iff (G.freshSearch _) (by decide) hclear (reached_fullDirectory (by omega))).mpr ?_)
    exact W.2 (Nat.le_refl _) 0 (by decide)
  · exact hclear (2 ^ 20) (show 2 ^ 20 + 2 ≤ 3 * 2 ^ 20 by omega) H.run

end

end AlexOS.Virtual
