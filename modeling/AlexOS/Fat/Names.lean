import AlexOS.Fat.Volume
import AlexOS.Stage2.Driver
import Mathlib.Data.List.GetD
import Mathlib.Data.List.TakeWhile

/-!
# Names of files

`normal_to_fat_name` writes the extension up to the last of eleven bytes, from
wherever it has to start (`normalToFatName_apply`): before the first byte, if it
is longer than eleven characters (`within_iff`). So an extension of one or two
characters does not stand where the bootloader looks for it, and `find_file`
does not take names of twelve characters (`encodes_iff`). Names are kept apart
by either (`names_encoded_iff`).
-/

namespace AlexOS.Fat

section

variable {input ext : List Byte} {out : Int → Byte} {L x : Int} {n : Nat} {c : Byte}

/-! ## What is written -/

theorem upperCase_apply : upperCase input out n x =
    if 0 ≤ x ∧ x < n then toupper (input.getD x.toNat 0) else out x := by
  induction n with
  | zero => rw [upperCase, if_neg (by omega)]
  | succ n ih =>
    rw [upperCase, setByte]
    split
    · rename_i h
      subst h
      rw [if_pos (by omega), Int.toNat_natCast]
    · rw [ih]
      simp only [show x < ((n + 1 : Nat) : Int) ↔ x < n by omega]

theorem upperCaseExt_apply : upperCaseExt ext L out n x =
    if 12 - L ≤ x ∧ x < 12 - L + n then toupper (ext.getD (x + L - 11).toNat 0) else out x := by
  induction n with
  | zero => rw [upperCaseExt, if_neg (by omega)]
  | succ n ih =>
    rw [upperCaseExt, setByte]
    split
    · rename_i h
      rw [if_pos (by omega), show (x + L - 11).toNat = n + 1 by omega]
    · rw [ih]
      simp only [show x < 12 - L + ((n + 1 : Nat) : Int) ↔ x < 12 - L + n by omega]

/-- Nothing is written but the eleven bytes. -/
def Within (input : List Byte) : Prop := ∀ out x, ¬ (0 ≤ x ∧ x < 11) → normalToFatName input out x = out x

/-- No more than eleven characters follow the first dot. -/
def ShortExt (input : List Byte) : Prop := ∀ ext ∈ strchr input 0x2E, extLen ext ≤ 12

/-- Another byte than a given one. -/
theorem exists_ne_byte (c : Byte) : ∃ d : Byte, d ≠ c := ⟨c + 1, by revert c; decide⟩

theorem within_iff (input : List Byte) : Within input ↔ ShortExt input := by
  have hmin : ∀ k : Nat, ((min 11 k : Nat) : Int) ≤ 11 := fun k => by omega
  constructor
  · intro h ext hext
    by_contra hlong
    -- the first character after the dot is written before the first byte
    obtain ⟨d, hd⟩ := exists_ne_byte (toupper (ext.getD 1 0))
    have hw := h (fun _ => d) (12 - extLen ext) (by omega)
    rw [normalToFatName, show strchr input 0x2E = some ext from hext] at hw
    dsimp only at hw
    rw [upperCaseExt_apply, if_pos (by omega), show (12 - extLen ext + extLen ext - 11).toNat = 1 by omega] at hw
    exact hd hw.symm
  · intro h out x hx
    rw [normalToFatName]
    cases hext : strchr input 0x2E with
    | none =>
      have := hmin input.length
      dsimp only
      rw [upperCase_apply, if_neg (by omega), if_neg hx]
    | some ext =>
      have := h ext hext
      have := hmin (input.length - ext.length)
      dsimp only
      rw [upperCaseExt_apply, if_neg (by omega), upperCase_apply, if_neg (by omega), if_neg hx]

/-- `FAT_create_file` writes into the name of the entry only, for the same names. -/
theorem names_within_iff (input path : List Byte) : (Within input ↔ ShortExt input) ∧
    (Within (parseFilenameCreateFile path).2 ↔ ShortExt (parseFilenameCreateFile path).2) :=
  ⟨within_iff input, within_iff _⟩

/-- Twelve characters follow the dot. -/
theorem not_within : ¬ ∀ input, Within input := by
  intro H
  have hext : ShortExt (0x41 :: 0x2E :: List.replicate 12 0x42) := (within_iff _).mp (H _)
  exact absurd (hext (0x2E :: List.replicate 12 0x42) rfl) (by decide)

end

/-! ## Short names -/

/-- A character of a short name. -/
def NameChar (c : Byte) : Prop := c ≠ 0 ∧ c ≠ 0x2E ∧ c ≠ 0x20

instance (c : Byte) : Decidable (NameChar c) := inferInstanceAs (Decidable (_ ∧ _ ∧ _))

/-- One to eight characters, then a dot and one to three more, or nothing. -/
structure ShortName where
  base : List Byte
  ext : List Byte
  base_pos : 0 < base.length
  base_le : base.length ≤ 8
  ext_le : ext.length ≤ 3
  base_chars : ∀ c ∈ base, NameChar c
  ext_chars : ∀ c ∈ ext, NameChar c

namespace ShortName

variable (n m : ShortName)

/-- The characters of the name. -/
def text : List Byte := if n.ext = [] then n.base else n.base ++ 0x2E :: n.ext

/-- Its eleven bytes in a directory. -/
def encoded : List Byte := (n.base.map toupper ++ List.replicate (8 - n.base.length) 0x20) ++
  (n.ext.map toupper ++ List.replicate (3 - n.ext.length) 0x20)

/-- The bytes that the kernel makes of it: the extension is at the end. -/
def kernelName : List Byte := (n.base.map toupper ++ List.replicate (8 - n.base.length) 0x20) ++
  (List.replicate (3 - n.ext.length) 0x20 ++ n.ext.map toupper)

end ShortName

/-- The name is encoded so by `FAT_FindFile`, `normal_to_fat_name` and `find_file`, which looks for it. -/
structure Encodes (n : ShortName) : Prop where
  bootloader : Stage2.fatName n.text = n.encoded
  kernel : ∀ out, bytesOf (normalToFatName n.text out) 11 = n.encoded
  accepted : ∀ fuel s dir, findFile fuel s dir n.text = findLoop dir n.encoded fuel s

section

variable {n m : ShortName} {xs ys : List Byte} {out : Int → Byte} {c : Byte}

theorem toupper_ne_space (h : c ≠ 0x20) : toupper c ≠ 0x20 := by
  revert h c
  decide

theorem strchr_text : strchr n.text 0x2E = if n.ext = [] then none else some (0x2E :: n.ext) := by
  have hbase : n.base.dropWhile (· ≠ 0x2E) = [] := by
    apply List.dropWhile_eq_nil_iff.mpr
    intro c hc
    exact decide_eq_true (n.base_chars c hc).2.1
  by_cases hext : n.ext = []
  · rw [strchr, ShortName.text, if_pos hext, if_pos hext, hbase]
  · have hdrop : (n.base ++ 0x2E :: n.ext).dropWhile (· ≠ 0x2E) = 0x2E :: n.ext := by
      rw [List.dropWhile_append, hbase]
      simp
    rw [strchr, ShortName.text, if_neg hext, if_neg hext, hdrop]

theorem length_text : n.text.length = n.base.length + if n.ext = [] then 0 else n.ext.length + 1 := by
  rw [ShortName.text]
  split <;> simp

/-! ## What the converters make of them -/

theorem fatName_text : Stage2.fatName n.text = n.encoded := by
  have hle := n.base_le
  have hbase : (0x2E : Byte) ∉ n.base := fun h => (n.base_chars _ h).2.1 rfl
  have hpad : ∀ (xs : List Byte) k, xs.length ≤ k →
      Stage2.padded xs k = xs.map toupper ++ List.replicate (k - xs.length) 0x20 := by
    intro xs k h
    rw [Stage2.padded, List.take_of_length_le h]
    rfl
  rw [Stage2.fatName, ShortName.text, ShortName.encoded]
  by_cases hext : n.ext = []
  · rw [if_pos hext, if_neg hbase, if_pos rfl, List.take_of_length_le (by omega), hpad _ _ hle,
      hpad _ _ (Nat.zero_le _),
      hext]
  · have hidx : (n.base ++ 0x2E :: n.ext).idxOf 0x2E = n.base.length := by
      rw [List.idxOf_append_of_notMem hbase]
      simp
    have hmem : (0x2E : Byte) ∈ n.base ++ 0x2E :: n.ext := by simp
    have hdrop : (n.base ++ 0x2E :: n.ext).drop (n.base.length + 1) = n.ext := by
      rw [← List.drop_drop, List.drop_left]
      rfl
    simp only [if_neg hext, if_pos hmem, hidx, List.take_left, if_neg (show n.base.length ≠ 11 by omega), hdrop]
    rw [hpad _ _ hle, hpad _ _ n.ext_le]

theorem bytesOf_map (out : Int → Byte) (k : Nat) : bytesOf out k = (List.range k).map fun i : Nat => out i := by
  simp [bytesOf, List.map_eq_flatMap, List.flatMap_assoc]

theorem bytesOf_eq {k : Nat} (hlen : xs.length = k) (h : ∀ i < k, out i = xs.getD i 0) : bytesOf out k = xs := by
  apply List.ext_getElem
  · simp [bytesOf_map, hlen]
  · intro i hi hi'
    simp only [bytesOf_map, List.getElem_map, List.getElem_range]
    rw [h i (by omega), List.getD_eq_getElem _ _ hi']

theorem getD_map_toupper (xs : List Byte) (i : Nat) : (xs.map toupper).getD i 0 = toupper (xs.getD i 0) :=
  List.getD_map xs 0 toupper

/-- Byte `i` of what the kernel makes of a name. -/
theorem getD_kernelName (n : ShortName) {i : Nat} (hi : i < 11) : n.kernelName.getD i 0 =
    if i < 8 then (if i < n.base.length then toupper (n.base.getD i 0) else 0x20)
    else if i < 11 - n.ext.length then 0x20 else toupper (n.ext.getD (i + n.ext.length - 11) 0) := by
  have hb := n.base_le
  have he := n.ext_le
  have hleft : (n.base.map toupper ++ List.replicate (8 - n.base.length) 0x20).length = 8 := by
    simp only [List.length_append, List.length_map, List.length_replicate]
    omega
  have hspace : ∀ k j : Nat, j < k → (List.replicate k (0x20 : Byte)).getD j 0 = 0x20 := by
    intro k j h
    rw [List.getD_eq_getElem _ _ (by simpa using h), List.getElem_replicate]
  rw [ShortName.kernelName]
  split
  · rename_i h8
    rw [List.getD_append _ _ _ _ (by omega)]
    split
    · rename_i h
      rw [List.getD_append _ _ _ _ (by simpa using h), getD_map_toupper]
    · rename_i h
      rw [List.getD_append_right _ _ _ _ (by simpa using h), hspace _ _ (by rw [List.length_map]; omega)]
  · rename_i h8
    rw [List.getD_append_right _ _ _ _ (by omega), hleft]
    split
    · rename_i h
      rw [List.getD_append _ _ _ _ (by rw [List.length_replicate]; omega), hspace _ _ (by omega)]
    · rename_i h
      rw [List.getD_append_right _ _ _ _ (by rw [List.length_replicate]; omega), getD_map_toupper,
        List.length_replicate,
        show i - 8 - (3 - n.ext.length) = i + n.ext.length - 11 by omega]

/-- Byte `i` after the conversion. -/
theorem normalToFatName_byte (n : ShortName) (out : Int → Byte) {i : Nat} (hi : i < 11) :
    normalToFatName n.text out i =
      if i < n.base.length then toupper (n.base.getD i 0)
      else if i < 11 - n.ext.length then 0x20 else toupper (n.ext.getD (i + n.ext.length - 11) 0) := by
  have hb := n.base_le
  have he := n.ext_le
  have htext := length_text (n := n)
  have hi' : (0 : Int) ≤ i ∧ (i : Int) < 11 := by omega
  rw [normalToFatName, strchr_text, ShortName.text]
  by_cases hext : n.ext = []
  · simp only [hext, if_true, List.length_nil, Nat.sub_zero, if_pos hi, upperCase_apply, if_pos hi', Int.toNat_natCast]
    simp only [show (0 : Int) ≤ i ∧ (i : Int) < (min 11 n.base.length : Nat) ↔ i < n.base.length by omega]
  · have hpos : 0 < n.ext.length := List.length_pos_iff.mpr hext
    have hlen : extLen (0x2E :: n.ext) = n.ext.length + 1 := by
      rw [extLen, List.length_cons, BitVec.toInt_eq_toNat_of_lt] <;> rw [BitVec.toNat_ofNat] <;> omega
    have hcount : min 11 ((n.base ++ 0x2E :: n.ext).length - (0x2E :: n.ext).length) = n.base.length := by
      simp only [List.length_append, List.length_cons]
      omega
    simp only [if_neg hext, hcount, hlen, upperCaseExt_apply, upperCase_apply, if_pos hi']
    have hwritten : (12 - ((n.ext.length : Int) + 1) ≤ i ∧
        (i : Int) < 12 - ((n.ext.length : Int) + 1) + ((n.ext.length : Int) + 1 - 1).toNat) ↔
          ¬ i < 11 - n.ext.length := by
      omega
    have hbase : ((0 : Int) ≤ i ∧ (i : Int) < (n.base.length : Nat)) ↔ i < n.base.length := by omega
    have hidx : ((i : Int) + ((n.ext.length : Int) + 1) - 11).toNat = i + n.ext.length - 10 := by omega
    simp only [hwritten, hbase, hidx, Int.toNat_natCast]
    by_cases h1 : i < n.base.length
    · rw [if_neg (by omega), if_pos h1, if_pos h1, List.getD_append _ _ _ _ h1]
    · rw [if_neg h1, if_neg h1]
      by_cases h2 : i < 11 - n.ext.length
      · rw [if_neg (by omega), if_pos h2]
      · rw [if_pos h2, if_neg h2, show i + n.ext.length - 10 = i + n.ext.length - 11 + 1 by omega, List.getD_cons_succ]

/-- What `normal_to_fat_name` and `find_file` make of a short name. -/
theorem normalToFatName_text (n : ShortName) (out : Int → Byte) :
    bytesOf (normalToFatName n.text out) 11 = n.kernelName := by
  have hb := n.base_le
  have he := n.ext_le
  have hlen : n.kernelName.length = 11 := by
    simp only [ShortName.kernelName, List.length_append, List.length_map, List.length_replicate]
    omega
  apply bytesOf_eq hlen
  intro i hi
  rw [normalToFatName_byte n out hi, getD_kernelName n hi]
  by_cases h8 : i < 8
  · have h11 : i < 11 - n.ext.length := by omega
    simp only [if_pos h8, if_pos h11]
  · have hbase : ¬ i < n.base.length := by omega
    simp only [if_neg h8, if_neg hbase]

/-! ## Where they agree -/

/-- The extension is at the end, and at the start too if it fills its bytes. -/
theorem kernelName_eq_iff (n : ShortName) : n.kernelName = n.encoded ↔ n.ext = [] ∨ n.ext.length = 3 := by
  have he := n.ext_le
  rw [ShortName.kernelName, ShortName.encoded, List.append_cancel_left_eq]
  constructor
  · intro h
    cases hext : n.ext with
    | nil => exact .inl rfl
    | cons c cs =>
      right
      rw [hext] at h he
      by_contra hne
      have hpos : 3 - (c :: cs).length ≠ 0 := by
        simp only [List.length_cons] at he hne ⊢
        omega
      obtain ⟨k, hk⟩ := Nat.exists_eq_succ_of_ne_zero hpos
      rw [hk, List.replicate_succ, List.cons_append, List.map_cons, List.cons_append] at h
      exact toupper_ne_space (n.ext_chars c (by simp [hext])).2.2 (List.cons.inj h).1.symm
  · rintro (h | h)
    · simp [h]
    · simp [h]

theorem encodes_iff (n : ShortName) : Encodes n ↔ n.ext = [] ∨ n.ext.length = 3 ∧ n.base.length ≤ 7 := by
  have hb := n.base_le
  have he := n.ext_le
  have htext := length_text (n := n)
  have hlen : ¬ n.text.length > 11 ↔ n.ext = [] ∨ n.base.length + n.ext.length ≤ 10 := by
    rw [htext]
    split
    · rename_i h
      simp only [h, true_or, iff_true]
      omega
    · rename_i h
      simp only [h, false_or]
      omega
  constructor
  · intro E
    have hname := (kernelName_eq_iff n).mp ((normalToFatName_text n fun _ => 0).symm.trans (E.kernel _))
    have haccept : ¬ n.text.length > 11 := by
      intro hlong
      have h := E.accepted 0 someFat 0
      rw [findFile, if_pos hlong] at h
      cases h
    rcases hlen.mp haccept with h | h
    · exact .inl h
    · exact hname.imp_right fun h3 => ⟨h3, by omega⟩
  · intro h
    have hname : n.kernelName = n.encoded := (kernelName_eq_iff n).mpr (h.imp_right And.left)
    have haccept : ¬ n.text.length > 11 := hlen.mpr (h.imp_right fun ⟨h3, h7⟩ => by omega)
    refine ⟨fatName_text, fun out => (normalToFatName_text n out).trans hname, fun fuel s dir => ?_⟩
    rw [findFile, if_neg haccept, normalToFatName_text, hname]

/-! ## Names are kept apart -/

/-- The characters of a name among its bytes. -/
theorem filter_padded {xs : List Byte} (h : ∀ c ∈ xs, NameChar c) (k : Nat) :
    (xs.map toupper ++ List.replicate k 0x20).filter (· ≠ 0x20) = xs.map toupper ∧
      (List.replicate k 0x20 ++ xs.map toupper).filter (· ≠ 0x20) = xs.map toupper := by
  have hkeep : (xs.map toupper).filter (· ≠ 0x20) = xs.map toupper := by
    apply List.filter_eq_self.mpr
    intro c hc
    obtain ⟨d, hd, rfl⟩ := List.mem_map.mp hc
    exact decide_eq_true (toupper_ne_space (h d hd).2.2)
  have hdrop : (List.replicate k (0x20 : Byte)).filter (· ≠ 0x20) = [] := by
    apply List.filter_eq_nil_iff.mpr
    intro c hc
    rw [List.eq_of_mem_replicate hc]
    decide
  rw [List.filter_append, List.filter_append, hkeep, hdrop]
  simp

/-- Base names and extensions that are equal but for the case. -/
theorem map_text_congr (hb : n.base.map toupper = m.base.map toupper) (he : n.ext.map toupper = m.ext.map toupper) :
    n.text.map toupper = m.text.map toupper := by
  have hnil : n.ext = [] ↔ m.ext = [] := by rw [← List.map_eq_nil_iff (f := toupper), he, List.map_eq_nil_iff]
  simp only [ShortName.text, hnil]
  split
  · exact hb
  · simp [hb, he]

theorem split_eq {a b c d : List Byte} (h : a ++ b = c ++ d) (ha : a.length = 8) (hc : c.length = 8) :
    a = c ∧ b = d :=
  List.append_inj h (ha.trans hc.symm)

theorem length_base (n : ShortName) : (n.base.map toupper ++ List.replicate (8 - n.base.length) 0x20).length = 8 := by
  have := n.base_le
  simp only [List.length_append, List.length_map, List.length_replicate]
  omega

/-- The characters are those that are no blanks. -/
theorem text_of_padded (h : (n.base.map toupper ++ List.replicate (8 - n.base.length) 0x20) ++ xs =
      (m.base.map toupper ++ List.replicate (8 - m.base.length) 0x20) ++ ys)
    (hx : xs.filter (· ≠ 0x20) = n.ext.map toupper) (hy : ys.filter (· ≠ 0x20) = m.ext.map toupper) :
    n.text.map toupper = m.text.map toupper := by
  obtain ⟨hb, he⟩ := split_eq h (length_base n) (length_base m)
  have hb := congrArg (List.filter (· ≠ 0x20)) hb
  have he := congrArg (List.filter (· ≠ 0x20)) he
  rw [(filter_padded n.base_chars _).1, (filter_padded m.base_chars _).1] at hb
  rw [hx, hy] at he
  exact map_text_congr hb he

theorem encoded_inj (h : n.encoded = m.encoded) : n.text.map toupper = m.text.map toupper :=
  text_of_padded h (filter_padded n.ext_chars _).1 (filter_padded m.ext_chars _).1

theorem kernelName_inj (h : n.kernelName = m.kernelName) : n.text.map toupper = m.text.map toupper :=
  text_of_padded h (filter_padded n.ext_chars _).2 (filter_padded m.ext_chars _).2

/-- A name is encoded alike if it has no extension, or one of three characters after at most seven others. Names that
differ other than in case are encoded differently by all. -/
theorem names_encoded_iff (n m : ShortName) :
    (Encodes n ↔ n.ext = [] ∨ n.ext.length = 3 ∧ n.base.length ≤ 7) ∧
    (n.text.map toupper ≠ m.text.map toupper →
      Stage2.fatName n.text ≠ Stage2.fatName m.text ∧
        ∀ out out', bytesOf (normalToFatName n.text out) 11 ≠ bytesOf (normalToFatName m.text out') 11) := by
  refine ⟨encodes_iff n, fun hne => ⟨fun h => hne ?_, fun out out' h => hne ?_⟩⟩
  · rw [fatName_text, fatName_text] at h
    exact encoded_inj h
  · rw [normalToFatName_text, normalToFatName_text] at h
    exact kernelName_inj h

/-- `A.C`. -/
def oneOne : ShortName where
  base := [0x41]
  ext := [0x43]
  base_pos := by decide
  base_le := by decide
  ext_le := by decide
  base_chars := by decide
  ext_chars := by decide

/-- The extension is at the end of the eleven bytes. -/
theorem not_encodes : ¬ ∀ n, Encodes n := by
  intro H
  exact absurd ((encodes_iff oneOne).mp (H oneOne)) (by decide)

end

end AlexOS.Fat
