import AlexOS.Fat.Entry
import AlexOS.Fat.Names

/-!
# The entry of a new file

`FAT_create_file` makes an entry of the name and the number of the cluster.
Bytes that are no end mark of a FAT are in none of it, if the name has none of
the last characters (`newEntry_no_mark`).
-/

namespace AlexOS.Fat

section

variable {c : Word} {n : ShortName}

theorem length_newEntry (name : List Byte) (c : Word) : (newEntry name c).length = 32 := by
  rw [newEntry, bytesOf_map, List.length_map, List.length_range]

theorem getD_bytesOf (out : Int → Byte) {k i : Nat} (hi : i < k) : (bytesOf out k).getD i 0 = out i := by
  rw [bytesOf_map, List.getD_eq_getElem _ _ (by simpa), List.getElem_map, List.getElem_range]

theorem filename_newEntry (n : ShortName) (c : Word) : (newEntry n.text c).filename = n.kernelName := by
  rw [← normalToFatName_text n fun _ => 0]
  unfold DirEntry.filename newEntry
  dsimp only
  rw [bytesOf_map, bytesOf_map, ← List.map_take, List.take_range]
  apply List.map_congr_left
  intro i hi
  have hi : i < 11 := List.mem_range.mp hi
  simp only [setByte]
  grind

theorem firstCluster_newEntry (name : List Byte) (c : Word) : DirEntry.firstCluster (newEntry name c) = c := by
  unfold DirEntry.firstCluster newEntry
  dsimp only
  rw [getD_bytesOf _ (by decide), getD_bytesOf _ (by decide), getD_bytesOf _ (by decide), getD_bytesOf _ (by decide)]
  show c.extractLsb' 24 8 ++ c.extractLsb' 16 8 ++ c.extractLsb' 8 8 ++ c.extractLsb' 0 8 = c
  apply BitVec.eq_of_getLsbD_eq
  intro i hi
  simp only [BitVec.getLsbD_append, BitVec.getLsbD_extractLsb']
  grind

/-! ## An entry in the place of a FAT -/

/-- The bytes of an entry after its name. -/
theorem getD_newEntry (n : ShortName) (c : Word) {i : Nat} (hi : 11 ≤ i) : (newEntry n.text c).getD i 0 =
    if i = 20 then c.extractLsb' 16 8 else if i = 21 then c.extractLsb' 24 8
    else if i = 26 then c.extractLsb' 0 8 else if i = 27 then c.extractLsb' 8 8 else 0 := by
  by_cases h32 : i < 32
  swap
  · rw [List.getD_eq_default _ _ (by rw [length_newEntry]; omega)]
    grind
  have hext : ShortExt n.text := by
    intro ext hext
    rw [strchr_text, Option.mem_def] at hext
    split at hext
    · cases hext
    · obtain rfl := Option.some.inj hext
      have hle := n.ext_le
      have hlen : (0x2E :: n.ext).length = n.ext.length + 1 := List.length_cons
      have hnat : (BitVec.ofNat 32 (0x2E :: n.ext).length).toNat = n.ext.length + 1 := by
        rw [hlen, BitVec.toNat_ofNat]
        omega
      rw [extLen, BitVec.toInt_eq_toNat_of_lt (by omega), hnat]
      omega
  have hout : normalToFatName n.text (fun _ => 0) i = 0 := (within_iff n.text).mpr hext _ _ (by omega)
  rw [newEntry, getD_bytesOf _ h32]
  simp only [setByte, hout]
  split_ifs <;> first | rfl | omega

/-- No byte of an entry is from 0xF8 on, but for those of the cluster. -/
theorem newEntry_lt (hn : ∀ b ∈ n.text, b < 0xF8) (hc : c.toNat < 2 ^ 16) {i : Nat}
    (hi : 0xF8 ≤ (newEntry n.text c).getD i 0) : i = 26 ∨ i = 27 := by
  have hupper : ∀ b : Byte, b < 0xF8 → toupper b < 0xF8 := by decide
  have hname : ∀ b ∈ n.kernelName, b < 0xF8 := by
    have hbase : ∀ b ∈ n.base, b ∈ n.text := fun b hb => by
      rw [ShortName.text]
      split
      · exact hb
      · exact List.mem_append_left _ hb
    have hext : ∀ b ∈ n.ext, b ∈ n.text := fun b hb => by
      rw [ShortName.text, if_neg (List.ne_nil_of_mem hb)]
      exact List.mem_append_right _ (List.mem_cons_of_mem _ hb)
    intro b hb
    simp only [ShortName.kernelName, List.mem_append, List.mem_map, List.mem_replicate] at hb
    rcases hb with (⟨a, ha, rfl⟩ | ⟨-, rfl⟩) | ⟨-, rfl⟩ | ⟨a, ha, rfl⟩
    · exact hupper a (hn a (hbase a ha))
    · decide
    · decide
    · exact hupper a (hn a (hext a ha))
  by_cases h11 : i < 11
  · have hmem : (newEntry n.text c).getD i 0 ∈ n.kernelName := by
      rw [← filename_newEntry n c, List.getD_eq_getElem _ _ (by rw [length_newEntry]; omega)]
      exact List.mem_take_iff_getElem.mpr ⟨i, by rw [length_newEntry]; omega, rfl⟩
    exact absurd hi (BitVec.not_le.mpr (hname _ hmem))
  · rw [getD_newEntry n c (by omega)] at hi
    have hhigh : ∀ k, 16 ≤ k → c.extractLsb' k 8 = 0 := fun k hk => by
      apply BitVec.eq_of_toNat_eq
      rw [BitVec.extractLsb'_toNat, Nat.shiftRight_eq_div_pow, Nat.div_eq_of_lt]
      · rfl
      · exact hc.trans_le (Nat.pow_le_pow_right (by decide) hk)
    rw [hhigh 16 (le_refl _), hhigh 24 (by decide)] at hi
    by_contra hne
    rw [not_or] at hne
    rw [if_neg hne.1, if_neg hne.2] at hi
    split at hi
    · exact absurd hi (by decide)
    · split at hi <;> exact absurd hi (by decide)

theorem le_of_bits {w : Nat} {v M : BitVec w} (h : ∀ j, M.getLsbD j = true → v.getLsbD j = true) :
    M.toNat ≤ v.toNat := by
  have hand : v &&& M = M := by
    apply BitVec.eq_of_getLsbD_eq
    intro j _
    rw [BitVec.getLsbD_and]
    cases hM : M.getLsbD j with
    | false => rw [Bool.and_false]
    | true => rw [h j hM, Bool.true_and]
  rw [← hand, BitVec.toNat_and]
  exact Nat.and_le_left

/-- The bits of an end mark. -/
theorem bit_of_isEnd {fatType : Byte} {b : Buffer} {k : Nat} (ht : fatType = 12 ∨ fatType = 16)
    (h : IsEnd fatType (extend fatType (b.field k fatType.toNat))) {j : Nat} (h3 : 3 ≤ j) (hj : j < fatType.toNat) :
    b.bit (k + j) = true := by
  have hlt : ∀ w ≤ 32, (b.field k w).toNat < 2 ^ w := fun w hw => by
    rw [← Buffer.setWidth_field hw, BitVec.toNat_setWidth_of_le hw]
    exact BitVec.isLt _
  -- a value of `w` bits from `2 ^ w - 8` on
  have hones : ∀ w ≤ 32, 2 ^ w ≤ (b.field k w).toNat + 8 → ∀ j, 3 ≤ j → j < w →
    b.bit (k + j) = true := by
    intro w hw hle j h3 hj
    have hbit := Buffer.getLsbD_field (b := b) (k := k) (j := j) hw
    rw [decide_eq_true hj, Bool.true_and] at hbit
    obtain ⟨x, hx⟩ := Nat.exists_eq_add_of_lt (hlt w hw)
    have hv : (b.field k w).toNat = 2 ^ w - (x + 1) := by omega
    have hx3 : x < 2 ^ j := lt_of_lt_of_le (show x < 2 ^ 3 by omega) (Nat.pow_le_pow_right (by decide) h3)
    rw [← hbit, BitVec.getLsbD, hv, Nat.testBit_two_pow_sub_succ (by omega), decide_eq_true hj,
      Nat.testBit_lt_two_pow hx3]
    rfl
  rcases ht with rfl | rfl
  · refine hones 12 (by decide) ?_ j h3 hj
    have h : (if b.field k 12 ≥ 0x0FF8 then b.field k 12 ||| 0xFFFFF000 else b.field k 12) ≥ 0xFFFFFFF8 := h
    split at h
    · rename_i hge
      have hge : 0xFF8 ≤ (b.field k 12).toNat := hge
      omega
    · have hge : 0xFFFFFFF8 ≤ (b.field k 12).toNat := h
      omega
  · refine hones 16 (by decide) ?_ j h3 hj
    have h : (if b.field k 16 ≥ 0xFFF8 then b.field k 16 ||| 0xFFFF0000 else b.field k 16) ≥ 0xFFFFFFF8 := h
    split at h
    · rename_i hge
      have hge : 0xFFF8 ≤ (b.field k 16).toNat := hge
      omega
    · have hge : 0xFFFFFFF8 ≤ (b.field k 16).toNat := h
      omega

theorem bit_newEntry {i j : Nat} (hj : j < 8) :
    (Buffer.ofList (newEntry n.text c)).bit (8 * i + j) = ((newEntry n.text c).getD i 0).getLsbD j :=
  Buffer.bit_byte hj

theorem cluster_bit {j : Nat} (hj : j < 16) : (Buffer.ofList (newEntry n.text c)).bit (8 * 26 + j) = c.getLsbD j := by
  by_cases h8 : j < 8
  · rw [bit_newEntry h8, getD_newEntry n c (by decide)]
    show (c.extractLsb' 0 8).getLsbD j = _
    rw [BitVec.getLsbD_extractLsb', decide_eq_true h8, Bool.true_and, Nat.zero_add]
  · have h8' : j - 8 < 8 := by omega
    rw [show 8 * 26 + j = 8 * 27 + (j - 8) by omega, bit_newEntry h8', getD_newEntry n c (by decide)]
    show (c.extractLsb' 8 8).getLsbD (j - 8) = _
    rw [BitVec.getLsbD_extractLsb', decide_eq_true h8', Bool.true_and, show 8 + (j - 8) = j by omega]

/-- The bytes on both sides of the cluster are zero. -/
theorem beside_bit {i j : Nat} (hi : i = 25 ∨ i = 28) (hj : j < 8) :
    (Buffer.ofList (newEntry n.text c)).bit (8 * i + j) = false := by
  rw [bit_newEntry hj]
  rcases hi with rfl | rfl
  · rw [getD_newEntry n c (by decide)]
    exact BitVec.getLsbD_zero
  · rw [getD_newEntry n c (by decide)]
    exact BitVec.getLsbD_zero

/-- A byte with its upper bits set is one of the cluster. -/
theorem cluster_of_top (hn : ∀ b ∈ n.text, b < 0xF8) (hc : c.toNat < 2 ^ 16) {i : Nat}
    (h : ∀ j, 3 ≤ j → j < 8 → (Buffer.ofList (newEntry n.text c)).bit (8 * i + j) = true) : i = 26 ∨
      i = 27 := by
  have hall : ∀ b : Byte, (∀ j < 8, 3 ≤ j → b.getLsbD j = true) → 0xF8 ≤ b := by decide
  refine newEntry_lt hn hc (hall _ fun j hj h3 => ?_)
  rw [← bit_newEntry hj]
  exact h j h3 hj

/-- Bits of the cluster that are set make it large. -/
theorem le_of_cluster_bits {M : Word} {a b : Nat} (hb : b ≤ 16)
    (hM : ∀ j < 32, M.getLsbD j = true → a ≤ j ∧ j < b)
    (h : ∀ j, a ≤ j → j < b →
      (Buffer.ofList (newEntry n.text c)).bit (8 * 26 + j) = true) : M.toNat ≤ c.toNat := by
  refine le_of_bits fun j hj => ?_
  obtain ⟨h1, h2⟩ := hM j (BitVec.lt_of_getLsbD hj) hj
  rw [← cluster_bit (n := n) (by omega)]
  exact h j h1 h2

/-- A mark that starts at a byte starts at the cluster, which is then one. -/
theorem le_of_mark (hn : ∀ b ∈ n.text, b < 0xF8) (hc : c.toNat < 2 ^ 16) {M : Word} {w o : Nat} (h8 : 8 < w)
    (hw : w ≤ 16) (hM : ∀ j < 32, M.getLsbD j = true → 3 ≤ j ∧ j < w)
    (h : ∀ j, 3 ≤ j → j < w →
      (Buffer.ofList (newEntry n.text c)).bit (8 * o + j) = true) : M.toNat ≤ c.toNat := by
  obtain rfl | rfl := cluster_of_top hn hc fun j h3 hj => h j h3 (by omega)
  · exact le_of_cluster_bits hw hM h
  · have h := h 8 (by decide) h8
    rw [show 8 * 27 + 8 = 8 * 28 + 0 from rfl, beside_bit (.inr rfl) (by decide)] at h
    cases h

/-- One that starts in the middle of a byte makes it large too. -/
theorem le_of_mark_half (hn : ∀ b ∈ n.text, b < 0xF8) (hc : c.toNat < 2 ^ 16) {o : Nat}
    (h : ∀ j, 3 ≤ j → j < 12 → (Buffer.ofList (newEntry n.text c)).bit (8 * o + (4 + j)) = true) :
    (0xFF00 : Word).toNat ≤ c.toNat := by
  have hup : ∀ j < 8, (Buffer.ofList (newEntry n.text c)).bit (8 * (o + 1) + j) = true := fun j hj => by
    rw [show 8 * (o + 1) + j = 8 * o + (4 + (4 + j)) by omega]
    exact h _ (by omega) (by omega)
  obtain ho | ho := cluster_of_top hn hc fun j _ hj => hup j hj
  · obtain rfl : o = 25 := by omega
    have h := h 3 (le_refl _) (by decide)
    rw [beside_bit (.inl rfl) (by decide)] at h
    cases h
  · obtain rfl : o = 26 := by omega
    have hM : ∀ j < 32, (0xFF00 : Word).getLsbD j = true → 8 ≤ j ∧ j < 16 := by decide
    refine le_of_cluster_bits (n := n) (le_refl _) hM fun j h1 h2 => ?_
    have h := hup (j - 8) (by omega)
    rwa [show 8 * (26 + 1) + (j - 8) = 8 * 26 + j by omega] at h

/-- So they are in no entry whose cluster is one of the volume. -/
theorem newEntry_no_mark (hn : ∀ b ∈ n.text, b < 0xF8) {w r o : Nat}
    (hw : w = 12 ∧ (r = 0 ∨ r = 4) ∨ w = 16 ∧ r = 0) (hc : c.toNat + 8 < 2 ^ w) :
    ¬ ∀ j, 3 ≤ j → j < w → (Buffer.ofList (newEntry n.text c)).bit (8 * o + (r + j)) = true := by
  intro H
  have h16 : c.toNat < 2 ^ 16 := by
    rcases hw with ⟨rfl, -⟩ | ⟨rfl, -⟩ <;> omega
  rcases hw with ⟨rfl, rfl | rfl⟩ | ⟨rfl, rfl⟩
  · simp only [Nat.zero_add] at H
    have hle : 0xFF8 ≤ c.toNat := le_of_mark (M := 0xFF8) hn h16 (by decide) (by decide) (by decide) H
    omega
  · have hle : 0xFF00 ≤ c.toNat := le_of_mark_half hn h16 H
    omega
  · simp only [Nat.zero_add] at H
    have hle : 0xFFF8 ≤ c.toNat := le_of_mark (M := 0xFFF8) hn h16 (by decide) (le_refl _) (by decide) H
    omega

end

end AlexOS.Fat
