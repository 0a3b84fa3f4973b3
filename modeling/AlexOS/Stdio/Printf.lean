import AlexOS.Lib.Mem

/-!
# `printf`

The `printf` of the kernel and that of the bootloader, on a format and the
words that are on the stack as arguments. They are one loop (`printf`), but for
what is reset after a conversion: the bootloader resets `number`
(`Stage2.reset`), the kernel does not (`Kernel.reset`). So a conversion that is
not a number, after one that is, prints a number too in the kernel, and takes
another argument. The two agree exactly if there is no such conversion
(`printf_agree_iff`).
-/

namespace AlexOS.Stdio

/-- The code of a character. -/
def ch (c : Char) : Byte := BitVec.ofNat 8 c.toNat

/-- The arguments: the words on the stack, and the strings that pointers point to. -/
structure Arguments where
  word : Nat → Word
  string : Addr → List Byte

/-! ## Numbers -/

def hexChars : List Byte := "0123456789abcdef".toList.map ch

/-- The digits that are put in `buffer`, which are at most 64. -/
def digits (radix : Nat) : Nat → Nat → List Byte
  | 0, _ => []
  | n + 1, number =>
    hexChars.getD (number % radix) 0 :: if number / radix > 0 then digits radix n (number / radix) else []

def printfUnsigned (number : BitVec 64) (radix : Nat) : List Byte := (digits radix 64 number.toNat).reverse

def printfSigned (number : BitVec 64) (radix : Nat) : List Byte :=
  if number.slt 0 then ch '-' :: printfUnsigned (-number) radix else printfUnsigned number radix

/-! ## The states of `printf` -/

/-- `PRINTF_STATE_NORMAL` and so on. -/
inductive PrintfState where
  | normal
  | length
  | lengthShort
  | lengthLong
  | spec
deriving DecidableEq

/-- `PRINTF_LENGTH_DEFAULT` and so on. -/
inductive PrintfLength where
  | default
  | shortShort
  | short
  | long
  | longLong
deriving DecidableEq

/-- The variables of `printf`, where the next argument is, and what has been printed. -/
structure Vars where
  state : PrintfState
  length : PrintfLength
  radix : Nat
  sign : Bool
  number : Bool
  args : Nat
  out : List Byte

def Vars.init : Vars := ⟨.normal, .default, 10, false, false, 0, []⟩

section

variable (a : Arguments)

/-- `putc` and `puts`. -/
def Vars.print (v : Vars) (text : List Byte) : Vars := { v with out := v.out ++ text }

/-- `if (number)`. -/
def Vars.printNumber (v : Vars) : Vars :=
  match v.length with
  | .longLong =>
    let number : BitVec 64 := a.word (v.args + 1) ++ a.word v.args
    { v with args := v.args + 2 }.print
      (if v.sign then printfSigned number v.radix else printfUnsigned number v.radix)
  | _ =>
    { v with args := v.args + 1 }.print
      (if v.sign then printfSigned ((a.word v.args).signExtend 64) v.radix
      else printfUnsigned ((a.word v.args).setWidth 64) v.radix)

/-- `switch (*fmt)` in `PRINTF_STATE_SPEC`. -/
def Vars.conversion (v : Vars) (c : Byte) : Vars :=
  if c = ch 'c' then { v with args := v.args + 1 }.print [(a.word v.args).setWidth 8]
  else if c = ch 's' then { v with args := v.args + 1 }.print (a.string (a.word v.args))
  else if c = ch '%' then v.print [ch '%']
  else if c = ch 'd' ∨ c = ch 'i' then { v with radix := 10, sign := true, number := true }
  else if c = ch 'u' then { v with radix := 10, sign := false, number := true }
  else if c = ch 'X' ∨ c = ch 'x' ∨ c = ch 'p' then { v with radix := 16, sign := false, number := true }
  else if c = ch 'o' then { v with radix := 8, sign := false, number := true }
  else v

variable (reset : Vars → Vars)

/-- `PRINTF_STATE_SPEC`. -/
def Vars.spec (v : Vars) (c : Byte) : Vars :=
  let v := v.conversion a c
  let v := if v.number then v.printNumber a else v
  reset v

/-- The body of the loop. -/
def Vars.step (v : Vars) (c : Byte) : Vars :=
  match v.state with
  | .normal => if c = ch '%' then { v with state := .length } else v.print [c]
  | .length =>
    if c = ch 'h' then { v with length := .short, state := .lengthShort }
    else if c = ch 'l' then { v with length := .long, state := .lengthLong }
    else v.spec a reset c
  | .lengthShort =>
    if c = ch 'h' then { v with length := .shortShort, state := .spec } else v.spec a reset c
  | .lengthLong =>
    if c = ch 'l' then { v with length := .longLong, state := .spec } else v.spec a reset c
  | .spec => v.spec a reset c

/-- What is printed, and how many words of the arguments are taken. -/
def printf (fmt : List Byte) : List Byte × Nat :=
  let v := fmt.foldl (Vars.step a reset) .init
  (v.out, v.args)

end

/-- What the kernel resets after a conversion. -/
def Kernel.reset (v : Vars) : Vars :=
  { v with state := .normal, length := .default, radix := 10, sign := false }

/-- What the bootloader resets after a conversion. -/
def Stage2.reset (v : Vars) : Vars :=
  { v with state := .normal, length := .default, radix := 10, sign := false, number := false }

def Kernel.printf (a : Arguments) (fmt : List Byte) : List Byte × Nat := Stdio.printf a Kernel.reset fmt

def Stage2.printf (a : Arguments) (fmt : List Byte) : List Byte × Nat := Stdio.printf a Stage2.reset fmt

/-! ## Conversions -/

/-- The conversions of the rest of a format: the length that the prefix gives, and the character. -/
def conversions : PrintfState → PrintfLength → List Byte → List (PrintfLength × Byte)
  | _, _, [] => []
  | .normal, l, c :: fmt => if c = ch '%' then conversions .length l fmt else conversions .normal l fmt
  | .length, l, c :: fmt =>
    if c = ch 'h' then conversions .lengthShort .short fmt
    else if c = ch 'l' then conversions .lengthLong .long fmt
    else (l, c) :: conversions .normal .default fmt
  | .lengthShort, l, c :: fmt =>
    if c = ch 'h' then conversions .spec .shortShort fmt else (l, c) :: conversions .normal .default fmt
  | .lengthLong, l, c :: fmt =>
    if c = ch 'l' then conversions .spec .longLong fmt else (l, c) :: conversions .normal .default fmt
  | .spec, l, c :: fmt => (l, c) :: conversions .normal .default fmt

/-- A conversion of a number. -/
def IsNumber (c : Byte) : Prop := c ∈ "diuXxpo".toList.map ch

instance (c : Byte) : Decidable (IsNumber c) := inferInstanceAs (Decidable (_ ∈ _))

/-- The words of an argument that is a number. -/
def numberWords (l : PrintfLength) : Nat := if l = .longLong then 2 else 1

/-- The words that a conversion should take: those of one argument, or none. -/
def argumentWords (x : PrintfLength × Byte) : Nat :=
  if IsNumber x.2 then numberWords x.1 else if x.2 = ch 'c' ∨ x.2 = ch 's' then 1 else 0

/-- No conversion comes after that of a number, but for that of another number. -/
def NumbersLast (fmt : List Byte) : Prop :=
  (conversions .normal .default fmt).Pairwise fun x y => IsNumber x.2 → IsNumber y.2

section

variable {a : Arguments} {fmt : List Byte} {c : Byte}

/-! ## What a conversion does -/

theorem conversion_number (h : IsNumber c) :
    ∃ radix sign, ∀ v : Vars, v.conversion a c = { v with radix := radix, sign := sign, number := true } := by
  have hc : c = ch 'd' ∨ c = ch 'i' ∨ c = ch 'u' ∨ c = ch 'X' ∨ c = ch 'x' ∨ c = ch 'p' ∨ c = ch 'o' := by
    simpa [IsNumber] using h
  rcases hc with rfl | rfl | rfl | rfl | rfl | rfl | rfl
  · exact ⟨10, true, fun v => rfl⟩
  · exact ⟨10, true, fun v => rfl⟩
  · exact ⟨10, false, fun v => rfl⟩
  · exact ⟨16, false, fun v => rfl⟩
  · exact ⟨16, false, fun v => rfl⟩
  · exact ⟨16, false, fun v => rfl⟩
  · exact ⟨8, false, fun v => rfl⟩

theorem conversion_other (h : ¬ IsNumber c) (l : PrintfLength) : ∃ text : Nat → List Byte, ∀ v : Vars,
    v.conversion a c = { v with args := v.args + argumentWords (l, c), out := v.out ++ text v.args } := by
  by_cases hc : c = ch 'c'
  · subst hc
    exact ⟨fun i => [(a.word i).setWidth 8], fun v => rfl⟩
  by_cases hs : c = ch 's'
  · subst hs
    exact ⟨fun i => a.string (a.word i), fun v => rfl⟩
  have hwords : argumentWords (l, c) = 0 := by
    rw [argumentWords, if_neg h, if_neg (not_or.mpr ⟨hc, hs⟩)]
  rw [hwords]
  by_cases hp : c = ch '%'
  · subst hp
    exact ⟨fun _ => [ch '%'], fun v => rfl⟩
  refine ⟨fun _ => [], fun v => ?_⟩
  have hn : ∀ x, IsNumber (ch x) → c ≠ ch x := fun x hx e => h (e ▸ hx)
  rw [Vars.conversion, if_neg hc, if_neg hs, if_neg hp,
    if_neg (not_or.mpr ⟨hn 'd' (by decide), hn 'i' (by decide)⟩), if_neg (hn 'u' (by decide)),
    if_neg (not_or.mpr ⟨hn 'X' (by decide), not_or.mpr ⟨hn 'x' (by decide), hn 'p' (by decide)⟩⟩),
    if_neg (hn 'o' (by decide)), List.append_nil]
  rfl

theorem printNumber_eq (a : Arguments) : ∃ text : PrintfLength → Nat → Bool → Nat → List Byte, ∀ v : Vars,
    v.printNumber a = { v with
      args := v.args + numberWords v.length
      out := v.out ++ text v.length v.radix v.sign v.args } := by
  refine ⟨fun l radix sign i =>
    ({ Vars.init with length := l, radix := radix, sign := sign, args := i }.printNumber a).out, fun v => ?_⟩
  obtain ⟨state, length, radix, sign, number, args, out⟩ := v
  cases length <;> rfl

/-! ## The two loops -/

/-- The words that the kernel takes besides: those of a number after each conversion that is none, if there
was one before. -/
def extraWords : Bool → List (PrintfLength × Byte) → Nat
  | _, [] => 0
  | seen, x :: xs =>
    if IsNumber x.2 then extraWords true xs
    else (if seen then numberWords x.1 else 0) + extraWords seen xs

theorem numberWords_pos (l : PrintfLength) : 0 < numberWords l := by
  rw [numberWords]
  split <;> decide

theorem extraWords_eq_zero (seen : Bool) (xs : List (PrintfLength × Byte)) : extraWords seen xs = 0 ↔
    (seen = true → ∀ x ∈ xs, IsNumber x.2) ∧ xs.Pairwise fun x y => IsNumber x.2 → IsNumber y.2 := by
  induction xs generalizing seen with
  | nil => simp [extraWords]
  | cons x xs ih =>
    rw [extraWords, List.pairwise_cons, List.forall_mem_cons]
    have hpos := numberWords_pos x.1
    by_cases hx : IsNumber x.2
    · rw [if_pos hx, ih]
      simp [hx]
      tauto
    · rw [if_neg hx, Nat.add_eq_zero_iff, ih]
      cases seen <;> simp [hx]
      omega

/-- The variables of the kernel when those of the bootloader are `v`: `seen` tells whether a number has been
printed, and `d` words have been taken besides. -/
def Vars.ahead (v : Vars) (seen : Bool) (d : Nat) (out : List Byte) : Vars :=
  { v with number := seen, args := v.args + d, out := out }

/-- A conversion in both. -/
theorem spec_ok (v : Vars) (hv : v.number = false) (seen : Bool) (d : Nat) (out : List Byte) (c : Byte) :
    ∃ w out', v.spec a Stage2.reset c = w ∧ w.number = false ∧ w.state = .normal ∧ w.length = .default ∧
      w.args = v.args + argumentWords (v.length, c) ∧
        if IsNumber c then
          (v.ahead seen d out).spec a Kernel.reset c = w.ahead true d out' ∧ (d = 0 → out = v.out → out' = w.out)
        else
          (v.ahead seen d out).spec a Kernel.reset c =
              w.ahead seen (d + if seen then numberWords v.length else 0) out' ∧
            (d = 0 → out = v.out → seen = false → out' = w.out) := by
  obtain ⟨text, htext⟩ := printNumber_eq a
  by_cases hc : IsNumber c
  · obtain ⟨radix, sign, hconv⟩ := conversion_number (a := a) hc
    have hwords : argumentWords (v.length, c) = numberWords v.length := if_pos hc
    simp only [Vars.spec, hconv, htext, if_true, if_pos hc]
    refine ⟨_, out ++ text v.length radix sign (v.args + d), rfl, rfl, rfl, rfl, by rw [hwords]; rfl, ?_, ?_⟩
    · have hargs : v.args + d + numberWords v.length = v.args + numberWords v.length + d := by omega
      simp only [Kernel.reset, Stage2.reset, Vars.ahead, hargs]
    · rintro rfl rfl
      rfl
  · obtain ⟨text', hconv⟩ := conversion_other (a := a) hc v.length
    have hw : v.conversion a c = { v with
        args := v.args + argumentWords (v.length, c)
        out := v.out ++ text' v.args } := hconv v
    have hk : (v.ahead seen d out).conversion a c = { v.ahead seen d out with
        args := v.args + d + argumentWords (v.length, c)
        out := out ++ text' (v.args + d) } := hconv _
    have hnumber : (v.conversion a c).number = false := by rw [hw, hv]
    have hspec : v.spec a Stage2.reset c = Stage2.reset (v.conversion a c) := by
      rw [Vars.spec, if_neg (by rw [hnumber]; exact Bool.false_ne_true)]
    rw [hspec, hw]
    simp only [if_neg hc]
    cases seen with
    | false =>
      refine ⟨_, out ++ text' (v.args + d), rfl, rfl, rfl, rfl, rfl, ?_, ?_⟩
      · have hargs : v.args + d + argumentWords (v.length, c) = v.args + argumentWords (v.length, c) + d := by
          omega
        rw [Vars.spec, hk]
        simp only [Kernel.reset, Stage2.reset, Vars.ahead, hargs, Bool.false_eq_true, if_false, Nat.add_zero]
      · rintro rfl rfl -
        rfl
    | true =>
      refine ⟨_, (out ++ text' (v.args + d)) ++ text v.length v.radix v.sign
        (v.args + d + argumentWords (v.length, c)), rfl, rfl, rfl, rfl, rfl, ?_, fun _ _ h => absurd h (by simp)⟩
      have hargs : v.args + d + argumentWords (v.length, c) + numberWords v.length =
          v.args + argumentWords (v.length, c) + (d + numberWords v.length) := by omega
      rw [Vars.spec, hk]
      simp only [Kernel.reset, Stage2.reset, Vars.ahead, htext, if_true, hargs]

/-- A character is that of a conversion in both, or only changes the state or is printed. -/
theorem step_cases (v : Vars) (seen : Bool) (d : Nat) (out : List Byte) (c : Byte) (fmt : List Byte) :
    (∃ w out', v.step a Stage2.reset c = w ∧ (v.ahead seen d out).step a Kernel.reset c = w.ahead seen d out' ∧
      w.number = v.number ∧ w.args = v.args ∧
        conversions v.state v.length (c :: fmt) = conversions w.state w.length fmt ∧
          (out = v.out → out' = w.out)) ∨
    v.step a Stage2.reset c = v.spec a Stage2.reset c ∧
      (v.ahead seen d out).step a Kernel.reset c = (v.ahead seen d out).spec a Kernel.reset c ∧
        conversions v.state v.length (c :: fmt) = (v.length, c) :: conversions .normal .default fmt := by
  obtain ⟨state, length, radix, sign, number, args, text⟩ := v
  cases state with
  | normal =>
    left
    by_cases hc : c = ch '%'
    · exact ⟨_, out, if_pos hc, if_pos hc, rfl, rfl, if_pos hc, id⟩
    · exact ⟨_, out ++ [c], if_neg hc, if_neg hc, rfl, rfl, if_neg hc, fun h => h ▸ rfl⟩
  | length =>
    by_cases hh : c = ch 'h'
    · exact .inl ⟨_, out, if_pos hh, if_pos hh, rfl, rfl, if_pos hh, id⟩
    by_cases hl : c = ch 'l'
    · exact .inl ⟨_, out, (if_neg hh).trans (if_pos hl), (if_neg hh).trans (if_pos hl), rfl, rfl,
        (if_neg hh).trans (if_pos hl), id⟩
    · exact .inr ⟨(if_neg hh).trans (if_neg hl), (if_neg hh).trans (if_neg hl), (if_neg hh).trans (if_neg hl)⟩
  | lengthShort =>
    by_cases hh : c = ch 'h'
    · exact .inl ⟨_, out, if_pos hh, if_pos hh, rfl, rfl, if_pos hh, id⟩
    · exact .inr ⟨if_neg hh, if_neg hh, if_neg hh⟩
  | lengthLong =>
    by_cases hl : c = ch 'l'
    · exact .inl ⟨_, out, if_pos hl, if_pos hl, rfl, rfl, if_pos hl, id⟩
    · exact .inr ⟨if_neg hl, if_neg hl, if_neg hl⟩
  | spec => exact .inr ⟨rfl, rfl, rfl⟩

/-- The rest of a format in both. -/
theorem run_ok (v : Vars) (hv : v.number = false) (seen : Bool) (d : Nat) (out : List Byte) (fmt : List Byte) :
    let w := fmt.foldl (Vars.step a Stage2.reset) v
    let k := fmt.foldl (Vars.step a Kernel.reset) (v.ahead seen d out)
    let xs := conversions v.state v.length fmt
    w.args = v.args + (xs.map argumentWords).sum ∧ k.args = w.args + d + extraWords seen xs ∧
      (d = 0 → out = v.out → extraWords seen xs = 0 → k.out = w.out) := by
  induction fmt generalizing v seen d out with
  | nil => exact ⟨rfl, rfl, fun _ h _ => h⟩
  | cons c fmt ih =>
    simp only [List.foldl_cons]
    rcases step_cases (a := a) v seen d out c fmt with ⟨w, out', hw, hk, hn, ha, hx, ho⟩ | ⟨hw, hk, hx⟩
    · rw [hw, hk, hx, ← ha]
      obtain ⟨h₁, h₂, h₃⟩ := ih w (hn.trans hv) seen d out'
      exact ⟨h₁, h₂, fun hd h => h₃ hd (ho h)⟩
    obtain ⟨w, out', hspec, hn, hs, hl, ha, hkernel⟩ := spec_ok (a := a) v hv seen d out c
    rw [hw, hk, hx, hspec, extraWords, List.map_cons, List.sum_cons]
    split at hkernel
    · rename_i hc
      obtain ⟨h₁, h₂, h₃⟩ := ih w hn true d out'
      rw [hs, hl] at h₁ h₂ h₃
      rw [hkernel.1, if_pos hc]
      exact ⟨by omega, h₂, fun hd h => h₃ hd (hkernel.2 hd h)⟩
    · rename_i hc
      obtain ⟨h₁, h₂, h₃⟩ := ih w hn seen (d + if seen then numberWords v.length else 0) out'
      rw [hs, hl] at h₁ h₂ h₃
      rw [hkernel.1, if_neg hc]
      refine ⟨by omega, ?_, fun hd h h0 => ?_⟩
      · rw [h₂, Nat.add_assoc, Nat.add_assoc, Nat.add_assoc]
      have hpos := numberWords_pos v.length
      cases seen with
      | true =>
        rw [if_pos rfl] at h0
        exact absurd (Nat.eq_zero_of_add_eq_zero_right h0) hpos.ne'
      | false =>
        apply h₃ (by rw [hd]; rfl) (hkernel.2 hd h rfl)
        simpa using h0

/-- The two print the same and take the same arguments, one for each conversion that needs one, exactly if no
conversion comes after that of a number, but for that of another number. -/
theorem printf_agree_iff (a : Arguments) (fmt : List Byte) :
    (Kernel.printf a fmt = Stage2.printf a fmt ∧
      (Kernel.printf a fmt).2 = ((conversions .normal .default fmt).map argumentWords).sum) ↔ NumbersLast fmt := by
  obtain ⟨hw, hk, hout⟩ := run_ok (a := a) .init rfl false 0 [] fmt
  replace hw : (Stage2.printf a fmt).2 = 0 + ((conversions .normal .default fmt).map argumentWords).sum := hw
  replace hk : (Kernel.printf a fmt).2 = (Stage2.printf a fmt).2 + 0 +
    extraWords false (conversions .normal .default fmt) := hk
  have hzero := extraWords_eq_zero false (conversions .normal .default fmt)
  rw [and_iff_right fun h => absurd h Bool.false_ne_true] at hzero
  rw [NumbersLast, ← hzero]
  refine ⟨fun h => ?_, fun h => ⟨Prod.ext (hout rfl rfl h) ?_, ?_⟩⟩
  · have := h.2
    omega
  · omega
  · omega

/-- After a number, the kernel prints another one for `%%`. -/
theorem printf_not_agree : ¬ ∀ (a : Arguments) (fmt : List Byte), Kernel.printf a fmt = Stage2.printf a fmt ∧
    (Kernel.printf a fmt).2 = ((conversions .normal .default fmt).map argumentWords).sum := by
  intro H
  obtain ⟨heq, -⟩ := H ⟨BitVec.ofNat 32, fun _ => []⟩ ("%d%%".toList.map ch)
  exact absurd heq (by decide)

end

end AlexOS.Stdio
