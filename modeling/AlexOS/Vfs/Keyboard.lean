import AlexOS.Vfs.Std

/-!
# The keyboard and the standard input

`keyboard.c`, whose handler puts a character in the first stream for each key
that has one. Whatever the keys and the calls of `std_get` between them, what
was got from the stream and what is still in it are together the text that was
typed (`typed_run`): each key in its place, with Caps Lock and Num Lock as they
were when it was hit. There is no NUL in it, so that a 0 from `std_get` means
that the stream is empty.
-/

namespace AlexOS.Vfs

open Mem Block

/-! ## keyboard.c -/

def firstRow : List Byte := [0x61, 0x7A, 0x65, 0x72, 0x74, 0x79, 0x75, 0x69, 0x6F, 0x70]  -- azertyuiop
def secondRow : List Byte := [0x71, 0x73, 0x64, 0x66, 0x67, 0x68, 0x6A, 0x6B, 0x6C, 0x6D]  -- qsdfghjklm
def thirdRow : List Byte := [0x77, 0x78, 0x63, 0x76, 0x62, 0x6E]  -- wxcvbn

/-- The table after `i686_Keyboard_init`: the loop, and what is assigned after it. -/
def keycodeTranslated (i : Nat) : Byte :=
  if i = 0x39 then 0x20
  else if i = 0x1C then 0x0A
  else if i = 0x0F then 0x09
  else if i = 0x52 then 0x30
  else if 0x10 ≤ i ∧ i ≤ 0x19 then firstRow.getD (i - 0x10) 0
  else if 0x1E ≤ i ∧ i ≤ 0x27 then secondRow.getD (i - 0x1E) 0
  else if 0x2C ≤ i ∧ i ≤ 0x31 then thirdRow.getD (i - 0x2C) 0
  else if 0x47 ≤ i ∧ i ≤ 0x49 then 0x37 + BitVec.ofNat 8 (i - 0x47)
  else if 0x4B ≤ i ∧ i ≤ 0x4D then 0x34 + BitVec.ofNat 8 (i - 0x4B)
  else if 0x4F ≤ i ∧ i ≤ 0x51 then 0x31 + BitVec.ofNat 8 (i - 0x4F)
  else if i = 0x32 then 0x2C
  else if i = 0x33 then 0x3B
  else if i = 0x34 then 0x3A
  else if i = 0x35 then 0x21
  else if i = 0x56 then 0x3C
  else -1

structure Locks where
  caps : Bool
  num : Bool

/-- What is done about a key. -/
inductive Action
  | nothing
  /-- The character is written to the stream, and printed. -/
  | put (c : Byte)
  /-- The LEDs are set. -/
  | leds (v : Byte)
  /-- The key code is printed. -/
  | report (keycode : Byte)
  deriving DecidableEq

/-- `switch (c)`, under Caps Lock. -/
def capsSign (c : Byte) : Byte := if c = 0x2C then 0x3F else if c = 0x3B then 0x2E else if c = 0x3A then 0x2F else c

/-- `keyboard_handler_main`, from the key code on. -/
def keyAction (l : Locks) (keycode : Byte) : Locks × Action :=
  if keycode.toInt < 0 then (l, .nothing)
  else if 0 < (keycodeTranslated keycode.toNat).toInt then
    let c := keycodeTranslated keycode.toNat
    let c := if l.caps && (decide (0x61 ≤ c) && decide (c ≤ 0x7A)) then c - 32 else c
    let c := if l.caps then capsSign c else c
    if (decide (0x30 ≤ c) && decide (c ≤ 0x39)) && !l.num then (l, .nothing) else (l, .put c)
  else if keycode = 0x3A then ({ l with caps := !l.caps }, .leds 2)
  else if keycode = 0x45 then ({ l with num := !l.num }, .leds 1)
  else (l, .report keycode)

/-- What the handler works on. -/
structure Board (σ : Type) where
  locks : Locks
  state : State σ

section

variable {σ : Type} (A : Allocator σ)

/-- The handler, with what it reads from the two ports. -/
def keyboardHandlerMain (stdin : Addr) (status keycode : Byte) (b : Board σ) : Option (Board σ) :=
  if status &&& 1 ≠ 0 then
    match keyAction b.locks keycode with
    | (locks, .put c) => (stdPut A stdin c b.state).map fun s => ⟨locks, s⟩
    | (locks, _) => some { b with locks := locks }
  else some b

/-- What keys, and reads of the stream, lead to; the key codes, and the characters that were got. -/
inductive Typing (stdin : Addr) (b₀ : Board σ) : Board σ → List Byte → List Byte → Prop
  | start : Typing stdin b₀ b₀ [] []
  | key {b b' : Board σ} {keys got : List Byte} (status keycode : Byte) : Typing stdin b₀ b keys got →
      status &&& 1 ≠ 0 → keyboardHandlerMain A stdin status keycode b = some b' →
      Typing stdin b₀ b' (keys ++ [keycode]) got
  /-- There is no key code in the controller. -/
  | noKey {b b' : Board σ} {keys got : List Byte} (status keycode : Byte) : Typing stdin b₀ b keys got →
      status &&& 1 = 0 → keyboardHandlerMain A stdin status keycode b = some b' → Typing stdin b₀ b' keys got
  | get {b : Board σ} {keys got : List Byte} : Typing stdin b₀ b keys got →
      Typing stdin b₀ { b with state := (stdGet A stdin b.state).2 } keys
        (got ++ if (stdGet A stdin b.state).1 = 0 then [] else [(stdGet A stdin b.state).1])

end

/-! ## What is typed -/

/-- The keys with a character, row by row, from the first key code of the row on. -/
def layout : List (Nat × List Byte) :=
  [(0x0F, [0x09]), (0x10, firstRow), (0x1C, [0x0A]), (0x1E, secondRow), (0x2C, thirdRow),
   (0x32, [0x2C, 0x3B, 0x3A, 0x21]), (0x39, [0x20]), (0x47, [0x37, 0x38, 0x39]), (0x4B, [0x34, 0x35, 0x36]),
   (0x4F, [0x31, 0x32, 0x33, 0x30]), (0x56, [0x3C])]

/-- Letters are capital letters, and three signs are others. -/
def capital : Byte → Byte := fun c => if c.toNat ∈ List.range' 0x61 26 then c - 0x20 else capsSign c

def isDigit (c : Byte) : Bool := c.toNat ∈ List.range' 0x30 10

/-- The character of a key, if it has one. -/
def symbol (l : Locks) (keycode : Byte) : Option Byte :=
  (layout.findSome? fun row => if keycode.toNat < row.1 then none else row.2[keycode.toNat - row.1]?).bind fun c =>
    if isDigit c && !l.num then none else some (if l.caps then capital c else c)

/-- The locks after some keys: each hit changes its lock. -/
def locksAfter (keys : List Byte) : Locks := ⟨keys.count 0x3A % 2 = 1, keys.count 0x45 % 2 = 1⟩

/-- The text that is typed with these keys. -/
def text (keys : List Byte) : List Byte :=
  (List.range keys.length).filterMap fun i => symbol (locksAfter (keys.take i)) (keys.getD i 0)

def Action.char : Action → Option Byte
  | .put c => some c
  | _ => none

section

variable {σ : Type} {A : Allocator σ} {Owns : σ → Mem → List Block → Prop} {s s₀ : State σ}
  {b b' b₀ : Board σ} {stdin : Addr} {l : Locks} {k c : Byte} {keys got : List Byte} {live : List Block}

/-! ## One key -/

theorem keyAction_char : (keyAction l k).2.char = symbol l k := by
  have table : ∀ (caps num : Bool) (k : Fin 256),
      (keyAction ⟨caps, num⟩ (BitVec.ofFin k)).2.char = symbol ⟨caps, num⟩ (BitVec.ofFin k) := by decide +kernel
  exact table l.caps l.num k.toFin

theorem keyAction_locks : (keyAction l k).1 = ⟨l.caps ^^ decide (k = 0x3A), l.num ^^ decide (k = 0x45)⟩ := by
  have table : ∀ (caps num : Bool) (k : Fin 256),
      (keyAction ⟨caps, num⟩ (BitVec.ofFin k)).1.caps = (caps ^^ decide (BitVec.ofFin k = (0x3A : Byte))) ∧
        (keyAction ⟨caps, num⟩ (BitVec.ofFin k)).1.num = (num ^^ decide (BitVec.ofFin k = (0x45 : Byte))) := by
    decide +kernel
  obtain ⟨hc, hn⟩ := table l.caps l.num k.toFin
  rw [show (keyAction l k).1 = ⟨(keyAction l k).1.caps, (keyAction l k).1.num⟩ from rfl]
  exact congrArg₂ Locks.mk hc hn

theorem symbol_ne_zero : symbol l k ≠ some 0 := by
  have table : ∀ (caps num : Bool) (k : Fin 256), symbol ⟨caps, num⟩ (BitVec.ofFin k) ≠ some 0 :=
    by decide +kernel
  exact table l.caps l.num k.toFin

theorem locksAfter_concat : locksAfter (keys ++ [k]) = (keyAction (locksAfter keys) k).1 := by
  have parity : ∀ (n : Nat) (p : Prop) [Decidable p],
      decide ((n + if p then 1 else 0) % 2 = 1) = (decide (n % 2 = 1) ^^ decide p) := by
    intro n p _
    by_cases hp : p
    · rw [if_pos hp, decide_eq_true hp, Bool.xor_true, ← decide_not]
      exact decide_eq_decide.mpr (by omega)
    · rw [if_neg hp, decide_eq_false hp, Bool.xor_false, Nat.add_zero]
  rw [keyAction_locks]
  simp only [locksAfter, List.count_append, List.count_singleton, beq_iff_eq]
  exact congrArg₂ Locks.mk (parity _ _) (parity _ _)

theorem text_concat : text (keys ++ [k]) = text keys ++ (symbol (locksAfter keys) k).toList := by
  unfold text
  rw [List.length_append, List.length_singleton, List.range_succ, List.filterMap_append]
  congr 1
  · refine List.filterMap_congr fun i hi => ?_
    have hi := List.mem_range.mp hi
    rw [List.take_append_of_le_length (by omega), List.getD_append _ _ _ _ hi]
  · simp only [List.filterMap_cons, List.filterMap_nil, List.take_left, List.getD_eq_getElem?_getD,
      List.getElem?_concat_length, Option.getD_some]
    cases symbol (locksAfter keys) k <;> rfl

theorem zero_notMem_text (keys : List Byte) : 0 ∉ text keys := by
  unfold text
  intro h
  obtain ⟨i, -, hi⟩ := List.mem_filterMap.mp h
  exact symbol_ne_zero hi

/-! ## All keys -/

/-- The stream holds what is typed and not got. -/
structure Typed (Owns : σ → Mem → List Block → Prop) (stdin : Addr) (live : List Block) (b : Board σ)
    (keys got : List Byte) (xs : List Addr) (q : List Byte) : Prop where
  locks : b.locks = locksAfter keys
  inv : Inv Owns b.state stdin xs q live
  text : got ++ q = text keys

theorem Typed.key {xs : List Addr} {q : List Byte} (L : A.Lawful Owns) (T : Typed Owns stdin live b keys got xs q)
    {status : Byte} (hs : status &&& 1 ≠ 0) (h : keyboardHandlerMain A stdin status k b = some b') :
    ∃ ys q', Typed Owns stdin live b' (keys ++ [k]) got ys q' := by
  have hchar := keyAction_char (l := locksAfter keys) (k := k)
  have hlocks : locksAfter (keys ++ [k]) = (keyAction (locksAfter keys) k).1 := locksAfter_concat
  have htext : Vfs.text (keys ++ [k]) = Vfs.text keys ++ (symbol (locksAfter keys) k).toList := text_concat
  rw [keyboardHandlerMain, if_pos hs, T.locks] at h
  generalize keyAction (locksAfter keys) k = r at hchar hlocks h
  obtain ⟨locks, action⟩ := r
  rw [← hchar] at htext
  cases action with
  | put c =>
    obtain ⟨s, hput, rfl⟩ := Option.map_eq_some_iff.mp h
    obtain ⟨p, I⟩ := put_ok L T.inv hput
    refine ⟨xs ++ [p], q ++ [c], hlocks.symm, I, ?_⟩
    rw [htext, ← List.append_assoc, T.text]
    rfl
  | _ =>
    cases h
    refine ⟨xs, q, hlocks.symm, T.inv, ?_⟩
    rw [htext, T.text]
    exact (List.append_nil _).symm

theorem Typed.get {xs : List Addr} {q : List Byte} (L : A.Lawful Owns) (T : Typed Owns stdin live b keys got xs q) :
    ∃ ys q', Typed Owns stdin live { b with state := (stdGet A stdin b.state).2 } keys
      (got ++ if (stdGet A stdin b.state).1 = 0 then [] else [(stdGet A stdin b.state).1]) ys q' := by
  cases q with
  | nil =>
    obtain rfl := List.map_eq_nil_iff.mp T.inv.vals
    rw [get_nil T.inv.toLinked, if_pos rfl, List.append_nil]
    exact ⟨[], [], T⟩
  | cons c q =>
    obtain ⟨x, xs, rfl, -, -⟩ := List.map_eq_cons_iff.mp T.inv.vals
    obtain ⟨hc, I⟩ := get_ok L T.inv
    have hne : c ≠ 0 := by
      rintro rfl
      exact zero_notMem_text keys (T.text ▸ List.mem_append_right _ List.mem_cons_self)
    refine ⟨xs, q, T.locks, I, ?_⟩
    rw [hc, if_neg hne, List.append_assoc]
    exact T.text

theorem typed_of_typing (L : A.Lawful Owns) (I : Inv Owns s₀ stdin [] [] live)
    (ht : Typing A stdin ⟨⟨false, false⟩, s₀⟩ b keys got) : ∃ xs q,
      Typed Owns stdin live b keys got xs q := by
  induction ht with
  | start => exact ⟨[], [], rfl, I, rfl⟩
  | key status k _ hs h ih =>
    obtain ⟨xs, q, T⟩ := ih
    exact T.key L hs h
  | noKey status k _ hs h ih =>
    rw [keyboardHandlerMain, if_neg (not_not.mpr hs)] at h
    cases h
    exact ih
  | get _ ih =>
    obtain ⟨xs, q, T⟩ := ih
    exact T.get L

/-- What was got, and then what the stream still holds, is the text that was typed. -/
theorem typed_run (L : A.Lawful Owns) (h : Owns s.alloc s.mem live) (hs : initStd A s = some (stdin, s₀))
    (ht : Typing A stdin ⟨⟨false, false⟩, s₀⟩ b keys got) :
    ∃ xs q, Linked b.state.mem stdin xs q ∧ got ++ q = text keys ∧ 0 ∉ q ∧
      ((stdGet A stdin b.state).1 = 0 ↔ got = text keys) := by
  obtain ⟨xs, q, T⟩ := typed_of_typing L (init_ok L h hs) ht
  have h0 : 0 ∉ q := fun hq => zero_notMem_text keys (T.text ▸ List.mem_append_right _ hq)
  refine ⟨xs, q, T.inv.toLinked, T.text, h0, ?_⟩
  rw [← T.text, List.self_eq_append_right]
  cases q with
  | nil =>
    obtain rfl := List.map_eq_nil_iff.mp T.inv.vals
    rw [get_nil T.inv.toLinked]
    exact iff_of_true rfl rfl
  | cons c q =>
    obtain ⟨x, xs, rfl, -, -⟩ := List.map_eq_cons_iff.mp T.inv.vals
    refine iff_of_false (fun hc => h0 ?_) (List.cons_ne_nil _ _)
    rw [← hc, (get_ok L T.inv).1]
    exact List.mem_cons_self

/-- Caps Lock and the key of the letter a. -/
theorem typed_run_bump : ∃ b xs q,
    Typing bump 16 ⟨⟨false, false⟩, ⟨28, Mem.memset (fun _ => 0) 16 0 12⟩⟩ b [0x3A, 0x10] [] ∧
    Linked b.state.mem 16 xs q ∧ q = [0x41] := by
  have hown : BumpOwns 16 (fun _ => 0) [] :=
    ⟨by decide, by decide, by simp, by simp, by simp, List.Pairwise.nil⟩
  have hinit : initStd bump ⟨16, fun _ => 0⟩ = some (16, ⟨28, Mem.memset (fun _ => 0) 16 0 12⟩) := rfl
  obtain ⟨s, hput⟩ := Option.isSome_iff_exists.mp
    (show (stdPut bump 16 0x41 ⟨28, Mem.memset (fun _ => 0) 16 0 12⟩).isSome = true by decide)
  have hkey : keyboardHandlerMain bump 16 1 0x10 ⟨⟨true, false⟩, ⟨28, Mem.memset (fun _ => 0) 16 0 12⟩⟩ =
      some ⟨⟨true, false⟩, s⟩ := congrArg (Option.map (Board.mk ⟨true, false⟩)) hput
  have hcaps : keyboardHandlerMain bump 16 1 0x3A ⟨⟨false, false⟩, ⟨28, Mem.memset (fun _ => 0) 16 0 12⟩⟩ =
      some ⟨⟨true, false⟩, ⟨28, Mem.memset (fun _ => 0) 16 0 12⟩⟩ := rfl
  have ht := Typing.key 1 0x10 (.key 1 0x3A .start (by decide) hcaps) (by decide) hkey
  obtain ⟨xs, q, hl, hq, -⟩ := typed_run bump_lawful hown hinit ht
  exact ⟨_, xs, q, ht, hl, hq.trans (by decide)⟩

end

end AlexOS.Vfs
