import AlexOS.Lib.Region

/-!
# The console

The text screen of `stdio.c`: 25 rows of 80 cells at 0xB8000, each a character
and a color, and the cursor. What goes to ports is left out.

The screen is a window on a grid without an end (`Grid`), in which characters
are placed as on the screen but nothing scrolls: `Shows` says that the rows of
the screen are those of the grid from the number of scrolls on. Each character
keeps this (`putcPlain_ok`), with a tab as the spaces that `putc` prints for it
(`putc_eq`).
-/

namespace AlexOS.Stdio

open Mem

def SCREEN_WIDTH : Int := 80
def SCREEN_HEIGHT : Int := 25
def DEFAULT_COLOR : Byte := 0x7

/-- `g_ScreenBuffer`. -/
def screenBuffer : Addr := 0xB8000

structure Console where
  mem : Mem
  screenX : Int
  screenY : Int
  /-- How often it has scrolled. The driver does not count this. -/
  scrolls : Nat

/-- The address of `g_ScreenBuffer[2 * (y * SCREEN_WIDTH + x)]`. -/
def cell (x y : Int) : Addr := screenBuffer + BitVec.ofInt 32 (2 * (y * SCREEN_WIDTH + x))

def putchr (s : Console) (x y : Int) (c : Byte) : Console := { s with mem := s.mem.store8 (cell x y) c }
def putcolor (s : Console) (x y : Int) (color : Byte) : Console :=
  { s with mem := s.mem.store8 (cell x y + 1) color }
def getchr (s : Console) (x y : Int) : Byte := s.mem (cell x y)
def getcolor (s : Console) (x y : Int) : Byte := s.mem (cell x y + 1)

/-- `n` rounds of a loop that counts up from `i`. -/
def loop (body : Int → Console → Console) : Nat → Int → Console → Console
  | 0, _, s => s
  | n + 1, i, s => loop body n (i + 1) (body i s)

/-- The body of the loops of `clrscr`. -/
def clearCell (y x : Int) (s : Console) : Console := putcolor (putchr s x y 0) x y DEFAULT_COLOR

/-- The rows from `y` on are cleared. -/
def clearRows (y : Int) (s : Console) : Console :=
  loop (fun y => loop (clearCell y) SCREEN_WIDTH.toNat 0) (SCREEN_HEIGHT - y).toNat y s

def clrscr (s : Console) : Console := { clearRows 0 s with screenX := 0, screenY := 0 }

def copyCell (lines y x : Int) (s : Console) : Console :=
  let s := putchr s x (y - lines) (getchr s x y)
  putcolor s x (y - lines) (getcolor s x y)

def scrollback (lines : Int) (s : Console) : Console :=
  let s := loop (fun y => loop (copyCell lines y) SCREEN_WIDTH.toNat 0) (SCREEN_HEIGHT - lines).toNat lines s
  let s := clearRows (SCREEN_HEIGHT - lines) s
  { s with screenY := s.screenY - lines, scrolls := s.scrolls + 1 }

/-- An `int` that is compared with an `unsigned`. -/
def unsigned (i : Int) : Int := i % 2 ^ 32

/-- The end of `putc`. -/
def putcEnd (s : Console) : Console :=
  let s := if unsigned s.screenX ≥ SCREEN_WIDTH then { s with screenY := s.screenY + 1, screenX := 0 } else s
  if unsigned s.screenY ≥ SCREEN_HEIGHT then scrollback 1 s else s

/-- `putc`, for other characters than a tab. -/
def putcPlain (s : Console) (c : Byte) : Console :=
  putcEnd <|
    if c = 0x0A then { s with screenX := 0, screenY := s.screenY + 1 }
    else if c = 0x0D then { s with screenX := 0 }
    else
      let s := putchr s s.screenX s.screenY c
      { s with screenX := s.screenX + 1 }

/-- The loop for a tab, with the rounds that are left of the four there can be. What it counts up to
changes with the cursor. -/
def tabLoop : Nat → Int → Console → Console
  | 0, _, s => s
  | n + 1, i, s => if i < 4 - s.screenX.tmod 4 then tabLoop n (i + 1) (putcPlain s 0x20) else s

def putc (s : Console) (c : Byte) : Console :=
  if c = 0x09 then putcEnd (tabLoop 4 0 s) else putcPlain s c

/-! ## The grid -/

/-- Rows without an end, and where the next character is placed. -/
structure Grid where
  rows : Nat → Nat → Byte
  x : Nat
  y : Nat

def Grid.empty : Grid := ⟨fun _ _ => 0, 0, 0⟩

/-- A character other than a tab is placed, or moves the cursor. -/
def Grid.place (g : Grid) (c : Byte) : Grid :=
  if c = 0x0A then { g with x := 0, y := g.y + 1 }
  else if c = 0x0D then { g with x := 0 }
  else
    let rows := fun r k => if r = g.y ∧ k = g.x then c else g.rows r k
    if g.x + 1 = 80 then ⟨rows, 0, g.y + 1⟩ else ⟨rows, g.x + 1, g.y⟩

/-- The spaces for a tab at a column. -/
def tabSpaces (x : Nat) : Nat := if x % 4 = 2 then 1 else if x % 4 = 3 then 3 else 2

/-- The characters that `putc` places for one. -/
def emitted (x : Nat) (c : Byte) : List Byte := if c = 0x09 then List.replicate (tabSpaces x) 0x20 else [c]

def Grid.print (g : Grid) (c : Byte) : Grid := (emitted g.x c).foldl Grid.place g

/-- The screen shows the rows of a grid from the number of scrolls on. -/
structure Shows (s : Console) (g : Grid) : Prop where
  x_lt : g.x < 80
  screenX : s.screenX = g.x
  screenY : s.scrolls + s.screenY = g.y
  y_nonneg : 0 ≤ s.screenY
  y_lt : s.screenY < SCREEN_HEIGHT
  rows : ∀ x y : Nat, x < 80 → y < 25 → getchr s x y = g.rows (s.scrolls + y) x
  blank : ∀ r > g.y, ∀ x, g.rows r x = 0

/-- Only the screen is written to, and the cursor stays. -/
structure Drawn (s t : Console) : Prop where
  mem : Changes (range screenBuffer 4000) s.mem t.mem
  screenX : t.screenX = s.screenX
  screenY : t.screenY = s.screenY
  scrolls : t.scrolls = s.scrolls

section

variable {s t u : Console} {g : Grid} {x y x' y' : Nat} {c : Byte}

/-! ## Cells -/

theorem toNat_cell (hx : x < 80) (hy : y < 25) : (cell x y).toNat = 0xB8000 + 2 * (y * 80 + x) := by
  have e : cell x y = BitVec.ofNat 32 (0xB8000 + 2 * (y * 80 + x)) := by
    rw [cell, screenBuffer, BitVec.ofNat_add, SCREEN_WIDTH]
    rfl
  rw [e, BitVec.toNat_ofNat, Nat.mod_eq_of_lt (by omega)]

theorem toNat_cell_color (hx : x < 80) (hy : y < 25) : (cell x y + 1).toNat = 0xB8000 + 2 * (y * 80 + x) + 1 := by
  rw [BitVec.toNat_add, toNat_cell hx hy, show (1 : Addr).toNat = 1 from rfl, Nat.mod_eq_of_lt (by omega)]

theorem cell_eq_iff (hx : x < 80) (hy : y < 25) (hx' : x' < 80) (hy' : y' < 25) :
    cell x' y' = cell x y ↔ x' = x ∧ y' = y := by
  rw [BitVec.toNat_eq, toNat_cell hx hy, toNat_cell hx' hy']
  omega

theorem cell_ne_color (hx : x < 80) (hy : y < 25) (hx' : x' < 80) (hy' : y' < 25) :
    cell x' y' ≠ cell x y + 1 := by
  rw [Ne, BitVec.toNat_eq, toNat_cell_color hx hy, toNat_cell hx' hy']
  omega

namespace Drawn

theorem refl (s : Console) : Drawn s s := ⟨.refl _ _, rfl, rfl, rfl⟩

theorem trans (h₁ : Drawn s t) (h₂ : Drawn t u) : Drawn s u :=
  ⟨h₁.mem.trans h₂.mem, h₂.screenX.trans h₁.screenX, h₂.screenY.trans h₁.screenY,
    h₂.scrolls.trans h₁.scrolls⟩

end Drawn

theorem putchr_drawn (hx : x < 80) (hy : y < 25) : Drawn s (putchr s x y c) := by
  refine ⟨store8_changes.mono fun k hk => ?_, rfl, rfl, rfl⟩
  rw [mem_range, toNat_cell hx hy] at hk
  rw [mem_range, show screenBuffer.toNat = 0xB8000 from rfl]
  omega

theorem putcolor_drawn (hx : x < 80) (hy : y < 25) : Drawn s (putcolor s x y c) := by
  refine ⟨store8_changes.mono fun k hk => ?_, rfl, rfl, rfl⟩
  rw [mem_range, toNat_cell_color hx hy] at hk
  rw [mem_range, show screenBuffer.toNat = 0xB8000 from rfl]
  omega

theorem getchr_putchr (hx : x < 80) (hy : y < 25) (hx' : x' < 80) (hy' : y' < 25) :
    getchr (putchr s x y c) x' y' = if x' = x ∧ y' = y then c else getchr s x' y' := by
  show (if cell x' y' = cell x y then c else s.mem (cell x' y')) = _
  rw [if_congr (cell_eq_iff hx hy hx' hy') rfl rfl, getchr]

theorem getchr_putcolor (hx : x < 80) (hy : y < 25) (hx' : x' < 80) (hy' : y' < 25) :
    getchr (putcolor s x y c) x' y' = getchr s x' y' :=
  store8_apply (cell_ne_color hx hy hx' hy')

/-! ## Loops -/

/-- What each round takes to the next holds at the end. -/
theorem loop_ok {body : Int → Console → Console} {n : Nat} {i : Int} {P : Nat → Console → Prop} (h0 : P 0 s)
    (step : ∀ k < n, ∀ t, P k t → P (k + 1) (body (i + k) t)) : P n (loop body n i s) := by
  induction n generalizing i s P with
  | zero => exact h0
  | succ n ih =>
    refine ih (P := fun k t => P (k + 1) t) ?_ fun k hk t ht => ?_
    · have h1 := step 0 (Nat.succ_pos n) s h0
      rwa [Nat.cast_zero, add_zero] at h1
    · have h1 := step (k + 1) (Nat.succ_lt_succ hk) t ht
      rwa [Nat.cast_succ, add_comm (k : Int) 1, ← add_assoc] at h1

/-- What the screen shows, after something was drawn. -/
structure Draws (s t : Console) (shown : Nat → Nat → Byte) : Prop extends Drawn s t where
  chars : ∀ x y : Nat, x < 80 → y < 25 → getchr t x y = shown x y

theorem Draws.congr {f f' : Nat → Nat → Byte} (h : Draws s t f) (e : ∀ x < 80, ∀ y < 25, f' x y = f x y) :
    Draws s t f' := ⟨h.toDrawn, fun x y hx hy => (h.chars x y hx hy).trans (e x hx y hy).symm⟩

theorem clearCell_ok (s : Console) (hx : x < 80) (hy : y < 25) :
    Draws s (clearCell y x s) fun x' y' => if x' = x ∧ y' = y then 0 else getchr s x' y' :=
  ⟨(putchr_drawn hx hy).trans (putcolor_drawn hx hy), fun x' y' hx' hy' => by
    rw [clearCell, getchr_putcolor hx hy hx' hy', getchr_putchr hx hy hx' hy']⟩

theorem clearRow_ok (s : Console) (hy : y < 25) : Draws s (loop (clearCell y) SCREEN_WIDTH.toNat 0 s)
    fun x' y' => if y' = y then 0 else getchr s x' y' := by
  have key : Draws s (loop (clearCell y) 80 0 s) fun x' y' => if x' < 80 ∧ y' = y then 0 else getchr s x' y' := by
    refine loop_ok (P := fun k t => Draws s t fun x' y' => if x' < k ∧ y' = y then 0 else getchr s x' y') ?_ ?_
    · exact ⟨.refl s, fun x' y' _ _ => (if_neg (by omega)).symm⟩
    · intro k hk t T
      rw [zero_add]
      have C := clearCell_ok t hk hy
      refine ⟨T.toDrawn.trans C.toDrawn, fun x' y' hx' hy' => (C.chars x' y' hx' hy').trans ?_⟩
      rw [T.chars x' y' hx' hy']
      by_cases h : x' = k ∧ y' = y
      · rw [if_pos h, if_pos (by omega)]
      · rw [if_neg h]
        exact if_congr (by omega) rfl rfl
  exact key.congr fun x' hx' y' _ => if_congr (by omega) rfl rfl

/-- The rows from `y` on are cleared, and those before it stay. -/
theorem clearRows_ok (s : Console) (hy : y ≤ 25) :
    Draws s (clearRows y s) fun x' y' => if y ≤ y' then 0 else getchr s x' y' := by
  have key : Draws s (loop (fun y => loop (clearCell y) SCREEN_WIDTH.toNat 0) (25 - y) y s)
      fun x' y' => if y ≤ y' ∧ y' < y + (25 - y) then 0 else getchr s x' y' := by
    refine loop_ok (P := fun k t => Draws s t fun x' y' => if y ≤ y' ∧ y' < y + k then 0 else getchr s x' y') ?_ ?_
    · exact ⟨.refl s, fun x' y' _ _ => (if_neg (by omega)).symm⟩
    · intro k hk t T
      rw [← Nat.cast_add]
      have C := clearRow_ok t (show y + k < 25 by omega)
      refine ⟨T.toDrawn.trans C.toDrawn, fun x' y' hx' hy' => (C.chars x' y' hx' hy').trans ?_⟩
      rw [T.chars x' y' hx' hy']
      by_cases h : y' = y + k
      · rw [if_pos h, if_pos (by omega)]
      · rw [if_neg h]
        exact if_congr (by omega) rfl rfl
  have hn : (SCREEN_HEIGHT - y).toNat = 25 - y := by
    rw [SCREEN_HEIGHT]
    omega
  rw [clearRows, hn]
  exact key.congr fun x' _ y' hy' => if_congr (by omega) rfl rfl

theorem copyCell_ok (s : Console) (hx : x < 80) (hy : y + 1 < 25) :
    Draws s (copyCell 1 ((y : Int) + 1) x s)
      fun x' y' => if x' = x ∧ y' = y then getchr s x (y + 1 : Nat) else getchr s x' y' := by
  have hy' : y < 25 := by omega
  simp only [copyCell, add_sub_cancel_right]
  refine ⟨(putchr_drawn hx hy').trans (putcolor_drawn hx hy'), fun x' y'' hx'' hy'' => ?_⟩
  rw [getchr_putcolor hx hy' hx'' hy'', getchr_putchr hx hy' hx'' hy'', Nat.cast_succ]

/-- A row is copied to the one above it. -/
theorem copyRow_ok (s : Console) (hy : y + 1 < 25) :
    Draws s (loop (copyCell 1 ((y : Int) + 1)) SCREEN_WIDTH.toNat 0 s)
      fun x' y' => if y' = y then getchr s x' (y + 1 : Nat) else getchr s x' y' := by
  have key : Draws s (loop (copyCell 1 ((y : Int) + 1)) 80 0 s)
      fun x' y' => if x' < 80 ∧ y' = y then getchr s x' (y + 1 : Nat) else getchr s x' y' := by
    refine loop_ok (P := fun k t => Draws s t fun x' y' =>
      if x' < k ∧ y' = y then getchr s x' (y + 1 : Nat) else getchr s x' y') ?_ ?_
    · exact ⟨.refl s, fun x' y' _ _ => (if_neg (by omega)).symm⟩
    · intro k hk t T
      rw [zero_add]
      have C := copyCell_ok t hk hy
      refine ⟨T.toDrawn.trans C.toDrawn, fun x' y' hx' hy' => (C.chars x' y' hx' hy').trans ?_⟩
      by_cases h : x' = k ∧ y' = y
      · rw [if_pos h, if_pos (by omega), T.chars k (y + 1) hk hy, if_neg (by omega), h.1]
      · rw [if_neg h, T.chars x' y' hx' hy']
        exact if_congr (by omega) rfl rfl
  exact key.congr fun x' hx' y' _ => if_congr (by omega) rfl rfl

/-- All rows move up by one, and the last is empty. -/
theorem scrollback_ok (s : Console) : Changes (range screenBuffer 4000) s.mem (scrollback 1 s).mem ∧
    (scrollback 1 s).screenX = s.screenX ∧ (scrollback 1 s).screenY = s.screenY - 1 ∧
    (scrollback 1 s).scrolls = s.scrolls + 1 ∧ ∀ x y : Nat, x < 80 → y < 25 →
      getchr (scrollback 1 s) x y = if y = 24 then 0 else getchr s x (y + 1 : Nat) := by
  have key : Draws s (loop (fun y => loop (copyCell 1 y) SCREEN_WIDTH.toNat 0) 24 1 s)
      fun x' y' => if y' < 24 then getchr s x' (y' + 1 : Nat) else getchr s x' y' := by
    refine loop_ok (P := fun k t => Draws s t fun x' y' =>
      if y' < k then getchr s x' (y' + 1 : Nat) else getchr s x' y') ?_ ?_
    · exact ⟨.refl s, fun x' y' _ _ => (if_neg (by omega)).symm⟩
    · intro k hk t T
      rw [add_comm (1 : Int) k]
      have C := copyRow_ok t (show k + 1 < 25 by omega)
      refine ⟨T.toDrawn.trans C.toDrawn, fun x' y' hx' hy' => (C.chars x' y' hx' hy').trans ?_⟩
      by_cases h : y' = k
      · rw [if_pos h, if_pos (by omega), T.chars x' (k + 1) hx' (by omega), if_neg (by omega), h]
      · rw [if_neg h, T.chars x' y' hx' hy']
        exact if_congr (by omega) rfl rfl
  have C := clearRows_ok (y := 24) (loop (fun y => loop (copyCell 1 y) SCREEN_WIDTH.toNat 0) 24 1 s) (by decide)
  have D := key.toDrawn.trans C.toDrawn
  simp only [scrollback, show SCREEN_HEIGHT - 1 = ((24 : Nat) : Int) from rfl, Int.toNat_natCast]
  generalize loop _ 24 1 s = t at key C D ⊢
  generalize clearRows _ t = u at C D ⊢
  refine ⟨D.mem, D.screenX, congrArg (· - 1) D.screenY, congrArg (· + 1) D.scrolls, fun x y hx hy => ?_⟩
  apply (C.chars x y hx hy).trans
  rw [key.chars x y hx hy]
  by_cases h : y = 24
  · rw [if_pos h, if_pos (by omega)]
  · rw [if_neg h, if_neg (by omega), if_pos (by omega)]

/-! ## The next character -/

/-- The screen shows the grid, and only the screen was written to. -/
structure Shown (s t : Console) (g : Grid) : Prop extends Shows t g where
  mem : Changes (range screenBuffer 4000) s.mem t.mem

theorem unsigned_of_nonneg {i : Int} (h : 0 ≤ i) (h' : i ≤ 80) : unsigned i = i :=
  Int.emod_eq_of_lt h (by omega)

theorem putcEnd_of_lt (h : 0 ≤ s.screenX) (h' : s.screenX < 80) :
    putcEnd s = if unsigned s.screenY ≥ SCREEN_HEIGHT then scrollback 1 s else s := by
  have e := unsigned_of_nonneg h h'.le
  simp only [putcEnd, e, if_neg (show ¬s.screenX ≥ SCREEN_WIDTH from not_le.mpr h')]

/-- After the last column the next row begins. -/
theorem putcEnd_wrap (h : s.screenX = 80) :
    putcEnd s = putcEnd { s with screenX := 0, screenY := s.screenY + 1 } := by
  rw [putcEnd_of_lt (s := { s with screenX := 0, screenY := s.screenY + 1 }) (le_refl 0)
    (show (0 : Int) < 80 by decide)]
  have e := unsigned_of_nonneg (i := 80) (by decide) (le_refl _)
  simp only [putcEnd, h, e, if_pos (show (80 : Int) ≥ SCREEN_WIDTH from le_refl _)]

/-- The end of `putc`, when the cursor is on the screen or on the row after it. -/
theorem putcEnd_ok (hx : g.x < 80) (hX : t.screenX = g.x) (hY : t.scrolls + t.screenY = g.y)
    (h0 : 0 ≤ t.screenY) (h25 : t.screenY ≤ 25)
    (rows : ∀ x y : Nat, x < 80 → y < 25 → getchr t x y = g.rows (t.scrolls + y) x)
    (blank : ∀ r > g.y, ∀ x, g.rows r x = 0) (new : t.screenY = 25 → ∀ x, g.rows g.y x = 0)
    (mem : Changes (range screenBuffer 4000) s.mem t.mem) : Shown s (putcEnd t) g := by
  rw [putcEnd_of_lt (by omega) (by omega), unsigned_of_nonneg h0 (by omega)]
  by_cases h : t.screenY ≥ SCREEN_HEIGHT
  swap
  · rw [if_neg h]
    exact ⟨⟨hx, hX, hY, h0, not_le.mp h, rows, blank⟩, mem⟩
  rw [if_pos h]
  have h25' : t.screenY = 25 := le_antisymm h25 h
  obtain ⟨hmem, hX', hY', hs', hrows⟩ := scrollback_ok t
  generalize scrollback 1 t = u at hmem hX' hY' hs' hrows ⊢
  refine ⟨⟨hx, hX'.trans hX, ?_, ?_, ?_, fun x y hx' hy' => ?_, blank⟩, mem.trans hmem⟩
  · rw [hs', hY', Nat.cast_succ]
    omega
  · omega
  · rw [SCREEN_HEIGHT]
    omega
  · rw [hrows x y hx' hy', hs']
    by_cases hy : y = 24
    · rw [if_pos hy, show t.scrolls + 1 + y = g.y by omega, new h25']
    · rw [if_neg hy, rows x (y + 1) hx' (by omega), show t.scrolls + (y + 1) = t.scrolls + 1 + y by omega]

theorem putcPlain_ok (S : Shows s g) (c : Byte) : Shown s (putcPlain s c) (g.place c) := by
  have hX := S.screenX
  have hY := S.screenY
  have hy0 := S.y_nonneg
  have hy25 : s.screenY < 25 := S.y_lt
  have hx := S.x_lt
  rw [putcPlain, Grid.place]
  by_cases hn : c = 0x0A
  · rw [if_pos hn, if_pos hn]
    exact putcEnd_ok (t := { s with screenX := 0, screenY := s.screenY + 1 }) (g := { g with x := 0, y := g.y + 1 })
      (show 0 < 80 by decide) rfl (show (s.scrolls : Int) + (s.screenY + 1) = (g.y + 1 : Nat) by omega)
      (show 0 ≤ s.screenY + 1 by omega) (show s.screenY + 1 ≤ 25 by omega) S.rows
      (fun r hr => S.blank r (Nat.lt_of_succ_lt hr)) (fun _ => S.blank _ (Nat.lt_succ_self _)) (.refl _ _)
  rw [if_neg hn, if_neg hn]
  by_cases hr : c = 0x0D
  · rw [if_pos hr, if_pos hr]
    exact putcEnd_ok (t := { s with screenX := 0 }) (g := { g with x := 0 }) (show 0 < 80 by decide) rfl hY hy0
      hy25.le S.rows S.blank (fun h => absurd h hy25.ne) (.refl _ _)
  rw [if_neg hr, if_neg hr]
  -- a character is written
  obtain ⟨y, hy⟩ := Int.eq_ofNat_of_zero_le hy0
  have hy' : y < 25 := by omega
  have mem : Changes (range screenBuffer 4000) s.mem (putchr s s.screenX s.screenY c).mem := by
    rw [hX, hy]
    exact (putchr_drawn hx hy').mem
  have rows : ∀ x' y' : Nat, x' < 80 → y' < 25 → getchr (putchr s s.screenX s.screenY c) x' y' =
      if s.scrolls + y' = g.y ∧ x' = g.x then c else g.rows (s.scrolls + y') x' := by
    intro x' y' hx' hy''
    rw [hX, hy]
    apply (getchr_putchr hx hy' hx' hy'').trans
    rw [S.rows x' y' hx' hy'']
    exact if_congr (by omega) rfl rfl
  have blank : ∀ r > g.y, ∀ x, (if r = g.y ∧ x = g.x then c else g.rows r x) = 0 := by
    intro r hr x
    rw [if_neg (by omega), S.blank r hr x]
  by_cases h : g.x + 1 = 80
  · simp only [if_pos h]
    rw [putcEnd_wrap (show s.screenX + 1 = 80 by omega)]
    exact putcEnd_ok (t := { putchr s s.screenX s.screenY c with screenX := 0, screenY := s.screenY + 1 })
      (show 0 < 80 by decide) rfl (show (s.scrolls : Int) + (s.screenY + 1) = (g.y + 1 : Nat) by omega)
      (show 0 ≤ s.screenY + 1 by omega) (show s.screenY + 1 ≤ 25 by omega) rows
      (fun r hr => blank r (Nat.lt_of_succ_lt hr)) (fun _ => blank _ (Nat.lt_succ_self _)) mem
  · simp only [if_neg h]
    exact putcEnd_ok (t := { putchr s s.screenX s.screenY c with screenX := s.screenX + 1 })
      (show g.x + 1 < 80 by omega) (show s.screenX + 1 = (g.x + 1 : Nat) by omega) hY hy0 hy25.le rows blank
      (fun h => absurd h hy25.ne) mem

/-- The characters after one another. -/
theorem putcPlain_foldl (S : Shows s g) (cs : List Byte) :
    Shown s (cs.foldl putcPlain s) (cs.foldl Grid.place g) := by
  induction cs generalizing s g with
  | nil => exact ⟨S, .refl _ _⟩
  | cons c cs ih =>
    have C := putcPlain_ok S c
    have T := ih C.toShows
    exact ⟨T.toShows, C.mem.trans T.mem⟩

/-! ## Tabs -/

/-- A row has a multiple of four columns. -/
theorem place_space_mod (g : Grid) : (g.place 0x20).x % 4 = (g.x + 1) % 4 := by
  rw [Grid.place, if_neg (by decide), if_neg (by decide)]
  by_cases h : g.x + 1 = 80
  · rw [if_pos h, h]
    exact show 0 % 4 = 80 % 4 by decide
  · rw [if_neg h]

/-- The loop for a tab ends after `k` spaces, when what it counts up to is not reached before. -/
theorem tabLoop_eq {k n : Nat} {i : Int} (S : Shows s g) (hk : k < n)
    (lt : ∀ j < k, i + j + ((g.x + j) % 4 : Nat) < 4) (ge : 4 ≤ i + k + ((g.x + k) % 4 : Nat)) :
    tabLoop n i s = (List.replicate k 0x20).foldl putcPlain s := by
  have e : s.screenX.tmod 4 = (g.x % 4 : Nat) := by
    rw [S.screenX]
    rfl
  induction k generalizing n i s g with
  | zero =>
    obtain ⟨n, rfl⟩ := Nat.exists_eq_succ_of_ne_zero hk.ne'
    rw [Nat.add_zero] at ge
    rw [tabLoop, e, if_neg (by omega)]
    rfl
  | succ k ih =>
    obtain ⟨n, rfl⟩ := Nat.exists_eq_succ_of_ne_zero (Nat.ne_zero_of_lt hk)
    have l0 := lt 0 (Nat.succ_pos k)
    rw [Nat.add_zero] at l0
    rw [tabLoop, e, if_pos (by omega)]
    have C := (putcPlain_ok S 0x20).toShows
    have hm := place_space_mod g
    refine ih C (Nat.lt_of_succ_lt_succ hk) (fun j hj => ?_) ?_ ?_
    · have l := lt (j + 1) (Nat.succ_lt_succ hj)
      omega
    · omega
    · rw [C.screenX]
      rfl

/-- What `putc` prints for a character. -/
theorem putc_eq (S : Shows s g) (c : Byte) : putc s c = (emitted g.x c).foldl putcPlain s := by
  rw [putc, emitted]
  by_cases hc : c = 0x09
  swap
  · rw [if_neg hc, if_neg hc]
    rfl
  rw [if_pos hc, if_pos hc]
  have e : tabLoop 4 0 s = (List.replicate (tabSpaces g.x) 0x20).foldl putcPlain s := by
    have hk : tabSpaces g.x = 1 ∧ g.x % 4 = 2 ∨ tabSpaces g.x = 3 ∧ g.x % 4 = 3 ∨
        tabSpaces g.x = 2 ∧ g.x % 4 < 2 := by
      rw [tabSpaces]
      split
      · omega
      · split <;> omega
    exact tabLoop_eq S (by omega) (fun j hj => by omega) (by omega)
  rw [e]
  have T := (putcPlain_foldl S (List.replicate (tabSpaces g.x) 0x20)).toShows
  have hX := T.screenX
  have hx := T.x_lt
  rw [putcEnd_of_lt (by omega) (by omega), unsigned_of_nonneg T.y_nonneg (T.y_lt.le.trans (by decide)),
    if_neg (not_le.mpr T.y_lt)]

theorem putc_ok (S : Shows s g) (c : Byte) : Shown s (putc s c) (g.print c) :=
  putc_eq S c ▸ putcPlain_foldl S (emitted g.x c)

/-! ## Runs -/

theorem print_ok (S : Shows s g) (cs : List Byte) : Shown s (cs.foldl putc s) (cs.foldl Grid.print g) := by
  induction cs generalizing s g with
  | nil => exact ⟨S, .refl _ _⟩
  | cons c cs ih =>
    have C := putc_ok S c
    have T := ih C.toShows
    exact ⟨T.toShows, C.mem.trans T.mem⟩

theorem clrscr_ok (s : Console) (h : s.scrolls = 0) : Shown s (clrscr s) .empty := by
  have C : Draws s (clearRows 0 s) _ := clearRows_ok (y := 0) s (Nat.zero_le _)
  rw [clrscr]
  generalize clearRows 0 s = t at C ⊢
  refine ⟨⟨show 0 < 80 by decide, rfl, ?_, le_refl (0 : Int), show (0 : Int) < 25 by decide, fun x y hx hy => ?_,
    fun _ _ _ => rfl⟩, C.mem⟩
  · rw [show t.scrolls = 0 from C.scrolls.trans h]
    rfl
  · exact (C.chars x y hx hy).trans (if_pos (Nat.zero_le y))

end

/-- The screen shows the last rows of the grid, from the number of scrolls on. -/
theorem console_tail (m : Mem) (x y : Int) (cs : List Byte) :
    let s := cs.foldl putc (clrscr ⟨m, x, y, 0⟩)
    let g := cs.foldl Grid.print .empty
    (0 ≤ s.screenX ∧ s.screenX < 80) ∧ (0 ≤ s.screenY ∧ s.screenY < 25) ∧
      Changes (range screenBuffer (2 * 80 * 25)) m s.mem ∧
      (∀ x y : Nat, x < 80 → y < 25 → getchr s x y = g.rows (s.scrolls + y) x) ∧
      s.screenX = g.x ∧ s.scrolls + s.screenY = g.y := by
  intro s g
  have C := clrscr_ok ⟨m, x, y, 0⟩ rfl
  have S : Shown _ s g := print_ok C.toShows cs
  have hX := S.screenX
  have hx := S.x_lt
  exact ⟨⟨by omega, by omega⟩, ⟨S.y_nonneg, S.y_lt⟩, C.mem.trans S.mem, S.rows, hX, S.screenY⟩

end AlexOS.Stdio
