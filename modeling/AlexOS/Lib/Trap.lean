import AlexOS.Lib.I386

/-!
# The stack of the i386, and its interrupts

The registers that an interrupt saves and a handler loads (`Core`), the
instructions that push and pop them, and what the CPU does at an interrupt
within one privilege level (`Core.interrupt`) and at `iret`. The arithmetic
flags are not followed: a handler runs with flags that nobody reads, and `iret`
loads all of them.

`Pushed m₀ sp₀ m sp vs` says what a sequence of pushes has left: the words `vs`
at `sp`, and the rest of memory as it was. Each push adds a word to it
(`Pushed.push`).
-/

namespace AlexOS

namespace Mem

/-- The words lie one after another. -/
def Stacked (m : Mem) : Addr → List Word → Prop
  | _, [] => True
  | a, v :: vs => m.load32 a = v ∧ Stacked m (a + 4) vs

/-- The words `vs` were pushed on the stack, which was at `sp₀`. -/
structure Pushed (m₀ : Mem) (sp₀ : Addr) (m : Mem) (sp : Addr) (vs : List Word) : Prop where
  esp : sp.toNat + 4 * vs.length = sp₀.toNat
  words : Stacked m sp vs
  changes : Changes (Set.Ico sp.toNat sp₀.toNat) m₀ m

section

variable {m m' m₀ : Mem} {a sp sp₀ : Addr} {v : Word} {vs : List Word} {S : Set Nat}

theorem Stacked.keep (h : Stacked m a vs) (hc : Changes S m m') (hw : a.toNat + 4 * vs.length ≤ 2 ^ 32)
    (hd : ∀ k ∈ range a (4 * vs.length), k ∉ S) : Stacked m' a vs := by
  induction vs generalizing a with
  | nil => trivial
  | cons v vs ih =>
    rw [List.length_cons] at hw hd
    refine ⟨(hc.load32 (by omega) fun i hi => hd _ ?_).trans h.1, ?_⟩
    · rw [mem_range]
      omega
    · cases vs with
      | nil => trivial
      | cons w ws =>
        rw [List.length_cons] at hw hd
        have e : (a + 4).toNat = a.toNat + 4 := toNat_add_lt (i := 4) (n := 8) (by omega) (by omega)
        refine ih h.2 ?_ fun k hk => hd k ?_
        · rw [e, List.length_cons]
          omega
        · rw [mem_range, e, List.length_cons] at hk
          rw [mem_range]
          omega

theorem Pushed.nil (m : Mem) (sp : Addr) : Pushed m sp m sp [] :=
  ⟨by rw [List.length_nil, Nat.mul_zero, Nat.add_zero], trivial, .refl _ _⟩

theorem toNat_sub_four (h : 4 ≤ sp.toNat) : (sp - 4).toNat = sp.toNat - 4 := by
  rw [BitVec.toNat_sub, show (4 : Word).toNat = 4 from rfl]
  omega

theorem Pushed.push (h : Pushed m₀ sp₀ m sp vs) (hroom : 4 * (vs.length + 1) ≤ sp₀.toNat) (v : Word) :
    Pushed m₀ sp₀ (m.store32 (sp - 4) v) (sp - 4) (v :: vs) := by
  have hesp := h.esp
  have e : (sp - 4).toNat = sp.toNat - 4 := toNat_sub_four (by omega)
  have hlt := sp₀.isLt
  have hc : Changes (range (sp - 4) 4) m (m.store32 (sp - 4) v) := store32_changes (by omega)
  refine ⟨by rw [List.length_cons]; omega, ⟨load32_store32_self _ _ _, ?_⟩, ?_⟩
  · rw [sub_add_cancel]
    refine h.words.keep hc (by omega) fun k hk => ?_
    rw [mem_range] at hk ⊢
    omega
  · refine (h.changes.mono fun k hk => ?_).trans (hc.mono fun k hk => ?_)
    · rw [Set.mem_Ico] at hk ⊢
      omega
    · rw [mem_range] at hk
      rw [Set.mem_Ico]
      omega

end

end Mem

namespace I386

open Mem

inductive Seg
  | ds | es | fs | gs
  deriving DecidableEq

structure Core extends Cpu where
  seg : Seg → BitVec 16
  cs : BitVec 16
  eflags : Word

/-- TF, IF, NT, RF and VM, which an interrupt gate clears. -/
def gateFlags : Word := 0x00034300

namespace Core

def set (c : Core) (r : Reg) (v : Word) : Core := { c with toCpu := c.toCpu.set r v }

def setSeg (c : Core) (s : Seg) (v : BitVec 16) : Core := { c with seg := Function.update c.seg s v }

def push (c : Core) (v : Word) : Core :=
  { c.set .esp (c.regs .esp - 4) with mem := c.mem.store32 (c.regs .esp - 4) v }

def pop (c : Core) (r : Reg) : Core := (c.set .esp (c.regs .esp + 4)).set r (c.mem.load32 (c.regs .esp))

/-- An interrupt that goes through an interrupt gate to `target`. -/
def interrupt (c : Core) (cs : BitVec 16) (target : Addr) (error : Option Word) : Core :=
  let d := ((c.push c.eflags).push (c.cs.setWidth 32)).push c.eip
  let d := error.elim d d.push
  { d with eip := target, cs := cs, eflags := c.eflags &&& ~~~gateFlags }

/-- `d` is deeper in its stack than `c`, by the words `vs`. -/
def Deeper (c d : Core) (vs : List Word) : Prop := Pushed c.mem (c.regs .esp) d.mem (d.regs .esp) vs

end Core

inductive Op
  | instr (i : Instr)
  /-- `mov dst, v` -/
  | moveImm (dst : Reg) (v : Word)
  /-- `mov dst, v`, for the low half of the register. -/
  | moveLow (dst : Reg) (v : BitVec 16)
  /-- `xor r, r` -/
  | clear (r : Reg)
  /-- `add r, v` -/
  | add (r : Reg) (v : Word)
  | pushImm (v : Word)
  | push (r : Reg)
  | pop (r : Reg)
  | pusha
  | popa
  /-- `mov dst, s`, for the low half of the register. -/
  | loadSeg (dst : Reg) (s : Seg)
  /-- `mov s, src`, from the low half of the register. -/
  | storeSeg (s : Seg) (src : Reg)
  /-- `call target`, the code going on at `ret`. -/
  | call (target ret : Addr)
  | iret

/-- The low half of a register is replaced. -/
def withLow (w : Word) (v : BitVec 16) : Word := w.extractLsb' 16 16 ++ v

def Op.exec : Op → Core → Core
  | .instr i, c => { c with toCpu := i.exec c.toCpu }
  | .moveImm dst v, c => c.set dst v
  | .moveLow dst v, c => c.set dst (withLow (c.regs dst) v)
  | .clear r, c => c.set r 0
  | .add r v, c => c.set r (c.regs r + v)
  | .pushImm v, c => c.push v
  | .push r, c => c.push (c.regs r)
  | .pop r, c => c.pop r
  | .pusha, c =>
    ((((((((c.push (c.regs .eax)).push (c.regs .ecx)).push (c.regs .edx)).push (c.regs .ebx)).push (c.regs .esp)).push
      (c.regs .ebp)).push (c.regs .esi)).push (c.regs .edi))
  | .popa, c =>
    let c := ((c.pop .edi).pop .esi).pop .ebp
    let c := c.set .esp (c.regs .esp + 4)
    (((c.pop .ebx).pop .edx).pop .ecx).pop .eax
  | .loadSeg dst s, c => c.set dst (withLow (c.regs dst) (c.seg s))
  | .storeSeg s src, c => c.setSeg s ((c.regs src).setWidth 16)
  | .call target ret, c => { c.push ret with eip := target }
  | .iret, c =>
    { c.set .esp (c.regs .esp + 12) with
      eip := c.mem.load32 (c.regs .esp)
      cs := (c.mem.load32 (c.regs .esp + 4)).setWidth 16
      eflags := c.mem.load32 (c.regs .esp + 8) }

def runOps (code : List Op) (c : Core) : Core := code.foldl (fun c i => i.exec c) c

section

variable {c : Core} {r q : Reg} {s : Seg} {v : Word} {w : BitVec 16}

@[simp] theorem runOps_nil (c : Core) : runOps [] c = c := rfl

@[simp] theorem runOps_cons (i : Op) (code : List Op) (c : Core) : runOps (i :: code) c = runOps code (i.exec c) := rfl

theorem runOps_append (code code' : List Op) (c : Core) :
    runOps (code ++ code') c = runOps code' (runOps code c) := List.foldl_append

namespace Core

@[simp] theorem set_mem : (c.set r v).mem = c.mem := rfl
@[simp] theorem set_seg : (c.set r v).seg = c.seg := rfl
@[simp] theorem set_cs : (c.set r v).cs = c.cs := rfl
@[simp] theorem set_eflags : (c.set r v).eflags = c.eflags := rfl
@[simp] theorem set_eip : (c.set r v).eip = c.eip := rfl

@[simp] theorem set_regs_self : (c.set r v).regs r = v := I386.set_regs_self

@[simp] theorem set_regs_of_ne (h : q ≠ r) : (c.set r v).regs q = c.regs q := I386.set_regs_of_ne h

@[simp] theorem setSeg_mem : (c.setSeg s w).mem = c.mem := rfl
@[simp] theorem setSeg_regs : (c.setSeg s w).regs = c.regs := rfl
@[simp] theorem setSeg_cs : (c.setSeg s w).cs = c.cs := rfl
@[simp] theorem setSeg_eflags : (c.setSeg s w).eflags = c.eflags := rfl
@[simp] theorem setSeg_eip : (c.setSeg s w).eip = c.eip := rfl

@[simp] theorem push_mem : (c.push v).mem = c.mem.store32 (c.regs .esp - 4) v := rfl
@[simp] theorem push_esp : (c.push v).regs .esp = c.regs .esp - 4 :=
  (set_regs_self : (c.set .esp (c.regs .esp - 4)).regs .esp = _)
@[simp] theorem push_regs_of_ne (h : q ≠ .esp) : (c.push v).regs q = c.regs q :=
  (set_regs_of_ne h : (c.set .esp (c.regs .esp - 4)).regs q = _)
@[simp] theorem push_seg : (c.push v).seg = c.seg := rfl
@[simp] theorem push_cs : (c.push v).cs = c.cs := rfl
@[simp] theorem push_eflags : (c.push v).eflags = c.eflags := rfl
@[simp] theorem push_eip : (c.push v).eip = c.eip := rfl

theorem Deeper.refl (c : Core) : c.Deeper c [] := .nil _ _

theorem Deeper.push {d : Core} {vs : List Word} (h : c.Deeper d vs)
    (hroom : 4 * (vs.length + 1) ≤ (c.regs .esp).toNat) (v : Word) : c.Deeper (d.push v) (v :: vs) := by
  rw [Deeper, push_esp]
  exact Pushed.push h hroom v

theorem Deeper.congr {d d' : Core} {vs : List Word} (h : c.Deeper d vs) (hm : d'.mem = d.mem)
    (hs : d'.regs .esp = d.regs .esp) : c.Deeper d' vs := by
  rw [Deeper, hm, hs]
  exact h

theorem Deeper.esp_eq {d : Core} {vs : List Word} (h : c.Deeper d vs) :
    d.regs .esp = c.regs .esp - BitVec.ofNat 32 (4 * vs.length) := by
  have hesp := h.esp
  have := (c.regs .esp).isLt
  apply BitVec.eq_of_toNat_eq
  rw [BitVec.toNat_sub, BitVec.toNat_ofNat]
  omega

/-- What `pusha` pushes. -/
theorem Deeper.pusha {d : Core} {vs : List Word} (h : c.Deeper d vs)
    (hroom : 4 * (vs.length + 8) ≤ (c.regs .esp).toNat) :
    c.Deeper (Op.pusha.exec d)
      (d.regs .edi :: d.regs .esi :: d.regs .ebp :: d.regs .esp :: d.regs .ebx :: d.regs .edx ::
      d.regs .ecx :: d.regs .eax :: vs) := by
  have room : ∀ k ≤ 8, 4 * (vs.length + k) ≤ (c.regs .esp).toNat := fun k hk => by omega
  have h₁ := h.push (room 1 (by decide)) (d.regs .eax)
  have h₂ := h₁.push (room 2 (by decide)) (d.regs .ecx)
  have h₃ := h₂.push (room 3 (by decide)) (d.regs .edx)
  have h₄ := h₃.push (room 4 (by decide)) (d.regs .ebx)
  have h₅ := h₄.push (room 5 (by decide)) (d.regs .esp)
  have h₆ := h₅.push (room 6 (by decide)) (d.regs .ebp)
  have h₇ := h₆.push (room 7 (by decide)) (d.regs .esi)
  exact h₇.push (room 8 (by decide)) (d.regs .edi)

/-- What the CPU pushes at an interrupt. -/
theorem interrupt_deeper {target : Addr} {error : Option Word} (hroom : 16 ≤ (c.regs .esp).toNat) :
    c.Deeper (c.interrupt w target error) (error.toList ++ [c.eip, c.cs.setWidth 32, c.eflags]) := by
  have h₁ := (Deeper.refl c).push (show 4 ≤ _ by omega) c.eflags
  have h₂ := h₁.push (show 8 ≤ _ by omega) (c.cs.setWidth 32)
  have h₃ := h₂.push (show 12 ≤ _ by omega) c.eip
  cases error with
  | none => exact h₃
  | some v => exact h₃.push hroom v

theorem interrupt_regs {target : Addr} {error : Option Word} (h : q ≠ .esp) :
    (c.interrupt w target error).regs q = c.regs q := by
  cases error with
  | none => simp only [interrupt, Option.elim_none, push_regs_of_ne h]
  | some v => simp only [interrupt, Option.elim_some, push_regs_of_ne h]

theorem interrupt_seg {target : Addr} {error : Option Word} : (c.interrupt w target error).seg = c.seg := by
  cases error <;> rfl

@[simp] theorem pop_mem : (c.pop r).mem = c.mem := rfl
@[simp] theorem pop_seg : (c.pop r).seg = c.seg := rfl
@[simp] theorem pop_regs_self : (c.pop r).regs r = c.mem.load32 (c.regs .esp) := set_regs_self

@[simp] theorem pop_esp (h : r ≠ .esp) : (c.pop r).regs .esp = c.regs .esp + 4 := by
  rw [pop, set_regs_of_ne h.symm, set_regs_self]

@[simp] theorem pop_regs_of_ne (h : q ≠ r) (h' : q ≠ .esp) : (c.pop r).regs q = c.regs q := by
  rw [pop, set_regs_of_ne h, set_regs_of_ne h']

end Core

@[simp] theorem withLow_zero (w : BitVec 16) : withLow 0#32 w = w.setWidth 32 := by
  apply BitVec.eq_of_toNat_eq
  rw [withLow, show (0#32).extractLsb' 16 16 = 0#16 from rfl, BitVec.toNat_append, BitVec.toNat_setWidth]
  simp
  omega

@[simp] theorem setWidth_withLow (v : Word) (w : BitVec 16) : (withLow v w).setWidth 16 = w := by
  rw [withLow, BitVec.setWidth_append, dif_pos (le_refl 16)]
  exact BitVec.setWidth_eq w

end

end I386

end AlexOS
