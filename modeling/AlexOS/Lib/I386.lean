import AlexOS.Lib.Region
import Mathlib.Logic.Function.Basic

/-!
# Straight-line i386 code

The moves between registers and memory, and `ret`. Code is a list of
instructions that run after one another, so `eip` is not advanced by them:
`ret` alone sets it, to where the code is left for.
-/

namespace AlexOS.I386

open Mem

inductive Reg
  | eax | ecx | edx | ebx | esp | ebp | esi | edi
  deriving DecidableEq

inductive Instr
  /-- `mov dst, [base + disp]` -/
  | load (dst base : Reg) (disp : Word)
  /-- `mov [base + disp], src` -/
  | store (base : Reg) (disp : Word) (src : Reg)
  /-- `mov dst, src` -/
  | move (dst src : Reg)
  | ret

structure Cpu where
  regs : Reg → Word
  eip : Addr
  mem : Mem

def Cpu.set (c : Cpu) (r : Reg) (v : Word) : Cpu := { c with regs := Function.update c.regs r v }

def Cpu.setMem (c : Cpu) (m : Mem) : Cpu := { c with mem := m }

def Instr.exec : Instr → Cpu → Cpu
  | .load dst base disp, c => c.set dst (c.mem.load32 (c.regs base + disp))
  | .store base disp src, c => c.setMem (c.mem.store32 (c.regs base + disp) (c.regs src))
  | .move dst src, c => c.set dst (c.regs src)
  | .ret, c => { c.set .esp (c.regs .esp + 4) with eip := c.mem.load32 (c.regs .esp) }

def run (code : List Instr) (c : Cpu) : Cpu := code.foldl (fun c i => i.exec c) c

section

variable {c : Cpu} {r q : Reg} {v : Word}

@[simp] theorem run_nil (c : Cpu) : run [] c = c := rfl

@[simp] theorem run_cons (i : Instr) (code : List Instr) (c : Cpu) : run (i :: code) c = run code (i.exec c) := rfl

theorem run_append (code code' : List Instr) (c : Cpu) : run (code ++ code') c = run code' (run code c) :=
  List.foldl_append

@[simp] theorem set_mem : (c.set r v).mem = c.mem := rfl

@[simp] theorem setMem_mem {m : Mem} : (c.setMem m).mem = m := rfl

@[simp] theorem setMem_regs {m : Mem} : (c.setMem m).regs = c.regs := rfl

@[simp] theorem set_regs_self : (c.set r v).regs r = v := by
  simp [Cpu.set]

@[simp] theorem set_regs_of_ne (h : q ≠ r) : (c.set r v).regs q = c.regs q := by
  simp [Cpu.set, h]

end

end AlexOS.I386
