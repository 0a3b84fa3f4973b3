import AlexOS.Interrupt.Entry

/-!
# System calls

The calls of the C library (`syscall.asm`), which a loaded program makes, and
`i686_syscall_handler`, which the kernel registers for vector 0x80. What the
handler is asked for is what the program called for (`call_ok`); the program
gets back the number of the call in `eax`, and `edi` with its first argument,
since nothing writes the frame.
-/

namespace AlexOS.Interrupt

open Mem I386

/-! ## syscall.asm, up to `int 0x80` -/

def libcRead : List Op :=
  [.instr (.load .edi .esp 4), .instr (.load .esi .esp 8), .instr (.load .edx .esp 12), .clear .eax]

def libcWrite : List Op :=
  [.instr (.load .edi .esp 4), .instr (.load .esi .esp 8), .instr (.load .edx .esp 12), .moveImm .eax 1]

def libcOpen : List Op := [.instr (.load .edi .esp 4), .moveImm .eax 2]

def libcExit : List Op := [.instr (.load .edi .esp 4), .moveImm .eax 4]

/-- There is no `int` in `close`. -/
def libcClose : List Op := [.instr (.load .edi .esp 4), .moveImm .eax 3, .instr .ret]

/-- The calls that get to the kernel. -/
inductive Call
  | read | write | open | exit

/-- `syscall.csv` -/
def Call.number : Call → Word
  | .read => 0
  | .write => 1
  | .open => 2
  | .exit => 4

def Call.code : Call → List Op
  | .read => libcRead
  | .write => libcWrite
  | .open => libcOpen
  | .exit => libcExit

/-- `int 0x80`, up to `i686_ISR_Handler`. -/
def int80 (L : Labels) (next : Addr) (c : Core) : Core := entered L ⟨0x80, none, rfl⟩ { c with eip := next }

/-! ## The kernel -/

/-- What `i686_syscall_handler` does. -/
inductive Request
  | exitProcess (code : Word)
  | write (handle size buf : Word)
  /-- The number is printed. -/
  | unknown (eax : Word)
  deriving DecidableEq

def syscallHandler (regs : Register) : Request :=
  if regs.eax = 4 then .exitProcess regs.edi
  else if regs.eax = 1 then .write regs.edi regs.edx regs.esi
  else .unknown regs.eax

/-- The register that `i686_ISR_Handler` gets. -/
def argument (i : Core) : Register := Register.read i.mem (i.mem.load32 (i.regs .esp + 4))

/-- What a call with these arguments asks the kernel for. -/
def Call.request (handle buf size : Word) : Call → Request
  | .write => .write handle size buf
  | .exit => .exitProcess handle
  | k => .unknown k.number

section

variable {L : Labels} {e : Event} {c d h : Core} {W : Set Nat} {lo hi : Nat} {next : Addr}

/-- The structure holds what the interrupted code had. -/
theorem argument_entered (L : Labels) (e : Event) (hroom : 64 ≤ (c.regs .esp).toNat) :
    let r := argument (entered L e c)
    r.eax = c.regs .eax ∧ r.edi = c.regs .edi ∧ r.esi = c.regs .esi ∧ r.edx = c.regs .edx ∧
      r.interrupt = e.vector.setWidth 32 := by
  obtain ⟨hd, -, -⟩ := entered_ok (c := c) L e hroom
  have hw := hd.words
  have hesp : (entered L e c).regs .esp = c.regs .esp - 64 := hd.esp_eq
  have hp : c.regs .esp - 64 + 4 + 4 = c.regs .esp - 56 := by bv_omega
  obtain ⟨-, harg, hw⟩ := hw
  rw [hesp] at harg hw
  rw [hp] at hw
  simp [Stacked, frameWords, add_assoc] at hw
  obtain ⟨-, w₁, w₂, -, -, -, w₆, -, w₈, w₉, -⟩ := hw
  have ha : argument (entered L e c) = Register.read (entered L e c).mem (c.regs .esp - 56) := by
    rw [argument, hesp, harg]
  simp [ha, Register.read, w₁, w₂, w₆, w₈, w₉]

/-- Up to `int 0x80`. -/
theorem code_ok (k : Call) (c : Core) :
    let d := runOps k.code c
    d.regs .eax = k.number ∧ d.regs .edi = c.mem.load32 (c.regs .esp + 4) ∧
      (k = .write → d.regs .esi = c.mem.load32 (c.regs .esp + 8) ∧
        d.regs .edx = c.mem.load32 (c.regs .esp + 12)) ∧
      d.regs .ebx = c.regs .ebx ∧ d.regs .ecx = c.regs .ecx ∧ d.regs .ebp = c.regs .ebp ∧
      d.regs .esp = c.regs .esp ∧ d.seg = c.seg ∧ d.mem = c.mem := by
  cases k <;> simp [Call.code, Call.number, libcRead, libcWrite, libcOpen, libcExit, Op.exec, Instr.exec]

/-- The call of a program, and its return. -/
theorem call_ok (k : Call) (hW : ∀ x ∈ W, x < lo ∨ hi ≤ x) (hroom : lo + 64 ≤ (c.regs .esp).toNat)
    (hhi : (c.regs .esp).toNat + 4 ≤ hi) (hmem : hi ≤ 2 ^ 32) (hseg : ∀ s, c.seg s = c.seg .ds) :
    let i := int80 L next (runOps k.code c)
    syscallHandler (argument i) =
        k.request (c.mem.load32 (c.regs .esp + 4)) (c.mem.load32 (c.regs .esp + 8))
          (c.mem.load32 (c.regs .esp + 12)) ∧
      (argument i).interrupt = 0x80 ∧
      ∀ h, HandlerRun L W lo ((c.regs .esp).toNat - 56) i h → h.regs .esp = c.regs .esp - 60 →
        let f := (Op.instr .ret).exec (resumed h)
        f.eip = c.mem.load32 (c.regs .esp) ∧ f.regs .esp = c.regs .esp + 4 ∧ f.regs .eax = k.number ∧
          f.regs .edi = c.mem.load32 (c.regs .esp + 4) ∧ f.regs .ebx = c.regs .ebx ∧ f.regs .ebp = c.regs .ebp ∧
          Changes (W ∪ Set.Ico lo (c.regs .esp).toNat) c.mem f.mem := by
  obtain ⟨heax, hedi, hargs, hebx, -, hebp, hesp, hsg, hm⟩ := code_ok k c
  generalize runOps k.code c = d at heax hedi hargs hebx hebp hesp hsg hm
  set d' : Core := { d with eip := next } with hd'
  have hesp' : d'.regs .esp = c.regs .esp := hesp
  have hsg' : d'.seg = c.seg := hsg
  intro i
  obtain ⟨ra, rdi, rsi, rdx, ri⟩ := argument_entered (c := d') L ⟨0x80, none, rfl⟩ (by rw [hesp']; omega)
  have ra' : (argument i).eax = k.number := ra.trans heax
  have rdi' : (argument i).edi = c.mem.load32 (c.regs .esp + 4) := rdi.trans hedi
  refine ⟨?_, ri, fun h hr hret => ?_⟩
  · cases k
    case write =>
      have rsi' : (argument i).esi = c.mem.load32 (c.regs .esp + 8) := rsi.trans (hargs rfl).1
      have rdx' : (argument i).edx = c.mem.load32 (c.regs .esp + 12) := rdx.trans (hargs rfl).2
      simp [syscallHandler, Call.request, Call.number, ra', rdi', rsi', rdx']
    case read => simp [syscallHandler, Call.request, Call.number, ra']
    case «open» => simp [syscallHandler, Call.request, Call.number, ra']
    case exit => simp [syscallHandler, Call.request, Call.number, ra', rdi']
  · have hsame : Same W lo d' (resumed h) := by
      have hhi' : (d'.regs .esp).toNat ≤ hi := by rw [hesp']; omega
      refine resumed_same hW (by rw [hesp']; exact hroom) hhi' ?_ (by rw [hesp']; exact hr) (by rw [hesp']; exact hret)
      rw [hsg']
      exact hseg
    have hmem' : Changes (W ∪ Set.Ico lo (c.regs .esp).toNat) c.mem (resumed h).mem := by
      have := hsame.mem
      rwa [hesp', show d'.mem = c.mem from hm] at this
    have hregs : ∀ q, (resumed h).regs q = d.regs q := fun q => congrFun hsame.regs q
    have hret' : (resumed h).mem.load32 (c.regs .esp) = c.mem.load32 (c.regs .esp) := by
      refine hmem'.load32 (by omega) fun j hj hx => ?_
      rcases hx with hx | hx
      · have := hW _ hx
        omega
      · rw [Set.mem_Ico] at hx
        omega
    simp [Op.exec, Instr.exec, hregs, hesp, heax, hedi, hebx, hebp, hret']
    exact hmem'

/-- `close` does not get to the kernel. -/
theorem close_ok (c : Core) :
    let f := runOps libcClose c
    f.eip = c.mem.load32 (c.regs .esp) ∧ f.regs .esp = c.regs .esp + 4 ∧ f.regs .eax = 3 ∧ f.mem = c.mem := by
  simp [libcClose, Op.exec, Instr.exec]

end

/-- `write`, with a handler that does nothing. -/
theorem call_ok_write :
    let L : Labels := ⟨fun _ => 0, 0, 0⟩
    let i := int80 L 0 (runOps libcWrite smallCore)
    syscallHandler (argument i) = .write 0 0 0 ∧
      ((Op.instr .ret).exec (resumed { i with regs := fun _ => 0xC4 })).regs .eax = 1 := by
  intro L i
  have hW : ∀ x ∈ (∅ : Set Nat), x < 0 ∨ 0x200 ≤ x := fun x hx => absurd hx (Set.notMem_empty x)
  obtain ⟨hreq, -, hret⟩ := @call_ok L smallCore ∅ 0 0x200 0 .write hW (by decide) (by decide)
    (by decide) fun s => rfl
  obtain ⟨-, -, heax, -⟩ := hret { i with regs := fun _ => 0xC4 }
    (.own (.refl _ _) (.refl _ _) (by decide)) (by decide)
  exact ⟨hreq, heax⟩

end AlexOS.Interrupt
