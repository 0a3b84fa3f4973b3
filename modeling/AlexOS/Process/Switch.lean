import AlexOS.Lib.I386

/-!
# Context switches

`context_switch` of `x86_process.asm`, and the contexts that it suspends. In a
run (`Run`) the running context does what it likes, apart from writes to what
belongs to suspended contexts, creates and removes contexts, and calls
`context_switch` with its own structure as `old`. A suspended context is
recorded by the CPU as it was when its call began (`Saved`): the code does not
keep that.

`switch_ok` is what the instructions do, in terms of the memory that they save.
`Inv.suspend` says that this memory still has what is kept for each suspended
context, and now for the calling one, which is both what `Inv.step` needs and
what the context switched to finds (`switch_resumes`).
-/

namespace AlexOS.Contexts

open Mem I386

/-- The first half of `context_switch`. -/
def saveOld : List Instr :=
  [.load .eax .esp 4,  -- struct context *old
   .store .eax 0 .esp,
   .store .eax 4 .ebp,
   .store .eax 8 .ebx,
   .store .eax 12 .esi,
   .store .eax 16 .edi,
   .load .ecx .esp 0,
   .store .eax 20 .ecx,
   .load .ecx .esp 0xc]

/-- The second half. -/
def restoreNew : List Instr :=
  [.load .eax .esp 8,  -- struct context *new
   .load .esp .eax 0,
   .load .ebp .eax 4,
   .load .ebx .eax 8,
   .load .esi .eax 12,
   .load .edi .eax 16,
   .move .eax .ecx,
   .ret]

def contextSwitch : List Instr := saveOld ++ restoreNew

/-- The `n`-th argument of a call, at its entry: the return address is at `esp`, and the arguments follow. -/
def arg (c : Cpu) (n : Nat) : Word := c.mem.load32 (c.regs .esp + BitVec.ofNat 32 (4 * n))

/-- The return address of a call, at its entry. -/
def returnAddress (c : Cpu) : Addr := c.mem.load32 (c.regs .esp)

/-- The memory of a `struct process_context`. -/
def structAt (p : Addr) : Set Nat := range p 24

/-- The registers are in a structure. -/
structure Holds (m : Mem) (p : Addr) (regs : Reg → Word) : Prop where
  esp : m.load32 p = regs .esp
  ebp : m.load32 (p + 4) = regs .ebp
  ebx : m.load32 (p + 8) = regs .ebx
  esi : m.load32 (p + 12) = regs .esi
  edi : m.load32 (p + 16) = regs .edi

section

variable {c : Cpu} {m m' : Mem} {p old new a : Addr} {n k : Nat}

/-! ## Save and restore -/

/-- The registers are stored in a structure. -/
def saveRegs (m : Mem) (p : Addr) (regs : Reg → Word) : Mem :=
  ((((m.store32 (p + 0) (regs .esp)).store32 (p + 4) (regs .ebp)).store32 (p + 8) (regs .ebx)).store32 (p + 12)
    (regs .esi)).store32 (p + 16) (regs .edi)

/-- What `context_switch` writes. -/
def save (c : Cpu) (old : Addr) : Mem :=
  (saveRegs c.mem old c.regs).store32 (old + 20) (returnAddress c)

theorem store_field_changes (h : p.toNat + 24 ≤ 2 ^ 32) (hk : k + 4 ≤ 24) (v : Word) :
    Changes (structAt p) m (m.store32 (p + BitVec.ofNat 32 k) v) := by
  have e := toNat_add_lt (n := 24) (a := p) (i := k) (by omega) h
  refine (store32_changes (by omega)).mono fun i hi => ?_
  rw [mem_range, e] at hi
  show p.toNat ≤ i ∧ i < p.toNat + 24
  omega

theorem saveRegs_changes (h : p.toNat + 24 ≤ 2 ^ 32) (regs : Reg → Word) :
    Changes (structAt p) m (saveRegs m p regs) :=
  (store_field_changes h (k := 0) (by decide) _).trans <|
    (store_field_changes h (k := 4) (by decide) _).trans <|
      (store_field_changes h (k := 8) (by decide) _).trans <|
        (store_field_changes h (k := 12) (by decide) _).trans (store_field_changes h (k := 16) (by decide) _)

theorem save_changes (c : Cpu) (h : old.toNat + 24 ≤ 2 ^ 32) : Changes (structAt old) c.mem (save c old) :=
  (saveRegs_changes h _).trans (store_field_changes h (k := 20) (by decide) _)

theorem save_holds (c : Cpu) (old : Addr) : Holds (save c old) old c.regs := by
  have h0 : (save c old).load32 (old + 0) = c.regs .esp := by
    simp (disch := decide) only [save, saveRegs, load32_store32_offset, load32_store32_self]
  rw [add_zero] at h0
  refine ⟨h0, ?_, ?_, ?_, ?_⟩
  all_goals simp (disch := decide) only [save, saveRegs, load32_store32_offset, load32_store32_self]

/-- A word is read from outside the structure. -/
theorem load_outside (h : Changes (structAt p) m m') (hw : a.toNat + n ≤ 2 ^ 32)
    (hd : Disjoint (range a n) (structAt p)) (hk : k + 4 ≤ n) :
    m'.load32 (a + BitVec.ofNat 32 k) = m.load32 (a + BitVec.ofNat 32 k) := by
  have e := toNat_add_lt (n := n) (a := a) (i := k) (by omega) hw
  refine h.load32 (by omega) fun i hi => Set.disjoint_left.mp hd ?_
  rw [mem_range]
  omega

/-- The first half leaves the arguments on the stack. -/
theorem run_saveOld (hw : (arg c 1).toNat + 24 ≤ 2 ^ 32) (hs : (c.regs .esp).toNat + 16 ≤ 2 ^ 32)
    (hd : Disjoint (range (c.regs .esp) 16) (structAt (arg c 1))) :
    (run saveOld c).mem = save c (arg c 1) ∧ (run saveOld c).regs .ecx = arg c 3 ∧
      (run saveOld c).regs .esp = c.regs .esp := by
  have h0 : (saveRegs c.mem (arg c 1) c.regs).load32 (c.regs .esp + 0) = c.mem.load32 (c.regs .esp + 0) :=
    load_outside (k := 0) (saveRegs_changes hw c.regs) hs hd (by decide)
  have h3 : (save c (arg c 1)).load32 (c.regs .esp + 0xc) = c.mem.load32 (c.regs .esp + 0xc) :=
    load_outside (k := 12) (save_changes c hw) hs hd (by decide)
  have e1 : c.mem.load32 (c.regs .esp + 4) = arg c 1 := rfl
  have e3 : c.mem.load32 (c.regs .esp + 0xc) = arg c 3 := rfl
  have e5 : ((((c.mem.store32 (arg c 1 + 0) (c.regs .esp)).store32 (arg c 1 + 4) (c.regs .ebp)).store32
      (arg c 1 + 8) (c.regs .ebx)).store32 (arg c 1 + 12) (c.regs .esi)).store32 (arg c 1 + 16) (c.regs .edi) =
        saveRegs c.mem (arg c 1) c.regs := rfl
  rw [show c.mem.load32 (c.regs .esp + 0) = returnAddress c by rw [add_zero, returnAddress]] at h0
  have e6 : (saveRegs c.mem (arg c 1) c.regs).store32 (arg c 1 + 20) (returnAddress c) = save c (arg c 1) := rfl
  simp (disch := decide) only [saveOld, run_cons, run_nil, Instr.exec, set_mem, setMem_mem, setMem_regs, set_regs_self,
    set_regs_of_ne, e1, e5, h0, e6, h3, e3, and_self]

/-- The second half loads what is in the new structure. -/
theorem run_restoreNew (h : c.mem.load32 (c.regs .esp + 8) = new) :
    (run restoreNew c).mem = c.mem ∧ (run restoreNew c).eip = c.mem.load32 (c.mem.load32 new) ∧
      (run restoreNew c).regs .esp = c.mem.load32 new + 4 ∧ (run restoreNew c).regs .ebp = c.mem.load32 (new + 4) ∧
      (run restoreNew c).regs .ebx = c.mem.load32 (new + 8) ∧
        (run restoreNew c).regs .esi = c.mem.load32 (new + 12) ∧
      (run restoreNew c).regs .edi = c.mem.load32 (new + 16) ∧ (run restoreNew c).regs .eax = c.regs .ecx := by
  simp (disch := decide) only [restoreNew, run_cons, run_nil, Instr.exec, set_mem, set_regs_self, set_regs_of_ne, h,
    add_zero, and_self]

end

/-! ## Suspended contexts -/

/-- A context that is not running, with the addresses of its stack. -/
inductive Saved
  /-- Its call of `context_switch` began in `c`. -/
  | called (c : Cpu) (stack : Set Nat)
  /-- It has not run yet. -/
  | created (entry esp : Addr) (stack : Set Nat)

def Saved.stack : Saved → Set Nat
  | called _ stack => stack
  | created _ _ stack => stack

def Saved.esp : Saved → Addr
  | called c _ => c.regs .esp
  | created _ esp _ => esp

/-- What memory holds for a context. -/
def Kept (m : Mem) (p : Addr) : Saved → Prop
  | .called c stack => Holds m p c.regs ∧ Changes stackᶜ c.mem m
  | .created entry esp _ => m.load32 p = esp ∧ m.load32 esp = entry

/-- The stack has the word to return to. -/
structure Fits (p : Addr) (r : Saved) : Prop where
  struct : p.toNat + 24 ≤ 2 ^ 32
  top : r.esp.toNat + 4 ≤ 2 ^ 32
  stack : range r.esp 4 ⊆ r.stack

/-- How a context goes on that was switched to. -/
def Resumed (value : Word) (c : Cpu) : Saved → Prop
  | .called c₀ stack => c.eip = returnAddress c₀ ∧ c.regs .esp = c₀.regs .esp + 4 ∧
      c.regs .ebp = c₀.regs .ebp ∧
      c.regs .ebx = c₀.regs .ebx ∧ c.regs .esi = c₀.regs .esi ∧ c.regs .edi = c₀.regs .edi ∧
      Changes stackᶜ c₀.mem c.mem ∧ c.regs .eax = value
  | .created entry _ _ => c.eip = entry

/-- The CPU, the structure of the running context, and the suspended contexts by their structures. -/
structure State where
  cpu : Cpu
  current : Addr
  suspended : Addr → Option Saved

/-- The suspended contexts and the one that calls `context_switch`. -/
def State.suspend (s : State) (stack : Set Nat) : Addr → Option Saved :=
  Function.update s.suspended s.current (some (.called s.cpu stack))

/-- A call of `context_switch`. -/
def State.switch (s : State) (stack : Set Nat) : State :=
  ⟨run contextSwitch s.cpu, arg s.cpu 2, Function.update (s.suspend stack) (arg s.cpu 2) none⟩

/-- A call with the structure of the running context, which is apart from its stack and from what belongs
to the suspended contexts. -/
structure CanSwitch (s : State) (stack : Set Nat) : Prop where
  old : arg s.cpu 1 = s.current
  struct : s.current.toNat + 24 ≤ 2 ^ 32
  top : (s.cpu.regs .esp).toNat + 16 ≤ 2 ^ 32
  args : range (s.cpu.regs .esp) 16 ⊆ stack
  own : Disjoint stack (structAt s.current)
  others : ∀ p r, s.suspended p = some r → Disjoint (structAt s.current) (structAt p ∪ r.stack)

inductive Step : State → State → Prop
  /-- The running context does anything, but does not write to what belongs to suspended ones. -/
  | runs {s : State} {c : Cpu}
      (h : ∀ p r, s.suspended p = some r → Changes (structAt p ∪ r.stack)ᶜ s.cpu.mem c.mem) :
      Step s { s with cpu := c }
  | create {s : State} {p entry esp : Addr} {stack : Set Nat} (h : Kept s.cpu.mem p (.created entry esp stack))
      (hf : Fits p (.created entry esp stack)) :
      Step s { s with suspended := Function.update s.suspended p (some (.created entry esp stack)) }
  | remove {s : State} {p : Addr} : Step s { s with suspended := Function.update s.suspended p none }
  | switch {s : State} {stack : Set Nat} (h : CanSwitch s stack) : Step s (s.switch stack)

/-- Runs from a state without suspended contexts. -/
inductive Run : State → Prop
  | start (c : Cpu) (current : Addr) : Run ⟨c, current, fun _ => none⟩
  | step {s s' : State} (h : Run s) (hs : Step s s') : Run s'

section

variable {s s' : State} {m m' : Mem} {p : Addr} {r : Saved} {stack : Set Nat} {T : Set Nat}

theorem load_kept (h : Changes T m m') {a : Addr} (hw : a.toNat + 4 ≤ 2 ^ 32) (hd : ∀ i ∈ range a 4, i ∉ T) :
    m'.load32 a = m.load32 a := by
  refine h.load32 hw fun i hi => hd _ ?_
  rw [mem_range]
  omega

/-- What is kept for a context, after writes to other addresses. -/
theorem Kept.frame (K : Kept m p r) (F : Fits p r) (h : Changes T m m') (hd : Disjoint T (structAt p ∪ r.stack)) :
    Kept m' p r := by
  have hfield : ∀ k, k + 4 ≤ 24 →
      m'.load32 (p + BitVec.ofNat 32 k) = m.load32 (p + BitVec.ofNat 32 k) := fun k hk => by
    have e := toNat_add_lt (n := 24) (a := p) (i := k) (by omega) F.struct
    refine load_kept h (by have := F.struct; omega) fun i hi => Set.disjoint_right.mp hd (.inl ?_)
    rw [mem_range, e] at hi
    show p.toNat ≤ i ∧ i < p.toNat + 24
    omega
  have h0 : m'.load32 p = m.load32 p := by
    have h0 := hfield 0 (by decide)
    rwa [BitVec.add_zero] at h0
  cases r with
  | called c stack =>
    obtain ⟨H, hs⟩ := K
    refine ⟨⟨h0.trans H.esp, (hfield 4 (by decide)).trans H.ebp, (hfield 8 (by decide)).trans H.ebx,
      (hfield 12 (by decide)).trans H.esi, (hfield 16 (by decide)).trans H.edi⟩, fun x hx => ?_⟩
    rw [← hs x hx]
    exact h x (Set.disjoint_right.mp hd (.inr (Set.notMem_compl_iff.mp hx)))
  | created entry esp stack =>
    refine ⟨h0.trans K.1, ?_⟩
    exact (load_kept h F.top fun i hi => Set.disjoint_right.mp hd (.inr (F.stack hi))).trans K.2

theorem update_eq_some {f : Addr → Option Saved} {q : Addr} {v : Option Saved}
    (h : Function.update f q v p = some r) : p = q ∧ v = some r ∨ p ≠ q ∧ f p = some r := by
  by_cases hp : p = q
  · subst hp
    rw [Function.update_self] at h
    exact .inl ⟨rfl, h⟩
  · rw [Function.update_of_ne hp] at h
    exact .inr ⟨hp, h⟩

/-- In every state of a run. -/
def Inv (s : State) : Prop := ∀ p r, s.suspended p = some r → Kept s.cpu.mem p r ∧ Fits p r

/-- What `context_switch` saves, it keeps for all suspended contexts and the calling one. -/
theorem Inv.suspend (I : Inv s) (h : CanSwitch s stack) (hr : s.suspend stack p = some r) :
    Kept (save s.cpu s.current) p r ∧ Fits p r := by
  have C := save_changes s.cpu h.struct
  rcases update_eq_some hr with ⟨rfl, e⟩ | ⟨-, hr⟩
  · cases e
    have hsub : range (s.cpu.regs .esp) 4 ⊆ stack := fun i hi => h.args ⟨hi.1, by have := hi.2; omega⟩
    have htop : (s.cpu.regs .esp).toNat + 4 ≤ 2 ^ 32 := by
      have := h.top
      omega
    refine ⟨⟨save_holds s.cpu s.current, C.mono fun i hi hs => ?_⟩, ⟨h.struct, htop, hsub⟩⟩
    exact Set.disjoint_left.mp h.own hs hi
  · obtain ⟨K, F⟩ := I p r hr
    exact ⟨K.frame F C (h.others p r hr), F⟩

/-- The whole of `context_switch`. -/
theorem switch_ok (h : CanSwitch s stack) :
    let m := save s.cpu s.current
    let new := arg s.cpu 2
    let c := (s.switch stack).cpu
    c.mem = m ∧ c.eip = m.load32 (m.load32 new) ∧ c.regs .esp = m.load32 new + 4 ∧
      c.regs .ebp = m.load32 (new + 4) ∧
      c.regs .ebx = m.load32 (new + 8) ∧ c.regs .esi = m.load32 (new + 12) ∧ c.regs .edi = m.load32 (new + 16) ∧
      c.regs .eax = arg s.cpu 3 := by
  intro m new c
  have hd : Disjoint (range (s.cpu.regs .esp) 16) (structAt s.current) := h.own.mono_left h.args
  obtain ⟨hm, hecx, hesp⟩ := run_saveOld (h.old ▸ h.struct) h.top (h.old ▸ hd)
  rw [h.old] at hm
  have hnew : (run saveOld s.cpu).mem.load32 ((run saveOld s.cpu).regs .esp + 8) = new := by
    rw [hm, hesp]
    exact load_outside (k := 8) (save_changes s.cpu h.struct) h.top hd (by decide)
  have R := run_restoreNew hnew
  rw [hm, hecx] at R
  have e : c = run restoreNew (run saveOld s.cpu) := run_append saveOld restoreNew s.cpu
  rw [e]
  exact R

theorem Inv.step (I : Inv s) (h : Step s s') : Inv s' := by
  cases h with
  | runs h =>
    intro p r hr
    obtain ⟨K, F⟩ := I p r hr
    exact ⟨K.frame F (h p r hr) disjoint_compl_left, F⟩
  | create h hf =>
    intro p r hr
    rcases update_eq_some hr with ⟨rfl, e⟩ | ⟨-, hr⟩
    · cases e
      exact ⟨h, hf⟩
    · exact I p r hr
  | remove =>
    intro p r hr
    rcases update_eq_some hr with ⟨-, e⟩ | ⟨-, hr⟩
    · cases e
    · exact I p r hr
  | switch h =>
    intro p r hr
    rcases update_eq_some hr with ⟨-, e⟩ | ⟨-, hr⟩
    · cases e
    · rw [(switch_ok h).1]
      exact I.suspend h hr

theorem Run.inv (h : Run s) : Inv s := by
  induction h with
  | start c current => exact fun p r hr => nomatch hr
  | step _ hs I => exact I.step hs

/-- A suspended context that is switched to goes on after its own call, or starts at its entry. -/
theorem switch_resumes (h : Run s) (hc : CanSwitch s stack) (hr : s.suspend stack (arg s.cpu 2) = some r) :
    Resumed (arg s.cpu 3) (s.switch stack).cpu r := by
  obtain ⟨hm, heip, hesp, hebp, hebx, hesi, hedi, heax⟩ := switch_ok hc
  obtain ⟨K, F⟩ := h.inv.suspend hc hr
  cases r with
  | called c₀ stack' =>
    obtain ⟨H, hs⟩ := K
    have hsub : range (c₀.regs .esp) 4 ⊆ stack' := F.stack
    have hret : (save s.cpu s.current).load32 (c₀.regs .esp) = c₀.mem.load32 (c₀.regs .esp) :=
      load_kept hs F.top fun i hi h' => h' (hsub hi)
    rw [← hm] at hs
    rw [H.esp] at heip hesp
    exact ⟨heip.trans hret, hesp, hebp.trans H.ebp, hebx.trans H.ebx, hesi.trans H.esi, hedi.trans H.edi, hs, heax⟩
  | created entry esp stack' =>
    obtain ⟨he, hentry⟩ := K
    rw [he] at heip
    exact heip.trans hentry

end

/-! ## `exec` and `exit_process` -/

/-- What `exec` stores for a process: its entry point on its stack, and the stack in its structure. -/
def startStack (m : Mem) (newCtx stackTop entryPoint : Addr) : Mem :=
  (m.store32 (stackTop - 4) entryPoint).store32 newCtx (stackTop - 4)

theorem disjoint_range {a b : Addr} {n k : Nat} (h : a.toNat + n ≤ b.toNat ∨ b.toNat + k ≤ a.toNat) :
    Disjoint (range a n) (range b k) := by
  rw [Set.disjoint_left]
  intro i hi hi'
  rw [mem_range] at hi hi'
  omega

/-- The arguments of a call. -/
def callArgs (m : Mem) (esp : Addr) (old new : Addr) (value : Word) : Mem :=
  ((m.store32 (esp + 4) old).store32 (esp + 8) new).store32 (esp + 12) value

theorem callArgs_changes {m : Mem} {esp old new : Addr} {value : Word} (h : esp.toNat + 16 ≤ 2 ^ 32) :
    Changes (range esp 16) m (callArgs m esp old new value) := by
  have word : ∀ k, k + 4 ≤ 16 → ∀ (m : Mem) v,
    Changes (range esp 16) m (m.store32 (esp + BitVec.ofNat 32 k) v) := by
    intro k hk m v
    have e := toNat_add_lt (n := 16) (a := esp) (i := k) (by omega) h
    refine (store32_changes (by omega)).mono fun i hi => ?_
    rw [mem_range] at hi ⊢
    omega
  exact (word 4 (by decide) _ _).trans ((word 8 (by decide) _ _).trans (word 12 (by decide) _ _))

/-- The kernel calls `context_switch` for a process that it has set up. -/
def kernelCpu : Cpu :=
  ⟨fun r => if r = .esp then 0x9000 else 5, 0,
    callArgs ((startStack (fun _ => 0) 0x2000 0x4004 0x500000).store32 0x9000 0x123456) 0x9000 0x1000 0x2000 0⟩

def started : State :=
  ⟨kernelCpu, 0x1000, Function.update (fun _ => none) 0x2000 (some (.created 0x500000 0x4000 (range 0x4000 4)))⟩

/-- The process runs, and calls `context_switch` to exit. -/
def exitCpu : Cpu :=
  ⟨fun r => if r = .esp then 0x3000 else 9, 0,
    callArgs (started.switch (range 0x9000 16)).cpu.mem 0x3000 0x2000 0x1000 42⟩

def exiting : State := { started.switch (range 0x9000 16) with cpu := exitCpu }

theorem started_suspended {p : Addr} {r : Saved} (hr : started.suspended p = some r) :
    p = 0x2000 ∧ r = .created 0x500000 0x4000 (range 0x4000 4) := by
  change Function.update (fun _ => none) 0x2000 _ p = some r at hr
  rcases update_eq_some hr with ⟨rfl, e⟩ | ⟨-, e⟩
  · exact ⟨rfl, (Option.some.inj e).symm⟩
  · cases e

theorem started_run : Run started := by
  refine .step (.start kernelCpu 0x1000) (.create ⟨?_, ?_⟩ ⟨?_, ?_, ?_⟩)
  · decide
  · decide
  · decide
  · decide
  · exact le_refl _

theorem started_canSwitch : CanSwitch started (range 0x9000 16) where
  old := by decide
  struct := by decide
  top := by decide
  args := le_refl _
  own := disjoint_range (by decide)
  others := by
    intro p r hr
    obtain ⟨rfl, rfl⟩ := started_suspended hr
    exact Set.disjoint_union_right.mpr ⟨disjoint_range (by decide), disjoint_range (by decide)⟩

/-- Only the kernel is suspended then. -/
theorem exiting_suspended {p : Addr} {r : Saved} (hr : exiting.suspended p = some r) :
    p = 0x1000 ∧ r = .called kernelCpu (range 0x9000 16) := by
  rcases update_eq_some hr with ⟨-, e⟩ | ⟨hp, hr⟩
  · cases e
  rcases update_eq_some hr with ⟨rfl, e⟩ | ⟨-, hr⟩
  · exact ⟨rfl, (Option.some.inj e).symm⟩
  exact absurd (by decide) ((started_suspended hr).1 ▸ hp)

theorem exiting_run : Run exiting := by
  refine (started_run.step (.switch started_canSwitch)).step (.runs fun p r hr => ?_)
  obtain ⟨rfl, rfl⟩ := exiting_suspended hr
  refine (callArgs_changes (by decide)).mono fun i hi hi' => ?_
  rcases hi' with hi' | hi'
  · exact Set.disjoint_left.mp (disjoint_range (by decide)) hi hi'
  · exact Set.disjoint_left.mp (disjoint_range (by decide)) hi hi'

theorem exiting_canSwitch : CanSwitch exiting (range 0x3000 16) where
  old := by decide
  struct := by decide
  top := by decide
  args := le_refl _
  own := disjoint_range (by decide)
  others := by
    intro p r hr
    obtain ⟨rfl, rfl⟩ := exiting_suspended hr
    exact Set.disjoint_union_right.mpr ⟨disjoint_range (by decide), disjoint_range (by decide)⟩

theorem exiting_args : arg exiting.cpu 2 = 0x1000 ∧ arg exiting.cpu 3 = 42 := by decide

/-- The kernel goes on after its call, which returns the exit code of the process. -/
theorem exiting_resumes : Resumed 42 (exiting.switch (range 0x3000 16)).cpu (.called kernelCpu (range 0x9000 16)) :=
  exiting_args.2 ▸ switch_resumes exiting_run exiting_canSwitch (exiting_args.1 ▸ rfl)

end AlexOS.Contexts
