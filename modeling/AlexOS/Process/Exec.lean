import AlexOS.Heap.Allocator
import AlexOS.Process.Steps
import AlexOS.Process.Switch

/-!
# `exec`

From the return of `load_elf_file` to the first push of the new process. The
stack that `exec` gets from `calloc` grows down from its first byte: the entry
point, and then what the process pushes, are written to the header of the block
(`exec_damages`, `push_header`).
-/

namespace AlexOS.Processes

open Malloc (Heap PageSource Live heapAllocator)
open I386

/-- `sizeof(struct process_context*)`. -/
def sizeofPointer : Word := 4

/-- What `exec` has set up when it calls `context_switch`. -/
structure Started (σ : Type) where
  /-- As `calloc` leaves it, and with the stack. -/
  allocated : State σ
  state : State σ
  newCtx : Addr
  node : Addr
  stackTop : Addr
  pid : Word
  /-- The words that were written, but for those that `malloc` and `calloc` write. -/
  written : List Addr

def startProcess {σ : Type} (A : Allocator σ) (s : State σ) (entryPoint : Addr) : Option (Started σ) := do
  let (newCtx, alloc, m) ← calloc A s.alloc s.mem sizeofPointer 1
  let s := { s with alloc := alloc, mem := m }
  let (tmp, _) ← lastAndPid s.mem walkFuel s.processes 1
  let (pid, s) ← addProcess A s newCtx
  let node := next s.mem tmp
  let (stackTop, alloc, m) ← calloc A s.alloc s.mem 1 4096
  let s := { s with alloc := alloc, mem := m }
  some {
    allocated := s
    state := { s with mem := Contexts.startStack m newCtx stackTop entryPoint }
    newCtx := newCtx
    node := node
    stackTop := stackTop
    pid := pid
    written := [tmp, node + 4, node + 8, stackTop - 4, newCtx] }

/-- The words that code writes. -/
def writtenBy : List Instr → Cpu → List Addr
  | [], _ => []
  | .store base disp src :: code, c => (c.regs base + disp) :: writtenBy code ((Instr.store base disp src).exec c)
  | i :: code, c => writtenBy code (i.exec c)

/-- What is written up to the first push of the process, if `context_switch` is called with `c`. -/
def Started.writes {σ : Type} (r : Started σ) (c : Cpu) : List Addr :=
  r.written ++ writtenBy Contexts.contextSwitch c ++ [(run Contexts.contextSwitch c).regs .esp - 4]

/-- A word in the payload of a block. -/
def InPayload (m : Mem) (live : List Live) (a : Addr) : Prop :=
  ∃ l ∈ live, l.ptr.toNat ≤ a.toNat ∧ a.toNat + 4 ≤ l.payloadEnd m

/-- `live` is what has been handed out, with the blocks `before` and those of `exec`. -/
structure HandedOut (r : Started Heap) (before : List Block) (live : List Live) : Prop where
  inv : ∃ pages frees, Malloc.Inv { r.allocated.alloc with mem := r.allocated.mem } pages frees live
  blocks : (⟨r.stackTop, 4096⟩ :: ⟨r.node, 12⟩ :: ⟨r.newCtx, 4⟩ :: before).Perm (live.map Live.block)

/-- All that is written is in the payload of a block. -/
def Undamaged (r : Started Heap) (before : List Block) (c : Cpu) : Prop :=
  ∀ live, HandedOut r before live → ∀ a ∈ r.writes c, InPayload r.allocated.mem live a

section

variable {src : PageSource} {m₀ : Mem} {s : State Heap} {k entryPoint : Addr} {ns : List Addr} {ps : List Process}
  {others : List Block} {r : Started Heap} {c : Cpu}

/-- The blocks that are handed out before. -/
def blocksOf (k : Addr) (ns : List Addr) (ps : List Process) (others : List Block) : List Block :=
  (k :: ns).map node ++ (ps.map Process.ctx ++ others)

theorem blocksOf_cons (b : Block) : (b :: blocksOf k ns ps others).Perm (blocksOf k ns ps (b :: others)) := by
  refine List.perm_middle.symm.trans (List.Perm.append_left _ ?_)
  exact List.perm_middle.symm

/-- The blocks that `exec` gets, and the word before the last of them. -/
theorem startProcess_handedOut (I : Inv (Malloc.Owns [] m₀) s k ns ps others)
    (h : startProcess (heapAllocator src) s entryPoint = some r) :
    r.stackTop - 4 ∈ r.written ∧ ∃ live, HandedOut r (blocksOf k ns ps others) live := by
  have L := Malloc.heap_lawful src [] m₀
  obtain ⟨⟨newCtx, alloc, m⟩, hctx, h⟩ := Option.bind_eq_some_iff.mp h
  obtain ⟨⟨tmp, _⟩, htmp, h⟩ := Option.bind_eq_some_iff.mp h
  obtain ⟨⟨pid, s'⟩, hadd, h⟩ := Option.bind_eq_some_iff.mp h
  obtain ⟨⟨stackTop, alloc', m'⟩, hstack, h⟩ := Option.bind_eq_some_iff.mp h
  obtain rfl := Option.some.inj h
  refine ⟨by simp, ?_⟩
  -- the context
  obtain ⟨-, howns, hkeep, -⟩ := calloc_ok L I.owns (by decide) hctx
  have I₁ : Inv (Malloc.Owns [] m₀) { s with alloc := alloc, mem := m } k ns ps (⟨newCtx, 4⟩ :: others) :=
    I.keep L (L.perm howns (blocksOf_cons _)) hkeep
  -- the node
  have hk : s.processes = k := I.chain.1
  have hchain : Chain (next m) 0 k (k :: ns) := hk ▸ I₁.chain
  have hlast : lastAndPid m walkFuel k 1 = some (ns.getLastD k, nextId 1 (ns.map (Processes.pid m))) :=
    lastAndPid_ok hchain (Nat.lt_of_succ_lt I₁.length_lt)
  simp only [hk, hlast, Option.some.injEq, Prod.mk.injEq] at htmp
  obtain ⟨rfl, -⟩ := htmp
  obtain ⟨p, hp, howns'⟩ := I₁.add_owns L hadd
  -- the stack
  obtain ⟨-, howns'', -, -⟩ := calloc_ok L howns' (by decide) hstack
  obtain ⟨pages, frees, live, J, -, hperm⟩ := howns''
  refine ⟨live, ⟨pages, frees, J⟩, List.Perm.trans ?_ hperm⟩
  refine .cons _ ?_
  rw [hp]
  exact .cons _ (blocksOf_cons _)

/-- The word before a block is in the payload of none. -/
theorem not_inPayload {h : Heap} {pages frees : List Addr} {live : List Live} {l : Live}
    (I : Malloc.Inv h pages frees live) (hl : l ∈ live) : ¬ InPayload h.mem live (l.ptr - 4) := by
  rintro ⟨l', hl', h1, h2⟩
  have hp := I.ptr_eq hl; have hp' := I.ptr_eq hl'
  have e : (l.ptr - 4).toNat = l.ptr.toNat - 4 := by
    rw [BitVec.toNat_sub, show (4 : Word).toNat = 4 from rfl]
    omega
  by_cases hne : l = l'
  · subst hne
    omega
  · have hd := I.live_apart hl hl' hne
    simp only [Live.payloadEnd] at h2 hd
    omega

/-- A write to the word before the stack. -/
theorem HandedOut.damaged {before : List Block} {live : List Live} (H : HandedOut r before live)
    (hw : r.stackTop - 4 ∈ r.written) (c : Cpu) : ¬ Undamaged r before c := by
  intro U
  obtain ⟨pages, frees, J⟩ := H.inv
  obtain ⟨l, hl, e⟩ := List.mem_map.mp (H.blocks.mem_iff.mp List.mem_cons_self)
  have hptr : l.ptr = r.stackTop := congrArg Block.ptr e
  refine not_inPayload J hl ?_
  rw [hptr]
  exact U live H _ (List.mem_append_left _ (List.mem_append_left _ hw))

/-- In every heap, and for every entry point, `exec` writes to the header of the stack. -/
theorem exec_damages (I : Inv (Malloc.Owns [] m₀) s k ns ps others)
    (h : startProcess (heapAllocator src) s entryPoint = some r) (c : Cpu) :
    ¬ Undamaged r (blocksOf k ns ps others) c := by
  obtain ⟨hw, live, H⟩ := startProcess_handedOut I h
  exact H.damaged hw c

/-- The process starts with its stack at the block, and its first push is to the header once more. -/
theorem push_header (h : startProcess (heapAllocator src) s entryPoint = some r) (hnew : Contexts.arg c 2 = r.newCtx)
    (hmem : c.mem.load32 r.newCtx = r.state.mem.load32 r.newCtx) (hw : (Contexts.arg c 1).toNat + 24 ≤ 2 ^ 32)
    (hs : (c.regs .esp).toNat + 16 ≤ 2 ^ 32)
    (hd : Disjoint (Mem.range (c.regs .esp) 16) (Contexts.structAt (Contexts.arg c 1)))
    (hw' : r.newCtx.toNat + 4 ≤ 2 ^ 32)
    (hd' : Disjoint (Mem.range r.newCtx 4) (Contexts.structAt (Contexts.arg c 1))) :
    (run Contexts.contextSwitch c).regs .esp - 4 = r.stackTop - 4 := by
  obtain ⟨hm, -, hesp⟩ := Contexts.run_saveOld hw hs hd
  have hsave := Contexts.save_changes c hw
  have hstart : c.mem.load32 r.newCtx = r.stackTop - 4 := by
    obtain ⟨⟨newCtx, alloc, m⟩, hctx, h⟩ := Option.bind_eq_some_iff.mp h
    obtain ⟨⟨tmp, _⟩, htmp, h⟩ := Option.bind_eq_some_iff.mp h
    obtain ⟨⟨pid, s'⟩, hadd, h⟩ := Option.bind_eq_some_iff.mp h
    obtain ⟨⟨stackTop, alloc', m'⟩, hstack, h⟩ := Option.bind_eq_some_iff.mp h
    obtain rfl := Option.some.inj h
    exact hmem.trans (Mem.load32_store32_self _ _ _)
  have harg : (run Contexts.saveOld c).mem.load32 ((run Contexts.saveOld c).regs .esp + 8) = r.newCtx := by
    rw [hm, hesp, ← hnew]
    exact Contexts.load_outside (k := 8) hsave hs hd (by decide)
  have hload : (run Contexts.saveOld c).mem.load32 r.newCtx = r.stackTop - 4 := by
    rw [hm, ← hstart]
    exact hsave.load32 hw' fun i hi => Set.disjoint_left.mp hd' (by rw [Mem.mem_range]; omega)
  obtain ⟨-, -, hesp', -⟩ := Contexts.run_restoreNew harg
  rw [Contexts.contextSwitch, run_append, hesp', hload, add_sub_cancel_right]

end

/-- The kernel has been started. -/
def kernelState : State Heap :=
  (initProcessManagement (heapAllocator Malloc.zeroPages) ⟨fun _ => 0, 0, 0, 0⟩ fun _ => 0).getD
    ⟨⟨fun _ => 0, 0, 0, 0⟩, fun _ => 0, 0, 0⟩

theorem inv_kernelState : Inv (Malloc.Owns [] fun _ => 0) kernelState kernelState.processes [] []
    [⟨kernelState.kernelCtx, 24⟩] := by
  have hsome :
      (initProcessManagement (heapAllocator Malloc.zeroPages) ⟨fun _ => 0, 0, 0, 0⟩ fun _ => 0).isSome := by
    decide
  obtain ⟨s, hs⟩ := Option.isSome_iff_exists.mp hsome
  have I := init_ok (Malloc.heap_lawful Malloc.zeroPages [] fun _ => 0) (.empty _) hs
  have e : kernelState = s := by rw [kernelState, hs, Option.getD_some]
  rwa [← e, if_neg (by decide)] at I

theorem exec_damages_kernelState :
    ∃ r, startProcess (heapAllocator Malloc.zeroPages) kernelState 0x500000 = some r ∧
    ¬ Undamaged r (blocksOf kernelState.processes [] [] [⟨kernelState.kernelCtx, 24⟩]) Contexts.kernelCpu := by
  have hsome : (startProcess (heapAllocator Malloc.zeroPages) kernelState 0x500000).isSome := by decide
  obtain ⟨r, hr⟩ := Option.isSome_iff_exists.mp hsome
  exact ⟨r, hr, exec_damages inv_kernelState hr Contexts.kernelCpu⟩

theorem not_undamaged : ¬ ∀ (src : PageSource) (m₀ : Mem) (s : State Heap) (k entryPoint : Addr) (ns : List Addr)
    (ps : List Process) (others : List Block) (r : Started Heap)
    (c : Cpu), Inv (Malloc.Owns [] m₀) s k ns ps others →
      startProcess (heapAllocator src) s entryPoint = some r → Undamaged r (blocksOf k ns ps others) c := by
  intro hall
  have hsome : (startProcess (heapAllocator Malloc.zeroPages) kernelState 0x500000).isSome := by decide
  obtain ⟨r, hr⟩ := Option.isSome_iff_exists.mp hsome
  obtain ⟨hw, live, H⟩ := startProcess_handedOut inv_kernelState hr
  exact H.damaged hw Contexts.kernelCpu (hall _ _ _ _ _ _ _ _ r _ inv_kernelState hr)

end AlexOS.Processes
