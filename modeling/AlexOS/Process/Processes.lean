import AlexOS.Lib.Allocator
import AlexOS.Lib.LinkedList

/-!
# Processes

`process.c`: a list of processes, after an entry for the kernel, in memory from
`malloc`. A node holds `next`, `ctx` and `pid`, each four bytes, in this order.
`malloc` leaves in a node what was in its memory, so that the `next` of the
last node is whatever that was.

A loop along the list runs for at most `walkFuel` rounds, more than a list has
nodes. There is no result if a loop does not end, or if `malloc` returns the
null pointer that is then written to.
-/

namespace AlexOS.Processes

/-- `sizeof(struct process_context)` and `sizeof(struct process_list)`. -/
def sizeofProcessContext : Word := 24
def sizeofProcessList : Word := 12

/-- A list of distinct nonzero addresses is shorter. -/
def walkFuel : Nat := 2 ^ 32

/-- The fields of a node. -/
def next (m : Mem) (p : Addr) : Addr := m.load32 p
def ctx (m : Mem) (p : Addr) : Addr := m.load32 (p + 4)
def pid (m : Mem) (p : Addr) : Word := m.load32 (p + 8)

structure State (σ : Type) where
  alloc : σ
  mem : Mem
  kernelCtx : Addr
  processes : Addr

section

variable {σ : Type} (A : Allocator σ)

def calloc (alloc : σ) (m : Mem) (size nmenb : Word) : Option (Addr × σ × Mem) := do
  let (ptr, alloc, m) ← A.malloc alloc m (size * nmenb)
  if ptr = 0 then none else some (ptr, alloc, m.memset ptr 0 (size * nmenb).toNat)

def initProcessManagement (alloc : σ) (m : Mem) : Option (State σ) := do
  let (kernelCtx, alloc, m) ← A.malloc alloc m sizeofProcessContext
  let (processes, alloc, m) ← calloc A alloc m sizeofProcessList 1
  let m := m.store32 (processes + 4) kernelCtx
  let m := m.store32 processes 0
  some ⟨alloc, m, kernelCtx, processes⟩

/-- The loop of `add_process`. -/
def lastAndPid (m : Mem) : Nat → Addr → Word → Option (Addr × Word)
  | 0, _, _ => none
  | n + 1, tmp, id =>
    if next m tmp ≠ 0 then lastAndPid m n (next m tmp) (if id = pid m (next m tmp) then id + 1 else id)
    else some (tmp, id)

def addProcess (s : State σ) (context : Addr) : Option (Word × State σ) := do
  let (tmp, id) ← lastAndPid s.mem walkFuel s.processes 1
  let (node, alloc, m) ← A.malloc s.alloc s.mem sizeofProcessList
  if node = 0 then none else
  let m := m.store32 tmp node
  let m := m.store32 (next m tmp + 4) context
  let m := m.store32 (next m tmp + 8) id
  some (id, { s with alloc := alloc, mem := m })

def removeProcess (s : State σ) (id : Word) : Option (State σ) := do
  let tmp ← walk (next s.mem) (fun tmp => !(next s.mem tmp ≠ 0 && pid s.mem (next s.mem tmp) < id)) walkFuel
    s.processes
  let process := next s.mem tmp
  if process = 0 then some s else
  let m := s.mem.store32 tmp (next s.mem process)
  let (alloc, m) := A.free s.alloc m (ctx m process)
  let (alloc, m) := A.free alloc m process
  some { s with alloc := alloc, mem := m }

def getCtx (s : State σ) (id : Word) : Option Addr := do
  let tmp ← walk (next s.mem) (fun tmp => !(tmp ≠ 0 && pid s.mem tmp < id)) walkFuel s.processes
  if tmp = 0 then some 0 else some (ctx s.mem tmp)

/-- What `malloc` leaves in the `next` of the node that `add_process` gets. -/
def freshNext (s : State σ) : Option Addr :=
  (A.malloc s.alloc s.mem sizeofProcessList).map fun r => next r.2.2 r.1

end

/-- `calloc` returns a block that is cleared. -/
theorem calloc_ok {σ : Type} {A : Allocator σ} {Owns : σ → Mem → List Block → Prop}
    {alloc alloc' : σ} {m m' : Mem} {live : List Block} {size nmenb : Word} {p : Addr} (L : A.Lawful Owns)
    (h : Owns alloc m live) (hn : size * nmenb ≤ 0x7FFFFFFF)
    (hc : calloc A alloc m size nmenb = some (p, alloc', m')) :
    p ≠ 0 ∧ Owns alloc' m' (⟨p, (size * nmenb).toNat⟩ :: live) ∧ Block.Keeps live m m' ∧
      ∀ x : Addr, x.toNat ∈ Mem.range p (size * nmenb).toNat → m' x = 0 := by
  obtain ⟨⟨q, alloc₁, m₁⟩, hmalloc, hc⟩ := Option.bind_eq_some_iff.mp hc
  simp only at hc
  split at hc
  · cases hc
  rename_i hp
  cases hc
  obtain ⟨hown, hkeep⟩ := L.malloc h hn hmalloc
  rw [if_neg hp] at hown
  have hw : p.toNat + (size * nmenb).toNat ≤ 2 ^ 32 := L.fits hown _ List.mem_cons_self
  have hch : Mem.Changes (Block.addresses ⟨p, (size * nmenb).toNat⟩) m₁ (m₁.memset p 0 (size * nmenb).toNat) :=
    Mem.memset_changes hw
  have hd := (List.pairwise_cons.mp (L.disjoint hown)).1
  refine ⟨hp, L.write hown (hch.mono (Block.subset_footprint List.mem_cons_self)),
    hkeep.trans (Block.keeps_of_changes hch subset_rfl hd), fun x hx => ?_⟩
  rw [Mem.mem_range] at hx
  exact Mem.memset_byte hw hx.1 hx.2

end AlexOS.Processes
