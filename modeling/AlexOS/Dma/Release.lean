import AlexOS.Dma.Buffers

/-!
# Releasing DMA buffers

`dma_free` looks for the block of a buffer in one page after the other, and
goes on after it has found it: at the end there is no page. So it either
changes nothing or dereferences the null pointer (`dmaFree_eq`), and in a state
with a live buffer that buffer cannot be released (`releasable_iff_nil`). All
live buffers can be released, in all the states of a run, only if the run
allocates none (`releasable_iff`).
-/

namespace AlexOS.Dma

open Virtual

section

variable {σ : Type} (C : Calls σ)

/-- A block that is not free, reachable from `first_page`, has the buffer. -/
def Used (s : State σ) (ptr : Addr) : Prop :=
  ∃ pages, Chain (fun a => (s.pages a).next) 0 s.firstPage pages ∧ ∃ a ∈ pages,
    ∃ blks, Chain (fun b => (s.blks b).prev) 0 (s.pages a).lastBlk blks ∧ ∃ b ∈ blks,
      (s.blks b).blk = ptr ∧ (s.blks b).free = 0

/-- `dma_free` returns for a buffer. Its block is not in use then, and the other live buffers are. -/
def Released (s : State σ) (live : List Addr) (ptr : Addr) : Prop :=
  ∃ s', dmaFree C s ptr = some s' ∧ ¬ Used s' ptr ∧ ∀ q ∈ live, q ≠ ptr → Used s' q

/-- Every live buffer's block is reachable, and can be released. -/
def Releasable (s : State σ) (live : List Addr) : Prop := ∀ ptr ∈ live, Used s ptr ∧ Released C s live ptr

inductive Call
  | alloc (size alignment : Word)
  | free (ptr : Addr)

/-- The state and the live buffers after a call. Only live buffers are freed. -/
def Call.exec (s : State σ) (live : List Addr) : Call → Option (State σ × List Addr)
  | .alloc size alignment => do
    let (ptr, s) ← dmaAlloc C s size alignment
    some (s, if ptr = 0 then live else ptr :: live)
  | .free ptr => if ptr ∈ live then (dmaFree C s ptr).map fun s => (s, live.erase ptr) else none

/-- The state after a list of calls, with the live buffers. -/
def execs (s : State σ) (live : List Addr) : List Call → Option (State σ × List Addr)
  | [] => some (s, live)
  | call :: calls => (call.exec C s live).bind fun r => execs r.1 r.2 calls

/-- In every state that a run comes to, the live buffers can be released. -/
def AlwaysReleasable (s₀ : State σ) (calls : List Call) : Prop :=
  ∀ pre, pre <+: calls → ∀ s live, execs C s₀ [] pre = some (s, live) → Releasable C s live

/-- No call of `dma_alloc` of a run returns a buffer. -/
def NoBuffer (s₀ : State σ) (calls : List Call) : Prop :=
  ∀ pre size alignment, pre ++ [.alloc size alignment] <+: calls → ∀ s live ptr s',
    execs C s₀ [] pre = some (s, live) → dmaAlloc C s size alignment = some (ptr, s') → ptr = 0

section

variable {C} {s s' s₀ : State σ} {live live' : List Addr} {ptr page blk size alignment : Addr} {n : Nat}
  {r : Addr × Addr} {calls : List Call}

/-- At the end of the search there is no page. -/
theorem searchPtr_page (h : searchPtr s ptr n page blk = some r) : r.1 = 0 := by
  induction n generalizing page blk with
  | zero => cases h
  | succ n ih =>
    rw [searchPtr] at h
    split at h
    · rename_i hp
      cases h
      exact hp
    · obtain ⟨b, -, h⟩ := Option.bind_eq_some_iff.mp h
      exact ih h

/-- If `dma_free` returns, it has not done anything. -/
theorem dmaFree_eq (h : dmaFree C s ptr = some s') : s' = s := by
  obtain ⟨⟨page, blk⟩, hr, h⟩ := Option.bind_eq_some_iff.mp h
  have hp : page = 0 := searchPtr_page hr
  dsimp only at h
  split at h
  · exact (Option.some.inj h).symm
  · cases h

theorem not_released (hu : Used s ptr) : ¬ Released C s live ptr := by
  rintro ⟨s', h, hn, -⟩
  rw [dmaFree_eq h] at hn
  exact hn hu

theorem releasable_iff_nil : Releasable C s live ↔ live = [] := by
  refine ⟨fun h => List.eq_nil_iff_forall_not_mem.mpr fun ptr hp => ?_, fun h ptr hp => ?_⟩
  · obtain ⟨hu, hr⟩ := h ptr hp
    exact not_released hu hr
  · rw [h] at hp
    cases hp

theorem execs_append {pre post : List Call} :
    execs C s live (pre ++ post) = (execs C s live pre).bind fun r => execs C r.1 r.2 post := by
  induction pre generalizing s live with
  | nil => rfl
  | cons call pre ih =>
    rw [List.cons_append, execs, execs, Option.bind_assoc]
    exact Option.bind_congr fun r _ => ih

theorem execs_alloc (pre : List Call) (h : execs C s₀ [] pre = some (s, live))
    (ha : dmaAlloc C s size alignment = some (ptr, s')) :
    execs C s₀ [] (pre ++ [.alloc size alignment]) = some (s', if ptr = 0 then live else ptr :: live) := by
  rw [execs_append, h]
  simp only [Option.bind_some, execs, Call.exec, ha, bind]

/-- As long as no call returns a buffer, none is live. -/
theorem NoBuffer.live_eq (H : NoBuffer C s₀ calls) {pre : List Call} (hp : pre <+: calls)
    (h : execs C s₀ [] pre = some (s, live)) : live = [] := by
  induction pre using List.reverseRecOn generalizing s live with
  | nil =>
    cases h
    rfl
  | append_singleton pre call ih =>
    rw [execs_append] at h
    obtain ⟨⟨s₁, live₁⟩, h₁, h⟩ := Option.bind_eq_some_iff.mp h
    have hl : live₁ = [] := ih ((List.prefix_append _ _).trans hp) h₁
    obtain ⟨⟨s₂, live₂⟩, h₂, h⟩ := Option.bind_eq_some_iff.mp h
    cases h
    cases call with
    | alloc size alignment =>
      obtain ⟨⟨ptr, s₂⟩, ha, h₂⟩ := Option.bind_eq_some_iff.mp h₂
      cases h₂
      rw [if_pos (H pre size alignment hp s₁ live₁ ptr s₂ h₁ ha), hl]
    | free ptr =>
      rw [Call.exec, hl, if_neg (List.not_mem_nil)] at h₂
      cases h₂

/-- Live buffers can be released in all states of a run only if there are none. -/
theorem releasable_iff (s₀ : State σ) (calls : List Call) :
    AlwaysReleasable C s₀ calls ↔ NoBuffer C s₀ calls := by
  constructor
  · intro H pre size alignment hp s live ptr s' h ha
    have hl := releasable_iff_nil.mp (H _ hp _ _ (execs_alloc pre h ha))
    by_contra h0
    rw [if_neg h0] at hl
    cases hl
  · intro H pre hp s live h
    exact releasable_iff_nil.mpr (H.live_eq hp h)

/-- The first buffer cannot be released. -/
theorem not_always_releasable : ¬ ∀ (σ : Type) (C : Calls σ) (heap : σ → Set Addr) (s₀ : State σ)
    (calls : List Call),
    C.Lawful heap → Guarded s₀.paging → s₀.firstPage = 0 → AlwaysReleasable C s₀ calls := by
  intro H
  have e := dmaAlloc_some (s := someState) (r := twoPages) (by decide)
  have h0 : (someAlloc someState twoPages).1 ≠ 0 := by decide
  generalize someAlloc someState twoPages = r at e h0
  obtain ⟨ptr, s⟩ := r
  have h := H Nat someCalls _ someState [.alloc twoPages.size twoPages.alignment] lawful_someCalls guarded_somePaging
    rfl _ (List.prefix_refl _) _ _ (execs_alloc [] rfl e)
  rw [releasable_iff_nil, if_neg h0] at h
  cases h

/-- Its release dereferences the null pointer. -/
example : (dmaFree someCalls (someAlloc someState twoPages).2 (someAlloc someState twoPages).1).isNone := by decide

end

end

end AlexOS.Dma
