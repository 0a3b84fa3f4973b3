import AlexOS.Process.Steps

/-!
# Process ids

Runs of calls of `add_process` and `remove_process`, and of whatever else uses
the allocator (`Run`), under `Rules` for what may be added and removed.
`add_process` looks for an id in one pass over the list, so that it finds the
smallest one that is free only if those below it are in order (`InOrder`). If
not, it finds one that is in use (`nextId_iff`). While it is so at every
`add_process`, ids are unique, and from there the next one is unique exactly if
it is so (`ids_unique_iff`).
-/

namespace AlexOS.Processes

open Mem Block

/-- `c`, ..., `c + k - 1`. -/
def idsFrom (c k : Nat) : List Word := (List.range' c k).map (BitVec.ofNat 32)

/-- The ids below the smallest that is not in the list are there in increasing order: `1`, ..., `k` are
if they all are in the list. -/
def InOrder (ids : List Word) : Prop := ∀ k, idsFrom 1 k ⊆ ids → (idsFrom 1 k).Sublist ids

/-- What may be added and removed in a run. -/
structure Rules (σ : Type) where
  add : State σ → List Process → Prop
  remove : List Process → Word → List Process → Prop

section

variable {σ : Type} {A : Allocator σ} {Owns : σ → Mem → List Block → Prop} {R : Rules σ} {s s' : State σ}
  {k : Addr} {ns : List Addr} {ps ps' : List Process} {others others' : List Block} {ids : List Word}
  {id : Word} {b : Block}

/-- Runs from `init_process_management`, to a state with the processes `ps`. The blocks `others` are handed
out to the rest of the kernel, which also writes to the contexts of processes. -/
inductive Run (A : Allocator σ) (Owns : σ → Mem → List Block → Prop) (R : Rules σ) :
    State σ → List Process → List Block → Prop
  | init {alloc : σ} {m : Mem} {live : List Block} {s : State σ} (h : Owns alloc m live)
      (hs : initProcessManagement A alloc m = some s) :
      Run A Owns R s [] (if s.kernelCtx = 0 then live else ⟨s.kernelCtx, 24⟩ :: live)
  | add {s s' : State σ} {ps : List Process} {others others' : List Block} {b : Block} {id : Word}
      (r : Run A Owns R s ps others) (hb : others.Perm (b :: others')) (hR : R.add s ps)
      (h : addProcess A s b.ptr = some (id, s')) : Run A Owns R s' (ps ++ [⟨id, b⟩]) others'
  | remove {s s' : State σ} {ps ps' : List Process} {others : List Block} {id : Word}
      (r : Run A Owns R s ps others) (hR : R.remove ps id ps') (h : removeProcess A s id = some s') :
      Run A Owns R s' ps' others
  | malloc {s : State σ} {ps : List Process} {others : List Block} {n : Word} {p : Addr} {alloc : σ} {m : Mem}
      (r : Run A Owns R s ps others) (hn : n ≤ 0x7FFFFFFF) (h : A.malloc s.alloc s.mem n = some (p, alloc, m)) :
      Run A Owns R { s with alloc := alloc, mem := m } ps (if p = 0 then others else ⟨p, n.toNat⟩ :: others)
  | free {s : State σ} {ps : List Process} {others others' : List Block} {b : Block}
      (r : Run A Owns R s ps others) (hb : others.Perm (b :: others')) :
      Run A Owns R { s with
        alloc := (A.free s.alloc s.mem b.ptr).1
        mem := (A.free s.alloc s.mem b.ptr).2 } ps others'
  | write {s : State σ} {ps : List Process} {others : List Block} {m : Mem} (r : Run A Owns R s ps others)
      (h : Changes (footprint (ps.map Process.ctx ++ others)) s.mem m) : Run A Owns R { s with mem := m } ps others

/-- The ids of the processes are different from each other and from the kernel's. -/
def UniqueIds (s : State σ) : Prop := ∃ c es, Holds s ((0, c) :: es) ∧ (0 :: es.map Prod.fst).Nodup

/-! ## The id that is found -/

theorem idsFrom_succ (c k : Nat) : idsFrom c (k + 1) = BitVec.ofNat 32 c :: idsFrom (c + 1) k := by
  rw [idsFrom, List.range'_succ, List.map_cons]
  rfl

/-- The pass finds the longest run of ids that are in order. -/
theorem nextId_eq (c : Nat) (ids : List Word) : ∃ k ≤ ids.length, nextId (BitVec.ofNat 32 c) ids =
    BitVec.ofNat 32 (c + k) ∧ (idsFrom c k).Sublist ids ∧ ∀ j, (idsFrom c j).Sublist ids → j ≤ k := by
  induction ids generalizing c with
  | nil =>
    refine ⟨0, le_rfl, rfl, List.Sublist.slnil, fun j hj => ?_⟩
    have := hj.length_le
    rwa [idsFrom, List.length_map, List.length_range', List.length_nil] at this
  | cons x ids ih =>
    rw [nextId, List.foldl_cons]
    by_cases hx : BitVec.ofNat 32 c = x
    · obtain ⟨k, hk, hid, hsub, hmax⟩ := ih (c + 1)
      rw [if_pos hx]
      refine ⟨k + 1, Nat.succ_le_succ hk, ?_, ?_, fun j hj => ?_⟩
      · rw [show BitVec.ofNat 32 c + 1 = BitVec.ofNat 32 (c + 1) from (BitVec.ofNat_add ..).symm]
        exact hid.trans (congrArg _ (by omega))
      · rw [idsFrom_succ, hx]
        exact hsub.cons_cons x
      · cases j with
        | zero => exact Nat.zero_le _
        | succ j =>
          rw [idsFrom_succ, hx] at hj
          exact Nat.succ_le_succ (hmax j (List.cons_sublist_cons.mp hj))
    · obtain ⟨k, hk, hid, hsub, hmax⟩ := ih c
      rw [if_neg hx]
      refine ⟨k, Nat.le_succ_of_le hk, hid, hsub.cons x, fun j hj => ?_⟩
      cases j with
      | zero => exact Nat.zero_le _
      | succ j =>
        apply hmax _
        rw [idsFrom_succ] at hj ⊢
        cases hj with
        | cons _ h => exact h
        | cons_cons _ h => exact absurd rfl hx

/-- The pass finds an id that is not in use exactly if those below the smallest free one are in order. -/
theorem nextId_iff (hlen : ids.length + 1 < 2 ^ 32) :
    (nextId 1 ids ∉ ids ↔ InOrder ids) ∧ nextId 1 ids ≠ 0 := by
  obtain ⟨k, hk, hid, hsub, hmax⟩ := nextId_eq 1 ids
  rw [show (1 : Word) = BitVec.ofNat 32 1 from rfl, hid]
  have hlast : idsFrom 1 (k + 1) = idsFrom 1 k ++ [BitVec.ofNat 32 (1 + k)] := by
    rw [idsFrom, List.range'_concat, List.map_append, Nat.one_mul]
    rfl
  refine ⟨⟨fun hfree j hj => ?_, fun H hused => ?_⟩, fun h0 => ?_⟩
  · have hle : j ≤ k := by
      by_contra hlt
      refine hfree (hj ?_)
      rw [idsFrom, List.mem_map]
      exact ⟨1 + k, List.mem_range'_1.mpr (by omega), rfl⟩
    have hpre : (idsFrom 1 j).Sublist (idsFrom 1 k) := by
      apply List.Sublist.map _
      rw [← Nat.add_sub_cancel' hle, ← List.range'_append_1]
      exact List.sublist_append_left _ _
    exact hpre.trans hsub
  · have hall : idsFrom 1 (k + 1) ⊆ ids := by
      rw [hlast]
      exact List.append_subset.mpr ⟨hsub.subset, fun x hx => List.mem_singleton.mp hx ▸ hused⟩
    exact absurd (hmax (k + 1) (H (k + 1) hall)) (by omega)
  · have := congrArg BitVec.toNat h0
    rw [BitVec.toNat_ofNat, Nat.mod_eq_of_lt (by omega)] at this
    exact absurd this (by simp)

/-! ## Runs -/

theorem Inv.uniqueIds_iff (I : Inv Owns s k ns ps others) :
    UniqueIds s ↔ (0 :: ps.map Process.pid).Nodup := by
  have hfst : (ps.map Process.entry).map Prod.fst = ps.map Process.pid := List.map_map ..
  refine ⟨fun ⟨c, es, h, hu⟩ => ?_, fun h => ⟨s.kernelCtx, _, I.holds, hfst ▸ h⟩⟩
  obtain ⟨-, rfl⟩ := List.cons_eq_cons.mp (h.unique I.holds)
  rwa [hfst] at hu

/-- The new id is unique exactly if those below the smallest free one are in order. -/
theorem Inv.nextId_unique (I : Inv Owns s k ns ps others) (hu : (0 :: ps.map Process.pid).Nodup) :
    (0 :: (ps.map Process.pid ++ [nextId 1 (ps.map Process.pid)])).Nodup ↔ InOrder (ps.map Process.pid) := by
  have hlen : (ps.map Process.pid).length + 1 < 2 ^ 32 := by
    have h := I.length_lt
    have he := congrArg List.length I.entries
    rw [List.length_map, List.length_map] at he
    rwa [List.length_map, ← he]
  obtain ⟨hiff, hne⟩ := nextId_iff hlen
  rw [← hiff]
  refine ⟨fun h hm => ?_, fun h => ?_⟩
  · exact (List.nodup_append.mp (List.nodup_cons.mp h).2).2.2 _ hm _ (List.mem_singleton_self _) rfl
  · rw [← List.cons_append]
    refine List.nodup_append.mpr ⟨hu, List.nodup_singleton _, fun x hx y hy => ?_⟩
    rw [List.mem_singleton.mp hy]
    rcases List.mem_cons.mp hx with rfl | hx
    · exact hne.symm
    · exact fun e => h (e ▸ hx)

theorem removeFirst_sublist (ps : List Process) (id : Word) : (removeFirst ps id).Sublist ps := by
  have h := List.takeWhile_append_dropWhile (p := fun q : Process => decide (q.pid < id)) (l := ps)
  conv => rhs; rw [← h]
  exact List.Sublist.append (List.Sublist.refl _) (List.tail_sublist _)

/-- Rules that let nothing be added unless the node is cleared and the ids are in order, and with which the
process that is removed is the first with an id not smaller. -/
structure Rules.Sound (A : Allocator σ) (R : Rules σ) : Prop where
  add {s : State σ} {ps : List Process} : R.add s ps → freshNext A s = some 0 ∧ InOrder (ps.map Process.pid)
  remove {ps : List Process} {id : Word} {ps' : List Process} : (0 :: ps.map Process.pid).Nodup →
    R.remove ps id ps' → ps' = removeFirst ps id

theorem Inv.of_state (I : Inv Owns s k ns ps others) {alloc : σ} {m : Mem}
    (hown : Owns alloc m ((k :: ns).map node ++ (ps.map Process.ctx ++ others')))
    (hkeep : Keeps ((k :: ns).map node) s.mem m) (hfit : ∀ x ∈ k :: ns, x.toNat + 12 ≤ 2 ^ 32) :
    Inv Owns { s with alloc := alloc, mem := m } k ns ps others' := by
  have hword : ∀ x ∈ k :: ns, next m x = next s.mem x ∧ entry m x = entry s.mem x := fun x hx =>
    words_keep hkeep (List.mem_map_of_mem hx) (hfit x hx)
  refine ⟨I.chain.congr fun x hx => (hword x hx).1, (hword k List.mem_cons_self).2.trans I.kernel, ?_, hown⟩
  rw [← I.entries]
  exact List.map_congr_left fun x hx => (hword x (List.mem_cons_of_mem _ hx)).2

theorem Run.inv (L : A.Lawful Owns) (hR : R.Sound A) (r : Run A Owns R s ps others) :
    ∃ k ns, Inv Owns s k ns ps others ∧ (0 :: ps.map Process.pid).Nodup := by
  induction r with
  | init h hs => exact ⟨_, [], init_ok L h hs, List.nodup_singleton _⟩
  | add r hb ha h ih =>
    obtain ⟨k, ns, I, hu⟩ := ih
    obtain ⟨h0, ho⟩ := hR.add ha
    obtain ⟨rfl, p, nx, hfresh, -, hinv, -⟩ := add_ok L I hb h
    obtain rfl : nx = 0 := Option.some.inj (hfresh.symm.trans h0)
    refine ⟨k, _, hinv rfl, ?_⟩
    rw [List.map_append]
    exact (I.nextId_unique hu).mpr ho
  | remove r hr h ih =>
    obtain ⟨k, ns, I, hu⟩ := ih
    obtain rfl := hR.remove hu hr
    obtain ⟨s', ns', h', I'⟩ := remove_ok L I _
    obtain rfl := Option.some.inj (h'.symm.trans h)
    exact ⟨k, ns', I', hu.sublist (((removeFirst_sublist _ _).map _).cons_cons 0)⟩
  | malloc r hn h ih =>
    obtain ⟨k, ns, I, hu⟩ := ih
    obtain ⟨hown, hkeep⟩ := L.malloc I.owns hn h
    refine ⟨k, ns, I.of_state (L.perm hown ?_) (hkeep.mono (List.subset_append_left _ _)) fun x hx =>
      I.fits L hx, hu⟩
    split
    · exact List.Perm.refl _
    · apply List.perm_iff_count.mpr
      intro c
      simp only [List.count_cons, List.count_append]
      omega
  | @free s ps others others' b r hb ih =>
    obtain ⟨k, ns, I, hu⟩ := ih
    have hperm : ((k :: ns).map node ++ (ps.map Process.ctx ++ others)).Perm
        (b :: ((k :: ns).map node ++ (ps.map Process.ctx ++ others'))) := by
      apply List.perm_iff_count.mpr
      intro c
      have := hb.count_eq c
      simp only [List.count_cons, List.count_append] at this ⊢
      omega
    obtain ⟨hown, hkeep⟩ := L.free (L.perm I.owns hperm)
    exact ⟨k, ns, I.of_state hown (hkeep.mono (List.subset_append_left _ _)) fun x hx => I.fits L hx, hu⟩
  | write r h ih =>
    obtain ⟨k, ns, I, hu⟩ := ih
    refine ⟨k, ns, I.of_state
      (L.write I.owns (h.mono fun x ⟨b, hb, hx⟩ => ⟨b, List.mem_append_right _ hb, hx⟩))
      (fun x ⟨b, hb, hx⟩ => h x fun ⟨b', hb', hx'⟩ => ?_) fun x hx => I.fits L hx, hu⟩
    exact Set.disjoint_left.mp ((List.pairwise_append.mp (L.disjoint I.owns)).2.2 b hb b' hb') hx hx'

/-- Nodes are cleared, and processes on the list are removed. -/
def zeroed (A : Allocator σ) : Rules σ where
  add s _ := freshNext A s = some 0
  remove ps id ps' := id ∈ ps.map Process.pid ∧ ps' = removeFirst ps id

/-- And the ids are in order whenever a process is added. -/
def ordered (A : Allocator σ) : Rules σ where
  add s ps := freshNext A s = some 0 ∧ InOrder (ps.map Process.pid)
  remove ps id ps' := ps' = removeFirst ps id

theorem ordered_sound : (ordered A).Sound A := ⟨id, fun _ h => h⟩

/-- While the ids are in order whenever a process is added, they are unique, and after the next is added they
are so exactly if they are in order before. -/
theorem ids_unique_iff (L : A.Lawful Owns) (r : Run A Owns (ordered A) s ps others) : UniqueIds s ∧
    ∀ (b : Block) (others' : List Block) (id : Word) (s' : State σ), others.Perm (b :: others') →
      addProcess A s b.ptr = some (id, s') → freshNext A s = some 0 →
        (UniqueIds s' ↔ InOrder (ps.map Process.pid)) := by
  obtain ⟨k, ns, I, hu⟩ := r.inv L ordered_sound
  refine ⟨I.uniqueIds_iff.mpr hu, fun b others' id s' hb h h0 => ?_⟩
  obtain ⟨rfl, p, nx, hfresh, -, hinv, -⟩ := add_ok L I hb h
  obtain rfl : nx = 0 := Option.some.inj (hfresh.symm.trans h0)
  rw [(hinv rfl).uniqueIds_iff, List.map_append]
  exact I.nextId_unique hu

end

/-! ## Processes of an allocator that never uses memory again -/

/-- The block of context `i`. -/
def context (i : Nat) : Block := ⟨BitVec.ofNat 32 (0x1000 + 32 * i), 24⟩

/-- Memory is full of one byte, and five contexts are handed out. -/
def started (byte : Byte) : State Nat :=
  (initProcessManagement bump 0x2000 fun _ => byte).getD ⟨0, fun _ => 0, 0, 0⟩

def added (s : State Nat) (i : Nat) : State Nat := ((addProcess bump s (context i).ptr).getD (0, s)).2

def removed (s : State Nat) (id : Word) : State Nat := (removeProcess bump s id).getD s

theorem bumpOwns_contexts (m : Mem) : BumpOwns 0x2000 m ((List.range 5).map context) := by
  have hmem : ∀ b ∈ (List.range 5).map context, ∃ i < 5, b = context i := fun b hb => by
    obtain ⟨i, hi, rfl⟩ := List.mem_map.mp hb
    exact ⟨i, List.mem_range.mp hi, rfl⟩
  have hptr : ∀ i < 5, (context i).ptr.toNat = 0x1000 + 32 * i := fun i hi => by
    rw [context, BitVec.toNat_ofNat]
    omega
  refine ⟨by decide, by decide, ?_, ?_, ?_, List.pairwise_map.mpr ?_⟩
  · decide
  · decide
  · decide
  · refine List.pairwise_lt_range.imp_of_mem fun hi hj hlt => Set.disjoint_left.mpr fun x hx hx' => ?_
    rw [addresses, mem_range, hptr _ (List.mem_range.mp hi)] at hx
    rw [addresses, mem_range, hptr _ (List.mem_range.mp hj)] at hx'
    have h24 : ∀ i, (context i).size = 24 := fun _ => rfl
    rw [h24] at hx hx'
    omega

theorem eq_some_getD {α : Type} {x : Option α} {d : α} (h : x.isSome = true) : x = some (x.getD d) := by
  rw [Option.getD_of_ne_none (Option.isSome_iff_ne_none.mp h)]

section

variable {R : Rules Nat} {s : State Nat} {ps : List Process} {b : Block} {others : List Block}

theorem run_started (byte : Byte) (h : (initProcessManagement bump 0x2000 fun _ => byte).isSome = true)
    (hc : (started byte).kernelCtx ≠ 0) : Run bump BumpOwns R (started byte) []
      (⟨(started byte).kernelCtx, 24⟩ :: (List.range 5).map context) := by
  have hs : initProcessManagement bump 0x2000 (fun _ => byte) = some (started byte) := eq_some_getD h
  have r := Run.init (R := R) (bumpOwns_contexts _) hs
  rwa [if_neg hc] at r

theorem run_added {i : Nat} (id : Word) (r : Run bump BumpOwns R s ps (b :: context i :: others))
    (hR : R.add s ps) (h : (addProcess bump s (context i).ptr).map Prod.fst = some id) :
    Run bump BumpOwns R (added s i) (ps ++ [⟨id, context i⟩]) (b :: others) := by
  apply r.add (List.Perm.swap ..) hR
  obtain ⟨⟨id', s'⟩, h', rfl⟩ := Option.map_eq_some_iff.mp h
  rw [added, h']
  rfl

theorem run_removed {ps' : List Process} (id : Word) (r : Run bump BumpOwns R s ps others)
    (hR : R.remove ps id ps') (h : (removeProcess bump s id).isSome = true) :
    Run bump BumpOwns R (removed s id) ps' others := r.remove hR (eq_some_getD h)

end

/-- The ids are in order if `1`, ..., `n` are, and the next one is not there. -/
theorem inOrder_of_gap {ids : List Word} (n : Nat) (hsub : ∀ k ≤ n, (idsFrom 1 k).Sublist ids)
    (hn : BitVec.ofNat 32 (1 + n) ∉ ids) : InOrder ids := fun k hk => by
  by_cases hle : k ≤ n
  · exact hsub k hle
  · exact absurd (hk (List.mem_map_of_mem (List.mem_range'_1.mpr (by omega)))) hn

/-- Three processes are added, and the second is removed. -/
def secondRemoved : State Nat := removed (added (added (added (started 0) 0) 1) 2) 2

theorem run_secondRemoved {R : Rules Nat} (h₀ : R.add (started 0) [])
    (h₁ : R.add (added (started 0) 0) [⟨1, context 0⟩])
    (h₂ : R.add (added (added (started 0) 0) 1) [⟨1, context 0⟩, ⟨2, context 1⟩])
    (h₃ : R.remove [⟨1, context 0⟩, ⟨2, context 1⟩, ⟨3, context 2⟩] 2
      [⟨1, context 0⟩, ⟨3, context 2⟩]) :
    Run bump BumpOwns R secondRemoved [⟨1, context 0⟩, ⟨3, context 2⟩]
      [⟨(started 0).kernelCtx, 24⟩, context 3, context 4] := by
  have r₀ := run_started (R := R) 0 (by decide) (by decide)
  have r₁ := run_added 1 r₀ h₀ (by decide)
  have r₂ := run_added 2 r₁ h₁ (by decide)
  have r₃ := run_added 3 r₂ h₂ (by decide)
  exact run_removed 2 r₃ h₃ (by decide)

/-- The next process gets the id of the one that was removed. -/
theorem ids_unique_secondRemoved : UniqueIds (added secondRemoved 3) := by
  have r := run_secondRemoved (R := ordered bump) ⟨by decide, inOrder_of_gap 0 (by decide) (by decide)⟩
    ⟨by decide, inOrder_of_gap 1 (by decide) (by decide)⟩
    ⟨by decide, inOrder_of_gap 2 (by decide) (by decide)⟩ (by rfl)
  have h0 : freshNext bump secondRemoved = some 0 := by decide
  have h : (addProcess bump secondRemoved (context 3).ptr).map Prod.fst = some 2 := by decide
  obtain ⟨⟨id, s'⟩, h', rfl⟩ := Option.map_eq_some_iff.mp h
  have hs : added secondRemoved 3 = s' := by
    rw [added, h']
    rfl
  rw [hs]
  exact ((ids_unique_iff bump_lawful r).2 (context 3) _ _ _ (List.Perm.swap ..) h' h0).mpr
    (inOrder_of_gap 1 (by decide) (by decide))

/-- Three processes are added, the first is removed, and two more are added. -/
def someProcesses : State Nat :=
  added (added (removed (added (added (added (started 0) 0) 1) 2) 1) 3) 4

/-- A process is removed, two are added, and the second of them has the id of one that was there before. -/
theorem ids_not_unique : ¬ ∀ (σ : Type) (A : Allocator σ)
    (Owns : σ → Mem → List Block → Prop) (s : State σ) (ps : List Process)
    (others : List Block), A.Lawful Owns → Run A Owns (zeroed A) s ps others →
      UniqueIds s := by
  intro H
  have r₀ := run_started (R := zeroed bump) 0 (by decide) (by decide)
  have r₁ := run_added 1 r₀ (show freshNext bump _ = some 0 by decide) (by decide)
  have r₂ := run_added 2 r₁ (show freshNext bump _ = some 0 by decide) (by decide)
  have r₃ := run_added 3 r₂ (show freshNext bump _ = some 0 by decide) (by decide)
  have r₄ := run_removed 1 r₃ ⟨by decide, rfl⟩ (by decide)
  have r₅ := run_added 1 r₄ (show freshNext bump _ = some 0 by decide) (by decide)
  have r₆ := run_added 2 r₅ (show freshNext bump _ = some 0 by decide) (by decide)
  obtain ⟨c, es, h, hu⟩ := H _ _ _ _ _ _ bump_lawful r₆
  have hlist : Holds someProcesses _ := ⟨[0x2018, 0x2030, 0x203C, 0x2048, 0x2054], by decide, rfl⟩
  have he := congrArg (List.map Prod.fst) (h.unique hlist)
  rw [List.map_cons] at he
  rw [he] at hu
  exact absurd hu (by decide)

end AlexOS.Processes
