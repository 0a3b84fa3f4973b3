import AlexOS.Process.Ids
import Mathlib.Data.List.TakeWhile

/-!
# The list of processes as a map

What the list is for: a map from the ids of processes to contexts (`Exact`),
which `get_ctx` looks up and `remove_process` takes an id out of (`without`).
Both stop at the first id that is not smaller than the one they look for, so
that they find it, or that it is not there, only if no larger id comes before
(`Finds`). `add_process` leaves an exact list exactly if the node that it gets
from `malloc` is cleared and its id is new (`exact_iff`).
-/

namespace AlexOS.Processes

open Mem Block

/-- A larger id has `id` before it: the first one that is not smaller than `id`, if there is one, is `id`. -/
def Finds (ids : List Word) (id : Word) : Prop := ∀ pre x post, ids = pre ++ x :: post → id < x → id ∈ pre

/-- The list is that of the kernel and the processes, which have different ids. -/
structure Exact {σ : Type} (s : State σ) (ps : List Process) : Prop where
  holds : Holds s ((0, s.kernelCtx) :: ps.map Process.entry)
  nodup : (0 :: ps.map Process.pid).Nodup

/-- The context of a process, or `NULL`. -/
def lookup (es : List (Word × Addr)) (id : Word) : Addr := ((es.find? (·.1 = id)).map Prod.snd).getD 0

/-- The processes without the one with this id. -/
def without (ps : List Process) (id : Word) : List Process := ps.filter (·.pid ≠ id)

section

variable {σ : Type} {A : Allocator σ} {Owns : σ → Mem → List Block → Prop} {s s' : State σ} {k : Addr}
  {ns : List Addr} {ps : List Process} {others : List Block} {id : Word}

/-- Where a loop that looks for `id` stops. -/
theorem stops_at {α : Type} (f : α → Word) (xs : List α) (id : Word) :
    ∃ before rest, xs = before ++ rest ∧ xs.takeWhile (fun x => decide (f x < id)) = before ∧
      xs.dropWhile (fun x => decide (f x < id)) = rest ∧ (∀ x ∈ before, f x < id) ∧
        ∀ y ∈ rest.head?, id ≤ f y := by
  refine ⟨_, _, List.takeWhile_append_dropWhile.symm, rfl, rfl, fun x hx => ?_, fun y hy => ?_⟩
  · simpa using List.mem_takeWhile_imp hx
  · have h := List.head?_dropWhile_not (fun x => decide (f x < id)) xs
    rw [Option.mem_def.mp hy] at h
    exact BitVec.not_lt.mp (by simpa using h)

/-- A loop that looks for `id` stops there, or at the end. -/
theorem finds_iff {α : Type} {f : α → Word} {before rest : List α} (hbefore : ∀ x ∈ before, f x < id)
    (hrest : ∀ y ∈ rest.head?, id ≤ f y) :
    Finds ((before ++ rest).map f) id ↔ ∀ y ∈ rest.head?, f y = id := by
  refine ⟨fun H y hy => ?_, fun H pre x post h hlt => ?_⟩
  · obtain ⟨ys, rfl⟩ : ∃ ys, rest = y :: ys := ⟨rest.tail, (List.cons_head?_tail hy).symm⟩
    by_contra hne
    have hlt : id < f y := Nat.lt_of_le_of_ne (hrest y hy) fun e => hne (BitVec.eq_of_toNat_eq e.symm)
    obtain ⟨x, hx, he⟩ := List.mem_map.mp (H (before.map f) (f y) (ys.map f) (by simp) hlt)
    exact absurd (he ▸ hbefore x hx) (BitVec.lt_irrefl _)
  · rw [List.map_append] at h
    -- `x` is not before, and not where the loop stops
    have key : ∀ as, rest.map f = as ++ x :: post → id ∈ as := fun as he => by
      cases rest with
      | nil => exact absurd he.symm (List.append_ne_nil_of_right_ne_nil as (List.cons_ne_nil x post))
      | cons y ys =>
        have hy : f y = id := H y rfl
        cases as with
        | nil =>
          have hx : f y = x := (List.cons_eq_cons.mp he).1
          exact absurd hlt (by rw [← hx, hy]; exact BitVec.lt_irrefl _)
        | cons a as => exact List.mem_cons.mpr (.inl (hy.symm.trans (List.cons_eq_cons.mp he).1))
    rcases List.append_eq_append_iff.mp h with ⟨as, rfl, he⟩ | ⟨bs, hb, he⟩
    · exact List.mem_append_right _ (key as he)
    · cases bs with
      | nil => exact absurd (key [] he.symm) List.not_mem_nil
      | cons b bs =>
        obtain rfl := (List.cons_eq_cons.mp he).1
        obtain ⟨z, hz, hzx⟩ := List.mem_map.mp (hb ▸ List.mem_append_right pre List.mem_cons_self)
        exact absurd (BitVec.lt_trans hlt (hzx ▸ hbefore z hz)) (BitVec.lt_irrefl _)

/-! ## The calls -/

/-- Different processes have different contexts. -/
theorem Inv.contexts (L : A.Lawful Owns) (I : Inv Owns s k ns ps others) :
    (0 :: (ps.map Process.entry).map Prod.snd).Nodup := by
  have hlive : ∀ b ∈ ps.map Process.ctx, b ∈ (k :: ns).map node ++ (ps.map Process.ctx ++ others) := fun b hb =>
    List.mem_append_right _ (List.mem_append_left _ hb)
  have hsnd : (ps.map Process.entry).map Prod.snd = (ps.map Process.ctx).map Block.ptr := by
    rw [List.map_map, List.map_map]
    rfl
  rw [hsnd]
  refine List.nodup_cons.mpr ⟨fun h0 => ?_, List.pairwise_map.mpr ?_⟩
  · obtain ⟨b, hb, h0⟩ := List.mem_map.mp h0
    exact L.ptr_ne_zero I.owns b (hlive b hb) h0
  · have hd := (List.pairwise_append.mp (List.pairwise_append.mp (L.disjoint I.owns)).2.1).1
    refine hd.imp_of_mem fun {b b'} hb hb' hbb' e => ?_
    have h := L.size_pos I.owns b (hlive b hb)
    have h' := L.size_pos I.owns b' (hlive b' hb')
    have hin : b.ptr.toNat ∈ b.addresses := by
      rw [addresses, mem_range]
      omega
    apply Set.disjoint_left.mp hbb' hin
    rw [addresses, mem_range, e]
    omega

/-- `remove_process` takes out the process with this id exactly if the loop finds it. -/
theorem removeFirst_eq (id : Word) (hu : (ps.map Process.pid).Nodup) :
    (Finds (ps.map Process.pid) id → removeFirst ps id = without ps id) ∧
      ((removeFirst ps id).map Process.entry = (without ps id).map Process.entry →
        Finds (ps.map Process.pid) id) := by
  obtain ⟨before, rest, hps, ht, hd, hbefore, hrest⟩ := stops_at Process.pid ps id
  rw [removeFirst, ht, hd]
  subst hps
  have hkeep : before.filter (·.pid ≠ id) = before := List.filter_eq_self.mpr fun x hx =>
    decide_eq_true fun e => BitVec.lt_irrefl id (e ▸ hbefore x hx)
  rw [finds_iff hbefore hrest, without, List.filter_append, hkeep, List.map_append, List.map_append,
    List.append_right_inj, List.append_right_inj]
  cases rest with
  | nil => exact ⟨fun _ => rfl, fun _ y hy => absurd hy (by simp)⟩
  | cons y ys =>
    rw [List.map_append, List.map_cons] at hu
    have hy : ∀ x ∈ ys, x.pid ≠ y.pid := fun x hx e =>
      (List.nodup_cons.mp (List.nodup_append.mp hu).2.1).1 (e ▸ List.mem_map_of_mem hx)
    refine ⟨fun h => ?_, fun h z hz => ?_⟩
    · have hid : y.pid = id := h y rfl
      have hys : ys.filter (·.pid ≠ id) = ys := List.filter_eq_self.mpr fun x hx =>
        decide_eq_true fun e => hy x hx (e.trans hid.symm)
      rw [List.tail_cons, List.filter_cons_of_neg (by simpa using hid), hys]
    · cases hz
      by_contra hne
      rw [List.tail_cons, List.filter_cons_of_pos (by simpa using hne), List.map_cons] at h
      obtain ⟨x, hx, he⟩ := List.mem_map.mp (h ▸ List.mem_cons_self : y.entry ∈ ys.map Process.entry)
      exact hy x hx (congrArg Prod.fst he)

/-- `get_ctx` looks up exactly if the loop finds the id. -/
theorem found_eq_iff {es : List (Word × Addr)} {c : Addr} (hc : (0 :: es.map Prod.snd).Nodup) :
    found ((0, c) :: es) id = lookup ((0, c) :: es) id ↔ Finds (0 :: es.map Prod.fst) id := by
  obtain ⟨before, rest, hes, -, hd, hbefore, hrest⟩ := stops_at Prod.fst ((0, c) :: es) id
  have hnone : before.find? (·.1 = id) = none := List.find?_eq_none.mpr fun x hx he =>
    BitVec.lt_irrefl id (of_decide_eq_true he ▸ hbefore x hx)
  rw [found, hd, lookup, hes, List.find?_append, hnone, Option.none_or,
    show 0 :: es.map Prod.fst = ((0, c) :: es).map Prod.fst from rfl, hes, finds_iff hbefore hrest]
  cases rest with
  | nil => exact iff_of_true rfl fun y hy => absurd hy (by simp)
  | cons y ys =>
    by_cases hid : y.1 = id
    · rw [List.find?_cons_of_pos (by simpa using hid)]
      exact iff_of_true rfl fun z hz => by
        cases hz
        exact hid
    refine iff_of_false (fun h => ?_) fun h => hid (h y rfl)
    rw [List.find?_cons_of_neg (by simpa using hid)] at h
    -- what is found is a process, and no other has its context
    obtain ⟨before, rfl⟩ : ∃ xs, before = (0, c) :: xs := by
      cases before with
      | nil =>
        obtain ⟨rfl, -⟩ := List.cons_eq_cons.mp hes
        exact absurd (BitVec.le_zero_iff.mp (hrest _ rfl)).symm hid
      | cons x xs => exact ⟨xs, by rw [(List.cons_eq_cons.mp hes).1]⟩
    have hes : es = before ++ y :: ys := (List.cons_eq_cons.mp hes).2
    rw [hes, List.map_append, List.map_cons] at hc
    obtain ⟨h0, hnodup⟩ := List.nodup_cons.mp hc
    have hy0 : y.2 ≠ 0 := fun e => h0 (e ▸ List.mem_append_right _ List.mem_cons_self)
    have hys : y.2 ∉ ys.map Prod.snd := (List.nodup_cons.mp (List.nodup_append.mp hnodup).2.1).1
    cases hf : ys.find? (·.1 = id) with
    | none =>
      rw [hf] at h
      exact hy0 h
    | some z =>
      rw [hf] at h
      have hyz : y.2 = z.2 := h
      exact hys (hyz ▸ List.mem_map_of_mem (List.mem_of_find?_eq_some hf))

/-! ## Runs -/

/-- The calls that treat the list as a map. -/
def mapCalls (A : Allocator σ) : Rules σ where
  add s ps := freshNext A s = some 0 ∧ InOrder (ps.map Process.pid)
  remove ps id ps' := Finds (ps.map Process.pid) id ∧ ps' = without ps id

/-- All calls. -/
def anyCalls : Rules σ where
  add _ _ := True
  remove ps id ps' := ps' = without ps id

theorem mapCalls_sound : (mapCalls A).Sound A :=
  ⟨id, fun hu h => h.2.trans ((removeFirst_eq _ (List.nodup_cons.mp hu).2).1 h.1).symm⟩

theorem Inv.exact (I : Inv Owns s k ns ps others) (hu : (0 :: ps.map Process.pid).Nodup) : Exact s ps :=
  ⟨I.holds, hu⟩

/-- In every state of a run of calls that treat the list as a map, the next call does so exactly if it is one
of these, and `get_ctx` exactly if its loop finds the id. -/
theorem exact_iff (L : A.Lawful Owns) (r : Run A Owns (mapCalls A) s ps others) : Exact s ps ∧
    (∀ (b : Block) (others' : List Block) (id : Word) (s' : State σ), others.Perm (b :: others') →
      addProcess A s b.ptr = some (id, s') →
        (Exact s' (ps ++ [⟨id, b⟩]) ↔ freshNext A s = some 0 ∧ InOrder (ps.map Process.pid))) ∧
    (∀ id, ∃ context, getCtx s id = some context ∧
      (context = lookup ((0, s.kernelCtx) :: ps.map Process.entry) id ↔ Finds (0 :: ps.map Process.pid) id)) ∧
    ∀ id, ∃ s', removeProcess A s id = some s' ∧
      (Exact s' (without ps id) ↔ Finds (ps.map Process.pid) id) := by
  obtain ⟨k, ns, I, hu⟩ := r.inv L mapCalls_sound
  have hids : (ps.map Process.entry).map Prod.fst = ps.map Process.pid := List.map_map ..
  refine ⟨I.exact hu, fun b others' id s' hb h => ?_, fun id => ?_, fun id => ?_⟩
  · obtain ⟨rfl, p, nx, hfresh, -, hinv, hlen⟩ := add_ok L I hb h
    rw [hfresh, Option.some_inj]
    by_cases h0 : nx = 0
    · have hnew := I.nextId_unique hu
      rw [show [nextId 1 (ps.map Process.pid)] =
        [Process.mk (nextId 1 (ps.map Process.pid)) b].map Process.pid from rfl, ← List.map_append] at hnew
      rw [and_iff_right h0, ← hnew]
      exact ⟨fun h => h.nodup, (hinv h0).exact⟩
    · refine iff_of_false (fun E => h0 (hlen _ E.holds ?_)) fun h => h0 h.1
      have he := congrArg List.length I.entries
      rw [List.length_map, List.length_map] at he
      rw [List.length_cons, List.length_map, List.length_append, List.length_singleton, he]
  · refine ⟨_, get_ok I id, ?_⟩
    rw [found_eq_iff (I.contexts L), hids]
  · obtain ⟨s', ns', h, I'⟩ := remove_ok L I id
    refine ⟨s', h, ?_⟩
    have heq := removeFirst_eq id (List.nodup_cons.mp hu).2
    refine ⟨fun E => heq.2 ?_, fun hf => ?_⟩
    · exact (List.cons_eq_cons.mp (I'.holds.unique E.holds)).2
    · rw [← heq.1 hf]
      exact I'.exact (hu.sublist (((removeFirst_sublist _ _).map _).cons_cons 0))

end

/-- An id is found if smaller ones only come before it. -/
theorem finds_of_lt {id : Word} (before rest : List Word) (h : ∀ x ∈ before, x < id) :
    Finds (before ++ id :: rest) id := by
  have hhead : ∀ y ∈ (id :: rest).head?, y = id := fun y hy => (Option.some_inj.mp hy).symm
  have := (finds_iff (f := fun x : Word => x) h fun y hy => (hhead y hy).symm ▸ BitVec.le_refl _).mpr hhead
  rwa [List.map_id'] at this

theorem finds_secondRemoved : Finds [0, 1, 3] 3 ∧ Finds [1, 3] 3 ∧ Finds [1, 2, 3] 2 :=
  ⟨finds_of_lt [0, 1] [] (by simp), finds_of_lt [1] [] (by simp), finds_of_lt [1] [3] (by simp)⟩

/-- Two processes are left; another one is added, one is looked up, and one is removed. -/
theorem exact_secondRemoved : Exact secondRemoved [⟨1, context 0⟩, ⟨3, context 2⟩] ∧
    Exact (added secondRemoved 3) [⟨1, context 0⟩, ⟨3, context 2⟩, ⟨2, context 3⟩] ∧
    getCtx secondRemoved 3 = some (context 2).ptr ∧ Exact (removed secondRemoved 3) [⟨1, context 0⟩] := by
  obtain ⟨hget, hremove, h2⟩ := finds_secondRemoved
  have r := run_secondRemoved (R := mapCalls bump) ⟨by decide, inOrder_of_gap 0 (by decide) (by decide)⟩
    ⟨by decide, inOrder_of_gap 1 (by decide) (by decide)⟩
    ⟨by decide, inOrder_of_gap 2 (by decide) (by decide)⟩ ⟨h2, by rfl⟩
  obtain ⟨E, hadd, hctx, hrem⟩ := exact_iff bump_lawful r
  have h : (addProcess bump secondRemoved (context 3).ptr).map Prod.fst = some 2 := by decide
  obtain ⟨⟨id, s'⟩, h', rfl⟩ := Option.map_eq_some_iff.mp h
  have hs : added secondRemoved 3 = s' := by
    rw [added, h']
    rfl
  obtain ⟨c, hc, hlookup⟩ := hctx 3
  obtain ⟨s'', hs'', hexact⟩ := hrem 3
  refine ⟨E, hs ▸ (hadd (context 3) _ _ s' (List.Perm.swap ..) h').mpr ?_, ?_, ?_⟩
  · exact ⟨by decide, inOrder_of_gap 1 (by decide) (by decide)⟩
  · rw [hc, hlookup.mpr hget]
    rfl
  · rw [removed, hs'']
    exact hexact.mpr hremove

/-- With memory that is not cleared, the list does not end at the first process. -/
theorem not_exact : ¬ ∀ (σ : Type) (A : Allocator σ) (Owns : σ → Mem → List Block → Prop) (s : State σ)
    (ps : List Process) (others : List Block), A.Lawful Owns → Run A Owns anyCalls s ps others → Exact s ps := by
  intro H
  have hinit : (initProcessManagement bump 0x2000 fun _ => 0xFF).isSome = true := by decide
  have hc : (started 0xFF).kernelCtx ≠ 0 := by decide
  have h : (addProcess bump (started 0xFF) (context 0).ptr).map Prod.fst = some 1 := by decide
  have E := H _ _ _ _ _ _ bump_lawful (run_added 1 (run_started (R := anyCalls) 0xFF hinit hc) trivial h)
  obtain ⟨⟨id, s'⟩, h', -⟩ := Option.map_eq_some_iff.mp h
  have hs : added (started 0xFF) 0 = s' := by
    rw [added, h']
    rfl
  rw [hs] at E
  obtain ⟨k, ns, I, -⟩ := (run_started (R := mapCalls bump) 0xFF hinit hc).inv bump_lawful mapCalls_sound
  obtain rfl := List.map_eq_nil_iff.mp I.entries
  obtain ⟨-, p, nx, hfresh, -, -, hlen⟩ := add_ok bump_lawful I (List.Perm.swap ..) h'
  obtain rfl := hlen _ E.holds rfl
  exact absurd hfresh (by decide)

end AlexOS.Processes
