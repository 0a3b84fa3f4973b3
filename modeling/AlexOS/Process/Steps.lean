import AlexOS.Process.Processes

/-!
# The list of processes

What is on the list (`Holds`), and the blocks it is in (`Inv`): each node, and
the context of each process, is a block that the allocator has handed out. The
list after each call is a function of the list before it: `add_process` appends
a process with the id `nextId 1` of the ids there are (`add_ok`), if `malloc`
left a null pointer in the node, and `remove_process` takes out the first
process with an id that is not smaller (`remove_ok`), of which `get_ctx`
returns the context (`get_ok`).
-/

namespace AlexOS.Processes

open Mem Block

/-- A process, and the block of its context. -/
structure Process where
  pid : Word
  ctx : Block

def Process.entry (p : Process) : Word × Addr := (p.pid, p.ctx.ptr)

/-- What a node holds. -/
def entry (m : Mem) (x : Addr) : Word × Addr := (pid m x, ctx m x)

/-- The block of a node. -/
def node (x : Addr) : Block := ⟨x, 12⟩

/-- The list that starts at `processes` holds `es`, in this order. -/
def Holds {σ : Type} (s : State σ) (es : List (Word × Addr)) : Prop :=
  ∃ nodes, Chain (next s.mem) 0 s.processes nodes ∧ nodes.map (entry s.mem) = es

/-- The list of the kernel's node `k` and of `ns`, for the processes `ps`. The blocks `others` are handed
out too. -/
structure Inv {σ : Type} (Owns : σ → Mem → List Block → Prop) (s : State σ) (k : Addr) (ns : List Addr)
    (ps : List Process) (others : List Block) : Prop where
  chain : Chain (next s.mem) 0 s.processes (k :: ns)
  kernel : entry s.mem k = (0, s.kernelCtx)
  entries : ns.map (entry s.mem) = ps.map Process.entry
  owns : Owns s.alloc s.mem ((k :: ns).map node ++ (ps.map Process.ctx ++ others))

/-- The id that the loop of `add_process` finds. -/
def nextId (id : Word) (ids : List Word) : Word := ids.foldl (fun id x => if id = x then id + 1 else id) id

/-- The processes without the first that has an id not smaller than `id`. -/
def removeFirst (ps : List Process) (id : Word) : List Process :=
  ps.takeWhile (·.pid < id) ++ (ps.dropWhile (·.pid < id)).tail

/-- The context of the first entry that has an id not smaller than `id`. -/
def found (es : List (Word × Addr)) (id : Word) : Addr :=
  ((es.dropWhile (·.1 < id)).head?.map Prod.snd).getD 0

section

variable {σ : Type} {A : Allocator σ} {Owns : σ → Mem → List Block → Prop} {s s' : State σ} {k x y : Addr}
  {ns : List Addr} {ps : List Process} {others live : List Block} {m m' : Mem} {alloc : σ} {v : Word}

theorem Holds.unique {es es' : List (Word × Addr)} (h : Holds s es) (h' : Holds s es') : es = es' := by
  obtain ⟨nodes, hc, rfl⟩ := h
  obtain ⟨nodes', hc', rfl⟩ := h'
  rw [hc.unique hc']

theorem Inv.holds (I : Inv Owns s k ns ps others) : Holds s ((0, s.kernelCtx) :: ps.map Process.entry) :=
  ⟨k :: ns, I.chain, by rw [List.map_cons, I.kernel, I.entries]⟩

/-! ## Words of nodes -/

theorem words_keep (h : Keeps live m m') (hx : node x ∈ live) (hw : x.toNat + 12 ≤ 2 ^ 32) :
    next m' x = next m x ∧ entry m' x = entry m x := by
  have word : ∀ j ≤ 8, m'.load32 (x + BitVec.ofNat 32 j) = m.load32 (x + BitVec.ofNat 32 j) := fun j hj => by
    have h12 : j + 4 ≤ (node x).size := Nat.add_le_add_right hj 4
    exact h.load32 (b := node x) hx h12 hw
  have h0 := word 0 (by decide)
  rw [BitVec.add_zero] at h0
  exact ⟨h0, Prod.ext (word 8 (by decide)) (word 4 (by decide))⟩

/-- A word that is written to a node. -/
theorem store_node (j : Word) (hj : j.toNat ≤ 8) (hw : x.toNat + 12 ≤ 2 ^ 32) :
    Changes (node x).addresses m (m.store32 (x + j) v) := by
  have e : (x + j).toNat = x.toNat + j.toNat := by
    rw [BitVec.toNat_add]
    omega
  refine (store32_changes (by omega)).mono fun i hi => ?_
  rw [mem_range, e] at hi
  show i ∈ range x 12
  rw [mem_range]
  omega

theorem store_next (hw : x.toNat + 12 ≤ 2 ^ 32) : Changes (node x).addresses m (m.store32 x v) := by
  have h := store_node (m := m) (v := v) 0 (by decide) hw
  rwa [show x + 0 = x from BitVec.add_zero x] at h

theorem entry_store_next : entry (m.store32 x v) x = entry m x := by
  have h := fun j => load32_store32_offset (m := m) (a := x) (v := v) 0 j
  rw [show x + 0 = x from BitVec.add_zero x] at h
  exact Prod.ext (h 8 (by decide) (by decide)) (h 4 (by decide) (by decide))

/-- A node is linked to a new one, whose `ctx` and `pid` are set. -/
theorem link_ok (m : Mem) {p : Addr} (c : Addr) (id : Word) (hy : y.toNat + 12 ≤ 2 ^ 32)
    (hp : p.toNat + 12 ≤ 2 ^ 32) (hd : Disjoint (node p).addresses (node y).addresses) :
    let m₁ := m.store32 y p
    let m₂ := m₁.store32 (next m₁ y + 4) c
    let m₃ := m₂.store32 (next m₂ y + 8) id
    Changes ((node y).addresses ∪ (node p).addresses) m m₃ ∧ next m₃ y = p ∧ entry m₃ y = entry m y ∧
      next m₃ p = next m p ∧ entry m₃ p = (id, c) := by
  intro m₁ m₂ m₃
  have hpy : ∀ b ∈ [node y], Disjoint (node p).addresses b.addresses := List.forall_mem_singleton.mpr hd
  have hyp : ∀ b ∈ [node p], Disjoint (node y).addresses b.addresses := List.forall_mem_singleton.mpr hd.symm
  have h₁ : Changes (node y).addresses m m₁ := store_next hy
  have hn₁ : next m₁ y = p := load32_store32_self m y p
  have em₂ : m₂ = m₁.store32 (p + 4) c := by rw [← hn₁]
  have h₂ : Changes (node p).addresses m₁ m₂ := em₂ ▸ store_node 4 (by decide) hp
  obtain ⟨hn₂, he₂⟩ := words_keep (keeps_of_changes h₂ subset_rfl hpy) (List.mem_singleton_self _) hy
  have em₃ : m₃ = m₂.store32 (p + 8) id := by rw [← hn₂.trans hn₁]
  have h₃ : Changes (node p).addresses m₂ m₃ := em₃ ▸ store_node 8 (by decide) hp
  obtain ⟨hn₃, he₃⟩ := words_keep (keeps_of_changes h₃ subset_rfl hpy) (List.mem_singleton_self _) hy
  have offset : ∀ (m : Mem) (j v : Word), 4 ≤ (0 - j).toNat → 4 ≤ (j - 0).toNat →
      next (m.store32 (p + j) v) p = next m p := fun m j v h h' => by
    have e := load32_store32_offset (m := m) (a := p) (v := v) j 0 h h'
    rwa [show p + 0 = p from BitVec.add_zero p] at e
  refine ⟨?_, hn₃.trans (hn₂.trans hn₁), he₃.trans (he₂.trans entry_store_next), ?_, Prod.ext ?_ ?_⟩
  · exact (h₁.mono Set.subset_union_left).trans ((h₂.trans h₃).mono Set.subset_union_right)
  · rw [em₃, offset _ _ _ (by decide) (by decide), em₂, offset _ _ _ (by decide) (by decide)]
    exact (words_keep (keeps_of_changes h₁ subset_rfl hyp) (List.mem_singleton_self _) hp).1
  · rw [em₃]
    exact load32_store32_self _ _ _
  · rw [em₃]
    exact (load32_store32_offset 8 4 (by decide) (by decide)).trans (em₂ ▸ load32_store32_self _ _ _)

/-! ## The loops -/

theorem lastAndPid_ok {n : Nat} {id : Word} (h : Chain (next m) 0 x (x :: ns)) (hn : ns.length < n) :
    lastAndPid m n x id = some (ns.getLastD x, nextId id (ns.map (pid m))) := by
  induction ns generalizing n x id with
  | nil =>
    obtain ⟨n, rfl⟩ := Nat.exists_eq_add_of_lt hn
    rw [List.length_nil, Nat.zero_add, lastAndPid, if_neg (not_not.mpr (show next m x = 0 from h.2.2))]
    rfl
  | cons z ns ih =>
    obtain ⟨n, rfl⟩ : ∃ k, n = k + 1 := ⟨n - 1, by simp at hn; omega⟩
    obtain ⟨hz, hne, hc⟩ := h.2.2
    rw [lastAndPid, hz, if_pos hne, ih ⟨rfl, hne, hc⟩ (by simpa using hn), List.getLastD_cons, List.map_cons,
      nextId, nextId, List.foldl_cons]

/-- The last of some nodes. -/
theorem exists_getLastD (k : Addr) (ns : List Addr) : ∃ pre, k :: ns = pre ++ [ns.getLastD k] := by
  induction ns generalizing k with
  | nil => exact ⟨[], rfl⟩
  | cons x ns ih =>
    obtain ⟨pre, h⟩ := ih x
    refine ⟨k :: pre, ?_⟩
    rw [List.getLastD_cons, List.cons_append, ← h]

theorem Inv.fits (L : A.Lawful Owns) (I : Inv Owns s k ns ps others) (hx : x ∈ k :: ns) :
    x.toNat + 12 ≤ 2 ^ 32 :=
  L.fits I.owns (node x) (List.mem_append_left _ (List.mem_map_of_mem hx))

theorem Inv.length_lt (I : Inv Owns s k ns ps others) : ns.length + 1 < walkFuel :=
  I.chain.length_lt (f := BitVec.toFin) fun _ _ => BitVec.eq_of_toFin_eq

theorem Inv.ids (I : Inv Owns s k ns ps others) : ns.map (pid s.mem) = ps.map Process.pid := by
  have h := congrArg (List.map Prod.fst) I.entries
  rwa [List.map_map, List.map_map] at h

/-- A call that leaves the nodes alone. -/
theorem Inv.keep (L : A.Lawful Owns) (I : Inv Owns s k ns ps others) {others' : List Block}
    (hown : Owns alloc m ((k :: ns).map node ++ (ps.map Process.ctx ++ others')))
    (hkeep : Keeps ((k :: ns).map node ++ (ps.map Process.ctx ++ others)) s.mem m) :
    Inv Owns { s with alloc := alloc, mem := m } k ns ps others' := by
  have hwords : ∀ x ∈ k :: ns, next m x = next s.mem x ∧ entry m x = entry s.mem x := fun x hx =>
    words_keep hkeep (List.mem_append_left _ (List.mem_map_of_mem hx)) (I.fits L hx)
  refine ⟨I.chain.congr fun x hx => (hwords x hx).1, (hwords k List.mem_cons_self).2.trans I.kernel, ?_, hown⟩
  rw [← I.entries]
  exact List.map_congr_left fun x hx => (hwords x (List.mem_cons_of_mem _ hx)).2

/-! ## `add_process` -/

/-- A write to the node `y` and to a new one leaves the other nodes. -/
theorem Inv.keep_other (L : A.Lawful Owns) (I : Inv Owns s k ns ps others) {p : Addr}
    (hown : Owns alloc m (node p :: ((k :: ns).map node ++ (ps.map Process.ctx ++ others))))
    (hkeep : Keeps ((k :: ns).map node ++ (ps.map Process.ctx ++ others)) s.mem m)
    (hch : Changes ((node y).addresses ∪ (node p).addresses) m m') (hy : y ∈ k :: ns) (hx : x ∈ k :: ns)
    (hne : x ≠ y) : next m' x = next s.mem x ∧ entry m' x = entry s.mem x := by
  have hblock : ∀ x ∈ k :: ns, node x ∈ (k :: ns).map node ++ (ps.map Process.ctx ++ others) := fun x hx =>
    List.mem_append_left _ (List.mem_map_of_mem hx)
  have hd := L.disjoint_of_ne I.owns (hblock y hy) (hblock x hx) fun e => hne (congrArg Block.ptr e).symm
  have hdp := (List.pairwise_cons.mp (L.disjoint hown)).1 _ (hblock x hx)
  have hkeep' : Keeps [node x] m m' := by
    rintro a ⟨b', hb', ha⟩
    obtain rfl := List.mem_singleton.mp hb'
    apply hch a
    rintro (hin | hin)
    · exact Set.disjoint_left.mp hd hin ha
    · exact Set.disjoint_left.mp hdp hin ha
  obtain ⟨hn, he⟩ := words_keep hkeep (hblock x hx) (I.fits L hx)
  obtain ⟨hn', he'⟩ := words_keep hkeep' (List.mem_singleton_self _) (I.fits L hx)
  exact ⟨hn'.trans hn, he'.trans he⟩

/-- The calls and the stores of `add_process`. -/
theorem Inv.add_step (L : A.Lawful Owns) (I : Inv Owns s k ns ps others) {c : Addr} {id : Word}
    (h : addProcess A s c = some (id, s')) :
    id = nextId 1 (ps.map Process.pid) ∧ s'.kernelCtx = s.kernelCtx ∧ s'.processes = s.processes ∧
      ∃ p m, A.malloc s.alloc s.mem sizeofProcessList = some (p, s'.alloc, m) ∧ p ≠ 0 ∧
        Owns s'.alloc m (node p :: ((k :: ns).map node ++ (ps.map Process.ctx ++ others))) ∧
        Keeps ((k :: ns).map node ++ (ps.map Process.ctx ++ others)) s.mem m ∧
        Changes ((node (ns.getLastD k)).addresses ∪ (node p).addresses) m s'.mem ∧
        next s'.mem (ns.getLastD k) = p ∧ entry s'.mem (ns.getLastD k) = entry m (ns.getLastD k) ∧
        next s'.mem p = next m p ∧ entry s'.mem p = (id, c) := by
  have hk := I.chain.1
  have hchain := I.chain
  rw [hk] at hchain
  obtain ⟨pre, hpre⟩ := exists_getLastD k ns
  have hy : ns.getLastD k ∈ k :: ns := by
    rw [hpre]
    exact List.mem_append_right _ (List.mem_singleton_self _)
  simp only [addProcess, hk, lastAndPid_ok hchain (Nat.lt_of_succ_lt I.length_lt), Option.bind_eq_bind,
    Option.bind_some,
    I.ids] at h
  obtain ⟨⟨p, alloc, m⟩, hmalloc, h⟩ := Option.bind_eq_some_iff.mp h
  simp only at h
  split at h
  · cases h
  rename_i hp
  obtain ⟨rfl, rfl⟩ := Prod.ext_iff.mp (Option.some.inj h)
  obtain ⟨hown, hkeep⟩ := L.malloc I.owns (by decide) hmalloc
  rw [if_neg hp] at hown
  replace hown : Owns alloc m (node p :: ((k :: ns).map node ++ (ps.map Process.ctx ++ others))) := hown
  have hpw : Disjoint (node p).addresses (node (ns.getLastD k)).addresses :=
    (List.pairwise_cons.mp (L.disjoint hown)).1 _ (List.mem_append_left _ (List.mem_map_of_mem hy))
  have hp12 : p.toNat + 12 ≤ 2 ^ 32 := L.fits hown (node p) List.mem_cons_self
  exact ⟨rfl, rfl, hk.symm, p, m, hmalloc, hp, hown, hkeep,
    link_ok m c (nextId 1 (ps.map Process.pid)) (I.fits L hy) hp12 hpw⟩

/-- Whatever is in the new node, it is a block now. -/
theorem Inv.add_owns (L : A.Lawful Owns) (I : Inv Owns s k ns ps others) {c : Addr} {id : Word}
    (h : addProcess A s c = some (id, s')) : ∃ p, next s'.mem (ns.getLastD k) = p ∧
      Owns s'.alloc s'.mem (node p :: ((k :: ns).map node ++ (ps.map Process.ctx ++ others))) := by
  obtain ⟨-, -, -, p, m, -, -, hown, -, hch, hny, -⟩ := I.add_step L h
  obtain ⟨pre, hpre⟩ := exists_getLastD k ns
  have hy : ns.getLastD k ∈ k :: ns := by
    rw [hpre]
    exact List.mem_append_right _ (List.mem_singleton_self _)
  refine ⟨p, hny, L.write hown (hch.mono (Set.union_subset ?_ (subset_footprint List.mem_cons_self)))⟩
  exact subset_footprint (List.mem_cons_of_mem _ (List.mem_append_left _ (List.mem_map_of_mem hy)))

theorem add_ok (L : A.Lawful Owns) (I : Inv Owns s k ns ps others) {b : Block} {id : Word}
    {others' : List Block} (hb : others.Perm (b :: others')) (h : addProcess A s b.ptr = some (id, s')) :
    id = nextId 1 (ps.map Process.pid) ∧
      ∃ p nx, freshNext A s = some nx ∧ next s'.mem p = nx ∧
        (nx = 0 → Inv Owns s' k (ns ++ [p]) (ps ++ [⟨id, b⟩]) others') ∧
          ∀ es, Holds s' es → es.length = ns.length + 2 → nx = 0 := by
  obtain ⟨hid, hctx, hproc, p, m, hmalloc, hp, hown, hkeep, hch, hny, hey, hnp, hep⟩ := I.add_step L h
  obtain ⟨p', hp', howns'⟩ := I.add_owns L h
  obtain rfl := hny.symm.trans hp'
  have hchain := I.chain
  rw [I.chain.1] at hchain hproc
  obtain ⟨pre, hpre⟩ := exists_getLastD k ns
  generalize ns.getLastD k = y at *
  have hy : y ∈ k :: ns := by
    rw [hpre]
    exact List.mem_append_right _ (List.mem_singleton_self _)
  have hnodup := I.chain.nodup
  rw [hpre] at hnodup
  -- what is in the other nodes is as it was
  have hother : ∀ x ∈ pre, next s'.mem x = next s.mem x ∧ entry s'.mem x = entry s.mem x := fun x hx =>
    I.keep_other L hown hkeep hch hy (by rw [hpre]; exact List.mem_append_left _ hx)
      ((List.nodup_append.mp hnodup).2.2 x hx y (List.mem_singleton_self _))
  have hentry : ∀ x ∈ k :: ns, entry s'.mem x = entry s.mem x := fun x hx => by
    rw [hpre] at hx
    rcases List.mem_append.mp hx with hx | hx
    · exact (hother x hx).2
    · rw [List.mem_singleton.mp hx, hey]
      exact (words_keep hkeep (List.mem_append_left _ (List.mem_map_of_mem hy)) (I.fits L hy)).2
  refine ⟨hid, p, next m p, ?_, hnp, fun h0 => ?_, fun es ⟨nodes, hc, he⟩ hlen => ?_⟩
  · rw [freshNext, hmalloc]
    rfl
  · refine ⟨?_, (hentry k List.mem_cons_self).trans (I.kernel.trans (by rw [hctx])), ?_, L.perm howns' ?_⟩
    · rw [hpre] at hchain
      have hsnoc : Chain (next s'.mem) 0 k (pre ++ [y] ++ [p]) :=
        hchain.snoc hp (fun z hz => (hother z hz).1) hny (hnp.trans h0)
      rw [hproc]
      rwa [← hpre, List.cons_append] at hsnoc
    · rw [List.map_append, List.map_append, ← I.entries, List.map_singleton, List.map_singleton]
      exact congrArg₂ _ (List.map_congr_left fun x hx => hentry x (List.mem_cons_of_mem _ hx))
        (congrArg (fun e => [e]) hep)
    · apply List.perm_iff_count.mpr
      intro c
      have := hb.count_eq c
      simp only [List.map_append, List.map_cons, List.map_nil, List.count_cons, List.count_append,
        List.count_nil] at this ⊢
      omega
  · replace hc : Chain (next s'.mem) 0 k nodes := hproc ▸ hc
    rw [hpre] at hchain
    obtain ⟨zs, rfl⟩ := hchain.exists_append (fun z hz => (hother z hz).1) (by rwa [hny]) hc
    have hlength := congrArg List.length hpre
    rw [← he] at hlen
    simp only [List.length_map, List.length_cons, List.length_append, List.length_nil] at hlen hlength
    obtain rfl := List.length_eq_zero_iff.mp (show zs.length = 0 by omega)
    rw [hny] at hc
    have hc' : Chain (next s'.mem) 0 k ((pre ++ [y]) ++ p :: []) := by simpa using hc
    exact hnp.symm.trans hc'.next_eq

/-! ## `remove_process` and `get_ctx` -/

/-- The nodes that the loops stop at, and the processes there. -/
theorem Inv.split (I : Inv Owns s k ns ps others) (id : Word) :
    (ns.takeWhile fun x => decide (pid s.mem x < id)).map (entry s.mem) =
        (ps.takeWhile (·.pid < id)).map Process.entry ∧
      (ns.dropWhile fun x => decide (pid s.mem x < id)).map (entry s.mem) =
        (ps.dropWhile (·.pid < id)).map Process.entry := by
  have ht := congrArg (List.takeWhile fun e => decide (e.1 < id)) I.entries
  have hd := congrArg (List.dropWhile fun e => decide (e.1 < id)) I.entries
  rw [List.takeWhile_map, List.takeWhile_map] at ht
  rw [List.dropWhile_map, List.dropWhile_map] at hd
  exact ⟨ht, hd⟩

/-- A node is linked to another one. Nothing else in the nodes changes. -/
theorem Inv.link_ok (L : A.Lawful Owns) (I : Inv Owns s k ns ps others) (hy : y ∈ k :: ns) (v : Word) :
    Owns s.alloc (s.mem.store32 y v) ((k :: ns).map node ++ (ps.map Process.ctx ++ others)) ∧
      next (s.mem.store32 y v) y = v ∧
      ∀ x ∈ k :: ns, entry (s.mem.store32 y v) x = entry s.mem x ∧
        (x ≠ y → next (s.mem.store32 y v) x = next s.mem x) := by
  have hblock : ∀ x ∈ k :: ns, node x ∈ (k :: ns).map node ++ (ps.map Process.ctx ++ others) := fun x hx =>
    List.mem_append_left _ (List.mem_map_of_mem hx)
  have hch : Changes (node y).addresses s.mem (s.mem.store32 y v) := store_next (I.fits L hy)
  refine ⟨L.write I.owns (hch.mono (subset_footprint (hblock y hy))), load32_store32_self _ _ _, fun x hx => ?_⟩
  by_cases hxy : x = y
  · rw [hxy]
    exact ⟨entry_store_next, fun h => absurd rfl h⟩
  · have hd := L.disjoint_of_ne I.owns (hblock y hy) (hblock x hx) fun e => hxy (congrArg Block.ptr e).symm
    obtain ⟨hn, he⟩ := words_keep (keeps_of_changes hch subset_rfl (List.forall_mem_singleton.mpr hd))
      (List.mem_singleton_self _) (I.fits L hx)
    exact ⟨he, fun _ => hn⟩

/-- Two blocks are freed. -/
theorem free_free (L : A.Lawful Owns) {b c : Block} (h : Owns alloc m (b :: c :: live)) :
    Owns (A.free (A.free alloc m b.ptr).1 (A.free alloc m b.ptr).2 c.ptr).1
        (A.free (A.free alloc m b.ptr).1 (A.free alloc m b.ptr).2 c.ptr).2 live ∧
      Keeps live m (A.free (A.free alloc m b.ptr).1 (A.free alloc m b.ptr).2 c.ptr).2 := by
  obtain ⟨hown, hkeep⟩ := L.free h
  obtain ⟨hown', hkeep'⟩ := L.free hown
  exact ⟨hown', (hkeep.mono (List.subset_cons_self _ _)).trans hkeep'⟩

/-- The node after `y` is unlinked, and it and its context are freed. -/
theorem Inv.unlink_ok (L : A.Lawful Owns) {bs rest pre : List Addr} {before rs : List Process} {q : Addr} {r : Process}
    (I : Inv Owns s k (bs ++ q :: rest) (before ++ r :: rs) others) (hpre : k :: bs = pre ++ [y])
    (hbefore : bs.map (entry s.mem) = before.map Process.entry) (hq : entry s.mem q = r.entry)
    (hrest : rest.map (entry s.mem) = rs.map Process.entry) :
    let m := s.mem.store32 y (next s.mem q)
    let f := A.free (A.free s.alloc m r.ctx.ptr).1 (A.free s.alloc m r.ctx.ptr).2 q
    ctx m q = r.ctx.ptr ∧ Inv Owns ⟨f.1, f.2, s.kernelCtx, k⟩ k (bs ++ rest) (before ++ rs) others := by
  intro m f
  have hchain := I.chain
  rw [I.chain.1] at hchain
  have hlist : k :: (bs ++ q :: rest) = pre ++ y :: q :: rest := by
    rw [← List.cons_append, hpre, List.append_assoc, List.singleton_append]
  have hnew : k :: (bs ++ rest) = pre ++ y :: rest := by
    rw [← List.cons_append, hpre, List.append_assoc, List.singleton_append]
  rw [hlist] at hchain
  have hmem : ∀ x ∈ k :: (bs ++ rest), x ∈ k :: (bs ++ q :: rest) := fun x hx =>
    (((List.sublist_cons_self q rest).append_left bs).cons_cons k).subset hx
  have hy : y ∈ k :: (bs ++ rest) := hnew ▸ List.mem_append_right _ List.mem_cons_self
  have hqm : q ∈ k :: (bs ++ q :: rest) := List.mem_cons_of_mem _ (List.mem_append_right _ List.mem_cons_self)
  -- the blocks that are left
  have hlive : ((k :: (bs ++ q :: rest)).map node ++ ((before ++ r :: rs).map Process.ctx ++ others)).Perm
      (r.ctx :: node q :: ((k :: (bs ++ rest)).map node ++ ((before ++ rs).map Process.ctx ++ others))) := by
    apply List.perm_iff_count.mpr
    intro c
    simp only [List.map_append, List.map_cons, List.count_cons, List.count_append]
    omega
  obtain ⟨hown, hny, hstore⟩ := I.link_ok L (hmem y hy) (next s.mem q)
  obtain ⟨hown, hkeep⟩ := free_free L (L.perm hown hlive)
  change Owns f.1 f.2 _ at hown
  change Keeps _ m f.2 at hkeep
  have hfree : ∀ x ∈ k :: (bs ++ rest), next f.2 x = next m x ∧ entry f.2 x = entry m x := fun x hx =>
    words_keep hkeep (List.mem_append_left _ (List.mem_map_of_mem hx)) (I.fits L (hmem x hx))
  have hentry : ∀ x ∈ k :: (bs ++ rest), entry f.2 x = entry s.mem x := fun x hx =>
    (hfree x hx).2.trans (hstore x (hmem x hx)).1
  refine ⟨congrArg Prod.snd ((hstore q hqm).1.trans hq), ?_, (hentry k List.mem_cons_self).trans I.kernel, ?_, hown⟩
  · rw [hnew]
    obtain ⟨-, hnodup, hpre'⟩ := List.nodup_append.mp hchain.nodup
    refine hchain.unlink (fun z hz => ?_) ((hfree y hy).1.trans hny)
    have hzy : z ≠ y := by
      rintro rfl
      rcases List.mem_append.mp hz with hz | hz
      · exact hpre' z hz z List.mem_cons_self rfl
      · exact (List.nodup_cons.mp hnodup).1 (List.mem_cons_of_mem _ hz)
    have hz' : z ∈ k :: (bs ++ rest) := by
      rw [hnew]
      rcases List.mem_append.mp hz with hz | hz
      · exact List.mem_append_left _ hz
      · exact List.mem_append_right _ (List.mem_cons_of_mem _ hz)
    exact (hfree z hz').1.trans ((hstore z (hmem z hz')).2 hzy)
  · rw [List.map_append, List.map_append, ← hbefore, ← hrest, ← List.map_append, ← List.map_append]
    exact List.map_congr_left fun x hx => hentry x (List.mem_cons_of_mem _ hx)

theorem remove_ok (L : A.Lawful Owns) (I : Inv Owns s k ns ps others) (id : Word) :
    ∃ s' ns', removeProcess A s id = some s' ∧ Inv Owns s' k ns' (removeFirst ps id) others := by
  have hk := I.chain.1
  have hchain := I.chain
  rw [hk] at hchain
  obtain ⟨hbefore, hafter⟩ := I.split id
  have hwalk := hchain.walk_ahead (c := fun x => decide (pid s.mem x < id)) (Nat.lt_of_succ_lt I.length_lt)
  have hns := List.takeWhile_append_dropWhile (p := fun x => decide (pid s.mem x < id)) (l := ns)
  have hps := List.takeWhile_append_dropWhile (p := fun q : Process => decide (q.pid < id)) (l := ps)
  simp only [removeProcess, hk, hwalk, Option.bind_eq_bind, Option.bind_some]
  generalize ns.takeWhile (fun x => decide (pid s.mem x < id)) = bs at *
  generalize ns.dropWhile (fun x => decide (pid s.mem x < id)) = rest at *
  obtain ⟨pre, hpre⟩ := exists_getLastD k bs
  generalize bs.getLastD k = y at *
  have hlist : k :: ns = pre ++ y :: rest := by
    rw [← hns, ← List.cons_append, hpre, List.append_assoc, List.singleton_append]
  rw [hlist] at hchain
  have hnext : next s.mem y = rest.headD 0 := hchain.next_eq
  cases rest with
  | nil =>
    refine ⟨s, ns, if_pos hnext, ?_⟩
    have hd : ps.dropWhile (·.pid < id) = [] := List.map_eq_nil_iff.mp hafter.symm
    rw [hd, List.append_nil] at hps
    rw [removeFirst, hd, List.tail_nil, List.append_nil, hps]
    exact I
  | cons q rest =>
    replace hnext : next s.mem y = q := hnext
    have hq : q ≠ 0 := hchain.ne_null (List.mem_append_right _ (List.mem_cons_of_mem _ List.mem_cons_self))
    cases hdrop : ps.dropWhile (·.pid < id) with
    | nil =>
      rw [hdrop] at hafter
      cases hafter
    | cons r rs =>
    rw [removeFirst, hdrop, List.tail_cons]
    rw [hdrop] at hafter hps
    generalize ps.takeWhile (fun q : Process => decide (q.pid < id)) = before at *
    obtain ⟨hqe, hrest⟩ := List.cons_eq_cons.mp hafter
    subst hns hps
    obtain ⟨hctx, I'⟩ := I.unlink_ok L hpre hbefore hqe hrest
    rw [if_neg (hnext ▸ hq), hnext, hctx]
    exact ⟨_, bs ++ rest, rfl, I'⟩

theorem get_ok (I : Inv Owns s k ns ps others) (id : Word) :
    getCtx s id = some (found ((0, s.kernelCtx) :: ps.map Process.entry) id) := by
  have hchain := I.chain
  rw [I.chain.1] at hchain
  have hes : (k :: ns).map (entry s.mem) = (0, s.kernelCtx) :: ps.map Process.entry := by
    rw [List.map_cons, I.kernel, I.entries]
  simp only [getCtx, I.chain.1, hchain.walk_dropWhile (c := fun x => decide (pid s.mem x < id)) I.length_lt,
    Option.bind_eq_bind, Option.bind_some]
  rw [found, ← hes, List.dropWhile_map]
  have hne : ∀ x ∈ (k :: ns).dropWhile fun x => decide (pid s.mem x < id), x ≠ 0 := fun x hx =>
    hchain.ne_null (List.dropWhile_sublist _ |>.subset hx)
  show _ = some (((List.map _ ((k :: ns).dropWhile fun x => decide (pid s.mem x < id))).head?.map _).getD 0)
  generalize (k :: ns).dropWhile (fun x => decide (pid s.mem x < id)) = rest at *
  cases rest with
  | nil => exact if_pos rfl
  | cons x rest => exact if_neg (hne x List.mem_cons_self)

/-! ## `init_process_management` -/

theorem init_ok (L : A.Lawful Owns) (h : Owns alloc m live) (hs : initProcessManagement A alloc m = some s) :
    Inv Owns s s.processes [] [] (if s.kernelCtx = 0 then live else ⟨s.kernelCtx, 24⟩ :: live) := by
  obtain ⟨⟨c, alloc₁, m₁⟩, hmalloc, hs⟩ := Option.bind_eq_some_iff.mp hs
  obtain ⟨⟨p, alloc₂, m₂⟩, hcalloc, hs⟩ := Option.bind_eq_some_iff.mp hs
  cases hs
  have hown := (L.malloc h (by decide) hmalloc).1
  obtain ⟨hp, hown', -, hzero⟩ := calloc_ok L hown (by decide) hcalloc
  have hp12 : p.toNat + 12 ≤ 2 ^ 32 := L.fits hown' _ List.mem_cons_self
  have e8 : (p + 8).toNat = p.toNat + 8 := by
    rw [BitVec.toNat_add, show (8 : Word).toNat = 8 from rfl]
    omega
  have hpid : pid m₂ p = 0 := by
    refine load32_eq_zero (by omega) fun x hx => hzero x ?_
    rw [mem_range, e8] at hx
    show x.toNat ∈ range p 12
    rw [mem_range]
    omega
  have hctx := store_node (m := m₂) (v := c) 4 (by decide) hp12
  have hnext := store_next (m := m₂.store32 (p + 4) c) (v := 0) hp12
  have hall := hctx.trans hnext
  refine ⟨⟨rfl, hp, load32_store32_self _ _ _⟩, ?_, rfl,
    L.write hown' (hall.mono (subset_footprint List.mem_cons_self))⟩
  refine entry_store_next.trans (Prod.ext ?_ (load32_store32_self _ _ _))
  exact (load32_store32_offset 4 8 (by decide) (by decide)).trans hpid

end

end AlexOS.Processes
