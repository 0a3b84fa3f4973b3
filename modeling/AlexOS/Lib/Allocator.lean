import AlexOS.Lib.Region
import Mathlib.Data.List.Pairwise
import Mathlib.Data.List.Perm.Basic

/-!
# Allocators

An allocator hands out blocks of a memory (`malloc`) and takes them back
(`free`). What its state and the memory have in common is up to it; `Owns` says
of both, and of a list of blocks, that these are handed out. A `Lawful`
allocator hands out blocks that are apart from each other, and leaves what is
in them alone, as long as their owners write to them only. So a word of a block
is as it was after `malloc`, after `free` of another block, and after a write
to another block (`Keeps.load32`).
-/

namespace AlexOS

/-- A block that is handed out. -/
structure Block where
  ptr : Addr
  size : Nat
deriving DecidableEq

namespace Block

def addresses (b : Block) : Set Nat := Mem.range b.ptr b.size

/-- The addresses of all blocks. -/
def footprint (live : List Block) : Set Nat := {x | ∃ b ∈ live, x ∈ b.addresses}

theorem subset_footprint {b : Block} {live : List Block} (hb : b ∈ live) : b.addresses ⊆ footprint live :=
  fun _ hx => ⟨b, hb, hx⟩

theorem footprint_mono {live live' : List Block} (h : live ⊆ live') : footprint live ⊆ footprint live' := by
  rintro x ⟨b, hb, hx⟩
  exact ⟨b, h hb, hx⟩

/-- What is in the blocks is the same in both memories. -/
def Keeps (live : List Block) (m m' : Mem) : Prop := ∀ x : Addr, x.toNat ∈ footprint live → m' x = m x

section

variable {live live' : List Block} {m m₁ m₂ : Mem} {a : Addr} {b : Block} {k : Nat}

namespace Keeps

theorem refl (live : List Block) (m : Mem) : Keeps live m m := fun _ _ => rfl

theorem trans (h₁ : Keeps live m m₁) (h₂ : Keeps live m₁ m₂) : Keeps live m m₂ :=
  fun x hx => (h₂ x hx).trans (h₁ x hx)

theorem mono (h : Keeps live m m₁) (hsub : live' ⊆ live) : Keeps live' m m₁ :=
  fun x ⟨b, hb, hx⟩ => h x ⟨b, hsub hb, hx⟩

/-- A word of a block. -/
theorem load32 (h : Keeps live m m₁) (hb : b ∈ live) (hk : k + 4 ≤ b.size)
    (hw : b.ptr.toNat + b.size ≤ 2 ^ 32) :
    m₁.load32 (b.ptr + BitVec.ofNat 32 k) = m.load32 (b.ptr + BitVec.ofNat 32 k) := by
  refine Mem.load32_congr fun i hi => h _ ⟨b, hb, ?_⟩
  rw [BitVec.add_assoc, ← BitVec.ofNat_add, addresses, Mem.mem_range,
    Mem.toNat_add_lt (show k + i < b.size by omega) hw]
  omega

end Keeps

/-- A write to a block keeps the others. -/
theorem keeps_of_changes {S : Set Nat} (h : Mem.Changes S m m₁) (hS : S ⊆ b.addresses)
    (hd : ∀ b' ∈ live, Disjoint b.addresses b'.addresses) : Keeps live m m₁ := by
  rintro x ⟨b', hb', hx⟩
  exact h x fun hin => Set.disjoint_left.mp (hd b' hb') (hS hin) hx

end

end Block

/-- `malloc`, with the size as its argument, and `free`. There is no result if `malloc` does not
return. -/
structure Allocator (σ : Type) where
  malloc : σ → Mem → Word → Option (Addr × σ × Mem)
  free : σ → Mem → Addr → σ × Mem

/-- `Owns s m live`: the blocks `live` are handed out. -/
structure Allocator.Lawful {σ : Type} (A : Allocator σ) (Owns : σ → Mem → List Block → Prop) : Prop where
  perm {s m live live'} : Owns s m live → live.Perm live' → Owns s m live'
  ptr_ne_zero {s m live} : Owns s m live → ∀ b ∈ live, b.ptr ≠ 0
  size_pos {s m live} : Owns s m live → ∀ b ∈ live, 0 < b.size
  fits {s m live} : Owns s m live → ∀ b ∈ live, b.ptr.toNat + b.size ≤ 2 ^ 32
  disjoint {s m live} : Owns s m live → live.Pairwise fun b b' => Disjoint b.addresses b'.addresses
  /-- The owners of blocks write to them. -/
  write {s m m' live} : Owns s m live → Mem.Changes (Block.footprint live) m m' → Owns s m' live
  malloc {s s' m m' live n p} : Owns s m live → n ≤ 0x7FFFFFFF → A.malloc s m n = some (p, s', m') →
    Owns s' m' (if p = 0 then live else ⟨p, n.toNat⟩ :: live) ∧ Block.Keeps live m m'
  free {s m b live} : Owns s m (b :: live) → Owns (A.free s m b.ptr).1 (A.free s m b.ptr).2 live ∧
    Block.Keeps live m (A.free s m b.ptr).2

namespace Allocator.Lawful

variable {σ : Type} {A : Allocator σ} {Owns : σ → Mem → List Block → Prop} {s : σ} {m : Mem}
  {live : List Block}

theorem disjoint_of_ne (L : A.Lawful Owns) (h : Owns s m live) {b b' : Block} (hb : b ∈ live) (hb' : b' ∈ live)
    (hne : b ≠ b') : Disjoint b.addresses b'.addresses :=
  have : Std.Symm fun b b' : Block => Disjoint b.addresses b'.addresses := ⟨fun _ _ hd => hd.symm⟩
  (L.disjoint h).forall hb hb' hne

end Allocator.Lawful

/-! ## An allocator that never uses memory again -/

/-- Its state is where the next block begins. -/
def bump : Allocator Nat where
  malloc top m n :=
    if n = 0 ∨ 2 ^ 32 ≤ top + n.toNat then some (0, top, m) else some (BitVec.ofNat 32 top, top + n.toNat, m)
  free top m _ := (top, m)

structure BumpOwns (top : Nat) (m : Mem) (live : List Block) : Prop where
  top_pos : 0 < top
  top_lt : top < 2 ^ 32
  size_pos : ∀ b ∈ live, 0 < b.size
  ptr_ne_zero : ∀ b ∈ live, b.ptr ≠ 0
  below : ∀ b ∈ live, b.ptr.toNat + b.size ≤ top
  disjoint : live.Pairwise fun b b' => Disjoint b.addresses b'.addresses

theorem bump_lawful : bump.Lawful BumpOwns where
  perm h hp :=
    ⟨h.top_pos, h.top_lt, fun b hb => h.size_pos b (hp.mem_iff.mpr hb),
      fun b hb => h.ptr_ne_zero b (hp.mem_iff.mpr hb), fun b hb => h.below b (hp.mem_iff.mpr hb),
      (hp.pairwise_iff fun hd => hd.symm).mp h.disjoint⟩
  ptr_ne_zero h := h.ptr_ne_zero
  size_pos h := h.size_pos
  fits h b hb := (h.below b hb).trans h.top_lt.le
  disjoint h := h.disjoint
  write h _ := ⟨h.top_pos, h.top_lt, h.size_pos, h.ptr_ne_zero, h.below, h.disjoint⟩
  malloc := by
    intro s s' m m' live n p h _ hm
    simp only [bump] at hm
    split at hm
    · cases hm
      exact ⟨h, Block.Keeps.refl _ _⟩
    rename_i hn
    cases hm
    have ht : (BitVec.ofNat 32 s).toNat = s := Nat.mod_eq_of_lt h.top_lt
    have hp : BitVec.ofNat 32 s ≠ 0 := fun e => h.top_pos.ne' (ht.symm.trans (congrArg BitVec.toNat e))
    have hpos : 0 < n.toNat := Nat.pos_of_ne_zero fun e => hn (.inl (BitVec.eq_of_toNat_eq e))
    rw [if_neg hp]
    refine ⟨⟨Nat.add_pos_left h.top_pos _, by omega, List.forall_mem_cons.mpr ⟨hpos, h.size_pos⟩,
      List.forall_mem_cons.mpr ⟨hp, h.ptr_ne_zero⟩, List.forall_mem_cons.mpr ⟨by rw [ht], fun b hb =>
        (h.below b hb).trans (Nat.le_add_right _ _)⟩, List.pairwise_cons.mpr ⟨fun b hb => ?_, h.disjoint⟩⟩,
      Block.Keeps.refl _ _⟩
    apply Set.disjoint_left.mpr
    intro x hx hx'
    have := h.below b hb
    rw [Block.addresses, Mem.mem_range] at hx hx'
    rw [ht] at hx
    omega
  free h := ⟨⟨h.top_pos, h.top_lt, (List.forall_mem_cons.mp h.size_pos).2,
    (List.forall_mem_cons.mp h.ptr_ne_zero).2,
    (List.forall_mem_cons.mp h.below).2, (List.pairwise_cons.mp h.disjoint).2⟩, Block.Keeps.refl _ _⟩

end AlexOS
