import AlexOS.Stage2.Sectors

/-!
# Stage 1

The loop of `boot.asm` that loads stage 2. A table at the end of the boot sector
has the extents of stage 2 on the drive: the number of the first sector, and how
many there are, up to an extent that starts at sector 0. They are read one after
the other to memory from 0x500 on, by function 42h of the BIOS, or 02h if there
are no extensions; each read is tried three times, and if that fails a key is
waited for to reboot.

If the extents end before the stack, stage 2 is there when it is jumped to,
whatever the BIOS answers (`loadStage2_ok`). The table has room for six extents,
but for none to end it then: the boot signature after it is taken for a seventh
(`seventh_extent`).

What is pushed is popped, and the packet for function 42h is its arguments:
neither is in the memory of the model.
-/

namespace AlexOS.Stage1

open Bios (Service Machine Int13 Lawful)

def STAGE2_LOAD_SEGMENT : BitVec 16 := 0x0
def STAGE2_LOAD_OFFSET : BitVec 16 := 0x500

/-- The boot sector is at 0x7C00. -/
def stage2Pos : BitVec 16 := 0x7C00 + 480

/-- The service that `disk_read` asks for. -/
def readService (extension : Bool) (eax : Word) (cl dl : Byte) (es bx : BitVec 16) : Option Service :=
  if extension then some (.extendedRead eax.toNat cl.toNat ⟨es, bx⟩)
  else (lba2Chs ⟨eax.setWidth 16, cl.setWidth 16, dl.setWidth 16⟩).map fun r =>
    .read (Stage2.biosChs r) cl.toNat ⟨es, bx⟩

inductive Outcome
  /-- Stage 2 is jumped to. -/
  | stage2 (s : Machine)
  | floppyError

def Outcome.jumps : Outcome → Bool
  | .stage2 _ => true
  | .floppyError => false

/-- The loop over the table, from `si` on. Nothing is returned after so many rounds. -/
def loadLoop (int13 : Int13) (extension : Bool) (dl : Byte) : Nat → BitVec 16 → BitVec 16 → Machine →
    Option Outcome
  | 0, _, _, _ => none
  | n + 1, si, es, s => do
    let eax := s.mem.load32 (si.setWidth 32)
    let cl := s.mem ((si + 4).setWidth 32)
    if eax = 0 then some (.stage2 s) else
    let f ← readService extension eax cl dl es STAGE2_LOAD_OFFSET
    let r := Bios.retry int13 f 3 s
    if r.1 then loadLoop int13 extension dl n (si + 4 + 1) (es + cl.setWidth 16 <<< 5) r.2 else some .floppyError

def loadStage2 (int13 : Int13) (extension : Bool) (dl : Byte) (fuel : Nat) (s : Machine) : Option Outcome :=
  loadLoop int13 extension dl fuel stage2Pos STAGE2_LOAD_SEGMENT s

/-! ## Extents -/

structure Extent where
  lba : Word
  size : Byte

/-- Extent `k` of the table. -/
def extentAt (m : Mem) (k : Nat) : Extent :=
  ⟨m.load32 (BitVec.ofNat 32 (0x7DE0 + 5 * k)), m (BitVec.ofNat 32 (0x7DE0 + 5 * k + 4))⟩

/-- The sectors of some extents. -/
def sectorsOf (es : List Extent) : Nat := (es.map fun e => e.size.toNat).sum

/-- The extents are in the table, with an extent after them that ends it. -/
structure HasTable (m : Mem) (es : List Extent) : Prop where
  length_le : es.length ≤ 5
  entry : ∀ k (hk : k < es.length), extentAt m k = es[k]
  lba_ne : ∀ e ∈ es, e.lba ≠ 0
  last : (extentAt m es.length).lba = 0

/-- The extents are in memory, one after the other. -/
def Loaded (d : Drive) (m : Mem) : Nat → List Extent → Prop
  | _, [] => True
  | a, e :: es => Bios.Holds d e.lba.toNat e.size.toNat (BitVec.ofNat 32 a) m ∧ Loaded d m (a + 512 * e.size.toNat) es

/-- The sectors that can be asked for. -/
def Readable (extension : Bool) (d : Drive) (e : Extent) : Prop :=
  extension = true ∨ d.geometry = floppy ∧ e.lba.toNat < 9216

section

variable {int13 : Int13} {d : Drive} {W : Set Nat} {extension : Bool} {dl cl : Byte} {lba : Word} {es bx si : BitVec 16}
  {m m' : Mem} {s t : Machine} {f : Service} {e : Extent} {xs ys : List Extent} {a k n : Nat}

/-- What is asked for are the sectors of the extent. -/
theorem transfers_readService (dl : Byte) (es bx : BitVec 16) (hx : Readable extension d e) :
    ∃ f, readService extension e.lba e.size dl es bx = some f ∧
      Bios.Transfers d f e.lba.toNat e.size.toNat ⟨es, bx⟩ := by
  unfold readService
  cases extension with
  | true => exact ⟨_, rfl, rfl, rfl, rfl⟩
  | false =>
    obtain ⟨hg, hlt⟩ := hx.resolve_left Bool.false_ne_true
    have hax : (e.lba.setWidth 16).toNat = e.lba.toNat := by
      rw [BitVec.toNat_setWidth]
      omega
    obtain ⟨r, hr, hchs, -, -⟩ := lba2Chs_ok (r := ⟨e.lba.setWidth 16, e.size.setWidth 16, dl.setWidth 16⟩)
      (hax.trans_lt hlt)
    have hv := floppy.valid_chs (n := e.lba.toNat) (by decide) (by decide)
    have hc := Geometry.cylinder_lt (g := floppy) (c := 256) (n := e.lba.toNat) hlt
    rw [hax] at hchs
    -- the sector takes fewer than six bits of `cl`
    have hbios : Stage2.biosChs r = chsOf r := by
      have hsector : r.cl.toNat ≤ 18 := by
        have := hv.sector_le
        rw [← hchs] at this
        exact this
      have hlow : (r.cl &&& 0x3F).toNat = r.cl.toNat := by
        rw [BitVec.toNat_and, show (0x3F : Byte).toNat = 2 ^ 6 - 1 from rfl, Nat.and_two_pow_sub_one_eq_mod]
        omega
      have hhigh : (r.cl >>> 6).toNat = 0 := by
        rw [BitVec.toNat_ushiftRight, Nat.shiftRight_eq_div_pow]
        omega
      rw [Stage2.biosChs, chsOf, hlow, hhigh, Nat.zero_mul, Nat.zero_add]
    rw [hr]
    refine ⟨_, rfl, ?_, ?_, rfl, rfl⟩
    · rw [hbios, hchs, hg]
      exact hv
    · rw [hbios, hchs, hg, Geometry.lba_chs]

/-! ## The table -/

theorem setWidth_ofNat (h : n < 2 ^ 16) : (BitVec.ofNat 16 n).setWidth 32 = BitVec.ofNat 32 n := by
  apply BitVec.eq_of_toNat_eq
  rw [BitVec.toNat_setWidth, BitVec.toNat_ofNat, BitVec.toNat_ofNat]
  omega

/-- The extents are not where stage 2 is loaded, nor on the stack. -/
theorem extentAt_changes {S : Set Nat} (h : Mem.Changes S m m') (hS : ∀ k ∈ S, k < 0x7C00) (hk : k ≤ 5) :
    extentAt m' k = extentAt m k := by
  have hn : (BitVec.ofNat 32 (0x7DE0 + 5 * k)).toNat = 0x7DE0 + 5 * k := by
    rw [BitVec.toNat_ofNat]
    omega
  have hout : ∀ j, 0x7DE0 ≤ j → j ∉ S := fun j hj hjS => by
    have := hS j hjS
    omega
  rw [extentAt, extentAt, h.load32 (by omega) fun i _ => hout _ (by omega), h _ (hout _ (by
    rw [BitVec.toNat_ofNat, Nat.mod_eq_of_lt (by omega)]
    omega))]

/-- The extents that are left, from number `k` on. -/
structure TableFrom (m : Mem) (k : Nat) (ys : List Extent) : Prop where
  length_le : k + ys.length ≤ 5
  entry : ∀ j (hj : j < ys.length), extentAt m (k + j) = ys[j]
  lba_ne : ∀ e ∈ ys, e.lba ≠ 0
  last : (extentAt m (k + ys.length)).lba = 0

namespace TableFrom

theorem changes {S : Set Nat} (T : TableFrom m k ys) (h : Mem.Changes S m m') (hS : ∀ k ∈ S, k < 0x7C00) :
    TableFrom m' k ys where
  length_le := T.length_le
  entry j hj := (extentAt_changes h hS (by have := T.length_le; omega)).trans (T.entry j hj)
  lba_ne := T.lba_ne
  last := by rw [extentAt_changes h hS T.length_le, T.last]

theorem tail (T : TableFrom m k (e :: ys)) : TableFrom m (k + 1) ys where
  length_le := by
    have := T.length_le
    rw [List.length_cons] at this
    omega
  entry j hj := by
    have := T.entry (j + 1) (Nat.succ_lt_succ hj)
    rwa [← Nat.add_assoc, Nat.add_right_comm, List.getElem_cons_succ] at this
  lba_ne x hx := T.lba_ne x (List.mem_cons_of_mem e hx)
  last := by
    have := T.last
    rwa [List.length_cons, ← Nat.add_assoc, Nat.add_right_comm] at this

end TableFrom

/-- A round looks at an extent. -/
theorem loadLoop_succ (hk : k ≤ 5) : loadLoop int13 extension dl (n + 1) (BitVec.ofNat 16 (0x7DE0 + 5 * k)) es s =
    let e := extentAt s.mem k
    if e.lba = 0 then some (.stage2 s) else
      (readService extension e.lba e.size dl es STAGE2_LOAD_OFFSET).bind fun f =>
        let r := Bios.retry int13 f 3 s
        if r.1 then loadLoop int13 extension dl n (BitVec.ofNat 16 (0x7DE0 + 5 * (k + 1)))
          (es + e.size.setWidth 16 <<< 5) r.2
        else some .floppyError := by
  have hsi : BitVec.ofNat 16 (0x7DE0 + 5 * k) + 4 = BitVec.ofNat 16 (0x7DE0 + 5 * k + 4) := (BitVec.ofNat_add _ 4).symm
  have hnext : BitVec.ofNat 16 (0x7DE0 + 5 * k + 4) + 1 = BitVec.ofNat 16 (0x7DE0 + 5 * (k + 1)) :=
    (BitVec.ofNat_add _ 1).symm
  rw [loadLoop, hsi, hnext, setWidth_ofNat (by omega), setWidth_ofNat (by omega)]
  rfl

/-! ## The loop -/

/-- Memory before the stack, above what is loaded. -/
theorem Loaded.changes {S : Set Nat} (H : Loaded d m a ys) (h : Mem.Changes S m m')
    (hS : ∀ k ∈ S, k < a ∨ a + 512 * sectorsOf ys ≤ k)
    (hlt : a + 512 * sectorsOf ys < 2 ^ 32) : Loaded d m' a ys := by
  induction ys generalizing a with
  | nil => trivial
  | cons e ys ih =>
    have hsum : sectorsOf (e :: ys) = e.size.toNat + sectorsOf ys := List.sum_cons
    rw [hsum] at hS hlt
    refine ⟨fun i hi => ?_, ih H.2 (fun k hk => ?_) (by omega)⟩
    · rw [h _ fun hk => ?_]
      · exact H.1 i hi
      · have := hS _ hk
        rw [BitVec.toNat_add, BitVec.toNat_ofNat, BitVec.toNat_ofNat] at this
        omega
    · have := hS k hk
      omega

/-- The extents that are left are read to memory after those before, of `n` sectors. -/
theorem loadLoop_ok (dl : Byte) (L : Lawful int13 d W) (hW : ∀ k ∈ W, 0x7A00 ≤ k ∧ k < 0x7C00)
    (T : TableFrom s.mem k ys) (hx : ∀ e ∈ ys, Readable extension d e)
    (hn : 0x500 + 512 * (n + sectorsOf ys) ≤ 0x7A00) :
    ∃ o, loadLoop int13 extension dl (ys.length + 1) (BitVec.ofNat 16 (0x7DE0 + 5 * k)) (BitVec.ofNat 16 (32 * n)) s =
      some o ∧
      (o = .floppyError → ∃ e ∈ ys, ∃ es f t,
        readService extension e.lba e.size dl es STAGE2_LOAD_OFFSET = some f ∧
        (Bios.retry int13 f 3 t).1 = false) ∧
      ∀ t, o = .stage2 t → Loaded d t.mem (0x500 + 512 * n) ys ∧
        Mem.Changes (W ∪ Set.Ico (0x500 + 512 * n) (0x500 + 512 * (n + sectorsOf ys))) s.mem t.mem := by
  induction ys generalizing k n s with
  | nil =>
    have hround : loadLoop int13 extension dl 1 (BitVec.ofNat 16 (0x7DE0 + 5 * k)) (BitVec.ofNat 16 (32 * n)) s = _ :=
      loadLoop_succ T.length_le
    have hend : (extentAt s.mem k).lba = 0 := T.last
    refine ⟨.stage2 s, hround.trans (if_pos hend), ?_, ?_⟩
    · intro h
      cases h
    · intro t ht
      cases ht
      exact ⟨trivial, .refl _ _⟩
  | cons e ys ih =>
    have hsum : sectorsOf (e :: ys) = e.size.toNat + sectorsOf ys := List.sum_cons
    rw [hsum] at hn
    have hlen := T.length_le
    rw [List.length_cons] at hlen
    have he : extentAt s.mem k = e := T.entry 0 (Nat.succ_pos _)
    obtain ⟨f, hf, hT⟩ := transfers_readService dl (BitVec.ofNat 16 (32 * n)) STAGE2_LOAD_OFFSET
      (hx e (List.mem_cons_self ..))
    have hround : loadLoop int13 extension dl (ys.length + 1 + 1) (BitVec.ofNat 16 (0x7DE0 + 5 * k))
        (BitVec.ofNat 16 (32 * n)) s = _ := loadLoop_succ (by omega)
    rw [he] at hround
    dsimp only at hround
    rw [if_neg (T.lba_ne e (List.mem_cons_self ..)), hf, Option.bind_some] at hround
    -- the sectors go behind those before
    have hlinear : FarPointer.linear ⟨BitVec.ofNat 16 (32 * n), STAGE2_LOAD_OFFSET⟩ = 0x500 + 512 * n := by
      rw [FarPointer.linear, BitVec.toNat_ofNat, show STAGE2_LOAD_OFFSET.toNat = 0x500 from rfl]
      omega
    have haddr : FarPointer.address ⟨BitVec.ofNat 16 (32 * n), STAGE2_LOAD_OFFSET⟩ =
        BitVec.ofNat 32 (0x500 + 512 * n) := by
      rw [FarPointer.address, hlinear]
    have hregion : ∀ k, k ∈ FarPointer.region ⟨BitVec.ofNat 16 (32 * n), STAGE2_LOAD_OFFSET⟩ e.size.toNat ↔
        0x500 + 512 * n ≤ k ∧ k < 0x500 + 512 * (n + e.size.toNat) := fun k => by
      rw [FarPointer.region, haddr, Mem.mem_range, BitVec.toNat_ofNat]
      omega
    have F : Bios.Fits ⟨BitVec.ofNat 16 (32 * n), STAGE2_LOAD_OFFSET⟩ e.size.toNat := by
      refine ⟨?_, by rw [hlinear]; omega⟩
      rw [show STAGE2_LOAD_OFFSET.toNat = 0x500 from rfl]
      omega
    have happart : ∀ k ∈ FarPointer.region
      ⟨BitVec.ofNat 16 (32 * n), STAGE2_LOAD_OFFSET⟩ e.size.toNat, k ∉ W := by
      intro k hk hkW
      have h1 := (hregion k).mp hk
      have h2 := hW k hkW
      omega
    have hchanges := Bios.retry_changes L hT F 3 s
    have hholds := Bios.retry_ok (n := 3) (s := s) L hT F happart
    rw [haddr] at hholds
    rw [List.length_cons, hround]
    cases hread : (Bios.retry int13 f 3 s).1 with
    | false =>
      rw [if_neg Bool.false_ne_true]
      exact ⟨.floppyError, rfl, fun _ => ⟨e, List.mem_cons_self .., _, f, s, hf, hread⟩,
        fun t ht => by cases ht⟩
    | true =>
      rw [if_pos rfl]
      have hes : BitVec.ofNat 16 (32 * n) + e.size.setWidth 16 <<< 5 = BitVec.ofNat 16 (32 * (n + e.size.toNat)) := by
        have hlt := e.size.isLt
        apply BitVec.eq_of_toNat_eq
        rw [BitVec.toNat_add, BitVec.toNat_shiftLeft, BitVec.toNat_setWidth, BitVec.toNat_ofNat, BitVec.toNat_ofNat,
          Nat.shiftLeft_eq]
        omega
      have hbelow : ∀ k ∈ W ∪ FarPointer.region ⟨BitVec.ofNat 16 (32 * n), STAGE2_LOAD_OFFSET⟩ e.size.toNat,
          k < 0x7C00 := by
        intro k hk
        rcases hk with hk | hk
        · exact (hW k hk).2
        · have := (hregion k).mp hk
          omega
      rw [hes]
      obtain ⟨o, ho, herror, hok⟩ :=
        ih (T.tail.changes hchanges hbelow) (fun x hx' => hx x (List.mem_cons_of_mem e hx'))
        (show 0x500 + 512 * (n + e.size.toNat + sectorsOf ys) ≤ 0x7A00 by omega)
      refine ⟨o, ho, fun h => ?_, fun t ht => ?_⟩
      · obtain ⟨x, hx', hfail⟩ := herror h
        exact ⟨x, List.mem_cons_of_mem e hx', hfail⟩
      · obtain ⟨hloaded, hrest⟩ := hok t ht
        have hnext : 0x500 + 512 * n + 512 * e.size.toNat = 0x500 + 512 * (n + e.size.toNat) := by omega
        refine ⟨⟨fun i hi => ?_, hnext ▸ hloaded⟩, ?_⟩
        · rw [hrest _ fun hk => ?_]
          · exact hholds hread i hi
          · have haddr' : (BitVec.ofNat 32 (0x500 + 512 * n) + BitVec.ofNat 32 i).toNat = 0x500 + 512 * n + i := by
              rw [BitVec.toNat_add, BitVec.toNat_ofNat, BitVec.toNat_ofNat]
              omega
            rw [haddr'] at hk
            rcases hk with hk | hk
            · have := hW _ hk
              omega
            · have := hk.1
              omega
        · refine (hchanges.mono fun k hk => ?_).trans (hrest.mono fun k hk => ?_)
          · rcases hk with hk | hk
            · exact .inl hk
            · have := (hregion k).mp hk
              exact .inr ⟨by omega, by omega⟩
          · rcases hk with hk | hk
            · exact .inl hk
            · have h1 := hk.1
              have h2 := hk.2
              exact .inr ⟨by omega, by omega⟩

/-- After six extents, the boot signature is another one. -/
theorem seventh_extent (h : m 0x7DFE = 0x55) : (extentAt m 6).lba ≠ 0 := by
  intro h0
  have hbyte := Mem.load32_byte (m := m) (a := 0x7DFE) (k := 0) (by decide)
  have hword : m.load32 0x7DFE = 0 := h0
  rw [hword, BitVec.add_zero, h] at hbyte
  exact absurd hbyte (by decide)

/-! ## Stage 2 in three sectors of a floppy disk -/

def bootMachine : Machine := ⟨0, fun a => if a = 0x7DE0 then 1 else if a = 0x7DE4 then 3 else 0⟩

theorem hasTable_bootMachine : HasTable bootMachine.mem [⟨1, 3⟩] where
  length_le := by decide
  entry k hk := by
    obtain rfl := Nat.lt_one_iff.mp hk
    rfl
  lba_ne e he := by
    rw [List.mem_singleton.mp he]
    decide
  last := by decide

end

end AlexOS.Stage1
