import AlexOS.Ata.Sectors

/-!
# The disk of a file system

`ata_read28` and `ata_write28` are the two functions of the `disk_t` that the
FAT driver is given, which asks for one sector at a time. As long as the drive
works, and the sectors of the partition are within the first 8 GiB or do not
cross a multiple of it (`Fits`), any requests get what a disk with the sectors
of the partition would give (`serve_ok`), and nothing else on the bus is
written.
-/

namespace AlexOS.Ata

/-- A call through `disk_t`, of one sector. -/
inductive Request
  | read (lba : Word) (out : Buffer)
  | write (lba : Word) (data : Buffer)

def Request.lba : Request → Word
  | .read lba _ => lba
  | .write lba _ => lba

/-- What a call returns, and the buffer after it. -/
def Request.serve (fuel : Nat) (ata : DiskAta) (d : Bus) : Request → Option ((Byte × Buffer) × Bus)
  | .read lba out => (ataRead28 fuel ata d lba 1 out).map fun r => ((r.1, r.2.1), r.2.2)
  | .write lba data => (ataWrite28 fuel ata d lba 1 data).map fun r => ((r.1, data), r.2)

def serve (fuel : Nat) (ata : DiskAta) : Bus → List Request → Option (List (Byte × Buffer) × Bus)
  | d, [] => some ([], d)
  | d, r :: rs => do
    let a ← r.serve fuel ata d
    let as ← serve fuel ata a.2 rs
    some (a.1 :: as.1, as.2)

/-- The same of a disk. -/
def Request.onDisk (D : Disk) : Request → (Bool × Buffer) × Disk
  | .read lba out => (D.read lba out, D)
  | .write lba data => (((D.write lba data).1, data), (D.write lba data).2)

def onDisk : Disk → List Request → List (Bool × Buffer) × Disk
  | D, [] => ([], D)
  | D, r :: rs => ((r.onDisk D).1 :: (onDisk (r.onDisk D).2 rs).1, (onDisk (r.onDisk D).2 rs).2)

/-- The sectors of a partition are on the disk, and have the upper bits that they have in the partition. -/
structure Fits (po n : Nat) : Prop where
  inside : po + n ≤ 2 ^ 28
  upper : ∀ l < n, l / 2 ^ 24 = (po + l) / 2 ^ 24

/-- The first `n` sectors of the partition are those of a disk that does not fail. -/
structure Represents (ata : DiskAta) (n : Nat) (d : Bus) (D : Disk) : Prop where
  attached : Attached ata d.base
  working : Working d
  sectors : ∀ l : Word, l.toNat < n → ∀ k < 512,
    d.sectors (!ata.master) (BitVec.ofNat 28 (ata.partitionOffset.toNat + l.toNat)) k = D.sector l k
  readFails : ∀ l : Word, l.toNat < n → D.readFails l = false
  writeFails : ∀ l : Word, l.toNat < n → D.writeFails l = false

/-- The drives and their status are as they were. -/
structure SameDrives (d d' : Bus) : Prop where
  base : d'.base = d.base
  sectors : d'.sectors = d.sectors
  status : d'.status = d.status

/-- Nothing but the partition has changed. -/
def Outside (ata : DiskAta) (n : Nat) (d d' : Bus) : Prop := ∀ dev l, ∀ k < 512,
  ¬ (dev = !ata.master ∧ ata.partitionOffset.toNat ≤ l.toNat ∧ l.toNat < ata.partitionOffset.toNat + n) →
    d'.sectors dev l k = d.sectors dev l k

section

variable {ata : DiskAta} {d d' : Bus} {D : Disk} {n fuel : Nat} {lba : Word} {nb st v : Byte} {out data : Buffer}
  {port : Port} {r : Request} {rs : List Request}

/-! ## Reads -/

namespace SameDrives

theorem refl (d : Bus) : SameDrives d d := ⟨rfl, rfl, rfl⟩

theorem trans {d'' : Bus} (h : SameDrives d d') (h' : SameDrives d' d'') : SameDrives d d'' :=
  ⟨h'.base.trans h.base, h'.sectors.trans h.sectors, h'.status.trans h.status⟩

end SameDrives

theorem inb_same (d : Bus) (port : Port) : SameDrives d (d.inb port).2 := by
  unfold Bus.inb
  dsimp only
  split_ifs <;> exact ⟨rfl, rfl, rfl⟩

theorem outb_same (d : Bus) (port : Port) (v : Byte) : SameDrives d (d.outb port v) := by
  unfold Bus.outb
  dsimp only
  split_ifs <;> exact ⟨rfl, rfl, rfl⟩

theorem inw_same (d : Bus) (port : Port) : SameDrives d (d.inw port).2 := by
  unfold Bus.inw
  split <;> exact ⟨rfl, rfl, rfl⟩

theorem delay_same (ata : DiskAta) (n : Nat) (d : Bus) : SameDrives d (delayLoop ata n d) := by
  induction n generalizing d with
  | zero => exact .refl d
  | succ n ih => exact (inb_same d _).trans (ih _)

theorem startCommand_same (ata : DiskAta) (d : Bus) (top real : Word) (nb command : Byte) :
    SameDrives d (startCommand ata d top real nb command) :=
  ((((((outb_same _ _ _).trans (delay_same ata 15 _)).trans (outb_same _ _ _)).trans (outb_same _ _ _)).trans
    (outb_same _ _ _)).trans (outb_same _ _ _)).trans (outb_same _ _ _)

theorem waitLoop_same (h : waitLoop ata n v d = some (st, d')) : SameDrives d d' := by
  induction n generalizing v d with
  | zero => cases h
  | succ n ih =>
    rw [waitLoop] at h
    split at h
    · exact (inb_same _ _).trans (ih h)
    · cases h
      exact .refl _

theorem readWords_same (ata : DiskAta) (i n j : Nat) (d : Bus) (data : Buffer) :
    SameDrives d (readWords ata i n j d data).2 := by
  induction n generalizing j d data with
  | zero => exact .refl d
  | succ n ih => exact (inw_same d _).trans (ih _ _ _)

theorem readSectors_same {i : Nat} (h : readSectors fuel ata n i d data = some (st, out, d')) : SameDrives d d' := by
  induction n generalizing i d data with
  | zero =>
    cases h
    exact .refl _
  | succ n ih =>
    obtain ⟨⟨s, d₁⟩, hw, h⟩ := Option.bind_eq_some_iff.mp h
    have h₁ := (inb_same _ ata.statusPort).trans (waitLoop_same hw)
    dsimp only at h
    split at h
    · cases h
      exact h₁
    · exact (h₁.trans (readWords_same ata i _ 0 d₁ data)).trans (ih h)

/-- A read leaves the drives as they are. -/
theorem ataRead28_same (h : ataRead28 fuel ata d lba nb data = some (st, out, d')) : SameDrives d d' := by
  rw [ataRead28] at h
  split at h
  · cases h
    exact .refl d
  · exact (startCommand_same ..).trans (readSectors_same h)

/-- A read of one sector. -/
theorem ataRead28_one (A : Attached ata d.base) (W : Working d) (hlba : lba.toNat < 2 ^ 28) (out : Buffer) :
    ∃ m d', (∀ fuel ≥ m, ataRead28 fuel ata d lba 1 out = some (0, out.copy 0 (d.sectors (!ata.master)
      (commandAddress (ata.partitionOffset + lba) (ata.partitionOffset + lba))) SECTOR_SIZE, d')) ∧
        SameDrives d d' := by
  generalize hreal : ata.partitionOffset + lba = real
  obtain ⟨m, d', hm⟩ := readSectors_ok (d := d.started ata.master real real 1 0x20) (i := 0) (n := 1) A
    W.started rfl out rfl (le_refl _)
  have hread : ∀ fuel ≥ m, ataRead28 fuel ata d lba 1 out = some (0, out.copy 0 (d.sectors (!ata.master)
      (commandAddress real real)) SECTOR_SIZE, d') := by
    intro fuel hf
    rw [ataRead28, if_neg (by rw [high_ne_zero_iff]; omega)]
    simp only [startCommand_eq A, hreal]
    refine (hm fuel hf).trans ?_
    congr 3
    funext k
    refine if_ctx_congr (by simp [SECTOR_SIZE]) (fun hk => ?_) fun _ => rfl
    have hk : k < 512 := by
      rw [SECTOR_SIZE] at hk
      omega
    rw [Bus.bytes, Nat.div_eq_of_lt hk, Nat.mod_eq_of_lt hk]
    show d.sectors (!ata.master) (commandAddress real real + 0) k = _
    rw [add_zero, Nat.sub_zero]
  exact ⟨m, d', hread, ataRead28_same (hread m (le_refl m))⟩

/-! ## Requests -/

theorem Fits.toNat_sector {po : Nat} (F : Fits po n) (hl : lba.toNat < n) :
    (BitVec.ofNat 28 (po + lba.toNat)).toNat = po + lba.toNat := by
  have hin := F.inside
  rw [BitVec.toNat_ofNat, Nat.mod_eq_of_lt (by omega)]

theorem Fits.address {po : Word} (F : Fits po.toNat n) (hl : lba.toNat < n) :
    commandAddress (po + lba) (po + lba) = BitVec.ofNat 28 (po.toNat + lba.toNat) ∧
      commandAddress lba (po + lba) = BitVec.ofNat 28 (po.toNat + lba.toNat) := by
  have hin := F.inside
  have hup := F.upper lba.toNat hl
  have hreal : (po + lba).toNat = po.toNat + lba.toNat := toNat_real (by omega)
  have hnat := F.toNat_sector hl
  constructor <;> apply BitVec.eq_of_toNat_eq <;> rw [toNat_commandAddress, hreal, hnat] <;> omega

theorem copy_congr {b src src' : Buffer} (h : ∀ k < 512, src k = src' k) :
    b.copy 0 src SECTOR_SIZE = b.copy 0 src' SECTOR_SIZE := by
  funext k
  refine if_ctx_congr Iff.rfl (fun hk => h _ ?_) fun _ => rfl
  rw [SECTOR_SIZE] at hk
  omega

theorem read_ok (F : Fits ata.partitionOffset.toNat n) (R : Represents ata n d D) (hl : lba.toNat < n) (out : Buffer) :
    ∃ m d', (∀ fuel ≥ m, ataRead28 fuel ata d lba 1 out = some (0, (D.read lba out).2, d')) ∧
      (D.read lba out).1 = false ∧
      Represents ata n d' D ∧ SameDrives d d' := by
  have hin := F.inside
  obtain ⟨m, d', hm, hsame⟩ := ataRead28_one R.attached R.working (show lba.toNat < 2 ^ 28 by omega) out
  have hread : D.read lba out = (false, out.copy 0 (D.sector lba) SECTOR_SIZE) := by
    rw [Disk.read, R.readFails lba hl, if_neg Bool.false_ne_true]
  refine ⟨m, d', fun fuel hf => ?_,
    by rw [hread], ⟨hsame.base ▸ R.attached, ?_, ?_, R.readFails, R.writeFails⟩, hsame⟩
  · rw [hm fuel hf, hread, (F.address hl).1, copy_congr (R.sectors lba hl)]
  · exact ⟨hsame.status ▸ R.working.noError, hsame.status ▸ R.working.ready⟩
  · rw [hsame.sectors]
    exact R.sectors

theorem write_ok (F : Fits ata.partitionOffset.toNat n) (R : Represents ata n d D) (hl : lba.toNat < n)
    (data : Buffer) :
    ∃ m d', (∀ fuel ≥ m, ataWrite28 fuel ata d lba 1 data = some (0, d')) ∧ (D.write lba data).1 = false ∧
      Represents ata n d' (D.write lba data).2 ∧ Outside ata n d d' := by
  have hin := F.inside
  obtain ⟨m, d', hm, hbase, hstatus, hsectors⟩ := ataWrite28_ok R.attached R.working
    (show lba.toNat < 2 ^ 28 by omega) (show 0 < (1 : Byte).toNat by decide) data
  have hat : ∀ dev l, ∀ k < 512, d'.sectors dev l k =
      if dev = (!ata.master) ∧
        l.toNat = ata.partitionOffset.toNat + lba.toNat then data k else d.sectors dev l k := by
    intro dev l k hk
    rw [hsectors, (F.address hl).2]
    refine (stored_at (by rw [F.toNat_sector hl, show (1 : Byte).toNat = 1 from rfl]; omega) hk).trans ?_
    rw [F.toNat_sector hl, show (1 : Byte).toNat = 1 from rfl]
    refine if_ctx_congr (and_congr_right fun _ => by omega) (fun h => ?_) fun _ => rfl
    rw [h.2, Nat.sub_self, Nat.mul_zero, Nat.zero_add]
  refine ⟨m, d', hm, ?_, ⟨hbase ▸ R.attached, ?_, fun l hl' k hk => ?_, fun l hl' => ?_, fun l hl' => ?_⟩, ?_⟩
  · rw [Disk.write, R.writeFails lba hl, if_neg Bool.false_ne_true]
  · exact ⟨hstatus ▸ R.working.noError, hstatus ▸ R.working.ready⟩
  · rw [hat _ _ _ hk, F.toNat_sector hl']
    by_cases he : l = lba
    · rw [he, if_pos ⟨rfl, rfl⟩, Disk.sector_write_self (R.writeFails lba hl) hk]
    · rw [if_neg fun h => he (BitVec.eq_of_toNat_eq (by omega)), Disk.sector_write_of_ne he]
      exact R.sectors l hl' k hk
  · rw [Disk.readFails_write]
    exact R.readFails l hl'
  · rw [Disk.writeFails_write]
    exact R.writeFails l hl'
  · intro dev l k hk hout
    rw [hat _ _ _ hk, if_neg fun h => hout ⟨h.1, by omega, by omega⟩]

/-- One request. -/
theorem request_ok (F : Fits ata.partitionOffset.toNat n) (R : Represents ata n d D) (hr : r.lba.toNat < n) :
    ∃ m d', (∀ fuel ≥ m, r.serve fuel ata d = some ((0, (r.onDisk D).1.2), d')) ∧ (r.onDisk D).1.1 = false ∧
      Represents ata n d' (r.onDisk D).2 ∧ Outside ata n d d' := by
  cases r with
  | read lba out =>
    obtain ⟨m, d', hm, hok, R', hsame⟩ := read_ok F R (show lba.toNat < n from hr) out
    refine ⟨m, d', fun fuel hf => ?_, hok, R', fun dev l k _ _ => ?_⟩
    · rw [Request.serve, hm fuel hf]
      rfl
    · rw [hsame.sectors]
  | write lba data =>
    obtain ⟨m, d', hm, hok, R', hout⟩ := write_ok F R (show lba.toNat < n from hr) data
    refine ⟨m, d', fun fuel hf => ?_, hok, R', hout⟩
    rw [Request.serve, hm fuel hf]
    rfl

theorem Outside.trans {d'' : Bus} (h : Outside ata n d d') (h' : Outside ata n d' d'') : Outside ata n d d'' :=
  fun dev l k hk hout => (h' dev l k hk hout).trans (h dev l k hk hout)

/-- Any requests: the drive does what the disk does, and nothing outside of the partition is written. -/
theorem serve_ok (F : Fits ata.partitionOffset.toNat n) (R : Represents ata n d D)
    (hrs : ∀ r ∈ rs, r.lba.toNat < n) :
    ∃ m d', (∀ fuel ≥ m, serve fuel ata d rs = some ((onDisk D rs).1.map fun a => (0, a.2), d')) ∧
      (∀ a ∈ (onDisk D rs).1, a.1 = false) ∧ Represents ata n d' (onDisk D rs).2 ∧ Outside ata n d d' := by
  induction rs generalizing d D with
  | nil => exact ⟨0, d, fun _ _ => rfl, by simp [onDisk], R, fun _ _ _ _ _ => rfl⟩
  | cons r rs ih =>
    obtain ⟨hr, hrs⟩ := List.forall_mem_cons.mp hrs
    obtain ⟨m₁, d₁, h₁, hf₁, R₁, o₁⟩ := request_ok F R hr
    obtain ⟨m₂, d₂, h₂, hf₂, R₂, o₂⟩ := ih R₁ hrs
    refine ⟨max m₁ m₂, d₂, fun fuel hf => ?_, List.forall_mem_cons.mpr ⟨hf₁, hf₂⟩,
      R₂, o₁.trans o₂⟩
    rw [serve, h₁ fuel (le_of_max_le_left hf), Option.bind_eq_bind, Option.bind_some,
      h₂ fuel (le_of_max_le_right hf)]
    rfl

/-- What is written to a small partition is read again. -/
theorem serve_ok_small :
    let ata := ataInit someAta true 2048
    let rs : List Request := [.write 5 fun _ => 1, .read 5 fun _ => 0]
    ∃ m d', (∀ fuel ≥ m, serve fuel ata idleBus rs =
        some ((onDisk ⟨fun _ _ => 0, fun _ => false, fun _ => false⟩ rs).1.map fun a => (0, a.2), d')) ∧
      Outside ata 100 idleBus d' := by
  intro ata rs
  have F : Fits ata.partitionOffset.toNat 100 := by
    refine ⟨by decide, fun l hl => ?_⟩
    rw [show ata.partitionOffset.toNat = 2048 from rfl]
    omega
  have R : Represents ata 100 idleBus ⟨fun _ _ => 0, fun _ => false, fun _ => false⟩ :=
    ⟨attached_ataInit rfl, working_idleBus, fun _ _ _ _ => rfl, fun _ _ => rfl, fun _ _ => rfl⟩
  obtain ⟨m, d', h, -, -, hout⟩ := serve_ok F R (show ∀ r ∈ rs, r.lba.toNat < 100 by simp [rs, Request.lba])
  exact ⟨m, d', h, hout⟩

end

end AlexOS.Ata
