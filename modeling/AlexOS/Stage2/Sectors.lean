import AlexOS.Lib.Bios
import AlexOS.Stage2.Chs
import AlexOS.Stage2.Driver

/-!
# Sectors of a partition

`disk.c` and `mbr.c` of the bootloader, down to the interrupt by which
`x86_Disk_Read` and `x86_Disk_Reset` call the BIOS. `Disk_ReadSector` tries a
read three times. The FAT driver is modelled on a partition whose reads fail or
bring its sectors (`mbrPartitionReadSector`); that is what the calls of the BIOS
come to, whatever it answers and whatever is done between them
(`partition_reads_ok`), and a read is reported to have failed only if each try
did, or a reset.
-/

namespace AlexOS.Stage2.RealMode

open Bios (Service Int13 Lawful)

/-- The macro of `x86.asm`, with the segment and the lower half of the register. -/
def linearToSegOffset (a : Word) : FarPointer := ⟨(a >>> 4).setWidth 16, (a &&& 0xF).setWidth 16⟩

/-- What is stored, of the registers that function 08h returns. -/
def x86DiskGetDriveParams (r : Registers) : DISK where
  cylinders := (r.cl >>> 6) ++ r.ch + 1
  sectors := (r.cl &&& 0x3F).setWidth 16
  heads := r.dh.setWidth 16 + 1

/-- The disk, unless the BIOS fails. -/
def diskInitialisation (reply : Option Registers) : Option DISK := reply.map x86DiskGetDriveParams

/-- The service that `x86_Disk_Read` asks for. -/
def readService (drive : Byte) (x : ChsWords 16) (nbSectors : Byte) (outputBuffer : Word) : Service :=
  .read (biosChs (x86DiskRead drive x ⟨0, 0, 0⟩)) nbSectors.toNat (linearToSegOffset outputBuffer)

def diskReadSector (int13 : Int13) (drive : Byte) (disk : DISK) (lba : Word) (nbSectors : Byte) (outputBuffer : Word) :
    Bios.Machine → Bool × Bios.Machine :=
  Bios.retry int13 (readService drive (lbaToChs disk lba) nbSectors outputBuffer) 3

def mbrPartitionReadSector (int13 : Int13) (drive : Byte) (disk : DISK) (partitionOffset lba : Word)
    (sectors : Byte) (dataOut : Word) : Bios.Machine → Bool × Bios.Machine :=
  diskReadSector int13 drive disk (lba + partitionOffset) sectors dataOut

/-- The registers give the numbers of the last head and of the sectors of a track. -/
structure Reports (d : Drive) (r : Registers) : Prop where
  sectors : (r.cl &&& 0x3F).toNat = d.geometry.sectors
  sectors_pos : 1 ≤ d.geometry.sectors
  heads : r.dh.toNat + 1 = d.geometry.heads

/-- The sectors of a drive, from that of the partition on. -/
def partitionOf (d : Drive) (offset : Word) : Partition := ⟨fun l => d.sector l.toNat, offset⟩

/-- A read that the FAT driver asks for. -/
structure Request where
  lba : Word
  sectors : Byte
  out : Word

/-- A read of sectors that the BIOS can address, to memory below 1 MiB, and not to that of the BIOS. -/
structure InReach (d : Drive) (W : Set Nat) (l : Word) (sectors : Byte) (out : Word) : Prop where
  lba_lt : l.toNat < 1024 * d.geometry.heads * d.geometry.sectors
  sectors_pos : 0 < sectors.toNat
  sectors_le : sectors.toNat ≤ 127
  out_le : out.toNat + 512 * sectors.toNat ≤ 2 ^ 20
  apart : ∀ k ∈ Mem.range out (512 * sectors.toNat), k ∉ W

section

variable {int13 : Int13} {d : Drive} {W : Set Nat} {r : Registers} {disk : DISK} {drive : Byte} {a l lba out : Word}
  {sectors : Byte} {s : Bios.Machine}

/-! ## Addresses -/

theorem linear_linearToSegOffset (h : a.toNat < 2 ^ 20) : (linearToSegOffset a).linear = a.toNat := by
  have hlow : (a &&& 0xF).toNat = a.toNat % 16 := by
    rw [BitVec.toNat_and]
    exact Nat.and_two_pow_sub_one_eq_mod a.toNat 4
  rw [FarPointer.linear, linearToSegOffset, BitVec.toNat_setWidth, BitVec.toNat_setWidth, BitVec.toNat_ushiftRight,
    Nat.shiftRight_eq_div_pow, hlow]
  omega

theorem offset_linearToSegOffset (a : Word) : (linearToSegOffset a).offset.toNat < 16 := by
  have hlow : (a &&& 0xF).toNat = a.toNat % 16 := by
    rw [BitVec.toNat_and]
    exact Nat.and_two_pow_sub_one_eq_mod a.toNat 4
  rw [linearToSegOffset, BitVec.toNat_setWidth, hlow]
  omega

/-! ## The disk -/

/-- What the BIOS reports is the geometry, and within what it can address. -/
theorem Reports.disk_ok (R : Reports d r) :
    (x86DiskGetDriveParams r).geometry = d.geometry ∧ (x86DiskGetDriveParams r).Addressable := by
  have hs : (x86DiskGetDriveParams r).sectors.toNat = d.geometry.sectors := by
    rw [← R.sectors]
    exact BitVec.toNat_setWidth_of_le (by decide)
  have hh : (x86DiskGetDriveParams r).heads.toNat = d.geometry.heads := by
    have hlt := r.dh.isLt
    rw [← R.heads]
    show (r.dh.setWidth 16 + 1 : BitVec 16).toNat = _
    rw [BitVec.toNat_add, BitVec.toNat_setWidth, show (1 : BitVec 16).toNat = 1 from rfl]
    omega
  have hle : (r.cl &&& 0x3F).toNat ≤ 63 := by
    rw [BitVec.toNat_and]
    exact Nat.and_le_right
  refine ⟨by rw [DISK.geometry, hs, hh], ?_, ?_, ?_, ?_⟩
  · rw [hs]
    exact R.sectors_pos
  · rw [hs, ← R.sectors]
    exact hle
  · rw [hh, ← R.heads]
    exact Nat.le_add_left ..
  · have hlt := r.dh.isLt
    rw [hh, ← R.heads]
    omega

/-- The service reads the sectors from the one with the number on. -/
theorem transfers_readService (A : disk.Addressable) (hg : disk.geometry = d.geometry)
    (hl : l.toNat < 1024 * d.geometry.heads * d.geometry.sectors) :
    Bios.Transfers d (readService drive (lbaToChs disk l) sectors out) l.toNat sectors.toNat
      (linearToSegOffset out) := by
  rw [← hg] at hl
  have hv := disk.geometry.valid_chs (n := l.toNat) A.heads_pos A.sectors_pos
  have hc := Geometry.cylinder_lt (g := disk.geometry) hl
  have e := lbaToChs_eq A hl
  rw [← e] at hv hc
  have hbios : biosChs (x86DiskRead drive (lbaToChs disk l) ⟨0, 0, 0⟩) = (lbaToChs disk l).toChs :=
    biosChs_x86DiskRead hc (hv.head_lt.trans_le A.heads_le) (Nat.lt_succ_of_le (hv.sector_le.trans A.sectors_le))
  refine ⟨?_, ?_, rfl, rfl⟩
  · rw [hbios, ← hg]
    exact hv
  · rw [hbios, e, ← hg, Geometry.lba_chs]

theorem InReach.fits (I : InReach d W l sectors out) : Bios.Fits (linearToSegOffset out) sectors.toNat ∧
    (linearToSegOffset out).address = out := by
  have hpos := I.sectors_pos
  have hout := I.out_le
  have hle := I.sectors_le
  have hlinear := linear_linearToSegOffset (a := out) (by omega)
  have hoffset := offset_linearToSegOffset out
  refine ⟨⟨by omega, by omega⟩, ?_⟩
  rw [FarPointer.address, hlinear, BitVec.ofNat_toNat, BitVec.setWidth_eq]

/-! ## Reads -/

/-- The bytes of a partition are those of the drive. -/
theorem bytes_partitionOf {offset : Word} {i : Nat} (hl : (lba + offset).toNat + i / 512 < 2 ^ 32) :
    (partitionOf d offset).bytes lba i = d.bytes (lba + offset).toNat i := by
  rw [Partition.bytes, partitionOf, Drive.bytes]
  dsimp only
  congr 1
  rw [BitVec.toNat_add, BitVec.toNat_ofNat]
  omega

/-- What the FAT driver is told of a read, and finds in its buffer, is as if the read of the partition failed or not. -/
def AsPartition (p : Partition) (q : Request) (s : Bios.Machine) (t : Bool × Bios.Machine) (fs : FatData) : Prop :=
  let a := Stage2.mbrPartitionReadSector p fs q.lba q.sectors.toNat (s.mem.view q.out)
  a.1 = t.1 ∧ ∀ i < 512 * q.sectors.toNat, t.2.mem.view q.out i = a.2.1 i

/-- One of three tries succeeds, and the resets before. -/
def Tried (int13 : Int13) (f : Service) (s : Bios.Machine) : Prop :=
  ∃ k < 3, (Bios.call int13 f ((Bios.failure int13 f)^[k] s)).1 = false ∧
    ∀ j < k, (Bios.call int13 f ((Bios.failure int13 f)^[j] s)).1 = true ∧
      (Bios.call int13 .reset (Bios.call int13 f ((Bios.failure int13 f)^[j] s)).2).1 = false

theorem read_ok (L : Lawful int13 d W) (R : Reports d r) {offset : Word} {q : Request}
    (I : InReach d W (q.lba + offset) q.sectors q.out) (drive : Byte) (s : Bios.Machine) :
    let t := mbrPartitionReadSector int13 drive (x86DiskGetDriveParams r) offset q.lba q.sectors q.out s
    (∃ fault, ∀ fs : FatData, fs.faults 0 = fault → AsPartition (partitionOf d offset) q s t fs) ∧
    Mem.Changes (W ∪ Mem.range q.out (512 * q.sectors.toNat)) s.mem t.2.mem ∧
    (t.1 = true ↔ Tried int13
      (readService drive (lbaToChs (x86DiskGetDriveParams r) (q.lba + offset)) q.sectors q.out) s) := by
  obtain ⟨hg, A⟩ := R.disk_ok
  have T : Bios.Transfers d (readService drive (lbaToChs _ (q.lba + offset)) q.sectors q.out) _ _ _ :=
    transfers_readService A hg I.lba_lt
  obtain ⟨F, haddr⟩ := I.fits
  have hregion : (linearToSegOffset q.out).region q.sectors.toNat = Mem.range q.out (512 * q.sectors.toNat) := by
    rw [FarPointer.region, haddr]
  have hchanges := Bios.retry_changes L T F 3 s
  rw [hregion] at hchanges
  refine ⟨?_, hchanges, Bios.retry_iff⟩
  have hok := Bios.retry_ok (n := 3) (s := s) L T F (by rw [hregion]; exact I.apart)
  rw [haddr] at hok
  unfold mbrPartitionReadSector diskReadSector
  generalize Bios.retry int13 _ 3 s = t at hok
  have hcap : 1024 * d.geometry.heads * d.geometry.sectors ≤ 1024 * 256 * 63 := by
    rw [← hg]
    exact Nat.mul_le_mul (Nat.mul_le_mul_left _ A.heads_le) A.sectors_le
  have hlba := I.lba_lt
  have hle := I.sectors_le
  cases ht : t.1 with
  | true =>
    refine ⟨none, fun fs hfs => ?_⟩
    rw [AsPartition, mbrPartitionReadSector_ok hfs]
    refine ⟨ht.symm, fun i hi => ?_⟩
    show _ = Buffer.copy _ 0 _ _ i
    rw [Mem.view, hok ht i hi, Buffer.copy, if_pos ⟨Nat.zero_le i, by rw [SECTOR_SIZE]; omega⟩, Nat.sub_zero,
      bytes_partitionOf (by omega)]
  | false =>
    refine ⟨some (t.2.mem.view q.out), fun fs hfs => ?_⟩
    rw [AsPartition, Stage2.mbrPartitionReadSector, hfs]
    refine ⟨ht.symm, fun i hi => ?_⟩
    show _ = Buffer.copy _ 0 _ _ i
    rw [Buffer.copy, if_pos ⟨Nat.zero_le i, by rw [SECTOR_SIZE]; omega⟩, Nat.sub_zero]

/-- Whatever the BIOS answers, and whatever is done to memory between the reads, there are faults such that the FAT
driver sees a partition with them. The rest of memory stays, and a read is reported to fail only if the BIOS fails,
each time or to reset the drive. -/
theorem partition_reads_ok (L : Lawful int13 d W) (R : Reports d r) (hd : diskInitialisation (some r) = some disk)
    (drive : Byte) {offset : Word} {q : Nat → Request}
    (I : ∀ k, InReach d W ((q k).lba + offset) (q k).sectors (q k).out) (before : Nat → Bios.Machine) :
    let t k := mbrPartitionReadSector int13 drive disk offset (q k).lba (q k).sectors (q k).out (before k)
    (∃ faults, ∀ fs : FatData, fs.faults = faults →
      ∀ k, AsPartition (partitionOf d offset) (q k) (before k) (t k) (FatData.afterRead^[k] fs)) ∧
    ∀ k, Mem.Changes (W ∪ Mem.range (q k).out (512 * (q k).sectors.toNat)) (before k).mem (t k).2.mem ∧
      ((t k).1 = true ↔
        Tried int13 (readService drive (lbaToChs disk ((q k).lba + offset)) (q k).sectors (q k).out) (before k)) := by
  obtain rfl := Option.some.inj hd
  refine ⟨?_, fun k => (read_ok L R (I k) drive (before k)).2⟩
  choose faults hfaults using fun k => (read_ok L R (I k) drive (before k)).1
  refine ⟨faults, fun fs hfs k => hfaults k _ ?_⟩
  have hshift : ∀ k j, (FatData.afterRead^[k] fs).faults j = fs.faults (j + k) := by
    intro k
    induction k with
    | zero => exact fun j => rfl
    | succ k ih =>
      intro j
      rw [Function.iterate_succ_apply']
      exact (ih (j + 1)).trans (congrArg fs.faults (by omega))
  rw [hshift, hfs, Nat.zero_add]

/-! ## A floppy disk whose first read fails -/

def floppyDrive : Drive := ⟨fun l _ => BitVec.ofNat 8 l, AlexOS.floppy⟩

def slowBios : Int13 := fun n f m =>
  match f with
  | .reset => (false, m)
  | .read a count dst => (n = 0, if n = 0 then m else
      m.splice dst.address (512 * count) fun x => floppyDrive.bytes (AlexOS.floppy.lba a) (x - dst.address).toNat)
  | .extendedRead lba count dst => (false,
      m.splice dst.address (512 * count) fun x => floppyDrive.bytes lba (x - dst.address).toNat)

theorem holds_splice {count : Nat} {dst : FarPointer} {m : Mem} {n : Nat} (F : Bios.Fits dst count) :
    Bios.Holds d n count dst.address
      (m.splice dst.address (512 * count) fun x => d.bytes n (x - dst.address).toNat) := by
  have hle := F.linear
  intro i hi
  have hsub : (dst.address + BitVec.ofNat 32 i - dst.address).toNat = i := by
    rw [add_sub_cancel_left, BitVec.toNat_ofNat]
    omega
  rw [Mem.splice, hsub, if_pos hi]

theorem lawful_slowBios : Lawful slowBios floppyDrive ∅ where
  reset _ m := .refl _ m
  changes n f lba count dst m T F := by
    have hw : dst.address.toNat + 512 * count ≤ 2 ^ 32 := by
      have := F.linear
      rw [FarPointer.address, BitVec.toNat_ofNat]
      omega
    cases f with
    | reset => exact absurd T id
    | read a count' dst' =>
      obtain ⟨-, -, rfl, rfl⟩ := T
      unfold slowBios
      dsimp only
      split
      · exact .refl _ m
      · exact (Mem.splice_changes hw).mono (Set.subset_union_right (s := ∅))
    | extendedRead lba' count' dst' =>
      obtain ⟨-, rfl, rfl⟩ := T
      exact (Mem.splice_changes hw).mono (Set.subset_union_right (s := ∅))
  holds n f lba count dst m T F _ hok := by
    cases f with
    | reset => exact absurd T id
    | read a count' dst' =>
      obtain ⟨-, hlba, rfl, rfl⟩ := T
      have hn : ¬ n = 0 := of_decide_eq_false hok
      unfold slowBios
      dsimp only
      rw [if_neg hn, show AlexOS.floppy.lba a = lba from hlba]
      exact holds_splice F
    | extendedRead lba' count' dst' =>
      obtain ⟨rfl, rfl, rfl⟩ := T
      exact holds_splice F

/-- Sector 3 of a floppy disk is there after the second try. -/
theorem partition_reads_ok_floppy :
    (mbrPartitionReadSector slowBios 0 ⟨80, 18, 2⟩ 0 3 1 0x20000 ⟨0, fun _ => 0⟩).1 = true ∧
    ∃ faults, ∀ fs : FatData, fs.faults = faults → AsPartition (partitionOf floppyDrive 0) ⟨3, 1, 0x20000⟩
      ⟨0, fun _ => 0⟩ (mbrPartitionReadSector slowBios 0 ⟨80, 18, 2⟩ 0 3 1 0x20000 ⟨0, fun _ => 0⟩) fs := by
  have R : Reports floppyDrive ⟨0, 0x4F12, 0x0100⟩ := ⟨by decide, by decide, by decide⟩
  have hd : diskInitialisation (some ⟨0, 0x4F12, 0x0100⟩) = some ⟨80, 18, 2⟩ := rfl
  have I : ∀ k : Nat, InReach floppyDrive ∅ (3 + 0) 1 0x20000 := fun _ =>
    ⟨by decide, by decide, by decide, by decide, fun _ _ h => h⟩
  obtain ⟨⟨faults, h⟩, hk⟩ :=
    partition_reads_ok (q := fun _ => ⟨3, 1, 0x20000⟩) lawful_slowBios R hd 0 I fun _ => ⟨0, fun _ => 0⟩
  exact ⟨by decide, faults, fun fs hfs => h fs hfs 0⟩

end

end AlexOS.Stage2.RealMode
