import AlexOS.Lib.Disk

/-!
# The ATA driver

`driver/ata/ata.c`, and the bus behind its ports. Two drives are on the bus,
and bit 4 of the drive select register says which one is meant. A command takes
its sector from the low half of this register and the three LBA registers, and
the words of the data port are then those of the sectors from there on.

The status register is read again and again while a drive is busy, so that the
loops that do so are given a number of rounds, and return nothing if they are
not done by then. What a read of it gives is a sequence of its own (`status`).
-/

namespace AlexOS.Ata

abbrev Port := BitVec 16

/-- A drive select register's bit 4, and the number of a sector. -/
abbrev Sectors := Bool → BitVec 28 → Buffer

/-- The drives at eight ports from `base` on. -/
structure Bus where
  base : Port
  select : Byte
  count : Byte
  lbaLo : Byte
  lbaMid : Byte
  lbaHi : Byte
  sectors : Sectors
  /-- The commands so far, the last one first. -/
  commands : List Byte
  /-- The drive and the first sector of the last command. -/
  device : Bool
  address : BitVec 28
  /-- The words of its sectors. -/
  length : Nat
  /-- Those that went through the data port. -/
  words : Nat
  status : Nat → Byte
  /-- How often the status was read. -/
  statusReads : Nat

namespace Bus

def outb (d : Bus) (port : Port) (v : Byte) : Bus :=
  let r := port - d.base
  if r = 2 then { d with count := v }
  else if r = 3 then { d with lbaLo := v }
  else if r = 4 then { d with lbaMid := v }
  else if r = 5 then { d with lbaHi := v }
  else if r = 6 then { d with select := v }
  else if r = 7 then { d with
    commands := v :: d.commands
    device := d.select.getLsbD 4
    address := d.select.extractLsb' 0 4 ++ d.lbaHi ++ d.lbaMid ++ d.lbaLo
    length := 256 * if d.count = 0 then 256 else d.count.toNat
    words := 0 }
  else d

def inb (d : Bus) (port : Port) : Byte × Bus :=
  let r := port - d.base
  if r = 2 then (d.count, d)
  else if r = 3 then (d.lbaLo, d)
  else if r = 4 then (d.lbaMid, d)
  else if r = 5 then (d.lbaHi, d)
  else if r = 6 then (d.select, d)
  else if r = 7 then (d.status d.statusReads, { d with statusReads := d.statusReads + 1 })
  else (0xFF, d)

/-- The sector that the next word of the data port belongs to. -/
def sector (d : Bus) : BitVec 28 := d.address + BitVec.ofNat 28 (d.words / 256)

/-- A word of a command to write (0x30). -/
def outw (d : Bus) (port : Port) (v : BitVec 16) : Bus :=
  if port = d.base ∧ d.commands.head? = some 0x30 ∧ d.words < d.length then { d with
    words := d.words + 1
    sectors := fun device l =>
      if device = d.device ∧ l = d.sector then (d.sectors device l).store16 (2 * (d.words % 256)) v
      else d.sectors device l }
  else d

/-- A word of a command to read (0x20). -/
def inw (d : Bus) (port : Port) : BitVec 16 × Bus :=
  if port = d.base ∧ d.commands.head? = some 0x20 ∧ d.words < d.length then
    ((d.sectors d.device d.sector).load16 (2 * (d.words % 256)), { d with words := d.words + 1 })
  else (0xFFFF, d)

end Bus

/-- `disk_ata_t`. -/
structure DiskAta where
  master : Bool
  basePort : Port
  errorPort : Port
  sectorPort : Port
  lbaLoPort : Port
  lbaMidPort : Port
  lbaHiPort : Port
  driveSelectPort : Port
  statusPort : Port
  commandPort : Port
  controlPort : Port
  partitionOffset : Word

def ataInit (ata : DiskAta) (master : Bool) (partitionOffset : Word) : DiskAta where
  basePort := ata.basePort
  errorPort := ata.basePort + 1
  sectorPort := ata.basePort + 2
  lbaLoPort := ata.basePort + 3
  lbaMidPort := ata.basePort + 4
  lbaHiPort := ata.basePort + 5
  driveSelectPort := ata.basePort + 6
  statusPort := ata.basePort + 7
  commandPort := ata.basePort + 7
  controlPort := ata.basePort + 0x206
  master := master
  partitionOffset := partitionOffset

/-- The loop, with the rounds that are left. -/
def delayLoop (ata : DiskAta) : Nat → Bus → Bus
  | 0, d => d
  | n + 1, d => delayLoop ata n (d.inb ata.statusPort).2

def ataDelay (ata : DiskAta) (d : Bus) : Bus := delayLoop ata 15 d

/-- The registers for a command, and the command. The low half of the drive select register comes
from `top`, the other registers from `lba_real`. -/
def startCommand (ata : DiskAta) (d : Bus) (top lbaReal : Word) (nbSectors command : Byte) : Bus :=
  let drive : Byte := if ata.master then 0xE0 else 0xF0
  let d := d.outb ata.driveSelectPort (drive ||| ((top >>> 24) &&& 0x0F).setWidth 8)
  let d := ataDelay ata d
  let d := d.outb ata.sectorPort nbSectors
  let d := d.outb ata.lbaLoPort ((lbaReal &&& 0xFF).setWidth 8)
  let d := d.outb ata.lbaMidPort (((lbaReal >>> 8) &&& 0xFF).setWidth 8)
  let d := d.outb ata.lbaHiPort (((lbaReal >>> 16) &&& 0xFF).setWidth 8)
  d.outb ata.commandPort command

/-- `while(status & 0x80 && !(status & 1))`. -/
def waitLoop (ata : DiskAta) : Nat → Byte → Bus → Option (Byte × Bus)
  | 0, _, _ => none
  | n + 1, status, d =>
    if status &&& 0x80 ≠ 0 ∧ status &&& 1 = 0 then
      let r := d.inb ata.statusPort
      waitLoop ata n r.1 r.2
    else some (status, d)

/-- The status when the drive is no longer busy. -/
def waitStatus (fuel : Nat) (ata : DiskAta) (d : Bus) : Option (Byte × Bus) :=
  let r := d.inb ata.statusPort
  waitLoop ata fuel r.1 r.2

/-- The loop over the words of sector `i`, from byte `j` on, and the buffer. -/
def readWords (ata : DiskAta) (i : Nat) : Nat → Nat → Bus → Buffer → Buffer × Bus
  | 0, _, d, data => (data, d)
  | n + 1, j, d, data =>
    let r := d.inw ata.basePort
    let data := data.fill (SECTOR_SIZE * i + j) ((r.1 &&& 0xFF).setWidth 8) 1
    let data :=
      if j + 1 < SECTOR_SIZE then data.fill (SECTOR_SIZE * i + j + 1) (((r.1 >>> 8) &&& 0xFF).setWidth 8) 1
      else data
    readWords ata i n (j + 2) r.2 data

/-- The loop over the sectors, from `i` on. -/
def readSectors (fuel : Nat) (ata : DiskAta) : Nat → Nat → Bus → Buffer → Option (Byte × Buffer × Bus)
  | 0, _, d, data => some (0, data, d)
  | n + 1, i, d, data => do
    let s ← waitStatus fuel ata d
    if s.1 &&& 1 ≠ 0 then some (-2, data, s.2) else
    let r := readWords ata i (SECTOR_SIZE / 2) 0 s.2 data
    readSectors fuel ata n (i + 1) r.2 r.1

/-- What it returns, and what is in the buffer. -/
def ataRead28 (fuel : Nat) (ata : DiskAta) (d : Bus) (lba : Word) (nbSectors : Byte) (data : Buffer) :
    Option (Byte × Buffer × Bus) :=
  if lba &&& 0xF0000000 ≠ 0 then some (-1, data, d) else
  let lbaReal := ata.partitionOffset + lba
  let d := startCommand ata d lbaReal lbaReal nbSectors 0x20
  readSectors fuel ata nbSectors.toNat 0 d data

/-- The status is only printed. -/
def ataFlush (fuel : Nat) (ata : DiskAta) (d : Bus) : Option Bus := do
  let d := d.outb ata.driveSelectPort (if ata.master then 0xE0 else 0xF0)
  let d := ataDelay ata d
  let d := d.outb ata.commandPort 0xE7
  let s ← waitStatus fuel ata d
  some s.2

/-- The loop over the words of sector `i`, from byte `j` on. -/
def writeWords (ata : DiskAta) (data : Buffer) (i : Nat) : Nat → Nat → Bus → Bus
  | 0, _, d => d
  | n + 1, j, d =>
    let data16 : BitVec 16 := (data (i * SECTOR_SIZE + j + 1)).setWidth 16 <<< 8
    let data16 := if i + 1 < SECTOR_SIZE then data16 ||| (data (i * SECTOR_SIZE + j)).setWidth 16 else data16
    writeWords ata data i n (j + 2) (d.outw ata.basePort data16)

/-- The loop over the sectors, from `i` on. -/
def writeSectors (ata : DiskAta) (data : Buffer) : Nat → Nat → Bus → Bus
  | 0, _, d => d
  | n + 1, i, d => writeSectors ata data n (i + 1) (writeWords ata data i (SECTOR_SIZE / 2) 0 d)

/-- The drive select register is set from `lba`, not from `lba_real`. -/
def ataWrite28 (fuel : Nat) (ata : DiskAta) (d : Bus) (lba : Word) (nbSectors : Byte) (data : Buffer) :
    Option (Byte × Bus) :=
  if lba &&& 0xF0000000 ≠ 0 then some (-1, d) else
  let lbaReal := ata.partitionOffset + lba
  let d := startCommand ata d lba lbaReal nbSectors 0x30
  let d := writeSectors ata data nbSectors.toNat 0 d
  (ataFlush fuel ata d).map fun d => (0, d)

end AlexOS.Ata
