import AlexOS.Lib.Disk

/-!
# The FAT driver

`filesystem/fat.c`. The boot sector, the cached sector of the FAT, the figures
of the volume, the open files and the disk are the state. Where the driver
reads or writes past the end of an array, the bytes there are those of the
buffer from its end on. What is only printed is left out, and so are the blocks
that `find_file` takes from the heap, which hold an entry until it is read.

Loops that need not end are given the number of rounds that they may take, and
return nothing if they are not done by then.
-/

namespace AlexOS.Fat

def MAX_OPEN_FILE : Nat := 50
def ROOT_DIR_HANDLE : Int := -1
def EOF : Byte := 0xFF
def VOLUME_ID : Byte := 0x08
def DIRECTORY : Byte := 0x10

/-- `sizeof(dir_entry_t)`. -/
def sizeofDirEntry : Word := 32

structure BootSector where
  bytesPerSector : BitVec 16
  sectorPerCluster : Byte
  reservedSectorCount : BitVec 16
  nbFat : Byte
  rootDirEntryCount : BitVec 16
  totalSectors : BitVec 16
  sectorPerFat : BitVec 16
  largeSectorCount : Word
  /-- `ebr_32.sector_per_fat`. -/
  sectorPerFat32 : Word
  rootDirCluster : Word

/-- The fields, at their offsets in the packed structure. -/
def BootSector.ofSector (b : Buffer) : BootSector where
  bytesPerSector := b.load16 11
  sectorPerCluster := b 13
  reservedSectorCount := b.load16 14
  nbFat := b 16
  rootDirEntryCount := b.load16 17
  totalSectors := b.load16 19
  sectorPerFat := b.load16 22
  largeSectorCount := b.load32 32
  sectorPerFat32 := b.load32 36
  rootDirCluster := b.load32 44

structure File where
  position : Word
  size : Word
  firstCluster : Word
  currentCluster : Word
  buffer : Buffer
  isDir : Bool
  isOpen : Bool
  handle : Int

/-- The static variables of `fat.c`, and the disk. -/
structure Driver where
  disk : Disk
  bootSector : BootSector
  /-- `fat.fat_offset` and `fat.table`. -/
  fatOffset : Byte
  table : Buffer
  totalSectors : Word
  fatSectors : Word
  rootDirSectors : Word
  firstDataSector : Word
  firstFatSector : Word
  dataSectors : Word
  totalClusters : Word
  fatType : Byte
  rootDir : File
  openedFiles : Int → File
  errno : Byte

/-- `handle == ROOT_DIR_HANDLE ? &root_dir : &opened_files[handle - 3]`. -/
def Driver.file (s : Driver) (handle : Int) : File :=
  if handle = ROOT_DIR_HANDLE then s.rootDir else s.openedFiles (handle - 3)

def Driver.setFile (s : Driver) (handle : Int) (f : File) : Driver :=
  if handle = ROOT_DIR_HANDLE then { s with rootDir := f }
  else { s with openedFiles := fun i => if i = handle - 3 then f else s.openedFiles i }

/-! ## Mounting -/

/-- Whether it failed. -/
def readBootSector (s : Driver) : Bool × Driver :=
  let r := s.disk.read 0 (fun _ => 0)
  (r.1, if r.1 then s else { s with bootSector := BootSector.ofSector r.2 })

def readFat (s : Driver) (offset : Byte) : Bool × Driver :=
  let r := s.disk.read (s.firstFatSector + offset.setWidth 32) s.table
  (r.1, { s with fatOffset := offset, table := r.2 })

def fatDetec (s : Driver) : Driver :=
  { s with fatType :=
      if s.bootSector.sectorPerFat = 0 then 32
      else if s.totalClusters < 4085 then 12
      else 16 }

def lba2Cluster (s : Driver) (lba : Word) : Word :=
  (lba - s.firstDataSector) / s.bootSector.sectorPerCluster.setWidth 32 + 2

def cluster2Lba (s : Driver) (cluster : Word) : Word :=
  (cluster - 2) * s.bootSector.sectorPerCluster.setWidth 32 + s.firstDataSector

/-- The figures of the volume, from the boot sector. -/
def layout (s : Driver) : Driver :=
  let b := s.bootSector
  let totalSectors := if b.totalSectors ≠ 0 then b.totalSectors.setWidth 32 else b.largeSectorCount
  let fatSectors := if b.sectorPerFat ≠ 0 then b.sectorPerFat.setWidth 32 else b.sectorPerFat32
  let rootDirSectors := (b.rootDirEntryCount.setWidth 32 * sizeofDirEntry +
    (b.bytesPerSector.setWidth 32 - 1)) / b.bytesPerSector.setWidth 32
  let metadata := b.reservedSectorCount.setWidth 32 + b.nbFat.setWidth 32 * fatSectors + rootDirSectors
  let dataSectors := totalSectors - metadata
  { s with
    totalSectors := totalSectors
    fatSectors := fatSectors
    rootDirSectors := rootDirSectors
    firstDataSector := metadata
    firstFatSector := b.reservedSectorCount.setWidth 32
    dataSectors := dataSectors
    totalClusters := dataSectors / b.sectorPerCluster.setWidth 32 }

/-- A file as `calloc` leaves it. -/
def File.zero : File := ⟨0, 0, 0, 0, fun _ => 0, false, false, 0⟩

/-- `calloc(sizeof(file_t), MAX_OPEN_FILE)`; what is around the array stays. -/
def clearOpenedFiles (s : Driver) : Driver :=
  { s with openedFiles := fun i => if 0 ≤ i ∧ i < MAX_OPEN_FILE then File.zero else s.openedFiles i }

/-- The root directory, at the end of mounting. -/
def setRootDir (s : Driver) : Driver :=
  let first :=
    if s.fatType = 32 then s.bootSector.rootDirCluster
    else lba2Cluster s (s.firstDataSector - s.rootDirSectors)
  { s with rootDir := { s.rootDir with
      firstCluster := first
      currentCluster := first
      position := 0
      size := s.rootDirSectors * s.bootSector.bytesPerSector.setWidth 32
      isDir := true
      isOpen := true
      handle := ROOT_DIR_HANDLE } }

/-- Whether it succeeds. -/
def fatInit (s : Driver) : Bool × Driver :=
  let r := readBootSector s
  if r.1 then (false, { r.2 with errno := -1 }) else
  let s := layout (clearOpenedFiles r.2)
  let r := readFat s 0
  if r.1 then (false, { r.2 with errno := -2 }) else
  (true, { setRootDir (fatDetec r.2) with errno := 0 })

theorem readFat_success {s : Driver} {offset : Byte} (h : ¬ (readFat s offset).1 = true) :
    ¬ s.disk.readFails (s.firstFatSector + offset.setWidth 32) = true ∧ (readFat s offset).2 =
      { s with
        fatOffset := offset
        table := s.table.copy 0 (s.disk.sector (s.firstFatSector + offset.setWidth 32)) SECTOR_SIZE } := by
  have hr : ¬ s.disk.readFails (s.firstFatSector + offset.setWidth 32) = true := fun hf => h (by
    rw [readFat, Disk.read, if_pos hf])
  exact ⟨hr, by rw [readFat, Disk.read, if_neg hr]⟩

/-- Mounting succeeds after both reads. -/
theorem fatInit_success {s s' : Driver} (h : fatInit s = (true, s')) :
    let r := readFat (layout (clearOpenedFiles (readBootSector s).2)) 0
    ¬ (readBootSector s).1 = true ∧ ¬ r.1 = true ∧ s' = { setRootDir (fatDetec r.2) with errno := 0 } := by
  rw [fatInit] at h
  simp only at h
  split at h
  · exact absurd (Prod.ext_iff.mp h).1 Bool.false_ne_true
  rename_i hb
  split at h
  · exact absurd (Prod.ext_iff.mp h).1 Bool.false_ne_true
  rename_i hf
  exact ⟨hb, hf, (Prod.ext_iff.mp h).2.symm⟩

/-! ## The FAT -/

/-- The offset of the entry of a cluster, in bytes. No other type of FAT is known. -/
def entryOffset (fatType : Byte) (cluster : Word) : Option Word :=
  if fatType = 12 then some (cluster + cluster / 2)
  else if fatType = 16 then some (cluster * 2)
  else if fatType = 32 then some (cluster * 4)
  else none

/-- The sector that `ent_offset` is in, by the test of `next_cluster` and `update_fat`. -/
def loadEntry (s : Driver) (entOffset : Word) : Driver :=
  let first := s.fatOffset.setWidth 32 * 512
  if entOffset < first ∨ entOffset ≥ first + 512 then
    (readFat s ((entOffset - entOffset % 512).setWidth 8)).2
  else s

/-- The value of an entry of the table, with end marks of 12 and 16 bits extended. -/
def decode (fatType : Byte) (table : Buffer) (entOffset : Nat) (cluster : Word) : Word :=
  if fatType = 12 then
    let val : Word := (table.load16 entOffset).setWidth 32
    let val := if cluster &&& 1 ≠ 0 then val >>> 4 else val &&& 0x0FFF
    if val ≥ 0x0FF8 then val ||| 0xFFFFF000 else val
  else if fatType = 16 then
    let val : Word := (table.load16 entOffset).setWidth 32
    if val ≥ 0xFFF8 then val ||| 0xFFFF0000 else val
  else table.load32 entOffset

def nextCluster (s : Driver) (currentCluster : Word) : Word × Driver :=
  match entryOffset s.fatType currentCluster with
  | none => (0, s)
  | some fatOffset =>
    let entOffset := fatOffset % s.bootSector.bytesPerSector.setWidth 32
    let s := loadEntry s entOffset
    (decode s.fatType s.table entOffset.toNat currentCluster, s)

/-- The loop, from `i` on. -/
def scanClusters : Nat → Driver → Word → Word × Driver
  | 0, s, _ => (0, s)
  | n + 1, s, i =>
    let s := if i > s.fatOffset.setWidth 32 * 512 + 512 then (readFat s ((i - i % 512).setWidth 8)).2 else s
    let r := nextCluster s i
    if r.1 = 0 then (i, r.2) else scanClusters n r.2 (i + 1)

/-- A cluster whose entry is 0, or 0. -/
def findFreeCluster (s : Driver) : Word × Driver :=
  let s := if s.fatOffset ≠ 0 then (readFat s 0).2 else s
  scanClusters (s.totalClusters.toNat - 2) s 2

/-- The table with the value of an entry. -/
def encode (fatType : Byte) (table : Buffer) (entOffset : Nat) (cluster nextCluster : Word) : Buffer :=
  if fatType = 12 then
    let val : Word := (table.load16 entOffset).setWidth 32
    let next := nextCluster &&& 0x0FFF
    let val :=
      if cluster &&& 1 ≠ 0 then ((next <<< 4) &&& 0xFFF0) ||| (val &&& 0x000F)
      else next ||| (val &&& 0xF000)
    table.store16 entOffset (val.setWidth 16)
  else if fatType = 16 then table.store16 entOffset ((nextCluster &&& 0xFFFF).setWidth 16)
  else table.store32 entOffset nextCluster

/-- The table is written to the sector at `first_fat_sector + fat_offset`, with the offset in
bytes. -/
def updateFat (s : Driver) (currentCluster nextCluster : Word) : Bool × Driver :=
  match entryOffset s.fatType currentCluster with
  | none => (false, s)
  | some fatOffset =>
    let entOffset := fatOffset % s.bootSector.bytesPerSector.setWidth 32
    let s := loadEntry s entOffset
    let table := encode s.fatType s.table entOffset.toNat currentCluster nextCluster
    (true, { s with
      table := table
      disk := (s.disk.write (s.firstFatSector + fatOffset) table).2 })

/-! ## Reading and writing -/

/-- A file moves on to the next cluster of its chain. -/
def advance (s : Driver) (handle : Int) : Driver :=
  let r := nextCluster s (s.file handle).currentCluster
  r.2.setFile handle { r.2.file handle with currentCluster := r.1 }

/-- The loop of `FAT_read`, whose last value of `nb_read` is returned, and the bytes it copies. -/
def readLoop (handle : Int) : Nat → Driver → Word → Word → Word → List Byte → Word × List Byte × Driver
  | 0, s, _, _, nbRead, out => (nbRead, out, s)
  | n + 1, s, count, offset, nbRead, out =>
    let file := s.file handle
    if count > 0 ∧ file.currentCluster < 0xFFFFFFF8 then
      let nbToRead := if count + offset < 512 then count + offset else 512
      let buffer := (s.disk.read (cluster2Lba s file.currentCluster) file.buffer).2
      let nbRead := nbToRead - offset
      let s := s.setFile handle { file with buffer := buffer, position := file.position + nbRead }
      let s := if nbToRead ≥ 512 then advance s handle else s
      readLoop handle n s (count - nbRead) 0 nbRead (out ++ buffer.slice offset.toNat nbRead.toNat)
    else (nbRead, out, s)

/-- What it returns, and the bytes copied to `out`. Each round but the last takes at least one
byte off `count`, the last the rest. -/
def fatRead (s : Driver) (handle : Int) (count : Word) : Word × List Byte × Driver :=
  let file := s.file handle
  let count :=
    if file.isDir then count
    else if count < file.size - file.position then count else file.size - file.position
  readLoop handle count.toNat s count (file.position % 512) 0 []

/-- The end of a round of `FAT_write`: the next cluster, a new one if there is none. -/
def nextForWrite (s : Driver) (handle : Int) : Driver :=
  let oldCluster := (s.file handle).currentCluster
  let s := advance s handle
  if (s.file handle).currentCluster ≥ 0xFFFFFFF8 then
    let r := findFreeCluster s
    let s := r.2.setFile handle { r.2.file handle with currentCluster := r.1 }
    let s := (updateFat s oldCluster r.1).2
    (updateFat s r.1 0xFFFFFFF8).2
  else s

/-- The loop of `FAT_write`, with the bytes of `in` that are left. -/
def writeLoop (handle : Int) : Nat → Driver → Word → Buffer → Word → Word × Driver
  | 0, s, _, _, writedSize => (writedSize, s)
  | n + 1, s, count, input, writedSize =>
    if count > 0 then
      let writeSize : Word := if 512 < count then 512 else count
      let file := s.file handle
      let buffer := file.buffer.copy 0 input writeSize.toNat
      let buffer := if count < 512 then buffer.fill writeSize.toNat 0 (512 - writeSize.toNat) else buffer
      let r := s.disk.write (cluster2Lba s file.currentCluster) buffer
      if r.1 then (writedSize, s.setFile handle { file with buffer := buffer }) else
      let s := { s with disk := r.2 }.setFile handle { file with
        buffer := buffer
        position := file.position + writeSize
        size := file.size + writeSize }
      writeLoop handle n (nextForWrite s handle) (count - writeSize)
        (fun i => input (writeSize.toNat + i)) (writedSize + writeSize)
    else (writedSize, s)

/-- How many bytes of `in` were written. -/
def fatWrite (s : Driver) (handle : Int) (count : Word) (input : Buffer) : Word × Driver :=
  writeLoop handle count.toNat s count input 0

/-! ## Seeking -/

inductive Seek
  | set
  | cur
  | «end»

/-- The scan of a sector, from `i` on: the position of the end, or that after the sector. -/
def scanSector (isDir : Bool) (buffer : Buffer) : Nat → Nat → Word → Except Word Word
  | 0, _, position => .ok position
  | n + 1, i, position =>
    if i < 512 then
      if isDir then
        if buffer i = 0 then .error position
        else scanSector isDir buffer n (i + 32) (position + sizeofDirEntry)
      else if buffer i = EOF ∨ buffer i = 0 then .error position
      else scanSector isDir buffer n (i + 1) (position + 1)
    else .ok position

/-- The loop of `SEEK_END`, and whether it returns. Its rounds look at the same sector. -/
def seekEnd (handle : Int) : Nat → Driver → Option (Bool × Driver)
  | 0, _ => none
  | n + 1, s =>
    let file := s.file handle
    if file.currentCluster < 0xFFFFFFF8 then
      let buffer := (s.disk.read (cluster2Lba s file.currentCluster) file.buffer).2
      match scanSector file.isDir buffer 512 0 file.position with
      | .error position => some (true,
          s.setFile handle { file with buffer := buffer, position := position, size := position })
      | .ok position => seekEnd handle n (s.setFile handle { file with buffer := buffer, position := position })
    else some (false, s)

/-- The loop that follows the chain. -/
def seekLoop (handle : Int) : Nat → Driver → Word → Driver
  | 0, s, _ => s
  | n + 1, s, offset =>
    if offset > 512 ∧ (s.file handle).currentCluster < 0xFFFFFFF8 then
      seekLoop handle n (advance s handle) (offset - if offset < 512 then offset else 512)
    else s

/-- The end of `FAT_seek`. -/
def seekFrom (s : Driver) (handle : Int) (offset : Word) : Driver :=
  let file := s.file handle
  seekLoop handle offset.toNat (s.setFile handle { file with currentCluster := file.firstCluster }) offset

def fatSeek (fuel : Nat) (s : Driver) (handle : Int) (offset : Word) : Seek → Option Driver
  | .end => do
    let file := s.file handle
    let r ← seekEnd handle fuel (s.setFile handle { file with currentCluster := file.firstCluster })
    if r.1 then some r.2 else some (seekFrom r.2 handle offset)
  | .cur =>
    let file := s.file handle
    let position := file.position + offset
    some (seekFrom (s.setFile handle { file with position := position }) handle (offset + position))
  | .set => some (seekFrom (s.setFile handle { s.file handle with position := offset }) handle offset)

/-- The end of a round of `FAT_append` that fills the sector. -/
def nextForAppend (s : Driver) (handle : Int) : Driver :=
  let oldCluster := (s.file handle).currentCluster
  let s := advance s handle
  if (s.file handle).currentCluster > 0xFFFFFFF8 then
    let r := findFreeCluster s
    let s := r.2.setFile handle { r.2.file handle with currentCluster := r.1 }
    let s := (updateFat s r.1 0xFFFFFFF8).2
    (updateFat s oldCluster r.1).2
  else s

/-- The loop of `FAT_append`. -/
def appendLoop (handle : Int) : Nat → Driver → Word → Word → Buffer → Word → Word × Driver
  | 0, s, _, _, _, writedSize => (writedSize, s)
  | n + 1, s, count, offset, input, writedSize =>
    if count > 0 then
      let toWrite := if count < 512 - offset then count else 512 - offset
      let file := s.file handle
      let buffer := (s.disk.read (cluster2Lba s file.currentCluster) file.buffer).2
      let buffer := buffer.copy offset.toNat input toWrite.toNat
      let s := { s with disk := (s.disk.write (cluster2Lba s file.currentCluster) buffer).2 }
      let s := s.setFile handle { file with
        buffer := buffer
        position := file.position + toWrite
        size := file.size + toWrite }
      let s := if toWrite ≥ 512 then nextForAppend s handle else s
      appendLoop handle n s (count - toWrite) 0 (fun i => input (toWrite.toNat + i)) (writedSize + toWrite)
    else (writedSize, s)

def fatAppend (fuel : Nat) (s : Driver) (handle : Int) (count : Word) (input : Buffer) :
    Option (Word × Driver) := do
  let s ← fatSeek fuel s handle 0 .end
  some (appendLoop handle count.toNat s count ((s.file handle).position % 512) input 0)

/-! ## Directories -/

/-- An entry of a directory, as it is on the disk. -/
abbrev DirEntry := List Byte

namespace DirEntry

variable (e : DirEntry)

def filename : List Byte := e.take 11
def attributes : Byte := e.getD 11 0
def firstCluster : Word := e.getD 21 0 ++ e.getD 20 0 ++ e.getD 27 0 ++ e.getD 26 0
def size : Word := e.getD 31 0 ++ e.getD 30 0 ++ e.getD 29 0 ++ e.getD 28 0

end DirEntry

/-- The entry, if all of it was read. -/
def readNextEntry (s : Driver) (dir : Int) : Option DirEntry × Driver :=
  let r := fatRead s (s.file dir).handle sizeofDirEntry
  (if r.1 = sizeofDirEntry then some r.2.1 else none, r.2.2)

def toupper (c : Byte) : Byte := if 0x61 ≤ c ∧ c ≤ 0x7A then c - 0x61 + 0x41 else c

/-- The bytes of a string from the first `c` on. -/
def strchr (str : List Byte) (c : Byte) : Option (List Byte) :=
  match str.dropWhile (· ≠ c) with
  | [] => none
  | rest => some rest

/-- `out[i] = v`. -/
def setByte (out : Int → Byte) (i : Int) (v : Byte) : Int → Byte := fun x => if x = i then v else out x

/-- `out[i] = toupper(in[i])`, for the first `n` bytes. -/
def upperCase (input : List Byte) (out : Int → Byte) : Nat → Int → Byte
  | 0 => out
  | n + 1 => setByte (upperCase input out n) n (toupper (input.getD n 0))

/-- `out[i + 11 - ext_len] = toupper(ext[i])`, for the first `n` values of `i`, which starts at 1. -/
def upperCaseExt (ext : List Byte) (extLen : Int) (out : Int → Byte) : Nat → Int → Byte
  | 0 => out
  | n + 1 => setByte (upperCaseExt ext extLen out n) (n + 1 + 11 - extLen) (toupper (ext.getD (n + 1) 0))

/-- `int ext_len = strlen(ext)`. -/
def extLen (ext : List Byte) : Int := (BitVec.ofNat 32 ext.length).toInt

/-- Eleven bytes are set, and those before them too if the extension is long. -/
def normalToFatName (input : List Byte) (out : Int → Byte) : Int → Byte :=
  let out := fun i => if 0 ≤ i ∧ i < 11 then 0x20 else out i
  match strchr input 0x2E with
  | some ext => upperCaseExt ext (extLen ext) (upperCase input out (min 11 (input.length - ext.length)))
      (extLen ext - 1).toNat
  | none => upperCase input out (min 11 input.length)

/-- The first bytes of an array. -/
def bytesOf (out : Int → Byte) (n : Nat) : List Byte := (List.range n).map fun i => out i

/-- The loop of `find_file`: the entry, or `NULL` with the value that `errno` is set to. -/
def findLoop (dir : Int) (fatName : List Byte) : Nat → Driver → Option (Option DirEntry × Driver)
  | 0, _ => none
  | n + 1, s =>
    let r := readNextEntry s dir
    match r.1 with
    | none => some (none, { r.2 with errno := -2 })
    | some entry =>
      if entry.filename = fatName then some (some entry, r.2)
      else if entry.getD 0 0 ≠ 0 then findLoop dir fatName n r.2
      else some (none, { r.2 with errno := 0 })

/-- The name is converted by the text of `normal_to_fat_name`. -/
def findFile (fuel : Nat) (s : Driver) (dir : Int) (filename : List Byte) : Option (Option DirEntry × Driver) :=
  if filename.length > 11 then some (none, { s with errno := -1 })
  else findLoop dir (bytesOf (normalToFatName filename fun _ => 0) 11) fuel s

/-! ## Handles -/

/-- The first slot that is not open, from slot `i` on. -/
def scanHandles (s : Driver) : Nat → Nat → Int
  | 0, _ => 0
  | n + 1, i => if (s.openedFiles i).isOpen then scanHandles s n (i + 1) else i + 3

def findFreeHandle (s : Driver) : Int := scanHandles s MAX_OPEN_FILE 0

/-- The file that an entry describes, in the slot of a handle. -/
def setEntryFile (s : Driver) (handle : Int) (entry : DirEntry) : Driver :=
  s.setFile handle { s.file handle with
    firstCluster := entry.firstCluster
    currentCluster := entry.firstCluster
    isDir := entry.attributes &&& DIRECTORY ≠ 0
    size := entry.size
    position := 0
    handle := handle }

/-- The loop of `FAT_open`, over the components of the path. The length of one is cut to 16 bits.
`strchr(NULL, '/')`, which ends the loop, is not modelled. -/
def openLoop (fuel : Nat) (handle : Int) : Nat → Driver → Int → List Byte → Option (Int × Driver)
  | 0, _, _, _ => none
  | n + 1, s, dir, path =>
    let next := strchr path 0x2F
    let name := match next with
      | some rest => path.take ((path.length - rest.length) % 2 ^ 16)
      | none => path
    if ¬ (s.file dir).isDir then some (-1, { s with errno := -1 }) else do
    let r ← findFile fuel s dir name
    match r.1 with
    | none => some (-1, { r.2 with errno := -1 })
    | some entry =>
      let s := setEntryFile r.2 handle entry
      match next with
      | some rest => openLoop fuel handle n s handle (rest.drop 1)
      | none => some (handle, s.setFile handle { s.file handle with isOpen := true })

/-- The root directory, at its start. -/
def rewindRoot (s : Driver) : Driver :=
  { s with rootDir := { s.rootDir with currentCluster := s.rootDir.firstCluster, position := 0 } }

/-- The path without its first slash. -/
def stripSlash : List Byte → List Byte
  | c :: path => if c = 0x2F then path else c :: path
  | [] => []

def fatOpen (fuel : Nat) (s : Driver) (path : Option (List Byte)) : Option (Int × Driver) :=
  match path with
  | none => some (0, { s with errno := -3 })
  | some path =>
    let s := rewindRoot s
    if path = [0x2F] then some (s.rootDir.handle, s) else
    let path := stripSlash path
    let handle := findFreeHandle s
    if handle = 0 ∧ handle - 3 ≥ MAX_OPEN_FILE then some (0, { s with errno := -2 }) else
    let s := s.setFile handle { s.file handle with handle := handle }
    openLoop fuel handle (path.length + 1) s ROOT_DIR_HANDLE path

def fatClose (s : Driver) (handle : Int) : Driver :=
  if handle = ROOT_DIR_HANDLE then s
  else s.setFile handle { s.file handle with isOpen := false }

/-- The loop of `FAT_list`, and the entries that it prints. -/
def listLoop (dir : Int) : Nat → Driver → List DirEntry → Option (List DirEntry × Driver)
  | 0, _, _ => none
  | n + 1, s, out =>
    let r := readNextEntry s dir
    match r.1 with
    | none => some (out, { r.2 with errno := -2 })
    | some entry =>
      if entry.getD 0 0 = 0 then some (out, r.2)
      else if entry.attributes &&& VOLUME_ID ≠ 0 then listLoop dir n r.2 out
      else listLoop dir n r.2 (out ++ [entry])

def fatList (fuel : Nat) (s : Driver) (handle : Int) : Option (List DirEntry × Driver) := do
  let s ← fatSeek fuel s handle 0 .set
  listLoop handle fuel s []

/-- The path of the directory, and the name of the file. -/
def parseFilenameCreateFile (filename : List Byte) : List Byte × List Byte :=
  let lastPos := filename.length - 1 - filename.reverse.idxOf 0x2F
  if 0x2F ∈ filename then (filename.take lastPos, filename.drop (lastPos + 1))
  else (filename, filename)

/-- A new entry: the name, no attributes, the cluster, and size 0. -/
def newEntry (name : List Byte) (newCluster : Word) : DirEntry :=
  let out := normalToFatName name fun _ => 0
  let out := setByte (setByte out 20 (newCluster.extractLsb' 16 8)) 21 (newCluster.extractLsb' 24 8)
  let out := setByte (setByte out 26 (newCluster.extractLsb' 0 8)) 27 (newCluster.extractLsb' 8 8)
  bytesOf (setByte (setByte (setByte (setByte out 28 0) 29 0) 30 0) 31 0) 32

/-- It returns 1, whatever `FAT_open` and `FAT_append` return. -/
def fatCreateFile (fuel : Nat) (s : Driver) (path : List Byte) : Option Driver := do
  let s := { s with errno := 0 }
  let p := parseFilenameCreateFile path
  let r ← fatOpen fuel s (some p.1)
  let s ← fatSeek fuel r.2 r.1 0 .set
  let c := findFreeCluster s
  let s := (updateFat c.2 c.1 0xFFFFFFF8).2
  let r ← fatAppend fuel s r.1 sizeofDirEntry (Buffer.ofList (newEntry p.2 c.1))
  some r.2

end AlexOS.Fat
