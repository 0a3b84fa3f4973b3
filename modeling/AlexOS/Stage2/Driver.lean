import AlexOS.Lib.Disk

/-!
# The FAT driver of the bootloader

`bootloader/stage2/fat.c`, on the sectors of a partition (`mbr.c`). Files are
known by their handles. What the reads of the disk to come leave behind when
they fail is part of the state (`faults`), so that any read may fail.

`FAT_Read` is given the function that it looks up clusters with, which in
`fat.c` is `FAT_NextCluster`.
-/

namespace AlexOS.Stage2

def MAX_FILE_HANDLES : Nat := 10
def ROOT_DIRECTORY_HANDLE : Int := -1
def FAT_CACHE_SIZE : Word := 5
def FAT_ATTRIBUTE_DIRECTORY : Byte := 0x10

/-- `sizeof(FAT_DirectoryEntry)`. -/
def sizeofDirectoryEntry : Word := 32

/-- `SECTOR_SIZE`, as a word. -/
def sectorSize : Word := 512

structure BootSector where
  bytesPerSector : BitVec 16
  sectorsPerCluster : Byte
  reservedSectors : BitVec 16
  fatCount : Byte
  dirEntryCount : BitVec 16
  totalSectors : BitVec 16
  sectorsPerFat : BitVec 16
  largeSectorCount : Word
  /-- `ebpb_32.sector_per_fat`. -/
  sectorPerFat32 : Word
  rootDirCluster : Word

/-- The fields, at their offsets in the packed structure. -/
def BootSector.ofSector (b : Buffer) : BootSector where
  bytesPerSector := b.load16 11
  sectorsPerCluster := b 13
  reservedSectors := b.load16 14
  fatCount := b 16
  dirEntryCount := b.load16 17
  totalSectors := b.load16 19
  sectorsPerFat := b.load16 22
  largeSectorCount := b.load32 32
  sectorPerFat32 := b.load32 36
  rootDirCluster := b.load32 44

/-- `FAT_FileData`, with its public part. -/
structure FileData where
  buffer : Buffer
  handle : Int
  isDirectory : Bool
  position : Word
  size : Word
  opened : Bool
  firstCluster : Word
  currentCluster : Word
  currentSectorInCluster : Word

structure DirectoryEntry where
  fileName : List Byte
  fileAttribute : Byte
  firstClusterHigh : BitVec 16
  firstClusterLow : BitVec 16
  fileSize : Word

/-- A disk, and the sector that the partition starts at. -/
structure Partition where
  sector : Word → Buffer
  partitionOffset : Word

/-- The static variables of `fat.c`, `g_Data` included. -/
structure FatData where
  bootSector : BootSector
  rootDirectory : FileData
  openedFiles : Int → FileData
  fatCache : Buffer
  fatCachePosition : Word
  dataSectionLba : Word
  fatType : Byte
  totalSectors : Word
  sectorsPerFat : Word
  /-- What each read of the disk to come leaves behind, if it fails. -/
  faults : Nat → Option Buffer

namespace FatData

/-- `Handle == ROOT_DIRECTORY_HANDLE ? &RootDirectory : &OpenedFiles[Handle]`. -/
def file (s : FatData) (handle : Int) : FileData :=
  if handle = ROOT_DIRECTORY_HANDLE then s.rootDirectory else s.openedFiles handle

def setFile (s : FatData) (handle : Int) (fd : FileData) : FatData :=
  if handle = ROOT_DIRECTORY_HANDLE then { s with rootDirectory := fd }
  else { s with openedFiles := fun i => if i = handle then fd else s.openedFiles i }

/-- A read of the disk is done. -/
def afterRead (s : FatData) : FatData := { s with faults := fun n => s.faults (n + 1) }

/-- The bytes from the start of `FatCache` on; `FatCachePosition` comes after it. -/
def cacheBytes (s : FatData) : Buffer := fun i =>
  if i < 2560 then s.fatCache i else s.fatCachePosition.extractLsb' (8 * (i - 2560)) 8

end FatData

/-- The bytes of the partition from a sector on. -/
def Partition.bytes (p : Partition) (lba : Word) : Buffer := fun i =>
  p.sector (lba + p.partitionOffset + BitVec.ofNat 32 (i / 512)) (i % 512)

/-- Whether it succeeds, and what is in the buffer after. -/
def mbrPartitionReadSector (p : Partition) (s : FatData) (lba : Word) (sectors : Nat) (out : Buffer) :
    Bool × Buffer × FatData :=
  match s.faults 0 with
  | some b => (false, out.copy 0 b (SECTOR_SIZE * sectors), s.afterRead)
  | none => (true, out.copy 0 (p.bytes lba) (SECTOR_SIZE * sectors), s.afterRead)

section

variable {p : Partition} {s : FatData} {lba : Word} {sectors : Nat} {out : Buffer}

/-- Reads count, whether they fail or not. -/
@[simp] theorem mbrPartitionReadSector_state :
    (mbrPartitionReadSector p s lba sectors out).2.2 = s.afterRead := by
  rw [mbrPartitionReadSector]
  split <;> rfl

theorem mbrPartitionReadSector_ok (h : s.faults 0 = none) : mbrPartitionReadSector p s lba sectors out =
    (true, out.copy 0 (p.bytes lba) (SECTOR_SIZE * sectors), s.afterRead) := by
  rw [mbrPartitionReadSector, h]

theorem faults_of_read (h : (mbrPartitionReadSector p s lba sectors out).1 = true) : s.faults 0 = none := by
  rw [mbrPartitionReadSector] at h
  cases e : s.faults 0 with
  | none => rfl
  | some b =>
    rw [e] at h
    exact absurd h Bool.false_ne_true

end

/-! ## Mounting -/

def fatReadBootSector (p : Partition) (s : FatData) : Bool × FatData :=
  let r := mbrPartitionReadSector p s 0 1 (fun _ => 0)
  (r.1, if r.1 then { r.2.2 with bootSector := BootSector.ofSector r.2.1 } else r.2.2)

def fatReadFat (p : Partition) (s : FatData) (lbaIndex : Word) : Bool × FatData :=
  let r := mbrPartitionReadSector p s (s.bootSector.reservedSectors.setWidth 32 + lbaIndex)
    FAT_CACHE_SIZE.toNat s.fatCache
  (r.1, { r.2.2 with fatCache := r.2.1 })

def fatDetect (s : FatData) : FatData :=
  let dataCluster := (s.totalSectors - s.dataSectionLba) / s.bootSector.sectorsPerCluster.setWidth 32
  { s with fatType :=
      if dataCluster < 0xFF5 then 12
      else if s.bootSector.sectorsPerFat ≠ 0 then 16
      else 32 }

def fatClusterToLba (s : FatData) (cluster : Word) : Word :=
  s.dataSectionLba + (cluster - 2) * s.bootSector.sectorsPerCluster.setWidth 32

/-- The figures of the volume, from the boot sector. -/
def layout (s : FatData) : FatData :=
  let b := s.bootSector
  let totalSectors := if b.totalSectors = 0 then b.largeSectorCount else b.totalSectors.setWidth 32
  let sectorsPerFat := if b.sectorsPerFat = 0 then b.sectorPerFat32 else b.sectorsPerFat.setWidth 32
  let afterFats := b.reservedSectors.setWidth 32 + sectorsPerFat * b.fatCount.setWidth 32
  let rootDirSize := sizeofDirectoryEntry * b.dirEntryCount.setWidth 32
  let rootDirSector := (rootDirSize + b.bytesPerSector.setWidth 32 - 1) / b.bytesPerSector.setWidth 32
  { s with
    fatCachePosition := 0xFFFFFFFF
    totalSectors := totalSectors
    sectorsPerFat := sectorsPerFat
    dataSectionLba := if b.sectorsPerFat = 0 then afterFats else afterFats + rootDirSector }

/-- The first sector of the root directory. -/
def rootDirLba (s : FatData) : Word :=
  if s.bootSector.sectorsPerFat = 0 then fatClusterToLba s s.bootSector.rootDirCluster
  else s.bootSector.reservedSectors.setWidth 32 + s.sectorsPerFat * s.bootSector.fatCount.setWidth 32

def setRootDirectory (s : FatData) : FatData :=
  { s with rootDirectory := { s.rootDirectory with
      handle := ROOT_DIRECTORY_HANDLE
      isDirectory := true
      position := 0
      size := sizeofDirectoryEntry * s.bootSector.dirEntryCount.setWidth 32
      opened := true
      firstCluster := rootDirLba s
      currentCluster := rootDirLba s
      currentSectorInCluster := 0 } }

def fatInitialize (p : Partition) (s : FatData) : Bool × FatData :=
  let r := fatReadBootSector p s
  if ¬ r.1 then r else
  let s := setRootDirectory (layout r.2)
  let r := mbrPartitionReadSector p s (rootDirLba s) 1 s.rootDirectory.buffer
  let s := { r.2.2 with rootDirectory := { s.rootDirectory with buffer := r.2.1 } }
  if ¬ r.1 then (false, s) else
  let s := fatDetect s
  (true, { s with openedFiles := fun i =>
    if 0 ≤ i ∧ i < MAX_FILE_HANDLES then { s.openedFiles i with opened := false } else s.openedFiles i })

/-- Mounting succeeds after both reads. -/
theorem fatInitialize_success {p : Partition} {s s' : FatData} (h : fatInitialize p s = (true, s')) :
    (fatReadBootSector p s).1 = true ∧
      let root := setRootDirectory (layout (fatReadBootSector p s).2)
      let read := mbrPartitionReadSector p root (rootDirLba root) 1 root.rootDirectory.buffer
      let mounted := fatDetect { root.afterRead with rootDirectory := { root.rootDirectory with buffer := read.2.1 } }
      read.1 = true ∧ s' = { mounted with
        openedFiles := fun i =>
          if 0 ≤ i ∧ i < MAX_FILE_HANDLES then { mounted.openedFiles i with opened := false }
          else mounted.openedFiles i } := by
  simp only [fatInitialize, mbrPartitionReadSector_state] at h
  split at h
  · rename_i hr
    exact absurd (Prod.ext_iff.mp h).1 hr
  rename_i hr
  split at h
  · exact absurd (Prod.ext_iff.mp h).1 Bool.false_ne_true
  rename_i hread
  exact ⟨not_not.mp hr, not_not.mp hread, (Prod.ext_iff.mp h).2.symm⟩

/-! ## Files -/

/-- A handle that is not open, from `i` on. -/
def scanHandles (s : FatData) : Nat → Int → Option Int
  | 0, _ => none
  | n + 1, i => if (s.openedFiles i).opened then scanHandles s n (i + 1) else some i

/-- `entry->first_cluster_low + (entry->first_cluster_high << 16)`. -/
def DirectoryEntry.firstCluster (entry : DirectoryEntry) : Word :=
  entry.firstClusterLow.setWidth 32 + (entry.firstClusterHigh.setWidth 32 <<< 16)

/-- The handle of the file, or nothing. -/
def fatOpenEntry (p : Partition) (s : FatData) (entry : DirectoryEntry) : Option Int × FatData :=
  match scanHandles s MAX_FILE_HANDLES 0 with
  | none => (none, s)
  | some handle =>
    let fd := { s.openedFiles handle with
      handle := handle
      isDirectory := entry.fileAttribute &&& FAT_ATTRIBUTE_DIRECTORY ≠ 0
      position := 0
      size := entry.fileSize
      firstCluster := entry.firstCluster
      currentCluster := entry.firstCluster
      currentSectorInCluster := 0 }
    let r := mbrPartitionReadSector p s (fatClusterToLba s fd.currentCluster) 1 fd.buffer
    let fd := { fd with buffer := r.2.1 }
    if r.1 then (some handle, r.2.2.setFile handle { fd with opened := true })
    else (none, r.2.2.setFile handle fd)

/-- `min`. -/
def minWord (x y : Word) : Word := if x < y then x else y

/-- The value of an entry of the cache, with end marks of 12 and 16 bits extended. -/
def decode (fatType : Byte) (cache : Buffer) (fatIndex : Nat) (currentCluster : Word) : Word :=
  if fatType = 12 then
    let val := cache.load16 fatIndex
    let nextCluster : Word := (if currentCluster % 2 = 0 then val &&& 0x0FFF else val >>> 4).setWidth 32
    if nextCluster ≥ 0xFF8 then nextCluster ||| 0xFFFFF000 else nextCluster
  else if fatType = 16 then
    let nextCluster : Word := (cache.load16 fatIndex).setWidth 32
    if nextCluster ≥ 0xFFF8 then nextCluster ||| 0xFFFF0000 else nextCluster
  else cache.load32 fatIndex

/-- The offset of the entry of a cluster, in bytes. -/
def fatIndex (fatType : Byte) (currentCluster : Word) : Word :=
  if fatType = 12 then currentCluster * 3 / 2
  else if fatType = 16 then currentCluster * 2
  else currentCluster * 4

/-- Whether the sector could be read is not looked at. -/
def fatNextCluster (p : Partition) (s : FatData) (currentCluster : Word) : Word × FatData :=
  let fatIndex := fatIndex s.fatType currentCluster
  let fatIndexSector := fatIndex / sectorSize
  let s :=
    if fatIndexSector < s.fatCachePosition ∨ fatIndexSector ≥ s.fatCachePosition + FAT_CACHE_SIZE then
      { (fatReadFat p s fatIndexSector).2 with fatCachePosition := fatIndexSector }
    else s
  (decode s.fatType s.cacheBytes (fatIndex - s.fatCachePosition * sectorSize).toNat currentCluster, s)

/-- A function that looks up the cluster after one. -/
abbrev NextCluster : Type := FatData → Word → Word × FatData

/-- The end of a round of `FAT_Read` that has used up the sector, and whether the loop goes on. -/
def nextSector (next : NextCluster) (p : Partition) (s : FatData) (handle : Int) : Bool × FatData :=
  let fd := s.file handle
  if fd.handle = ROOT_DIRECTORY_HANDLE then
    let fd := { fd with currentCluster := fd.currentCluster + 1 }
    let r := mbrPartitionReadSector p s fd.currentCluster 1 fd.buffer
    (r.1, r.2.2.setFile handle { fd with buffer := r.2.1 })
  else
    let sector := fd.currentSectorInCluster + 1
    let r : Word × FatData :=
      if sector ≥ s.bootSector.sectorsPerCluster.setWidth 32 then next s fd.currentCluster
      else (fd.currentCluster, s)
    let sector := if sector ≥ s.bootSector.sectorsPerCluster.setWidth 32 then 0 else sector
    let s := r.2
    let fd := { fd with currentCluster := r.1, currentSectorInCluster := sector }
    if fd.currentCluster ≥ 0x0FF8 then (false, s.setFile handle { fd with size := fd.position })
    else
      let r := mbrPartitionReadSector p s
        (fatClusterToLba s fd.currentCluster + fd.currentSectorInCluster) 1 fd.buffer
      (r.1, r.2.2.setFile handle { fd with buffer := r.2.1 })

/-- The loop of `FAT_Read`, with the bytes copied so far. -/
def readLoop (next : NextCluster) (p : Partition) (handle : Int) :
    Nat → FatData → Word → Word → List Byte → Word × List Byte × FatData
  | 0, s, _, done, out => (done, out, s)
  | n + 1, s, byteCount, done, out =>
    if byteCount > 0 then
      let fd := s.file handle
      let leftInBuffer := sectorSize - fd.position % sectorSize
      let take := minWord byteCount leftInBuffer
      let out := out ++ fd.buffer.slice (fd.position % sectorSize).toNat take.toNat
      let done := done + take
      let s := s.setFile handle { fd with position := fd.position + take }
      if leftInBuffer = take then
        let r := nextSector next p s handle
        if r.1 then readLoop next p handle n r.2 (byteCount - take) done out else (done, out, r.2)
      else readLoop next p handle n s (byteCount - take) done out
    else (done, out, s)

/-- What it returns, and the bytes. Each round takes at least one byte off `byteCount`. -/
def fatRead (next : NextCluster) (p : Partition) (s : FatData) (handle : Int) (byteCount : Word) :
    Word × List Byte × FatData :=
  let fd := s.file handle
  let byteCount :=
    if ¬ fd.isDirectory ∨ fd.isDirectory ∧ fd.size ≠ 0 then minWord byteCount (fd.size - fd.position)
    else byteCount
  readLoop next p handle byteCount.toNat s byteCount 0 []

/-- The root directory stays open. -/
def fatClose (s : FatData) (handle : Int) : FatData :=
  let fd := s.file handle
  if handle = ROOT_DIRECTORY_HANDLE then
    s.setFile handle { fd with position := 0, currentCluster := fd.firstCluster }
  else s.setFile handle { fd with opened := false }

/-! ## Paths -/

/-- The fields, at their offsets in the packed structure. -/
def DirectoryEntry.ofBuffer (b : Buffer) : DirectoryEntry where
  fileName := b.slice 0 11
  fileAttribute := b 11
  firstClusterHigh := b.load16 20
  firstClusterLow := b.load16 26
  fileSize := b.load32 28

/-- The entry, if all of it was read. -/
def fatReadEntry (p : Partition) (s : FatData) (handle : Int) : Option DirectoryEntry × FatData :=
  let r := fatRead (fatNextCluster p) p s handle sizeofDirectoryEntry
  (if r.1 = sizeofDirectoryEntry then some (.ofBuffer (Buffer.ofList r.2.1)) else none, r.2.2)

def toupper (chr : Byte) : Byte := if 0x61 ≤ chr ∧ chr ≤ 0x7A then chr - 0x61 + 0x41 else chr

/-- The first `n` characters, in upper case and padded with spaces. -/
def padded (chars : List Byte) (n : Nat) : List Byte :=
  (chars.take n).map toupper ++ List.replicate (n - chars.length) 0x20

/-- The local `fatName` of `FAT_FindFile`. Without a dot, `ext` is `name + 11`. -/
def fatName (name : List Byte) : List Byte :=
  let ext := if 0x2E ∈ name then name.idxOf 0x2E else 11
  padded (name.take ext) 8 ++ padded (if ext = 11 then [] else name.drop (ext + 1)) 3

/-- The loop of `FAT_FindFile`, for at most the given number of rounds. -/
def findLoop (p : Partition) (handle : Int) (fatName : List Byte) :
    Nat → FatData → Option (Option DirectoryEntry × FatData)
  | 0, _ => none
  | n + 1, s =>
    let r := fatReadEntry p s handle
    match r.1 with
    | none => some (none, r.2)
    | some entry => if fatName = entry.fileName then some (some entry, r.2) else findLoop p handle fatName n r.2

def fatFindFile (fuel : Nat) (p : Partition) (s : FatData) (handle : Int) (name : List Byte) :
    Option (Option DirectoryEntry × FatData) := findLoop p handle (fatName name) fuel s

/-- The components of a path, the first of which starts with `component`, each with whether no slash
follows it. -/
def components (component : List Byte) : List Byte → List (List Byte × Bool)
  | [] => if component = [] then [] else [(component, true)]
  | chr :: path =>
    if chr = 0x2F then (component, false) :: components [] path else components (component ++ [chr]) path

/-- A component in the local `name`: the 0 after the last one is a byte too far. -/
def setName (name : Buffer) (component : List Byte) (isLast : Bool) : Buffer :=
  let name := name.copy 0 (Buffer.ofList component) component.length
  name.fill (if isLast then component.length + 1 else component.length) 0 1

/-- The string at the start of a buffer, of at most `n` characters. -/
def stringOf (b : Buffer) (n : Nat) : List Byte := (b.slice 0 n).takeWhile (· ≠ 0)

/-- The loop of `FAT_Open`. There is no result if it goes on with a null pointer. -/
def openLoop (fuel : Nat) (p : Partition) :
    List (List Byte × Bool) → Buffer → FatData → Int → Option (Option Int × FatData)
  | [], _, s, current => some (some current, s)
  | (component, isLast) :: path, name, s, current =>
    let name := setName name component isLast
    match fatFindFile fuel p s current (stringOf name (component.length + 1)) with
    | none => none
    | some (none, s) => some (none, fatClose s current)
    | some (some entry, s) =>
      let s := fatClose s current
      if isLast = false ∧ entry.fileAttribute &&& FAT_ATTRIBUTE_DIRECTORY = 0 then some (none, s)
      else
        match fatOpenEntry p s entry with
        | (some handle, s) => openLoop fuel p path name s handle
        | (none, s) => if path = [] then some (none, s) else none

/-- The path without a slash, or a dot and a slash, at its start. -/
def stripPath : List Byte → List Byte
  | 0x2F :: path => path
  | 0x2E :: 0x2F :: path => path
  | path => path

/-- The handle of the file, or nothing. The local `name` is not initialised. -/
def fatOpen (fuel : Nat) (p : Partition) (name : Buffer) (s : FatData) (path : List Byte) :
    Option (Option Int × FatData) :=
  openLoop fuel p (components [] (stripPath path)) name s ROOT_DIRECTORY_HANDLE

end AlexOS.Stage2
