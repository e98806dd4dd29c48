import Mathlib.Logic.Function.Basic
import Fioxa.Fs.Names

/-! # The FAT file system

`fs/fat.rs`: a partition is mounted by `read_bios_block`, and then serves `get_file_by_id`,
`read_file` and `read_file_sector`. Files and folders are known by ids, which are made when the
directory that has them is read. The sectors of the file allocation table that have been read are
kept in `cluster_chain_buffer`.

The results of disk reads are dropped, as in the source. Integers are natural numbers, and an
operation that overflows its type is a fault. The loop over the clusters of a directory has no bound
in the source; it has fuel here.

What reads the disk is generic in the monad: in `Run` it is the function of the source, and in
another one (`DiskCalls.lean`) the same text also records what it asks of the disk. -/

namespace Fioxa.Fs

open Faults Function

/-! ## On the disk -/

/-- The fields of the boot sector that are used. -/
structure BiosParameterBlock where
  bytesPerSector : Nat
  sectorsPerCluster : Nat
  reservedSectors : Nat
  fatCopies : Nat
  rootDirEntries : Nat
  totalSectors : Nat
  fatSectorCnt : Nat
  totalSectorsExt : Nat

def BiosParameterBlock.parse (bytes : List UInt8) : BiosParameterBlock where
  bytesPerSector := le16 bytes 11
  sectorsPerCluster := byteAt bytes 13
  reservedSectors := le16 bytes 14
  fatCopies := byteAt bytes 16
  rootDirEntries := le16 bytes 17
  totalSectors := le16 bytes 19
  fatSectorCnt := le16 bytes 22
  totalSectorsExt := le32 bytes 32

inductive FatExtendedBootRecord where
  | fat16
  | fat32 (sectorsPerFat rootCluster : Nat)
deriving DecidableEq

/-- The 32 bytes of an entry of a directory. The source has no `good`: they come from a disk read
    that succeeded. -/
structure DirectoryEntry where
  bytes : List UInt8
  good : Bool
deriving DecidableEq

namespace DirectoryEntry

variable (e : DirectoryEntry)

def first : Nat := byteAt e.bytes 0

def name : List UInt8 := e.bytes.take 8

def ext : List UInt8 := (e.bytes.drop 8).take 3

def attributes : Nat := byteAt e.bytes 11

def firstClusterHi : Nat := le16 e.bytes 20

def firstClusterLow : Nat := le16 e.bytes 26

def size : Nat := le32 e.bytes 28

/-- `chars_1`, `chars_2` and `chars_3` of a `LongFileName`. -/
def lfnChars : List Nat :=
  (List.range 5).map (fun i => le16 e.bytes (1 + 2 * i)) ++
  (List.range 6).map (fun i => le16 e.bytes (14 + 2 * i)) ++
  (List.range 2).map fun i => le16 e.bytes (28 + 2 * i)

def isFolder : Bool := e.attributes &&& 0x10 = 0x10

/-- The part of a long name in an entry. -/
def longNamePart : Name := decodeUtf16 (e.lfnChars.takeWhile (· ≠ 0))

/-- The name of an entry without a long name. That of a folder has no extension. -/
def shortName : Name :=
  let name := trim (fromUtf8Lossy e.name)
  let ext := trim (fromUtf8Lossy e.ext)
  if e.isFolder ∨ ext = [] then name else name ++ '.' :: ext

/-- The name of an entry that comes after the parts of a long name. -/
def nameWith (lfnBuf : Name) : Name :=
  if lfnBuf = [] then e.shortName else lfnBuf

/-- The first cluster, as `parse_entries` computes it. -/
def cluster : Nat := e.firstClusterHi <<< 8 ||| e.firstClusterLow

end DirectoryEntry

/-- `name == "." || name == ".."` -/
def isDots (name : Name) : Bool := name = ['.'] ∨ name = ['.', '.']

/-- A buffer as directory entries. -/
def directoryEntries (buffer : List Cell) (n : Nat) : List DirectoryEntry :=
  (List.range n).map fun i =>
    let cells := (buffer.drop (i * 32)).take 32
    ⟨values cells, cells.all Cell.good⟩

/-! ## The mounted file system -/

/-- The entries of a folder, by name, with their ids. -/
abbrev Listing := Name → Option Nat

inductive FATFileType where
  | folder (children : Option Listing)
  | file (size : Nat)

/-- The source has no `good`: the directory entry came from a disk read that succeeded. -/
structure FATFile where
  cluster : Nat
  entryType : FATFileType
  good : Bool

/-- The state of a mounted partition, with three things that the source does not have in it: how
    many reads of the disk there have been, the next id that `next_file_id` returns, and whether all
    entries of directories and of the file allocation table that have been used came from disk reads
    that succeeded. A partition with no sectors in a cluster is not mounted. -/
structure FAT where
  partitionId : Nat
  bpb : BiosParameterBlock
  ebr : FatExtendedBootRecord
  disk : FSPartitionDisk
  fileIdLookup : Nat → Option FATFile
  clusterChainBuffer : Nat → Option (List Cell)
  reads : Nat
  nextFileId : Nat
  trusted : Bool
  sectorsPerCluster_pos : 0 < bpb.sectorsPerCluster

/-- The result of an addition or a multiplication of `u32`. -/
def u32 (n : Nat) : Run Nat := do
  ensure (n < 0x100000000) (.fault .overflow)
  return n

namespace FAT

variable (fat : FAT)

/-- The result of a read is not looked at. -/
def diskRead (s n : Nat) (buffer : List Cell) : Run (List Cell × FAT) := do
  let (_, buffer) ← fat.disk.read fat.reads s n buffer
  return (buffer, { fat with reads := fat.reads + 1 })

end FAT

/-- A monad for functions that read the disk: a step without a read, and a read. -/
class Reads (m : Type → Type) where
  step {α : Type} : Run α → m α
  diskRead : FAT → Nat → Nat → List Cell → m (List Cell × FAT)

open Reads

@[default_instance] instance : Reads (Except (Stop FSServiceError Fault)) where
  step x := x
  diskRead := FAT.diskRead

@[simp] theorem step_run {α : Type} (x : Run α) :
    (step x : Except (Stop FSServiceError Fault) α) = x := rfl

namespace FAT

variable (fat : FAT) {m : Type → Type} [Monad m] [Reads m]

/-! ## Sectors and clusters -/

/-- For FAT16 this is computed in `u16`. -/
def rootDirSectors : Run Nat :=
  match fat.ebr with
  | .fat16 => do
      ensure (fat.bpb.rootDirEntries * 32 + fat.bpb.bytesPerSector < 0x10000) (.fault .overflow)
      ensure (0 < fat.bpb.rootDirEntries * 32 + fat.bpb.bytesPerSector) (.fault .overflow)
      ensure (fat.bpb.bytesPerSector ≠ 0) (.fault .divideByZero)
      return (fat.bpb.rootDirEntries * 32 + fat.bpb.bytesPerSector - 1) / fat.bpb.bytesPerSector
  | .fat32 .. => return 0

def firstDataSector : Run Nat :=
  match fat.ebr with
  | .fat16 => do
      let root ← fat.rootDirSectors
      u32 (fat.bpb.reservedSectors + fat.bpb.fatSectorCnt * fat.bpb.fatCopies + root)
  | .fat32 sectorsPerFat _ => do
      let fats ← u32 (sectorsPerFat * fat.bpb.fatCopies)
      u32 (fat.bpb.reservedSectors + fats)

def getStartSectorOfCluster (cluster : Nat) : Run Nat := do
  ensure (2 ≤ cluster) (.fault .assertion)
  let offset ← u32 ((cluster - 2) * fat.bpb.sectorsPerCluster)
  let first ← fat.firstDataSector
  u32 (offset + first)

/-- The size of an entry of the file allocation table. -/
def fatSize : Nat :=
  match fat.ebr with
  | .fat16 => 2
  | .fat32 .. => 4

/-- The sector of the file allocation table with the entry of a cluster. -/
def fatBufOffset (cluster : Nat) : Nat :=
  cluster / (512 / fat.fatSize) + fat.bpb.reservedSectors

/-- The entry of a cluster, in the sector that has it. -/
def fatEntry (cluster : Nat) (bytes : List UInt8) : Nat :=
  let idx := cluster % (512 / fat.fatSize)
  match fat.ebr with
  | .fat16 => le16 bytes (idx * 2)
  | .fat32 .. => le32 bytes (idx * 4)

/-- A sector is put into `cluster_chain_buffer`. -/
def store (offset : Nat) (buffer : List Cell) : FAT :=
  { fat with clusterChainBuffer := update fat.clusterChainBuffer offset (some buffer) }

/-- A sector of the file allocation table, from `cluster_chain_buffer` or from the disk. A new
    buffer is not initialised; what is in it matters only if the read fails. -/
def fatBuffer (offset : Nat) : m (List Cell × FAT) :=
  match fat.clusterChainBuffer offset with
  | some buffer => pure (buffer, fat)
  | none => do
      let (buffer, fat) ← Reads.diskRead fat offset 1 (blank 512)
      return (buffer, fat.store offset buffer)

/-- The cells of the entry of a cluster. -/
def fatCells (cluster : Nat) (buffer : List Cell) : List Cell :=
  (buffer.drop (cluster % (512 / fat.fatSize) * fat.fatSize)).take fat.fatSize

def getNextCluster (cluster : Nat) : m (Nat × FAT) := do
  let (buffer, fat) ← fat.fatBuffer (fat.fatBufOffset cluster)
  return (fat.fatEntry cluster (values buffer),
    { fat with trusted := fat.trusted && (fat.fatCells cluster buffer).all Cell.good })

/-! ## Directories -/

/-- The file of a directory entry. -/
def fileOf (e : DirectoryEntry) : FATFile :=
  ⟨e.cluster, if e.isFolder then .folder none else .file e.size, e.good⟩

/-- Returns whether the last entry of the directory has been found, and the entries and the part of
    a long name so far. -/
def parseEntries : List DirectoryEntry → Listing → Name → FAT → Bool × Listing × Name × FAT
  | [], entries, lfnBuf, fat => (false, entries, lfnBuf, fat)
  | e :: rest, entries, lfnBuf, fat =>
    let fat := { fat with trusted := fat.trusted && e.good }
    -- no more entries
    if e.first = 0 then (true, entries, lfnBuf, fat)
    -- unused entry
    else if e.first = 0xE5 then parseEntries rest entries lfnBuf fat
    else if e.attributes = 0x0F then parseEntries rest entries (e.longNamePart ++ lfnBuf) fat
    else
      let name := e.nameWith lfnBuf
      if isDots name then parseEntries rest entries [] fat
      else
        let id := fat.nextFileId
        parseEntries rest (update entries name (some id)) []
          { fat with
            nextFileId := id + 1
            fileIdLookup := update fat.fileIdLookup id (some (fileOf e)) }

/-- What is known after some sectors of a directory. -/
structure Parsed where
  last : Bool
  buffer : List Cell
  entries : Listing
  lfnBuf : Name
  fat : FAT

/-- The body of both loops over directories: `n` sectors are read and parsed. -/
def parseSectors (fat : FAT) (sector n : Nat) (buffer : List Cell) (entries : Listing)
    (lfnBuf : Name) : m Parsed := do
  let (buffer, fat) ← Reads.diskRead fat sector n buffer
  let (last, entries, lfnBuf, fat) := parseEntries (directoryEntries buffer (16 * n)) entries lfnBuf
    fat
  return ⟨last, buffer, entries, lfnBuf, fat⟩

/-- The loop of `read_directory`. It ends at cluster 0 or at the last entry. -/
def readClusters : Nat → Nat → List Cell → Listing → Name → FAT → m (Listing × FAT)
  | 0, _, _, _, _, _ => step (.error (.fault .outOfFuel))
  | fuel + 1, cluster, buffer, entries, lfnBuf, fat =>
    if cluster = 0 then pure (entries, fat)
    else do
      let sector ← step (fat.getStartSectorOfCluster cluster)
      let p ← fat.parseSectors sector fat.bpb.sectorsPerCluster buffer entries lfnBuf
      if p.last then return (p.entries, p.fat)
      else
        let (next, fat) ← p.fat.getNextCluster cluster
        readClusters fuel next p.buffer p.entries p.lfnBuf fat

def noEntries : Listing := fun _ => none

def readDirectory (fuel : Nat) (fat : FAT) (cluster : Nat) : m (Listing × FAT) :=
  readClusters fuel cluster (blank (512 * fat.bpb.sectorsPerCluster)) noEntries [] fat

/-- The loop over the sectors of the root directory of FAT16. -/
def readRootSectors : List Nat → List Cell → Listing → Name → FAT → m (Listing × FAT)
  | [], _, entries, _, fat => pure (entries, fat)
  | sector :: rest, buffer, entries, lfnBuf, fat => do
      let p ← fat.parseSectors sector 1 buffer entries lfnBuf
      if p.last then return (p.entries, p.fat)
      else readRootSectors rest p.buffer p.entries p.lfnBuf p.fat

def readRoot (fuel : Nat) (fat : FAT) : m (Listing × FAT) :=
  match fat.ebr with
  | .fat32 _ rootCluster => fat.readDirectory fuel rootCluster
  | .fat16 => do
      let first ← step fat.firstDataSector
      let root ← step fat.rootDirSectors
      readRootSectors (List.range' (first - root) root) (blank 512) noEntries [] fat

/-- The root is folder 0, with the entries as they are. -/
def enumerateRoot (fuel : Nat) (fat : FAT) : m FAT := do
  step (ensure (fat.fileIdLookup 0).isNone (.fault .assertion))
  let (children, fat) ← fat.readRoot fuel
  return { fat with
    fileIdLookup := update fat.fileIdLookup 0 (some ⟨0, .folder (some children), true⟩) }

/-- Which kind of file system it is, from the number of clusters. -/
def extendedBootRecord (bytes : List UInt8) (totalClusters : Nat) : Run FatExtendedBootRecord :=
  if totalClusters < 4085 then .error (.fault .unsupported)
  else if totalClusters < 65535 then .ok .fat16
  else .ok (.fat32 (le32 bytes 36) (le32 bytes 44))

/-- `total_clusters` -/
def totalClusters (bpb : BiosParameterBlock) : Nat :=
  if bpb.totalSectors / bpb.sectorsPerCluster = 0 then bpb.totalSectorsExt / bpb.sectorsPerCluster
  else bpb.totalSectors / bpb.sectorsPerCluster

/-- Mounting, when there have been a number of disk reads and ids. -/
def readBiosBlock (fuel : Nat) (disk : FSPartitionDisk) (partitionId reads nextFileId : Nat) :
    Run FAT := do
  let (_, buffer) ← disk.read reads 0 1 (blank 512)
  let bpb := BiosParameterBlock.parse (values buffer)
  if h : 0 < bpb.sectorsPerCluster then
    let ebr ← extendedBootRecord (values buffer) (totalClusters bpb)
    enumerateRoot fuel ⟨partitionId, bpb, ebr, disk, fun _ => none, fun _ => none, reads + 1,
      nextFileId, true, h⟩
  else .error (.fault .divideByZero)

/-! ## Requests -/

inductive VFileSpecialized where
  | folder (children : Name → Option (Nat × Nat))
  | file (size : Nat)

/-- `location` is the partition and the file id. -/
structure VFile where
  location : Nat × Nat
  specialized : VFileSpecialized

def getFatFile (fat : FAT) (fileId : Nat) : Run FATFile :=
  unwrap (fat.fileIdLookup fileId) (.err .fileNotFound)

/-- A folder as it is returned. -/
def folder (fat : FAT) (fileId : Nat) (children : Listing) : VFile :=
  ⟨(fat.partitionId, fileId),
    .folder fun name => (children name).map fun id => (fat.partitionId, id)⟩

/-- The entries of a folder that have been read are not put into the file that is written back. -/
def getFileById (fuel : Nat) (fat : FAT) (fileId : Nat) : Run (VFile × FAT) := do
  let fatFile ← fat.getFatFile fileId
  match fatFile.entryType with
  | .folder (some children) => return (fat.folder fileId children, fat)
  | .folder none =>
    let (children, fat) ← fat.readDirectory fuel fatFile.cluster
    return (fat.folder fileId children,
      { fat with fileIdLookup := update fat.fileIdLookup fileId (some fatFile) })
  | .file size => return (⟨(fat.partitionId, fileId), .file size⟩, fat)

/-- The runs of consecutive sectors so far, the last one first. A cluster that follows the last run
    makes it longer. -/
def pushRun (runs : List (Nat × Nat)) (sector amount : Nat) : Run (List (Nat × Nat)) :=
  match runs with
  | (start, len) :: rest => do
      let stop ← u32 (start + len)
      if stop = sector then
        let len ← u32 (len + amount)
        return (start, len) :: rest
      else return (sector, amount) :: (start, len) :: rest
  | [] => return [(sector, amount)]

/-- The first loop of `read_file`. A cluster has at least one sector, so there are at most as many
    turns as there are sectors to read. -/
def collectRuns : Nat → Nat → Nat → List (Nat × Nat) → FAT → m (List (Nat × Nat) × FAT)
  | 0, _, _, runs, fat => pure (runs, fat)
  | fuel + 1, sectorsToRead, cluster, runs, fat =>
    if sectorsToRead = 0 then pure (runs, fat)
    else do
      let amount := min sectorsToRead fat.bpb.sectorsPerCluster
      let sector ← step (fat.getStartSectorOfCluster cluster)
      let runs ← step (pushRun runs sector amount)
      let (next, fat) ← fat.getNextCluster cluster
      collectRuns fuel (sectorsToRead - amount) next runs fat

/-- Reading a run, at most 56 sectors at once, into the buffer from an offset on. -/
def readRun : Nat → Nat → Nat → List Cell → Nat → FAT → m (List Cell × Nat × FAT)
  | 0, _, _, buffer, offset, fat => pure (buffer, offset, fat)
  | fuel + 1, sector, len, buffer, offset, fat =>
    if len = 0 then pure (buffer, offset, fat)
    else do
      let amount := min len 56
      let (slice, fat) ← Reads.diskRead fat sector amount (buffer.drop offset)
      readRun fuel (sector + amount) (len - amount) (buffer.take offset ++ slice)
        (offset + 512 * amount) fat

/-- The second loop of `read_file`. -/
def readRuns : List (Nat × Nat) → List Cell → Nat → FAT → m (List Cell × FAT)
  | [], buffer, _, fat => pure (buffer, fat)
  | (sector, len) :: rest, buffer, offset, fat => do
      let (buffer, offset, fat) ← readRun len sector len buffer offset fat
      readRuns rest buffer offset fat

/-- `Vec::resize` -/
def resize (buffer : List Cell) (n : Nat) : List Cell :=
  buffer.take n ++ blank (n - buffer.length)

/-- The length of a file; folders have none. -/
def fileLength (fatFile : FATFile) : Run Nat :=
  match fatFile.entryType with
  | .folder _ => .error (.err .invalidRequestForFileType)
  | .file size => .ok size

def readFile (fat : FAT) (fileId : Nat) (buffer : List Cell) : m (List Cell × FAT) := do
  let fatFile ← step (fat.getFatFile fileId)
  let length ← step (fileLength fatFile)
  let rounded ← step (u32 (length + 511))
  let sectorsToRead := rounded / 512
  let (runs, fat) ← collectRuns sectorsToRead sectorsToRead fatFile.cluster [] fat
  let (buffer, fat) ← readRuns runs.reverse (resize buffer (512 * sectorsToRead)) 0 fat
  return (buffer.take length, fat)

/-- Following the chain for a number of clusters. -/
def skipClusters : Nat → Nat → FAT → m (Nat × FAT)
  | 0, cluster, fat => pure (cluster, fat)
  | n + 1, cluster, fat => do
      let (next, fat) ← fat.getNextCluster cluster
      skipClusters n next fat

/-- Returns the number of bytes of the buffer that are of the file, and the buffer. -/
def readFileSector (fat : FAT) (fileId fileSector : Nat) (buffer : List Cell) :
    m (Option Nat × List Cell × FAT) := do
  let fatFile ← step (fat.getFatFile fileId)
  let length ← step (fileLength fatFile)
  let rounded ← step (u32 (length + 511))
  let sectorsToRead := rounded / 512
  if fileSector = sectorsToRead then return (none, buffer, fat)
  else
    step (ensure (fileSector + 1 < 0x10000000000000000) (.fault .overflow))
    let length := if fileSector + 1 = sectorsToRead then length % 512 else 512
    let spc := fat.bpb.sectorsPerCluster
    let (cluster, fat) ← skipClusters (fileSector / spc) fatFile.cluster fat
    let start ← step (fat.getStartSectorOfCluster cluster)
    let sector ← step (u32 (start + fileSector % 0x100000000 % spc))
    let (buffer, fat) ← Reads.diskRead fat sector 1 buffer
    return (some length, buffer, fat)

end FAT

end Fioxa.Fs
