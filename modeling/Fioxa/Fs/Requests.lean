import Fioxa.Fs.Contents

/-! # Mounting, and requests

Mounting reads the root directory. From then on the partition serves requests; between them, other
partitions take ids and read from the disk. -/

namespace Fioxa.Fs.FAT

open Faults List Function Exact BiosParameterBlock

variable {fat fat' : FAT} {fuel id : Nat} {b : List Cell} {disk : FSPartitionDisk}

/-! ## The root directory -/

/-- The entries of the root directory, if reading it comes to an end. -/
def rootWalk (fat : FAT) (fuel : Nat) : Option (List DirectoryEntry) :=
  match fat.ebr with
  | .fat32 _ rootCluster => fat.walk fuel rootCluster
  | .fat16 => do
      let first ← fat.dataStart
      let root ← fat.rootDirSectors.toOption
      fat.rootEntries (range' (first - root) root)

theorem readRoot_exact (h : fat.Cached) : Exact (fat.readRoot fuel) (fat.rootWalk fuel).isSome
    fun r => ∃ es, fat.rootWalk fuel = some es ∧ ReadTo r fat es noEntries [] := by
  unfold readRoot rootWalk
  cases fat.ebr with
  | fat32 sectorsPerFat rootCluster => exact readDirectory_exact h fuel rootCluster
  | fat16 =>
    cases hfirst : fat.dataStart with
    | none =>
      obtain ⟨f, hf⟩ := (of_noErr noErr_firstDataSector).faults (by
        rw [show fat.firstDataSector.toOption = none from hfirst]
        simp)
      exact fault_bind hf (by simp)
    | some =>
      refine ok_bind (toOption_eq_some.1 hfirst) ?_
      cases hroot : fat.rootDirSectors.toOption with
      | none =>
        obtain ⟨f, hf⟩ := (of_noErr noErr_rootDirSectors).faults (by
          rw [hroot]
          simp)
        exact fault_bind hf (by simp)
      | some =>
        refine ok_bind (toOption_eq_some.1 hroot) ?_
        exact readRootSectors_exact h length_blank

/-- A partition whose root directory has not been read. -/
def unmounted (disk : FSPartitionDisk) (partitionId reads nextFileId : Nat)
    (bpb : BiosParameterBlock) (ebr : FatExtendedBootRecord) (h : 0 < bpb.sectorsPerCluster) :
    FAT :=
  ⟨partitionId, bpb, ebr, disk, fun _ => none, fun _ => none, reads, nextFileId, true, h⟩

/-- The root directory `es` has been read into folder 0. -/
structure Rooted (fat : FAT) (es : List DirectoryEntry) (fat' : FAT) : Prop
    extends SamePartition fat fat' where
  root : fat'.fileIdLookup 0
    = some ⟨0, .folder (some (addNames (named es []) fat.nextFileId noEntries)), true⟩
  fileIdLookup : ∀ id, id ≠ 0 →
    fat'.fileIdLookup id = addFiles (named es []) fat.nextFileId fat.fileIdLookup id
  nextFileId : fat'.nextFileId = fat.nextFileId + (named es []).length
  cached : fat'.Cached

theorem enumerateRoot_exact (h : fat.Cached) (hroot : fat.fileIdLookup 0 = none) :
    Exact (fat.enumerateRoot fuel) (fat.rootWalk fuel).isSome fun fat' =>
      ∃ es, fat.rootWalk fuel = some es ∧ Rooted fat es fat' := by
  refine ok_bind (a := ()) (ensure_eq_ok.2 (by rw [hroot]; rfl)) ?_
  refine ((readRoot_exact h).bind fun r hr => ?_).congr (and_iff_left trivial)
    fun _ _ hr => hr
  obtain ⟨children, fat₁⟩ := r
  obtain ⟨es, hes, hentries, hminted⟩ := hr
  refine pure ⟨es, hes, ⟨⟨hminted.bpb, hminted.ebr, hminted.disk⟩, hminted.partitionId⟩,
    ?_, ?_, hminted.nextFileId, hminted.cached.reliable, hminted.cached.chain⟩
  · rw [← show children = _ from hentries]
    exact update_self (0 : Nat) _ fat₁.fileIdLookup
  · intro id hid
    exact (update_of_ne hid _ _).trans (congrFun hminted.fileIdLookup id)

/-- The boot sector. -/
def bootSector (disk : FSPartitionDisk) : List UInt8 := disk.sectors 0 1

theorem cached_unmounted {partitionId reads nextFileId : Nat} {bpb : BiosParameterBlock}
    {ebr : FatExtendedBootRecord} {h : 0 < bpb.sectorsPerCluster} (hdisk : disk.Reliable) :
    (unmounted disk partitionId reads nextFileId bpb ebr h).Cached :=
  ⟨hdisk, fun k b hb => by cases hb⟩

theorem readBiosBlock_eq_ok {partitionId reads nextFileId : Nat} (hdisk : disk.Reliable) :
    readBiosBlock fuel disk partitionId reads nextFileId = .ok fat ↔
      0 < disk.partitionLength ∧
      ∃ (h : 0 < (parse (bootSector disk)).sectorsPerCluster) (ebr : _),
        extendedBootRecord (bootSector disk) (totalClusters (parse (bootSector disk))) = .ok ebr ∧
        (unmounted disk partitionId (reads + 1) nextFileId
          (parse (bootSector disk)) ebr h).enumerateRoot fuel = .ok fat := by
  have hread : ∀ r, disk.read reads 0 1 (blank 512) = .ok r ↔
      0 < disk.partitionLength ∧ r = (some (), marked true (bootSector disk)) := by
    intro r
    have houtcome : disk.backingDisk.outcome reads (0 + disk.partitionOffset) 1 (blank 512)
        = (some (), marked true (bootSector disk)) := by
      rw [DiskDevice.outcome, hdisk reads, drop_eq_nil_of_le (by simp), if_neg (by simp),
        append_nil]
      rfl
    have hexact := FSPartitionDisk.read_exact (d := disk) (t := reads) (s := 0) (n := 1)
      (c := blank 512)
    rw [houtcome] at hexact
    constructor
    · intro hr
      obtain ⟨hcond, heq⟩ := hexact.of_ok hr
      exact ⟨by omega, heq⟩
    · rintro ⟨hpos, rfl⟩
      obtain ⟨r, hr, rfl⟩ := hexact.returns ⟨by omega, by decide, by simp⟩
      exact hr
  rw [readBiosBlock, bind_eq_ok]
  simp only [hread]
  constructor
  · rintro ⟨r, ⟨hpos, rfl⟩, hfat⟩
    simp only [values_marked] at hfat
    split at hfat
    · rename_i h
      obtain ⟨ebr, hebr, hfat⟩ := bind_eq_ok.1 hfat
      exact ⟨hpos, h, ebr, hebr, hfat⟩
    · cases hfat
  · rintro ⟨hpos, h, ebr, hebr, hfat⟩
    refine ⟨_, ⟨hpos, rfl⟩, ?_⟩
    simp only [values_marked]
    rw [dif_pos h]
    exact bind_eq_ok.2 ⟨ebr, hebr, hfat⟩

/-! ## Ids -/

/-- The ids that have files have been handed out. -/
def Numbered (fat : FAT) : Prop := ∀ id, fat.nextFileId ≤ id → fat.fileIdLookup id = none

variable {file : FATFile}

theorem Numbered.lt (h : fat.Numbered) (hfile : fat.fileIdLookup id = some file) :
    id < fat.nextFileId := by
  by_contra hle
  rw [h id (Nat.le_of_not_lt hle)] at hfile
  cases hfile

structure Ready (fat : FAT) : Prop extends Cached fat where
  numbered : fat.Numbered

theorem Kept.ready (hkept : Kept fat fat') (h : fat.Ready) : fat'.Ready := by
  refine ⟨hkept.cached, fun id hid => ?_⟩
  rw [hkept.fileIdLookup]
  exact h.numbered id (hkept.nextFileId ▸ hid)

theorem Minted.ready {l : List NamedEntry} (hminted : Minted fat l fat') (h : fat.Ready) :
    fat'.Ready := by
  refine ⟨hminted.cached, fun id hid => ?_⟩
  rw [hminted.nextFileId] at hid
  rw [hminted.fileIdLookup, addFiles_of_le hid]
  exact h.numbered id (by omega)

theorem Rooted.ready {es : List DirectoryEntry} (hrooted : Rooted fat es fat') (h : fat.Ready)
    (hpos : 0 < fat.nextFileId) : fat'.Ready := by
  refine ⟨hrooted.cached, fun id hid => ?_⟩
  rw [hrooted.nextFileId] at hid
  rw [hrooted.fileIdLookup id (by omega), addFiles_of_le hid]
  exact h.numbered id (by omega)

/-! ## Folders -/

theorem getFileById_eq_file {size : Nat} (hfile : fat.fileIdLookup id = some file)
    (htype : file.entryType = .file size) :
    fat.getFileById fuel id = .ok (⟨(fat.partitionId, id), .file size⟩, fat) := by
  refine bind_eq_ok.2 ⟨file, unwrap_eq_ok.2 hfile, ?_⟩
  rw [htype]
  rfl

theorem getFileById_eq_cached {children : Listing} (hfile : fat.fileIdLookup id = some file)
    (htype : file.entryType = .folder (some children)) :
    fat.getFileById fuel id = .ok (fat.folder id children, fat) := by
  refine bind_eq_ok.2 ⟨file, unwrap_eq_ok.2 hfile, ?_⟩
  rw [htype]
  rfl

theorem getFileById_eq_error (hfile : fat.fileIdLookup id = none) :
    fat.getFileById fuel id = .error (.err .fileNotFound) := by
  rw [getFileById, getFatFile, hfile]
  rfl

/-- The ways in which `get_file_by_id` returns. -/
inductive Found (fuel : Nat) (fat : FAT) (id : Nat) : VFile × FAT → Prop where
  | file {file : FATFile} {size : Nat} (hfile : fat.fileIdLookup id = some file)
      (htype : file.entryType = .file size) :
      Found fuel fat id (⟨(fat.partitionId, id), .file size⟩, fat)
  | cached {file : FATFile} {children : Listing} (hfile : fat.fileIdLookup id = some file)
      (htype : file.entryType = .folder (some children)) :
      Found fuel fat id (fat.folder id children, fat)
  | unread {file : FATFile} {children : Listing} {fat₁ : FAT}
      (hfile : fat.fileIdLookup id = some file) (htype : file.entryType = .folder none)
      (hread : fat.readDirectory fuel file.cluster = .ok (children, fat₁)) :
      Found fuel fat id (fat₁.folder id children,
        { fat₁ with fileIdLookup := Function.update fat₁.fileIdLookup id (some file) })

theorem getFileById_found {r : VFile × FAT} (hok : fat.getFileById fuel id = .ok r) :
    Found fuel fat id r := by
  obtain ⟨file, hfile, hok⟩ := bind_eq_ok.1 hok
  have hfile := unwrap_eq_ok.1 hfile
  split at hok
  · rename_i htype
    cases hok
    exact .cached hfile htype
  · rename_i htype
    obtain ⟨⟨children, fat₁⟩, hread, hok⟩ := bind_eq_ok.1 hok
    cases hok
    exact .unread hfile htype hread
  · rename_i htype
    cases hok
    exact .file hfile htype

theorem getFileById_exact (h : fat.Ready) (hfile : fat.fileIdLookup id = some file)
    (htype : file.entryType = .folder none) :
    Exact (fat.getFileById fuel id) (fat.walk fuel file.cluster).isSome fun r =>
      ∃ es, fat.walk fuel file.cluster = some es ∧
        r.1 = r.2.folder id (addNames (named es []) fat.nextFileId noEntries) ∧
        Minted fat (named es []) r.2 := by
  refine ok_bind (unwrap_eq_ok.2 hfile) ?_
  rw [htype]
  refine ((readDirectory_exact h.toCached fuel file.cluster).bind
    fun r hr => ?_).congr (and_iff_left trivial) fun _ _ hr => hr
  obtain ⟨children, fat₁⟩ := r
  obtain ⟨es, hes, hentries, hminted⟩ := hr
  have hid := h.numbered.lt hfile
  refine pure ⟨es, hes, ?_, ⟨⟨⟨hminted.bpb, hminted.ebr, hminted.disk⟩,
    hminted.partitionId⟩, ?_, hminted.nextFileId, hminted.cached.reliable, hminted.cached.chain⟩⟩
  · rw [show children = _ from hentries]
    rfl
  · -- the file is written back as it was
    rw [show fat₁.fileIdLookup = _ from hminted.fileIdLookup]
    refine update_eq_self_iff.2 ?_
    rw [addFiles_of_lt hid, hfile]

/-! ## Requests -/

/-- A buffer of `[u8; 512]`. -/
abbrev Block := { b : List Cell // b.length = 512 }

inductive Request where
  | getFileById (id : Nat)
  | readFile (id : Nat) (buffer : List Cell)
  | readFileSector (id sector : Nat) (buffer : Block)

/-- The bytes of files that a request returns, and the state after it. -/
def serve (fuel : Nat) (fat : FAT) : Request → Run (List Cell × FAT)
  | .getFileById id => do
      let (_, fat) ← fat.getFileById fuel id
      return ([], fat)
  | .readFile id buffer => fat.readFile id buffer
  | .readFileSector id sector buffer => do
      let (n, buffer, fat) ← fat.readFileSector id sector buffer.1
      return (buffer.take (n.getD 0), fat)

/-- Other partitions have taken ids and read from the disk. -/
def elsewhere (fat : FAT) (ids reads : Nat) : FAT :=
  { fat with nextFileId := fat.nextFileId + ids, reads := fat.reads + reads }

/-- The states of a partition: it is mounted, and serves requests. -/
inductive Mounted (disk : FSPartitionDisk) : FAT → Prop where
  | mount {fuel partitionId reads nextFileId : Nat} {fat : FAT} (hpos : 0 < nextFileId)
      (hok : readBiosBlock fuel disk partitionId reads nextFileId = .ok fat) : Mounted disk fat
  | request {fuel : Nat} {fat fat' : FAT} {answer : List Cell} (req : Request)
      (h : Mounted disk fat) (hok : fat.serve fuel req = .ok (answer, fat')) : Mounted disk fat'
  | elsewhere {fat : FAT} (ids reads : Nat) (h : Mounted disk fat) :
      Mounted disk (fat.elsewhere ids reads)

theorem fileLength_eq_ok {length : Nat} :
    fileLength file = .ok length ↔ file.entryType = .file length := by
  unfold fileLength
  cases file.entryType <;> simp

theorem isFile_of_readFile {r : List Cell × FAT} (hok : fat.readFile id b = .ok r) :
    ∃ file length, fat.fileIdLookup id = some file ∧ file.entryType = .file length := by
  obtain ⟨file, hfile, hok⟩ := bind_eq_ok.1 hok
  obtain ⟨length, hlength, -⟩ := bind_eq_ok.1 hok
  exact ⟨file, length, unwrap_eq_ok.1 hfile, fileLength_eq_ok.1 hlength⟩

theorem getFileById_ready {r : VFile × FAT} (h : fat.Ready)
    (hok : fat.getFileById fuel id = .ok r) : r.2.Ready := by
  cases getFileById_found hok with
  | file | cached => exact h
  | unread hfile htype =>
    obtain ⟨-, es, -, -, hminted⟩ := (getFileById_exact h hfile htype).of_ok hok
    exact hminted.ready h

theorem readFileSector_ready {k : Nat} {r : Option Nat × List Cell × FAT} (h : fat.Ready)
    (hb : b.length = 512) (hok : fat.readFileSector id k b = .ok r) : r.2.2.Ready := by
  obtain ⟨file, hlookup, hrest⟩ := bind_eq_ok.1 hok
  obtain ⟨length, hlength, hrest⟩ := bind_eq_ok.1 hrest
  obtain ⟨rounded, hrounded, -⟩ := bind_eq_ok.1 hrest
  have hfile := unwrap_eq_ok.1 hlookup
  have htype := fileLength_eq_ok.1 hlength
  by_cases hk : k = sectorCount length
  · subst hk
    rw [readFileSector_none hfile htype (u32_eq_ok.1 hrounded).1] at hok
    cases hok
    exact h
  · obtain ⟨-, s, -, -, -, hkept⟩ := (readFileSector_exact h.toCached hfile htype hk hb).of_ok hok
    exact hkept.ready h

theorem serve_ready {req : Request} {answer : List Cell} (h : fat.Ready)
    (hok : fat.serve fuel req = .ok (answer, fat')) : fat'.Ready := by
  cases req with
  | getFileById =>
    obtain ⟨r, hr, hok⟩ := bind_eq_ok.1 hok
    cases hok
    exact getFileById_ready h hr
  | readFile =>
    obtain ⟨file, length, hfile, htype⟩ := isFile_of_readFile hok
    obtain ⟨-, secs, -, -, hkept⟩ := (readFile_exact h.toCached hfile htype).of_ok hok
    exact hkept.ready h
  | readFileSector id sector buffer =>
    obtain ⟨r, hr, hok⟩ := bind_eq_ok.1 hok
    cases hok
    exact readFileSector_ready h buffer.2 hr

theorem Mounted.ready (hdisk : disk.Reliable) (h : Mounted disk fat) : fat.Ready := by
  induction h with
  | mount hpos hok =>
    obtain ⟨-, hspc, ebr, -, hroot⟩ := (readBiosBlock_eq_ok hdisk).1 hok
    obtain ⟨-, es, -, hrooted⟩ := (enumerateRoot_exact (cached_unmounted hdisk) rfl).of_ok hroot
    exact hrooted.ready ⟨cached_unmounted hdisk, fun _ _ => rfl⟩ hpos
  | request req _ hok ih => exact serve_ready ih hok
  | elsewhere ids reads _ ih =>
    exact ⟨⟨ih.reliable, ih.chain⟩, fun id hid => ih.numbered id
      (Nat.le_trans (Nat.le_add_right _ _) hid)⟩

/-! ## A small image -/

/-- A boot sector of FAT16, with one sector in a cluster. The file allocation table starts in sector
    1, the root directory is in sector 21, and cluster 2 is sector 22. -/
def bootBytes : List UInt8 :=
  replicate 11 0 ++ [0x00, 0x02, 0x01, 0x01, 0x00, 0x01, 0x10, 0x00, 0x88, 0x13, 0xF8, 0x14, 0x00]

/-- A directory entry of a file or a folder. -/
def entryBytes (name : List UInt8) (attributes cluster : UInt8) (size : List UInt8) : List UInt8 :=
  name ++ attributes :: replicate 14 0 ++ cluster :: 0 :: size

/-- A file, and a folder with another one. -/
def smallImage : Nat → List UInt8
  | 0 => bootBytes
  | 1 => [0xF8, 0xFF, 0xFF, 0xFF, 0xFF, 0xFF, 0xFF, 0xFF, 0xFF, 0xFF]
  | 21 =>
    entryBytes "HELLO   TXT".toUTF8.toList 0x20 2 [5, 0, 0, 0] ++
    entryBytes "SUB        ".toUTF8.toList 0x10 3 [0, 0, 0, 0]
  | 22 => "hello".toUTF8.toList
  | 23 => entryBytes "WORLD   TXT".toUTF8.toList 0x20 4 [5, 0, 0, 0]
  | 24 => "world".toUTF8.toList
  | _ => []

/-- A disk with the small image of which some reads fail. -/
def smallDisk (fails : Nat → Bool) : FSPartitionDisk :=
  .start { DiskDevice.ofImage smallImage with fails := fails }

end Fioxa.Fs.FAT
