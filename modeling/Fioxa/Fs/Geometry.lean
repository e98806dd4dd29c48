import Fioxa.Fs.Requests

/-! # The geometry of a volume

The kind of a volume is a matter of the number of its clusters, which are those after the file
allocation tables and the root directory. `read_bios_block` takes all sectors for sectors of
clusters, and 65535 for the least number of clusters of FAT32. The size of the root directory is
computed in 16 bits. -/

namespace Fioxa.Fs.Format

open Faults FAT BiosParameterBlock

/-! ## The rules of the format -/

section Volume

variable (disk : FSPartitionDisk)

def bpb : BiosParameterBlock := .parse (bootSector disk)

/-- The sectors of one copy of the file allocation table. -/
def fatSectors : Nat :=
  if (bpb disk).fatSectorCnt = 0 then le32 (bootSector disk) 36 else (bpb disk).fatSectorCnt

def totalSectors : Nat :=
  if (bpb disk).totalSectors = 0 then (bpb disk).totalSectorsExt else (bpb disk).totalSectors

/-- The sectors of the root directory in front of the clusters. -/
def rootSectors : Nat := (32 * (bpb disk).rootDirEntries + 511) / 512

def rootStart : Nat := (bpb disk).reservedSectors + fatSectors disk * (bpb disk).fatCopies

def dataStart : Nat := rootStart disk + rootSectors disk

def clusterCount : Nat := (totalSectors disk - dataStart disk) / (bpb disk).sectorsPerCluster

inductive Kind where
  | fat12
  | fat16
  | fat32
deriving DecidableEq

def kind : Kind :=
  if clusterCount disk < 4085 then .fat12 else if clusterCount disk < 65525 then .fat16 else .fat32

/-! ## What the source makes of them -/

/-- What `read_bios_block` makes of the boot sector. -/
def detected : Run FatExtendedBootRecord :=
  extendedBootRecord (bootSector disk) (totalClusters (bpb disk))

/-- The file system on the disk, as it is mounted. -/
def volume (ebr : FatExtendedBootRecord)
    (h : 0 < (parse (bootSector disk)).sectorsPerCluster) : FAT :=
  unmounted disk 0 0 0 (parse (bootSector disk)) ebr h

end Volume

variable {disk : FSPartitionDisk} {ebr : FatExtendedBootRecord}
  {h : 0 < (parse (bootSector disk)).sectorsPerCluster}

/-- The sizes in the boot sector agree with each other. The size of the file allocation table is in
    the field for the kind of the volume, and only FAT12 and FAT16 have a root directory in front of
    the clusters. -/
@[mk_iff]
structure Consistent (disk : FSPartitionDisk) : Prop where
  bytesPerSector : (bpb disk).bytesPerSector = 512
  dataStart_le : dataStart disk ≤ totalSectors disk
  fatSectorCnt : kind disk = .fat32 ↔ (bpb disk).fatSectorCnt = 0
  rootDirEntries : kind disk = .fat32 → (bpb disk).rootDirEntries = 0

instance : Decidable (Consistent disk) := decidable_of_iff _ (consistent_iff disk).symm

/-- The kind of volume that `read_bios_block` takes a number of clusters for. -/
def kindTaken (n : Nat) : Kind :=
  if n < 4085 then .fat12 else if n < 65535 then .fat16 else .fat32

/-- The source finds the kind of the volume, and the places of the root directory and of the
    clusters. -/
structure FindsGeometry (disk : FSPartitionDisk)
    (h : 0 < (parse (bootSector disk)).sectorsPerCluster) : Prop where
  fat16 : detected disk = .ok .fat16 ↔ kind disk = .fat16
  fat32 : (∃ sectorsPerFat rootCluster, detected disk = .ok (.fat32 sectorsPerFat rootCluster)) ↔
    kind disk = .fat32
  places : ∀ ebr, detected disk = .ok ebr →
    (volume disk ebr h).rootDirSectors = .ok (rootSectors disk) ∧
      (volume disk ebr h).firstDataSector = .ok (dataStart disk)

theorem detected_fat16_iff :
    detected disk = .ok .fat16 ↔ kindTaken (totalClusters (bpb disk)) = .fat16 := by
  unfold detected extendedBootRecord kindTaken
  split
  · simp
  · split <;> simp

theorem detected_fat32_iff :
    (∃ sectorsPerFat rootCluster, detected disk = .ok (.fat32 sectorsPerFat rootCluster)) ↔
      kindTaken (totalClusters (bpb disk)) = .fat32 := by
  unfold detected extendedBootRecord kindTaken
  split
  · simp
  · split <;> simp

theorem totalSectors_lt : totalSectors disk < 0x100000000 := by
  unfold totalSectors
  split
  · exact le32_lt
  · exact Nat.lt_trans le16_lt (by decide)

theorem rootDirSectors_fat16 (hbytes : (bpb disk).bytesPerSector = 512) :
    (volume disk .fat16 h).rootDirSectors = .ok (rootSectors disk) ↔
      32 * (bpb disk).rootDirEntries + 512 < 0x10000 := by
  have hfields : (volume disk .fat16 h).bpb = bpb disk := rfl
  have hebr : (volume disk .fat16 h).ebr = .fat16 := rfl
  rw [rootDirSectors, hebr]
  simp only [hfields, hbytes, ensure_bind_eq_ok]
  constructor
  · rintro ⟨hlt, -⟩
    omega
  · intro hlt
    refine ⟨by omega, by omega, by decide, ?_⟩
    rw [rootSectors]
    exact congrArg Except.ok (by omega)

theorem firstDataSector_fat16 (hcnt : (bpb disk).fatSectorCnt ≠ 0)
    (hle : dataStart disk ≤ totalSectors disk)
    (hroot : (volume disk .fat16 h).rootDirSectors = .ok (rootSectors disk)) :
    (volume disk .fat16 h).firstDataSector = .ok (dataStart disk) := by
  have hlt := Nat.lt_of_le_of_lt hle totalSectors_lt
  have hstart : dataStart disk = (bpb disk).reservedSectors
      + (bpb disk).fatSectorCnt * (bpb disk).fatCopies + rootSectors disk := by
    rw [dataStart, rootStart, fatSectors, if_neg hcnt]
  rw [hstart] at hlt ⊢
  exact bind_eq_ok.2 ⟨_, hroot, u32_eq_ok.2 ⟨hlt, rfl⟩⟩

theorem firstDataSector_fat32 {rootCluster : Nat} (hcnt : (bpb disk).fatSectorCnt = 0)
    (hroot : (bpb disk).rootDirEntries = 0) (hle : dataStart disk ≤ totalSectors disk) :
    (volume disk (.fat32 (le32 (bootSector disk) 36) rootCluster) h).firstDataSector
      = .ok (dataStart disk) := by
  have hlt := Nat.lt_of_le_of_lt hle totalSectors_lt
  have hstart : dataStart disk = (bpb disk).reservedSectors
      + le32 (bootSector disk) 36 * (bpb disk).fatCopies := by
    rw [dataStart, rootStart, fatSectors, if_pos hcnt, rootSectors, hroot]
    rfl
  rw [hstart] at hlt ⊢
  exact bind_eq_ok.2 ⟨_, u32_eq_ok.2 ⟨Nat.lt_of_le_of_lt (Nat.le_add_left _ _) hlt, rfl⟩,
    u32_eq_ok.2 ⟨hlt, rfl⟩⟩

/-- The geometry is found exactly if all sectors together give the same kind as those of the
    clusters, and the size of the root directory of FAT16 does not overflow. -/
theorem findsGeometry_iff (hdisk : Consistent disk) : FindsGeometry disk h ↔
    kindTaken (totalClusters (bpb disk)) = kind disk ∧
      (kind disk = .fat16 → 32 * (bpb disk).rootDirEntries + 512 < 0x10000) := by
  constructor
  · rintro ⟨hfat16, hfat32, hplaces⟩
    rw [detected_fat16_iff] at hfat16
    rw [detected_fat32_iff] at hfat32
    constructor
    · cases hkind : kind disk with
      | fat16 => exact hfat16.2 hkind
      | fat32 => exact hfat32.2 hkind
      | fat12 =>
        rw [hkind] at hfat16 hfat32
        cases htaken : kindTaken (totalClusters (bpb disk)) with
        | fat12 => rfl
        | fat16 => exact absurd (hfat16.1 htaken) (by decide)
        | fat32 => exact absurd (hfat32.1 htaken) (by decide)
    · intro hkind
      have hdetected := detected_fat16_iff.2 (hfat16.2 hkind)
      exact (rootDirSectors_fat16 hdisk.bytesPerSector).1 (hplaces .fat16 hdetected).1
  · rintro ⟨htaken, hroot⟩
    refine ⟨by rw [detected_fat16_iff, htaken], by rw [detected_fat32_iff, htaken], ?_⟩
    intro ebr hebr
    cases ebr with
    | fat16 =>
      have hkind : kind disk = .fat16 := htaken ▸ detected_fat16_iff.1 hebr
      have hcnt : (bpb disk).fatSectorCnt ≠ 0 := fun hzero => by
        rw [hdisk.fatSectorCnt.2 hzero] at hkind
        cases hkind
      have hsectors := (rootDirSectors_fat16 (h := h) hdisk.bytesPerSector).2 (hroot hkind)
      exact ⟨hsectors, firstDataSector_fat16 hcnt hdisk.dataStart_le hsectors⟩
    | fat32 sectorsPerFat =>
      have hkind : kind disk = .fat32 := htaken ▸ detected_fat32_iff.1 ⟨_, _, hebr⟩
      have hentries := hdisk.rootDirEntries hkind
      obtain rfl : sectorsPerFat = le32 (bootSector disk) 36 := by
        unfold detected extendedBootRecord at hebr
        split at hebr
        · cases hebr
        · split at hebr
          · cases hebr
          · cases hebr
            rfl
      refine ⟨congrArg Except.ok ?_,
        firstDataSector_fat32 (hdisk.fatSectorCnt.1 hkind) hentries hdisk.dataStart_le⟩
      rw [rootSectors, hentries]

def goodDisk : FSPartitionDisk := smallDisk fun _ => false

theorem goodDisk_values : Consistent goodDisk ∧
    kindTaken (totalClusters (bpb goodDisk)) = kind goodDisk ∧
    (bpb goodDisk).rootDirEntries = 16 ∧
    0 < (parse (bootSector goodDisk)).sectorsPerCluster := by
  decide +kernel

theorem goodDisk_spc : 0 < (parse (bootSector goodDisk)).sectorsPerCluster :=
  goodDisk_values.2.2.2

/-- The geometry of the small image is found. -/
theorem goodDisk_geometry : FindsGeometry goodDisk goodDisk_spc := by
  obtain ⟨hconsistent, htaken, hroot, -⟩ := goodDisk_values
  exact (findsGeometry_iff hconsistent).2 ⟨htaken, fun _ => by omega⟩

/-- A small volume of FAT12: 4100 sectors, 57 of them in front of the clusters. -/
def floppyImage : Nat → List UInt8
  | 0 => List.replicate 11 0 ++ [0x00, 0x02, 0x01, 0x01, 0x00, 0x02, 0x00, 0x02, 0x04, 0x10, 0xF8,
      0x0C, 0x00]
  | _ => []

def floppyDisk : FSPartitionDisk := ⟨.ofImage floppyImage, 0, 4100, by decide⟩

theorem floppyDisk_values : Consistent floppyDisk ∧ kind floppyDisk = .fat12 ∧
    clusterCount floppyDisk = 4043 ∧ detected floppyDisk = .ok .fat16 ∧
    0 < (parse (bootSector floppyDisk)).sectorsPerCluster := by
  decide +kernel

theorem floppyDisk_spc : 0 < (parse (bootSector floppyDisk)).sectorsPerCluster :=
  floppyDisk_values.2.2.2.2

/-- It is taken for one of FAT16. -/
theorem floppyDisk_mistaken : Consistent floppyDisk ∧ kind floppyDisk = .fat12 ∧
    detected floppyDisk = .ok .fat16 ∧ ¬ FindsGeometry floppyDisk floppyDisk_spc := by
  obtain ⟨hconsistent, hkind, -, hdetected, -⟩ := floppyDisk_values
  refine ⟨hconsistent, hkind, hdetected, fun hfinds => ?_⟩
  rw [hfinds.fat16.1 hdetected] at hkind
  cases hkind

end Fioxa.Fs.Format
