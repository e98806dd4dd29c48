import Fioxa.Fs.Fat

/-! # What is on a partition

If no read of the disk fails, the buffered sectors of the file allocation table are those on the
disk, so that following a chain does not depend on the state (`link`). -/

namespace Fioxa.Fs.FAT

open Faults List Function FSPartitionDisk

variable {fat fat' fat'' : FAT} {c s n : Nat} {b : List Cell}

/-- The reads of the disk succeed, and the buffered sectors are those on the disk. -/
structure Cached (fat : FAT) : Prop where
  reliable : fat.disk.Reliable
  chain : ∀ k b, fat.clusterChainBuffer k = some b →
    values b = fat.disk.sectors k 1 ∧ k < fat.disk.partitionLength

/-- It is the same file system on the same disk. -/
structure SameVolume (fat fat' : FAT) : Prop where
  bpb : fat'.bpb = fat.bpb
  ebr : fat'.ebr = fat.ebr
  disk : fat'.disk = fat.disk

/-- It is the same partition. -/
structure SamePartition (fat fat' : FAT) : Prop extends SameVolume fat fat' where
  partitionId : fat'.partitionId = fat.partitionId

/-- The disk has been read, and no more. -/
structure Kept (fat fat' : FAT) : Prop extends SamePartition fat fat' where
  fileIdLookup : fat'.fileIdLookup = fat.fileIdLookup
  nextFileId : fat'.nextFileId = fat.nextFileId
  cached : fat'.Cached

theorem SamePartition.refl (fat : FAT) : SamePartition fat fat := ⟨⟨rfl, rfl, rfl⟩, rfl⟩

theorem SamePartition.trans (h : SamePartition fat fat') (h' : SamePartition fat' fat'') :
    SamePartition fat fat'' :=
  ⟨⟨h'.bpb.trans h.bpb, h'.ebr.trans h.ebr, h'.disk.trans h.disk⟩,
    h'.partitionId.trans h.partitionId⟩

theorem Kept.refl (h : fat.Cached) : Kept fat fat := ⟨.refl fat, rfl, rfl, h⟩

theorem Kept.trans (h : Kept fat fat') (h' : Kept fat' fat'') : Kept fat fat'' :=
  ⟨h.toSamePartition.trans h'.toSamePartition, h'.fileIdLookup.trans h.fileIdLookup,
    h'.nextFileId.trans h.nextFileId, h'.cached⟩

/-! ## Clusters -/

/-- The first sector of a cluster, unless computing it panics. -/
def startSector (fat : FAT) (c : Nat) : Option Nat := (fat.getStartSectorOfCluster c).toOption

/-- The entry of a cluster in the file allocation table on the disk. -/
def link (fat : FAT) (c : Nat) : Nat := fat.fatEntry c (fat.disk.sectors (fat.fatBufOffset c) 1)

/-- The sector with the entry of a cluster is one of the partition. -/
def HasLink (fat : FAT) (c : Nat) : Prop := fat.fatBufOffset c < fat.disk.partitionLength

instance : Decidable (fat.HasLink c) := inferInstanceAs (Decidable (_ < _))

/-- The sectors of one copy of the file allocation table. -/
def fatSectors (fat : FAT) : Nat :=
  match fat.ebr with
  | .fat16 => fat.bpb.fatSectorCnt
  | .fat32 sectorsPerFat _ => sectorsPerFat

/-- The first sector of the data, unless computing it panics. -/
def dataStart (fat : FAT) : Option Nat := fat.firstDataSector.toOption

theorem u32_eq_ok {m : Nat} : u32 n = .ok m ↔ n < 0x100000000 ∧ n = m := by
  rw [u32, ensure_bind_eq_ok]
  simp [pure, Except.pure]

theorem u32_exact : Exact (u32 n) (n < 0x100000000) fun m => n = m :=
  ((Exact.ensure (Q := fun _ => True) fun _ => trivial).bind fun _ _ => Exact.pure rfl).congr
    (and_iff_left trivial) fun _ _ h => h

theorem noErr_u32 : NoErr (u32 n) := noErr_ensure.bind fun _ => noErr_ok

theorem noErr_rootDirSectors : NoErr fat.rootDirSectors := by
  unfold rootDirSectors
  cases fat.ebr with
  | fat32 => exact noErr_ok
  | fat16 =>
    exact noErr_ensure.bind fun _ => noErr_ensure.bind fun _ => noErr_ensure.bind fun _ =>
      noErr_ok

theorem noErr_firstDataSector : NoErr fat.firstDataSector := by
  unfold firstDataSector
  cases fat.ebr with
  | fat16 => exact noErr_rootDirSectors.bind fun _ => noErr_u32
  | fat32 => exact noErr_u32.bind fun _ => noErr_u32

theorem noErr_getStartSectorOfCluster : NoErr (fat.getStartSectorOfCluster c) :=
  noErr_ensure.bind fun _ => noErr_u32.bind fun _ => noErr_firstDataSector.bind fun _ => noErr_u32

theorem getStartSectorOfCluster_exact : Exact (fat.getStartSectorOfCluster c)
    (fat.startSector c).isSome fun s => fat.startSector c = some s :=
  Exact.of_noErr noErr_getStartSectorOfCluster

theorem startSector_eq_some : fat.startSector c = some s ↔ 2 ≤ c ∧ s < 0x100000000 ∧
    ∃ first, fat.dataStart = some first ∧ s = (c - 2) * fat.bpb.sectorsPerCluster + first := by
  rw [startSector, toOption_eq_some, getStartSectorOfCluster, ensure_bind_eq_ok]
  simp only [dataStart, toOption_eq_some, bind_eq_ok, u32_eq_ok]
  constructor
  · rintro ⟨hc, _, ⟨-, rfl⟩, first, hfirst, hlt, rfl⟩
    exact ⟨hc, hlt, first, hfirst, rfl⟩
  · rintro ⟨hc, hlt, first, hfirst, rfl⟩
    exact ⟨hc, _, ⟨by omega, rfl⟩, first, hfirst, hlt, rfl⟩

/-- The data starts behind the copies of the table, at a sector that `u32` can hold. -/
theorem dataStart_bounds (h : fat.dataStart = some n) :
    fat.bpb.reservedSectors + fat.fatSectors * fat.bpb.fatCopies ≤ n ∧ n < 0x100000000 := by
  rw [dataStart, toOption_eq_some, firstDataSector] at h
  unfold fatSectors
  cases hebr : fat.ebr with
  | fat16 =>
    simp only [hebr, bind_eq_ok, u32_eq_ok] at h
    obtain ⟨root, -, hlt, rfl⟩ := h
    exact ⟨Nat.le_add_right _ _, hlt⟩
  | fat32 =>
    simp only [hebr, bind_eq_ok, u32_eq_ok] at h
    obtain ⟨fats, ⟨-, rfl⟩, hlt, rfl⟩ := h
    exact ⟨Nat.le_refl _, hlt⟩

theorem fatBufOffset_le (h : fat.startSector c = some s) : fat.fatBufOffset c ≤ s := by
  obtain ⟨hc, -, first, hfirst, rfl⟩ := startSector_eq_some.1 h
  have hreserved := Nat.le_of_add_right_le (dataStart_bounds hfirst).1
  have hspc := Nat.le_mul_of_pos_right (c - 2) fat.sectorsPerCluster_pos
  have hentries : c / (512 / fat.fatSize) ≤ c / 128 := by
    refine Nat.div_le_div_left ?_ (by omega)
    unfold fatSize
    cases fat.ebr <;> simp
  unfold fatBufOffset
  omega

theorem hasLink_of_lt (h : fat.startSector c = some s) (hs : s < fat.disk.partitionLength) :
    fat.HasLink c :=
  Nat.lt_of_le_of_lt (fatBufOffset_le h) hs

/-! ## Reading -/

theorem diskRead_exact (h : fat.Cached) : Exact (fat.diskRead s n b)
    (s + n ≤ fat.disk.partitionLength ∧ n ≤ 56 ∧ 512 * n ≤ b.length)
    fun r => s + n ≤ fat.disk.partitionLength ∧
      r.1 = marked true (fat.disk.sectors s n) ++ b.drop (512 * n) ∧ Kept fat r.2 := by
  have hread : Exact (fat.disk.read fat.reads s n b)
      (s + n ≤ fat.disk.partitionLength ∧ n ≤ 56 ∧ 512 * n ≤ b.length) fun r =>
        s + n ≤ fat.disk.partitionLength ∧
          r.2 = marked true (fat.disk.sectors s n) ++ b.drop (512 * n) := by
    have hok := h.reliable fat.reads
    refine read_exact.congr Iff.rfl fun r hc hr => ⟨hc.1, ?_⟩
    rw [hr, DiskDevice.outcome, hok]
    rfl
  refine (hread.bind fun r hr => ?_).congr (and_iff_left trivial) fun _ _ hr => hr
  exact Exact.pure ⟨hr.1, hr.2, ⟨⟨⟨rfl, rfl, rfl⟩, rfl⟩, rfl, rfl, h.reliable, h.chain⟩⟩

theorem Cached.store (h : fat.Cached) {offset : Nat} (hb : values b = fat.disk.sectors offset 1)
    (hlt : offset < fat.disk.partitionLength) : (fat.store offset b).Cached where
  reliable := h.reliable
  chain k b' hk := by
    by_cases heq : k = offset
    · subst heq
      have hself : (fat.store k b).clusterChainBuffer k = some b := update_self ..
      obtain rfl := Option.some.inj (hself.symm.trans hk)
      exact ⟨hb, hlt⟩
    · exact h.chain k b' ((update_of_ne heq _ _).symm.trans hk)

theorem fatBuffer_exact (h : fat.Cached) {offset : Nat} : Exact (fat.fatBuffer offset)
    (offset < fat.disk.partitionLength)
    fun r => values r.1 = fat.disk.sectors offset 1 ∧ Kept fat r.2 := by
  unfold fatBuffer
  cases hb : fat.clusterChainBuffer offset with
  | some b =>
    obtain ⟨hvalues, hlt⟩ := h.chain offset b hb
    exact (Exact.pure ⟨hvalues, .refl h⟩).congr (iff_of_true trivial hlt) fun _ _ hr => hr
  | none =>
    have hread := diskRead_exact h (s := offset) (n := 1) (b := blank 512)
    refine (hread.bind (q := True) fun r hr => ?_).congr ?_ fun _ _ hr => hr
    · obtain ⟨hlt, hbytes, hkept⟩ := hr
      have hvalues : values r.1 = fat.disk.sectors offset 1 := by
        rw [hbytes, values_append, values_marked, drop_eq_nil_of_le (by simp)]
        exact append_nil _
      rw [← hkept.disk] at hvalues hlt
      exact Exact.pure ⟨hkept.disk ▸ hvalues, ⟨⟨⟨hkept.bpb, hkept.ebr, hkept.disk⟩,
        hkept.partitionId⟩, hkept.fileIdLookup, hkept.nextFileId, hkept.cached.store hvalues hlt⟩⟩
    · simp only [and_true, length_blank]
      omega

theorem getNextCluster_exact (h : fat.Cached) : Exact (fat.getNextCluster c) (fat.HasLink c)
    fun r => r.1 = fat.link c ∧ Kept fat r.2 := by
  refine ((fatBuffer_exact h).bind fun r hr => ?_).congr (and_iff_left trivial)
    fun _ _ hr => hr
  obtain ⟨hvalues, hkept⟩ := hr
  refine Exact.pure ⟨?_, ⟨⟨⟨hkept.bpb, hkept.ebr, hkept.disk⟩, hkept.partitionId⟩,
    hkept.fileIdLookup, hkept.nextFileId, hkept.cached.reliable, hkept.cached.chain⟩⟩
  show r.2.fatEntry c (values r.1) = fat.fatEntry c _
  rw [hvalues, fatEntry, fatEntry, fatSize, fatSize, hkept.ebr]

/-! ## The whole table -/

/-- The first file allocation table. -/
def table (fat : FAT) : List UInt8 := fat.disk.sectors fat.bpb.reservedSectors fat.fatSectors

/-- The value that the first table has for a cluster. -/
def tableEntry (fat : FAT) (c : Nat) : Nat :=
  match fat.ebr with
  | .fat16 => le16 fat.table (c * 2)
  | .fat32 .. => le32 fat.table (c * 4)

def InTable (fat : FAT) (c : Nat) : Prop := (c + 1) * fat.fatSize ≤ fat.table.length

theorem byteAt_sectors {d : FSPartitionDisk} {k i : Nat} (hk : k < n) (hi : i < 512) :
    byteAt (d.sectors s n) (512 * k + i) = byteAt (d.sectors (s + k) 1) i := by
  obtain ⟨m, rfl⟩ : ∃ m, n = k + (1 + m) := ⟨n - k - 1, by omega⟩
  rw [sectors_add, sectors_add, byteAt, byteAt, getD_eq_getElem?_getD, getD_eq_getElem?_getD,
    getElem?_append_right (by simp), length_sectors, Nat.add_sub_cancel_left,
    getElem?_append_left (by simpa)]

theorem le16_sectors {d : FSPartitionDisk} {k i : Nat} (hk : k < n) (hi : i + 1 < 512) :
    le16 (d.sectors s n) (512 * k + i) = le16 (d.sectors (s + k) 1) i := by
  rw [le16, Nat.add_assoc, byteAt_sectors hk (by omega), byteAt_sectors hk hi, le16]

theorem link_eq_tableEntry (hc : fat.InTable c) : fat.link c = fat.tableEntry c := by
  rw [InTable, table, length_sectors] at hc
  unfold link fatEntry tableEntry fatBufOffset table
  cases hebr : fat.ebr with
  | fat16 =>
    simp only [fatSize, hebr] at hc ⊢
    have hoffset : c * 2 = 512 * (c / 256) + c % 256 * 2 := by omega
    rw [hoffset, le16_sectors (by omega) (by omega), Nat.add_comm]
  | fat32 =>
    simp only [fatSize, hebr] at hc ⊢
    have hoffset : c * 4 = 512 * (c / 128) + c % 128 * 4 := by omega
    rw [hoffset, le32, le32, Nat.add_assoc _ _ 2, le16_sectors (by omega) (by omega),
      le16_sectors (by omega) (by omega), Nat.add_comm fat.bpb.reservedSectors]

/-- Calls of `get_next_cluster`, one after the other. -/
def nextClusters (fat : FAT) : List Nat → Run FAT
  | [] => .ok fat
  | c :: cs => do
    let (_, fat) ← fat.getNextCluster c
    fat.nextClusters cs

theorem nextClusters_kept {cs : List Nat} (h : fat.Cached) (hok : fat.nextClusters cs = .ok fat') :
    Kept fat fat' := by
  induction cs generalizing fat with
  | nil =>
    cases hok
    exact .refl h
  | cons c cs ih =>
    obtain ⟨⟨_, fat1⟩, hnext, hok⟩ := bind_eq_ok.1 hok
    have hkept := ((getNextCluster_exact h).of_ok hnext).2.2
    exact hkept.trans (ih hkept.cached hok)

/-- **Looking up a cluster reads the table on the disk.** Whatever has been looked up before, the
    result is the value in the table, and the buffered sectors are those on the disk. -/
theorem getNextCluster_eq_tableEntry {cs : List Nat} (hreliable : fat.disk.Reliable)
    (hfresh : ∀ k, fat.clusterChainBuffer k = none)
    (hinside : fat.bpb.reservedSectors + fat.fatSectors ≤ fat.disk.partitionLength)
    (hcalls : fat.nextClusters cs = .ok fat') :
    (∀ k b, fat'.clusterChainBuffer k = some b → values b = fat.disk.sectors k 1) ∧
      ∀ c, fat.InTable c → ∃ fat'', fat'.getNextCluster c = .ok (fat.tableEntry c, fat'') := by
  have hkept := nextClusters_kept ⟨hreliable, fun k b hb => by simp [hfresh] at hb⟩ hcalls
  refine ⟨fun k b hb => hkept.disk ▸ (hkept.cached.chain k b hb).1, fun c hc => ?_⟩
  have hlink : fat'.HasLink c := by
    rw [InTable, table, length_sectors] at hc
    rw [HasLink, fatBufOffset, fatSize, hkept.ebr, hkept.bpb, hkept.disk]
    unfold fatSize at hc
    cases hebr : fat.ebr <;> simp only [hebr] at hc ⊢ <;> omega
  obtain ⟨⟨_, fat''⟩, hok, rfl, -⟩ := (getNextCluster_exact hkept.cached).returns hlink
  refine ⟨fat'', ?_⟩
  rw [hok, ← link_eq_tableEntry hc, link, link, fatBufOffset, fatBufOffset, fatEntry, fatEntry,
    fatSize, fatSize, hkept.ebr, hkept.bpb, hkept.disk]

/-- A volume with a table of two sectors: cluster 300, whose entry is in the second one, comes after
    cluster 2, and cluster 3 after that. -/
def chainedPair : FAT where
  partitionId := 0
  bpb := ⟨512, 1, 1, 1, 0, 0, 2, 0⟩
  ebr := .fat16
  disk := ⟨.ofImage fun s =>
    if s = 1 then [0xF8, 0xFF, 0xFF, 0xFF, 0x2C, 0x01]
    else if s = 2 then replicate 88 0 ++ [3, 0] else [], 0, 3, by decide⟩
  fileIdLookup _ := none
  clusterChainBuffer _ := none
  reads := 0
  nextFileId := 0
  trusted := true
  sectorsPerCluster_pos := by decide

/-- With both sectors in the buffer. -/
theorem chainedPair_next : ∃ fat fat' fat'', chainedPair.nextClusters [2, 300] = .ok fat ∧
    (fat.clusterChainBuffer 1).isSome = true ∧ (fat.clusterChainBuffer 2).isSome = true ∧
    fat.getNextCluster 2 = .ok (300, fat') ∧ fat.getNextCluster 300 = .ok (3, fat'') := by
  have hbuffers : (chainedPair.nextClusters [2, 300]).toOption.map
      (fun fat => ((fat.clusterChainBuffer 1).isSome, (fat.clusterChainBuffer 2).isSome))
      = some (true, true) := by
    decide +kernel
  obtain ⟨fat, hcalls, hboth⟩ := Option.map_eq_some_iff.1 hbuffers
  obtain ⟨hone, htwo⟩ := Prod.mk.inj hboth
  have hin : chainedPair.InTable 2 ∧ chainedPair.InTable 300 := by
    rw [InTable, InTable, table, length_sectors]
    decide
  have hentry : chainedPair.tableEntry 2 = 300 ∧ chainedPair.tableEntry 300 = 3 := by
    decide +kernel
  have hnext := (getNextCluster_eq_tableEntry (fun _ => rfl) (fun _ => rfl) (by decide)
    (toOption_eq_some.1 hcalls)).2
  obtain ⟨fat', hfirst⟩ := hnext 2 hin.1
  obtain ⟨fat'', hsecond⟩ := hnext 300 hin.2
  rw [hentry.2] at hsecond
  exact ⟨fat, fat', fat'', toOption_eq_some.1 hcalls, hone, htwo, hfirst, hsecond⟩

end Fioxa.Fs.FAT
