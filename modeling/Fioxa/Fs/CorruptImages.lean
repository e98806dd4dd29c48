import Fioxa.Fs.Requests

/-! # Corrupt images

After mounting, a request should come to an end with a result or an error, whatever is on the
partition. The loops follow the links on the partition without looking for the end of a chain. So a
directory whose chain is a cycle is read for ever, and a chain that leaves the partition, or a file
that is longer than its chain, ends in a panic. A request survives exactly if the entries and
sectors it asks for can be reached from the first cluster. -/

namespace Fioxa.Fs.FAT

open Faults List Option

variable {fat : FAT} {fuel id k length : Nat} {b : List Cell} {disk : FSPartitionDisk}
  {file : FATFile}

/-- The request comes to an end, and not by a panic. -/
def Survives (fat : FAT) (req : Request) : Prop := ∃ fuel, Sound (fat.serve fuel req)

/-- What a request needs of the partition. -/
def Reachable (fat : FAT) : Request → Prop
  | .getFileById id => ∀ file, fat.fileIdLookup id = some file → file.entryType = .folder none →
      ∃ es, fat.Walks file.cluster es
  | .readFile id _ => ∀ file, fat.fileIdLookup id = some file →
      ∀ length, file.entryType = .file length →
      length + 511 < 0x100000000 ∧ (fat.sectorsOf file.cluster length).isSome
  | .readFileSector id k _ => ∀ file, fat.fileIdLookup id = some file →
      ∀ length, file.entryType = .file length → length + 511 < 0x100000000 ∧
      (k = sectorCount length ∨
        k + 1 < 0x10000000000000000 ∧ (fat.sectorAt file.cluster k).isSome)

theorem sound_return_iff {α β : Type} {x : Run α} {k : α → β} :
    Sound (x >>= fun r => (Except.ok (k r) : Run β)) ↔ Sound x := by
  rw [sound_bind]
  exact and_iff_left fun _ _ => sound_ok

theorem survives_getFileById_iff (h : fat.Ready) :
    fat.Survives (.getFileById id) ↔ fat.Reachable (.getFileById id) := by
  have hserve : fat.Survives (.getFileById id) ↔ ∃ fuel, Sound (fat.getFileById fuel id) :=
    exists_congr fun _ => sound_return_iff
  rw [hserve]
  cases hfile : fat.fileIdLookup id with
  | none =>
    simp [Reachable, hfile, getFileById_eq_error hfile]
  | some file =>
    cases htype : file.entryType with
    | file =>
      simp [Reachable, hfile, htype, getFileById_eq_file hfile htype]
    | folder children =>
      cases children with
      | some => simp [Reachable, hfile, htype, getFileById_eq_cached hfile htype]
      | none =>
        simp only [Reachable, hfile, Option.some.injEq, forall_eq', htype, forall_const,
          (getFileById_exact h hfile htype).sound_iff, Walks, isSome_iff_exists]
        exact exists_comm

theorem survives_readFile_iff (h : fat.Ready) :
    fat.Survives (.readFile id b) ↔ fat.Reachable (.readFile id b) := by
  have hserve : fat.Survives (.readFile id b) ↔ Sound (fat.readFile id b) :=
    ⟨fun ⟨_, h⟩ => h, fun h => ⟨0, h⟩⟩
  rw [hserve]
  cases hfile : fat.fileIdLookup id with
  | none => simp [Reachable, hfile, readFile, getFatFile, unwrap, bind, Except.bind]
  | some file =>
    cases htype : file.entryType with
    | folder =>
      simp [Reachable, hfile, htype, readFile, getFatFile, unwrap, fileLength, bind, Except.bind]
    | file =>
      simp only [Reachable, hfile, Option.some.injEq, forall_eq', htype, FATFileType.file.injEq,
        (readFile_exact h.toCached hfile htype).sound_iff]

theorem sound_readFileSector_end (hfile : fat.fileIdLookup id = some file)
    (htype : file.entryType = .file length) :
    Sound (fat.readFileSector id (sectorCount length) b) ↔ length + 511 < 0x100000000 := by
  constructor
  · intro hsound
    have hlength : fileLength file = .ok length := fileLength_eq_ok.2 htype
    rw [readFileSector, step_run, getFatFile, sound_orErr_bind] at hsound
    exact u32_exact.sound_iff.1 (sound_bind.1 ((sound_bind.1 (hsound file hfile)).2 _ hlength)).1
  · intro hround
    rw [readFileSector_none hfile htype hround]
    exact sound_ok

theorem survives_readFileSector_iff (h : fat.Ready) (block : Block) :
    fat.Survives (.readFileSector id k block) ↔ fat.Reachable (.readFileSector id k block) := by
  have hserve : fat.Survives (.readFileSector id k block)
      ↔ Sound (fat.readFileSector id k block.1) :=
    (exists_congr fun _ => sound_return_iff).trans (exists_const Nat)
  rw [hserve]
  cases hfile : fat.fileIdLookup id with
  | none => simp [Reachable, hfile, readFileSector, getFatFile, unwrap, bind, Except.bind]
  | some file =>
    cases htype : file.entryType with
    | folder =>
      simp [Reachable, hfile, htype, readFileSector, getFatFile, unwrap, fileLength, bind,
        Except.bind]
    | file length =>
      simp only [Reachable, hfile, Option.some.injEq, forall_eq', htype, FATFileType.file.injEq]
      by_cases hk : k = sectorCount length
      · subst hk
        simp only [sound_readFileSector_end hfile htype, true_or, and_true]
      · simp only [(readFileSector_exact h.toCached hfile htype hk block.2).sound_iff, hk, false_or]

/-- After mounting, a request survives exactly if what it asks for can be reached. -/
theorem survives_iff_reachable (hdisk : disk.Reliable) (hfat : Mounted disk fat) (req : Request) :
    fat.Survives req ↔ fat.Reachable req := by
  have h := hfat.ready hdisk
  cases req with
  | getFileById => exact survives_getFileById_iff h
  | readFile => exact survives_readFile_iff h
  | readFileSector id sector buffer => exact survives_readFileSector_iff h buffer

/-! ## A corrupt image -/

/-- The last entry of a directory is in the cluster. -/
def endsIn (fat : FAT) (c : Nat) : Bool :=
  (fat.startSector c).any fun s =>
    (fat.sectorEntries s fat.bpb.sectorsPerCluster).any DirectoryEntry.isLast

variable {c : Nat}

theorem walk_start {es : List DirectoryEntry} (hc : c ≠ 0) (h : fat.walk fuel c = some es) :
    ∃ s, fat.startSector c = some s ∧ s < fat.disk.partitionLength := by
  cases fuel with
  | zero => cases h
  | succ =>
    rcases walk_succ_eq_some.1 h with ⟨rfl, -⟩ | ⟨-, s, hs, ⟨hfit, -⟩, -⟩
    · exact absurd rfl hc
    · have hpos := fat.sectorsPerCluster_pos
      exact ⟨s, hs, by omega⟩

theorem walk_link {es : List DirectoryEntry} (hc : c ≠ 0) (hend : fat.endsIn c = false)
    (h : fat.walk (fuel + 1) c = some es) : ∃ es', fat.walk fuel (fat.link c) = some es' := by
  rcases walk_succ_eq_some.1 h with ⟨rfl, -⟩ | ⟨-, s, hs, -, ⟨htrue, -⟩ | ⟨-, es', hes', -⟩⟩
  · exact absurd rfl hc
  · rw [endsIn, hs, any_some, htrue] at hend
    cases hend
  · exact ⟨es', hes'⟩

theorem walk_eq_none {S : Nat → Prop}
    (hS : ∀ c, S c → c ≠ 0 ∧ fat.endsIn c = false ∧ S (fat.link c)) (hc : S c) :
    fat.walk fuel c = none := by
  induction fuel generalizing c with
  | zero => rfl
  | succ fuel ih =>
    obtain ⟨hzero, hend, hlink⟩ := hS c hc
    refine eq_none_iff_forall_ne_some.2 fun es hes => ?_
    obtain ⟨es', hes'⟩ := walk_link hzero hend hes
    rw [ih hlink] at hes'
    cases hes'

/-- Folders and files whose chains are not in order, and two that are: a file, and a folder of two
    clusters. -/
def corruptImage : Nat → List UInt8
  | 0 => bootBytes
  -- clusters 2, 4 and 6 are the last of their chains, cluster 3 is followed by itself
  | 1 => [0xF8, 0xFF, 0xFF, 0xFF, 0xFF, 0xFF, 0x03, 0x00, 0xFF, 0xFF, 0x06, 0x00, 0xFF, 0xFF]
  | 21 =>
    entryBytes "LOOP       ".toUTF8.toList 0x10 3 [0, 0, 0, 0] ++
    entryBytes "FULL       ".toUTF8.toList 0x10 4 [0, 0, 0, 0] ++
    entryBytes "ZERO    TXT".toUTF8.toList 0x20 0 [1, 0, 0, 0] ++
    entryBytes "HUGE    TXT".toUTF8.toList 0x20 2 [0xFF, 0xFF, 0xFF, 0xFF] ++
    entryBytes "SHORT   TXT".toUTF8.toList 0x20 2 [0xE8, 0x03, 0, 0] ++
    entryBytes "GOOD    TXT".toUTF8.toList 0x20 2 [5, 0, 0, 0] ++
    entryBytes "MANY       ".toUTF8.toList 0x10 5 [0, 0, 0, 0]
  -- only unused entries
  | 23 => replicate 512 0xE5
  | 24 => replicate 512 0xE5
  | 25 => (range 16).flatMap fun i =>
    entryBytes (UInt8.ofNat (0x41 + i) :: replicate 10 0x20) 0x20 2 [5, 0, 0, 0]
  | 26 => entryBytes "LAST       ".toUTF8.toList 0x20 2 [5, 0, 0, 0]
  | _ => []

def corruptDisk : FSPartitionDisk := .start (.ofImage corruptImage)

theorem corruptDisk_mounts : (readBiosBlock 1 corruptDisk 0 0 1).toOption.isSome = true := by
  decide +kernel

/-- The state after mounting the corrupt image. -/
def corruptFat : FAT := (readBiosBlock 1 corruptDisk 0 0 1).toOption.get corruptDisk_mounts

theorem corruptFat_mounted : Mounted corruptDisk corruptFat :=
  .mount (by decide) (toOption_eq_some.1 (some_get corruptDisk_mounts).symm)

/-- The cluster of a folder whose entries are not known. -/
def unread (file : FATFile) : Option Nat :=
  match file.entryType with
  | .folder none => some file.cluster
  | _ => none

theorem unread_eq_some :
    unread file = some c ↔ file.entryType = .folder none ∧ file.cluster = c := by
  unfold unread
  split <;> simp_all

theorem not_survives_of_unread (h : fat.Ready)
    (hunread : (fat.fileIdLookup id).bind unread = some c)
    (hwalk : ∀ fuel, fat.walk fuel c = none) : ¬ fat.Survives (.getFileById id) := by
  obtain ⟨file, hfile, hfolder⟩ := bind_eq_some_iff.1 hunread
  obtain ⟨htype, rfl⟩ := unread_eq_some.1 hfolder
  rw [survives_getFileById_iff h]
  intro hreachable
  obtain ⟨es, fuel, hes⟩ := hreachable file hfile htype
  rw [hwalk] at hes
  cases hes

theorem not_survives_of_stopped {f : Fault}
    (hstop : stopped (fat.readFile id b) = some (.fault f)) : ¬ fat.Survives (.readFile id b) := by
  rintro ⟨fuel, hsound⟩
  have hread : Sound (fat.readFile id b) := hsound
  cases hr : fat.readFile id b with
  | ok =>
    rw [hr] at hstop
    cases hstop
  | error =>
    rw [hr] at hstop hread
    cases hstop
    exact hread f rfl

theorem corruptFat_values :
    ((corruptFat.fileIdLookup 1).bind unread = some 3 ∧
      corruptFat.endsIn 3 = false ∧ corruptFat.link 3 = 3) ∧
    ((corruptFat.fileIdLookup 2).bind unread = some 4 ∧
      corruptFat.endsIn 4 = false ∧ corruptFat.link 4 = 0xFFFF ∧
      corruptFat.startSector 0xFFFF = some 65555 ∧ corruptFat.disk.partitionLength = 5000) ∧
    stopped (corruptFat.readFile 3 []) = some (.fault .assertion) ∧
    stopped (corruptFat.readFile 4 []) = some (.fault .overflow) ∧
    stopped (corruptFat.readFile 5 []) = some (.fault .outOfRange) ∧
    (corruptFat.fileIdLookup 6).map (fun f => (f.cluster, (fileLength f).toOption))
      = some (2, some 5) ∧
    (corruptFat.sectorsOf 2 5).isSome = true := by
  decide +kernel

/-- The file that starts in cluster 2 and fits into it can be read. -/
theorem corruptFat_reads :
    Mounted corruptDisk corruptFat ∧ corruptFat.Survives (.readFile 6 []) := by
  refine ⟨corruptFat_mounted, (survives_iff_reachable (fun _ => rfl) corruptFat_mounted _).2 ?_⟩
  obtain ⟨-, -, -, -, -, hfacts, hsectors⟩ := corruptFat_values
  intro file hfile length htype
  rw [hfile, map_some, fileLength_eq_ok.2 htype] at hfacts
  obtain ⟨hcluster, hlength⟩ := Prod.mk.inj (Option.some.inj hfacts)
  cases hlength
  rw [hcluster]
  exact ⟨by decide, hsectors⟩

/-- The cycle is never left, the folder without a last entry is read on outside the partition, and
    the clusters and lengths of the other files end in panics. -/
theorem corruptFat_fails : Mounted corruptDisk corruptFat ∧
    ¬ corruptFat.Survives (.getFileById 1) ∧ ¬ corruptFat.Survives (.getFileById 2) ∧
    ¬ corruptFat.Survives (.readFile 3 []) ∧
    stopped (corruptFat.readFile 3 []) = some (.fault .assertion) ∧
    ¬ corruptFat.Survives (.readFile 4 []) ∧
    stopped (corruptFat.readFile 4 []) = some (.fault .overflow) ∧
    ¬ corruptFat.Survives (.readFile 5 []) ∧
    stopped (corruptFat.readFile 5 []) = some (.fault .outOfRange) := by
  have hready := corruptFat_mounted.ready fun _ => rfl
  obtain ⟨⟨hthree, hloop⟩, ⟨hfour, hend, hlink, hfar, hlength⟩, hzero, hhuge, hshort, -⟩ :=
    corruptFat_values
  refine ⟨corruptFat_mounted, ?_, ?_, not_survives_of_stopped hzero, hzero,
    not_survives_of_stopped hhuge, hhuge, not_survives_of_stopped hshort, hshort⟩
  · refine not_survives_of_unread hready hthree fun fuel => ?_
    refine walk_eq_none (S := (· = 3)) ?_ rfl
    rintro c rfl
    exact ⟨by decide, hloop⟩
  · refine not_survives_of_unread hready hfour fun fuel => ?_
    cases fuel with
    | zero => rfl
    | succ =>
      refine eq_none_iff_forall_ne_some.2 fun es hes => ?_
      -- the mark of the end of a chain is taken for a cluster
      obtain ⟨es', hes'⟩ := walk_link (by decide) hend hes
      rw [hlink] at hes'
      obtain ⟨s, hs, hlt⟩ := walk_start (by decide) hes'
      obtain rfl := Option.some.inj (hfar.symm.trans hs)
      omega

end Fioxa.Fs.FAT
