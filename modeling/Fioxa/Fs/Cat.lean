import Fioxa.Fs.FileCalls
import Fioxa.Fs.Lookups

/-! # The `cat` command of the terminal

`cat` looks a file up (`fs::stat`), asks for `file_size / 512` sectors of it one after the other
(`fs::read_file_sector`) and writes what it gets to the console. The rest of a sector at the end of
the file is never asked for, and of a whole sector at the end `read_file_sector` returns nothing. So
the end of every file that is not empty is lost. -/

namespace Fioxa.Fs

open Faults List Option

/-- `{e:?}` -/
def FSServiceError.debug : FSServiceError → String
  | .noSuchPartition id => "NoSuchPartition(" ++ toString id ++ ")"
  | .couldNotFollowPath => "CouldNotFollowPath"
  | .fileNotFound => "FileNotFound"
  | .invalidRequestForFileType => "InvalidRequestForFileType"

/-- `println!("Error: {e:?}")` -/
def errorLine (e : FSServiceError) : List UInt8 := ("Error: " ++ e.debug ++ "\n").toUTF8.toList

namespace FAT

variable {fat fat₁ fat' : FAT} {fuel id length : Nat} {b : List Cell} {path : Name} {vfile : VFile}
  {file : FATFile} {secs : List Nat} {disk : FSPartitionDisk}

/-- The loop of `cat` over the sectors of a file. It ends at the first error. -/
def catSectors (id : Nat) : List Nat → List Cell → FAT → Run (List UInt8)
  | [], _, _ => .ok []
  | i :: rest, buffer, fat =>
    match fat.readFileSector id i buffer with
    | .error (.fault f) => .error (.fault f)
    | .error (.err e) => .ok (errorLine e)
    | .ok (none, _, _) => .ok "Error reading".toUTF8.toList
    | .ok (some n, buffer, fat) => do
        let tail ← catSectors id rest buffer fat
        return values (buffer.take n) ++ tail

/-- What `cat` writes for a path. -/
def cat (fuel : Nat) (fat : FAT) (path : Name) (buffer : List Cell) : Run (List UInt8) :=
  match fat.getFileFromPath fuel path with
  | .error (.fault f) => .error (.fault f)
  | .error (.err e) => .ok (errorLine e)
  | .ok (file, fat) =>
    match file.specialized with
    | .folder _ => .ok "Not a file\n".toUTF8.toList
    | .file fileSize => catSectors file.location.2 (List.range (fileSize / 512)) buffer fat

/-! ## Looking a file up -/

/-- If it is a file, it has its size from the table. -/
def Describes (fat : FAT) (vfile : VFile) : Prop :=
  ∀ n, vfile.specialized = .file n →
    ∃ file, fat.fileIdLookup vfile.location.2 = some file ∧ file.entryType = .file n

theorem getFileById_describes {r : VFile × FAT} (hok : fat.getFileById fuel id = .ok r) :
    r.2.Describes r.1 := by
  intro n hn
  cases getFileById_found hok with
  | file hfile htype =>
    cases hn
    exact ⟨_, hfile, htype⟩
  | cached | unread => cases hn

theorem followPath_ready {path : List Name} {r : VFile × FAT} (h : fat.Ready)
    (hvfile : fat.Describes vfile) (hok : followPath fuel path vfile fat = .ok r) :
    r.2.Ready ∧ r.2.Describes r.1 := by
  induction path generalizing vfile fat with
  | nil =>
    cases hok
    exact ⟨h, hvfile⟩
  | cons sect rest ih =>
    obtain ⟨folder, x, q, -, -, hq, hok⟩ := followPath_cons_eq_ok.1 hok
    exact ih (getFileById_ready h hq) (getFileById_describes hq) hok

theorem getFileFromPath_ready (h : fat.Ready)
    (hok : fat.getFileFromPath fuel path = .ok (vfile, fat₁)) :
    fat₁.Ready ∧ fat₁.Describes vfile := by
  obtain ⟨q, hq, hok⟩ := bind_eq_ok.1 hok
  exact followPath_ready (getFileById_ready h hq) (getFileById_describes hq) hok

/-! ## What is written -/

theorem catSectors_eq {ks : List Nat} {cells : List Cell} (h : fat.Cached)
    (hfile : fat.fileIdLookup id = some file) (htype : file.entryType = .file length)
    (hb : b.length = 512) (hks : ∀ k ∈ ks, k < sectorCount length)
    (hok : readSectors id ks b fat = .ok (cells, fat')) :
    catSectors id ks b fat = .ok (values cells) := by
  induction ks generalizing b fat cells with
  | nil =>
    cases hok
    rfl
  | cons k ks ih =>
    obtain ⟨hk, hrest⟩ := forall_mem_cons.1 hks
    obtain ⟨⟨n, b1, fat₁⟩, hread, hok⟩ := bind_eq_ok.1 hok
    obtain ⟨⟨tail, fat2⟩, htail, hok⟩ := bind_eq_ok.1 hok
    cases hok
    obtain ⟨-, s, -, hn, hbytes, hkept⟩ :=
      (readFileSector_exact h hfile htype (Nat.ne_of_lt hk) hb).of_ok hread
    have hn : n = some (sectorLength length k) := hn
    have hb1 : b1.length = 512 := by
      rw [show b1 = _ from hbytes, length_marked, FSPartitionDisk.length_sectors]
    have hrec := ih hkept.cached ((congrFun hkept.fileIdLookup id).trans hfile) hb1 hrest htail
    rw [catSectors, hread, hn]
    dsimp only
    rw [hrec, values_append]
    rfl

theorem sectorsOf_zero {c : Nat} : fat.sectorsOf c 0 = some [] := rfl

theorem flatMap_sectorBytes_length (hpos : 0 < length) (hlen : secs.length = sectorCount length) :
    ((List.range (length / 512)).flatMap (fat.sectorBytes secs length)).length < length := by
  by_cases hmod : length % 512 = 0
  · have hcount : length / 512 = sectorCount length := by
      unfold sectorCount
      omega
    rw [hcount, flatMap_sectorBytes_all hpos hlen, if_pos hmod, length_take]
    omega
  · have hcount : length / 512 < sectorCount length := by
      unfold sectorCount
      omega
    rw [flatMap_sectorBytes hcount (by omega), length_take]
    omega

/-- The loop writes the bytes of the file exactly if there are none. -/
theorem catSectors_eq_iff (h : fat.Cached) (hfile : fat.fileIdLookup id = some file)
    (htype : file.entryType = .file length)
    (hsecs : fat.sectorsOf file.cluster length = some secs) (hb : b.length = 512) :
    catSectors id (List.range (length / 512)) b fat = .ok ((fat.sectorData secs).take length) ↔
      length = 0 := by
  have hlen : secs.length = sectorCount length := length_fileSectors (Nat.le_refl _) hsecs
  constructor
  · intro hcat
    by_contra hne
    have hlong : ((fat.sectorData secs).take length).length = length := by
      rw [length_take, length_sectorData, hlen, sectorCount]
      omega
    by_cases hround : length + 511 < 0x100000000
    · obtain ⟨fat', hok, -⟩ := readSectors_eq (List.range (length / 512)) h hfile htype hround
        hsecs hb fun k hk => by
          have hlt := mem_range.1 hk
          unfold sectorCount
          omega
      rw [catSectors_eq h hfile htype hb (fun k hk => by
        have hlt := mem_range.1 hk
        unfold sectorCount
        omega) hok, values_marked] at hcat
      have hshort : ((List.range (length / 512)).flatMap
          (fat.sectorBytes secs length)).length < length :=
        flatMap_sectorBytes_length (Nat.pos_of_ne_zero hne) hlen
      rw [Except.ok.inj hcat, hlong] at hshort
      exact Nat.lt_irrefl _ hshort
    · -- the kernel panics when it rounds the length up
      obtain ⟨m, hm⟩ : ∃ m, length / 512 = m + 1 := ⟨length / 512 - 1, by omega⟩
      have hk : 0 ≠ sectorCount length := by
        unfold sectorCount
        omega
      obtain ⟨f, hf⟩ := (readFileSector_exact h hfile htype hk hb).faults fun hc => hround hc.1
      rw [hm, range_succ_eq_map, catSectors, hf] at hcat
      cases hcat
  · rintro rfl
    rfl

/-- For every state of the service and every file whose sectors can be read, `cat` writes the bytes
    of the file exactly if there are none. -/
theorem cat_eq_iff (hdisk : disk.Reliable) (hfat : Mounted disk fat)
    (hstat : fat.getFileFromPath fuel path = .ok (vfile, fat₁))
    (hsize : vfile.specialized = .file length)
    (hfile : fat₁.fileIdLookup vfile.location.2 = some file)
    (hsecs : fat₁.sectorsOf file.cluster length = some secs) (hb : b.length = 512) :
    fat.cat fuel path b = .ok ((fat₁.sectorData secs).take length) ↔ length = 0 := by
  obtain ⟨hready, hdescribes⟩ := getFileFromPath_ready (hfat.ready hdisk) hstat
  obtain ⟨file', hfile', htype⟩ := hdescribes length hsize
  obtain rfl := Option.some.inj (hfile.symm.trans hfile')
  rw [cat, hstat]
  dsimp only
  rw [hsize]
  exact catSectors_eq_iff hready.toCached hfile htype hsecs hb

/-- Three files: one is empty, one has five bytes, and one a whole sector. -/
def catImage : Nat → List UInt8
  | 0 => bootBytes
  | 1 => [0xF8, 0xFF, 0xFF, 0xFF, 0xFF, 0xFF, 0xFF, 0xFF]
  | 21 =>
    entryBytes "EMPTY   TXT".toUTF8.toList 0x20 0 [0, 0, 0, 0] ++
    entryBytes "HELLO   TXT".toUTF8.toList 0x20 2 [5, 0, 0, 0] ++
    entryBytes "SECTOR  TXT".toUTF8.toList 0x20 3 [0, 2, 0, 0]
  | 22 => "hello".toUTF8.toList
  | 23 => replicate 512 0x41
  | _ => []

def catDisk : FSPartitionDisk := .start (.ofImage catImage)

/-- The state after mounting it. -/
def catFat : FAT := (readBiosBlock 1 catDisk 0 0 1).toOption.get (by decide +kernel)

/-- The size in the answer to `fs::stat`. -/
def statSize (vfile : VFile) : Option Nat :=
  match vfile.specialized with
  | .folder _ => none
  | .file size => some size

theorem statSize_eq_some {n : Nat} (h : statSize vfile = some n) : vfile.specialized = .file n := by
  unfold statSize at h
  cases hspecialized : vfile.specialized with
  | folder => simp [hspecialized] at h
  | file =>
    simp only [hspecialized, Option.some.injEq] at h
    rw [h]

/-- The answer to `fs::stat` for the empty file. -/
def emptyStat : VFile × FAT :=
  (catFat.getFileFromPath 0 "EMPTY.TXT".toList).toOption.get (by decide +kernel)

theorem emptyStat_values : statSize emptyStat.1 = some 0 ∧
    (emptyStat.2.fileIdLookup emptyStat.1.location.2).map FATFile.cluster = some 0 := by
  decide +kernel

theorem emptyStat_cat : catFat.cat 0 "EMPTY.TXT".toList (blank 512) = .ok [] := by
  obtain ⟨hsize, hcluster⟩ := emptyStat_values
  obtain ⟨file, hfile, -⟩ := map_eq_some_iff.1 hcluster
  have hmounted : Mounted catDisk catFat :=
    .mount (by decide) (toOption_eq_some.1 (some_get _).symm)
  have hstat : catFat.getFileFromPath 0 "EMPTY.TXT".toList = .ok emptyStat :=
    toOption_eq_some.1 (some_get _).symm
  rw [← Prod.eta emptyStat] at hstat
  have hcat := (cat_eq_iff (fun _ => rfl) hmounted hstat (statSize_eq_some hsize) hfile
    sectorsOf_zero (b := blank 512) length_blank).2 rfl
  rwa [take_zero] at hcat

/-- Nothing of the other files is written. -/
theorem catFat_loses :
    (catFat.cat 0 "HELLO.TXT".toList (blank 512)).toOption = some [] ∧
    (catFat.readFile (m := Run) 2 []).toOption.map (fun r => values r.1)
      = some "hello".toUTF8.toList ∧
    (catFat.cat 0 "SECTOR.TXT".toList (blank 512)).toOption = some [] ∧
    (catFat.readFile (m := Run) 3 []).toOption.map (fun r => values r.1)
      = some (replicate 512 0x41) := by
  decide +kernel

end FAT

end Fioxa.Fs
