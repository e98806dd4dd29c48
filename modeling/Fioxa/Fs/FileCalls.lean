import Fioxa.Fs.DiskCalls
import Fioxa.Fs.SectorReads

/-! # The calls to the disk for files

`read_file` asks for the sectors of a file in pieces. Put together they are the first sectors of the
clusters of the chain, each of them once and at its place in the buffer (`placed`).

`read_file_sector` tests only for the sector right after the end of the file. For the sectors after
that one it follows the chain as if the file were longer. -/

namespace Fioxa.Fs.FAT

open Faults List

open Traced

variable {fat fat' : FAT} {c s n k fuel id length : Nat} {b : List Cell} {runs : List (Nat × Nat)}
  {file : FATFile} {cs : List Nat}

/-! ## Chains -/

/-- The clusters are linked to each other, from `c` on. -/
def Linked (fat : FAT) : Nat → List Nat → Prop
  | _, [] => True
  | c, d :: cs => d = c ∧ fat.Linked (fat.link c) cs

/-- The cluster is in the partition. -/
def Fits (fat : FAT) (c : Nat) : Prop :=
  ∃ s, fat.startSector c = some s ∧ s + fat.bpb.sectorsPerCluster ≤ fat.disk.partitionLength

/-- The sectors of a cluster. -/
def clusterSectors (fat : FAT) (c : Nat) : List Nat :=
  match fat.startSector c with
  | some s => range' s fat.bpb.sectorsPerCluster
  | none => []

theorem take_range' : (range' s n).take k = range' s (min k n) := by
  by_cases h : k ≤ n
  · obtain ⟨m, rfl⟩ := Nat.exists_eq_add_of_le h
    rw [← range'_append_1, take_left' length_range', Nat.min_eq_left h]
  · rw [take_of_length_le (by simpa using Nat.le_of_not_le h), Nat.min_eq_right (by omega)]

theorem fileSectors_of_linked (hlinked : fat.Linked c cs) (hfits : ∀ d ∈ cs, fat.Fits d)
    (hn : n ≤ cs.length * fat.bpb.sectorsPerCluster) (hfuel : n ≤ fuel) :
    fat.fileSectors fuel n c = some ((cs.flatMap fat.clusterSectors).take n) := by
  induction cs generalizing c n fuel with
  | nil =>
    obtain rfl : n = 0 := by simpa using hn
    cases fuel <;> rfl
  | cons d cs ih =>
    obtain ⟨rfl, hlinked⟩ := hlinked
    obtain ⟨⟨s, hs, hfit⟩, hrest⟩ := forall_mem_cons.1 hfits
    have hspc := fat.sectorsPerCluster_pos
    cases fuel with
    | zero =>
      obtain rfl : n = 0 := by omega
      rfl
    | succ =>
      rw [length_cons, Nat.succ_mul] at hn
      refine fileSectors_succ_eq_some.2 ?_
      by_cases hzero : n = 0
      · subst hzero
        exact .inl ⟨rfl, rfl⟩
      · refine .inr ⟨hzero, s, _, hs, by omega, ih hlinked hrest (by omega) (by omega), ?_⟩
        have hmin : n - min n fat.bpb.sectorsPerCluster = n - fat.bpb.sectorsPerCluster := by
          omega
        rw [flatMap_cons, clusterSectors, hs, take_append, length_range', take_range', hmin]

/-! ## Pieces -/

/-- The sectors that a call reads, with their places in a buffer that ends where the buffer of the
    call does. -/
def placed (total : Nat) (call : Call) : List (Nat × Nat) :=
  (List.range call.count).map fun i => (call.sector + i, total - call.space + 512 * i)

theorem mapIdx_range' {f : Nat → Nat → Nat × Nat} :
    (range' s n).mapIdx f = (List.range n).map fun i => f i (s + i) := by
  induction n generalizing s f with
  | zero => rfl
  | succ n ih =>
    rw [range'_succ, mapIdx_cons, ih, range_succ_eq_map, map_cons]
    simp [Function.comp_def, Nat.add_assoc, Nat.add_comm 1]

theorem readPieces_placed {ps : List (Nat × Nat)} (hps : ∀ p ∈ ps, 0 < p.2 ∧ p.2 ≤ 56)
    (pre rest : List Cell) (h : fat.Cached)
    (hrest : 512 * (runSectors ps).length = rest.length)
    (hlt : ∀ x ∈ runSectors ps, x < fat.disk.partitionLength) :
    (readPieces (m := Watched) ps (pre ++ rest) pre.length fat).trace.flatMap
        (placed (pre ++ rest).length)
      = (runSectors ps).mapIdx fun i x => (x, pre.length + 512 * i) := by
  induction ps generalizing pre rest fat with
  | nil => rfl
  | cons p ps ih =>
    obtain ⟨hp, hps⟩ := forall_mem_cons.1 hps
    have hcons : runSectors (p :: ps) = range' p.1 p.2 ++ runSectors ps := rfl
    rw [hcons] at hrest hlt ⊢
    rw [length_append, length_range'] at hrest
    obtain ⟨hfirst, hlater⟩ := forall_mem_append.1 hlt
    have hlast := hfirst (p.1 + (p.2 - 1)) (mem_range'_1.2 (by omega))
    obtain ⟨⟨slice, fat₁⟩, hread, -, hslice, hkept⟩ := (diskRead_exact (s := p.1) (n := p.2)
      (b := rest) h).returns ⟨by omega, hp.2, by omega⟩
    have hoffset : (pre ++ marked true (fat.disk.sectors p.1 p.2)).length
        = pre.length + 512 * p.2 := by
      simp
    have htotal : (pre ++ marked true (fat.disk.sectors p.1 p.2) ++ rest.drop (512 * p.2)).length
        = (pre ++ rest).length := by
      rw [length_append, hoffset, length_append, length_drop]
      omega
    have hih := ih hps (pre ++ marked true (fat.disk.sectors p.1 p.2)) (rest.drop (512 * p.2))
      hkept.cached (by rw [length_drop]; omega)
      (by rw [show fat₁.disk = fat.disk from hkept.disk]; exact hlater)
    rw [htotal, hoffset, append_assoc, ← show slice = _ from hslice] at hih
    rw [readPieces, drop_left, take_left, trace_bind hread, flatMap_append, hih, mapIdx_append]
    refine congrArg₂ (· ++ ·) ?_ ?_
    · rw [mapIdx_range']
      simp [Reads.diskRead, placed]
    · rw [length_range']
      refine congrArg (mapIdx · _) (funext fun i => funext fun x => ?_)
      rw [Nat.mul_add, Nat.add_assoc, Nat.add_comm (512 * i)]

theorem readRuns_placed (h : fat.Cached) (hb : 512 * (runSectors runs).length = b.length)
    (hlt : ∀ x ∈ runSectors runs, x < fat.disk.partitionLength) :
    (readRuns (m := Watched) runs b 0 fat).trace.flatMap (placed b.length)
      = (runSectors runs).mapIdx fun i x => (x, 0 + 512 * i) := by
  rw [← runSectors_allPieces] at hb hlt ⊢
  have : LawfulMonad Watched := lawfulMonad
  rw [readRuns_eq]
  exact readPieces_placed allPieces_bounds [] b h hb hlt

/-- For every chain of clusters of the partition and every number of sectors that it has, both loops
    of `read_file` come to an end, and the calls of the second read the first sectors of the chain,
    each at its place, and nothing else. -/
theorem readLoops_placed (h : fat.Cached) (hlinked : fat.Linked c cs)
    (hfits : ∀ d ∈ cs, fat.Fits d) (hn : n ≤ cs.length * fat.bpb.sectorsPerCluster)
    (hb : b.length = 512 * n) :
    ∃ runs fat₁ r, collectRuns n n c [] fat = .ok (runs, fat₁) ∧
      readRuns runs.reverse b 0 fat₁ = .ok r ∧
      (readRuns (m := Watched) runs.reverse b 0 fat₁).trace.flatMap (placed (512 * n))
        = ((cs.flatMap fat.clusterSectors).take n).mapIdx (fun i x => (x, 512 * i)) ∧
      ∀ call ∈ (readRuns (m := Watched) runs.reverse b 0 fat₁).trace,
        call.count ≤ 56 ∧ call.space ≤ 512 * n ∧ 512 * call.count ≤ call.space := by
  have hsecs := fileSectors_of_linked hlinked hfits hn (Nat.le_refl n)
  obtain ⟨runs, fat₁, hcollect, hexpand, hkept⟩ := collectRuns_of_fileSectors h
    (by simp : ∀ r ∈ ([] : List (Nat × Nat)), 0 < r.2) (by simp [expand]) hsecs
  have hruns : runSectors runs.reverse = (cs.flatMap fat.clusterSectors).take n :=
    runSectors_reverse.trans hexpand
  have hlen : 512 * (runSectors runs.reverse).length = b.length := by
    rw [hruns, length_fileSectors (Nat.le_refl n) hsecs, hb]
  have hlt : ∀ x ∈ runSectors runs.reverse, x < fat₁.disk.partitionLength := by
    rw [hruns, hkept.disk]
    exact lt_of_fileSectors hsecs
  obtain ⟨r, hread, -⟩ := (readRuns_exact hkept.cached hlen).returns hlt
  have hplaced := readRuns_placed hkept.cached hlen hlt
  have hcalls : All _ (readRuns (m := Watched) _ _ 0 fat₁) :=
    Watched.readRuns_allowed (Nat.le_of_eq hlen)
  rw [hb] at hcalls
  rw [hb, hruns] at hplaced
  refine ⟨runs, fat₁, r, hcollect, hread, ?_, fun call hcall => ?_⟩
  · simpa using hplaced
  · obtain ⟨⟨-, hcount, hspace⟩, hle⟩ := hcalls call hcall
    exact ⟨hcount, hle, hspace⟩

theorem oneFile_chain : (oneFile 1500).link 2 = 257 ∧ (oneFile 1500).link 257 = 514 ∧
    (oneFile 1500).startSector 2 = some 3 ∧ (oneFile 1500).startSector 257 = some 258 ∧
    (oneFile 1500).startSector 514 = some 515 := by
  decide +kernel

/-- Its three sectors are read one after the other. -/
theorem oneFile_placed :
    ∃ runs fat₁ r, collectRuns 3 3 2 [] (oneFile 1500) = .ok (runs, fat₁) ∧
      readRuns runs.reverse (blank (512 * 3)) 0 fat₁ = .ok r ∧
      (readRuns (m := Watched) runs.reverse (blank (512 * 3)) 0 fat₁).trace.flatMap
        (placed (512 * 3))
        = (([2, 257, 514].flatMap (oneFile 1500).clusterSectors).take 3).mapIdx
          (fun i x => (x, 512 * i)) ∧
      ∀ call ∈ (readRuns (m := Watched) runs.reverse (blank (512 * 3)) 0 fat₁).trace,
        call.count ≤ 56 ∧ call.space ≤ 512 * 3 ∧ 512 * call.count ≤ call.space := by
  obtain ⟨hlink, hlink', hs, hs', hs''⟩ := oneFile_chain
  refine readLoops_placed oneFile_cached ⟨rfl, hlink.symm, ?_, trivial⟩ ?_ (by decide) length_blank
  · rw [hlink, hlink']
  · intro d hd
    simp only [mem_cons, not_mem_nil, or_false] at hd
    rcases hd with rfl | rfl | rfl
    · exact ⟨_, hs, by decide⟩
    · exact ⟨_, hs', by decide⟩
    · exact ⟨_, hs'', by decide⟩

/-! ## Behind the end of a file -/

/-- Nothing is returned, and nothing is read from the disk. -/
def ReadsNothing (fat : FAT) (id k : Nat) (b : List Cell) : Prop :=
  fat.readFileSector id k b = .ok (none, b, fat) ∧
    (fat.readFileSector (m := Watched) id k b).trace = []

theorem readFileSector_eq_none {r : List Cell × FAT} (hfile : fat.fileIdLookup id = some file)
    (htype : file.entryType = .file length) (h : fat.readFileSector id k b = .ok (none, r)) :
    length + 511 < 0x100000000 ∧ k = sectorCount length := by
  obtain ⟨file', hfile', h⟩ := bind_eq_ok.1 h
  obtain rfl := Option.some.inj (hfile.symm.trans (unwrap_eq_ok.1 hfile'))
  obtain ⟨length', hlength, h⟩ := bind_eq_ok.1 h
  rw [fileLength, htype] at hlength
  cases hlength
  obtain ⟨rounded, hrounded, h⟩ := bind_eq_ok.1 h
  obtain ⟨hlt, rfl⟩ := u32_eq_ok.1 hrounded
  dsimp only at h
  split at h
  · rename_i hk
    exact ⟨hlt, hk⟩
  · obtain ⟨-, h⟩ := ensure_bind_eq_ok.1 h
    obtain ⟨_, -, h⟩ := bind_eq_ok.1 h
    obtain ⟨_, -, h⟩ := bind_eq_ok.1 h
    obtain ⟨_, -, h⟩ := bind_eq_ok.1 h
    obtain ⟨_, -, h⟩ := bind_eq_ok.1 h
    cases h

theorem readFileSector_none_calls (hfile : fat.fileIdLookup id = some file)
    (htype : file.entryType = .file length) (hround : length + 511 < 0x100000000) :
    (fat.readFileSector (m := Watched) id (sectorCount length) b).trace = [] := by
  have hget : fat.getFatFile id = .ok file := unwrap_eq_ok.2 hfile
  have hlength : fileLength file = .ok length := by rw [fileLength, htype]
  have hu32 : u32 (length + 511) = .ok (length + 511) := u32_eq_ok.2 ⟨hround, rfl⟩
  rw [readFileSector, trace_bind (Watched.result_step.trans hget),
    trace_bind (Watched.result_step.trans hlength), trace_bind (Watched.result_step.trans hu32)]
  exact congrArg trace (if_pos rfl)

/-- A read behind the end of a file returns nothing, and reads nothing, exactly for the sector right
    after the end, if rounding the length up does not overflow. -/
theorem readsNothing_iff (hfile : fat.fileIdLookup id = some file)
    (htype : file.entryType = .file length) (hk : sectorCount length ≤ k) :
    fat.ReadsNothing id k b ↔ k = sectorCount length ∧ length + 511 < 0x100000000 := by
  constructor
  · rintro ⟨hnone, -⟩
    exact (readFileSector_eq_none hfile htype hnone).symm
  · rintro ⟨rfl, hround⟩
    exact ⟨readFileSector_none hfile htype hround, readFileSector_none_calls hfile htype hround⟩

theorem oneFile_reads_nothing : sectorCount 5 ≤ 1 ∧ (oneFile 5).ReadsNothing 1 1 (blank 512) :=
  ⟨by decide, (readsNothing_iff rfl rfl (by decide)).2 ⟨by decide, by decide⟩⟩

/-- FAT16 with four sectors in a cluster. The file in cluster 2 ends in its first sector, 19. -/
def slackImage : Nat → List UInt8
  | 0 => replicate 11 0 ++ [0x00, 0x02, 0x04, 0x01, 0x00, 0x01, 0x10, 0x00, 0x10, 0x40, 0xF8,
      0x11, 0x00]
  | 1 => [0xF8, 0xFF, 0xFF, 0xFF, 0xFF, 0xFF]
  | 18 => entryBytes "HELLO   TXT".toUTF8.toList 0x20 2 [5, 0, 0, 0]
  | 19 => "hello".toUTF8.toList
  | 21 => "secret".toUTF8.toList
  | _ => []

def slackDisk : FSPartitionDisk := ⟨.ofImage slackImage, 0, 16400, by decide⟩

/-- The state after mounting it. -/
def slackFat : FAT := (readBiosBlock 1 slackDisk 0 0 1).toOption.get (by decide +kernel)

/-- The third sector of the file, which has only one, is what is left in its cluster. -/
theorem slackFat_reads_on :
    (slackFat.fileIdLookup 1).map (fun file => (fileLength file).toOption) = some (some 5) ∧
    sectorCount 5 ≤ 2 ∧
    (slackFat.readFileSector (m := Run) 1 2 (blank 512)).toOption.map
      (fun r => (r.1, (values r.2.1).take 6)) = some (some 512, "secret".toUTF8.toList) ∧
    ¬ slackFat.ReadsNothing 1 2 (blank 512) := by
  have hread : (slackFat.fileIdLookup 1).map (fun file => (fileLength file).toOption)
      = some (some 5) ∧ (slackFat.readFileSector (m := Run) 1 2 (blank 512)).toOption.map
      (fun r => (r.1, (values r.2.1).take 6)) = some (some 512, "secret".toUTF8.toList) := by
    decide +kernel
  refine ⟨hread.1, by decide, hread.2, ?_⟩
  rintro ⟨hnone, -⟩
  rw [hnone] at hread
  cases hread.2

end Fioxa.Fs.FAT
