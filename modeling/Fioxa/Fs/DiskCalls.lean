import Fioxa.Lib.Traced
import Fioxa.Fs.DiskErrors

/-! # The calls to the disk

The functions of `fs/fat.rs` with a record of what they ask of the disk: a call of `disk.read` is an
event, which is there also if the call ends in a panic.

The driver takes at most 56 sectors in one call. `read_file` cuts its reads accordingly and the
other functions read single sectors, but `read_directory` reads a cluster at once. -/

namespace Fioxa.Fs

open Faults List

/-- A call of `disk.read`: the first sector, their number, and the length of the buffer. -/
structure Call where
  sector : Nat
  count : Nat
  space : Nat
deriving DecidableEq

/-- What the driver expects of a call. -/
def Call.Allowed (call : Call) : Prop :=
  1 ≤ call.count ∧ call.count ≤ 56 ∧ 512 * call.count ≤ call.space

abbrev Watched := Traced (Stop FSServiceError Fault) Call

instance : Reads Watched where
  step := Traced.lift
  diskRead fat s n buffer := ⟨fat.diskRead s n buffer, [⟨s, n, buffer.length⟩]⟩

namespace FAT.Watched

open Traced

/-! ## The record changes nothing -/

variable {fat : FAT} {s n c k id fuel offset : Nat} {b : List Cell} {entries : Listing} {lfn : Name}
  {runs ps : List (Nat × Nat)}

theorem result_step {α : Type} {x : Run α} : (Reads.step x : Watched α).result = x := rfl

theorem result_getNextCluster :
    (fat.getNextCluster (m := Watched) c).result = fat.getNextCluster c := by
  refine result_bind_eq ?_ fun _ => rfl
  unfold fatBuffer
  cases fat.clusterChainBuffer (fat.fatBufOffset c) with
  | some => rfl
  | none => exact result_bind_eq rfl fun _ => rfl

theorem result_parseSectors : (fat.parseSectors (m := Watched) s n b entries lfn).result
    = fat.parseSectors s n b entries lfn :=
  result_bind_eq rfl fun _ => rfl

theorem result_collectRuns :
    (collectRuns (m := Watched) fuel n c runs fat).result = collectRuns fuel n c runs fat := by
  induction fuel generalizing n c runs fat with
  | zero => rfl
  | succ fuel ih =>
    rw [collectRuns, collectRuns]
    split
    · rfl
    · exact result_bind_eq result_step fun _ => result_bind_eq result_step fun _ =>
        result_bind_eq result_getNextCluster fun _ => ih

/-! ## The limit of the driver -/

theorem all_step_bind {α β : Type} {P : Call → Prop} {x : Run α} {f : α → Watched β} :
    All P (Reads.step x >>= f) ↔ ∀ a, x = .ok a → All P (f a) :=
  all_lift_bind

theorem single_allowed : Call.Allowed ⟨s, 1, 512⟩ := by
  unfold Call.Allowed
  dsimp only
  decide

theorem diskRead_allowed (h : Call.Allowed ⟨s, n, b.length⟩) :
    All Call.Allowed (Reads.diskRead fat s n b : Watched _) := by
  intro call hcall
  obtain rfl := mem_singleton.1 hcall
  exact h

theorem fatBuffer_allowed : All Call.Allowed (fat.fatBuffer (m := Watched) offset) := by
  unfold fatBuffer
  split
  · exact all_pure _
  · refine all_bind.2 ⟨diskRead_allowed ?_, fun _ _ => all_pure _⟩
    rw [length_blank]
    exact single_allowed

theorem getNextCluster_allowed : All Call.Allowed (fat.getNextCluster (m := Watched) c) :=
  all_bind.2 ⟨fatBuffer_allowed, fun _ _ => all_pure _⟩

theorem parseSectors_allowed (hpos : 1 ≤ n) (hn : n ≤ 56) (hb : b.length = 512 * n) :
    All Call.Allowed (fat.parseSectors (m := Watched) s n b entries lfn) :=
  all_bind.2 ⟨diskRead_allowed ⟨hpos, hn, Nat.le_of_eq hb.symm⟩, fun _ _ => all_pure _⟩

theorem readClusters_allowed (hspc : fat.bpb.sectorsPerCluster ≤ 56 ∨ fat.dataStart = none)
    (hb : b.length = 512 * fat.bpb.sectorsPerCluster) :
    All Call.Allowed (readClusters (m := Watched) fuel c b entries lfn fat) := by
  induction fuel generalizing c b entries lfn fat with
  | zero => exact all_fail _
  | succ fuel ih =>
    rw [readClusters]
    split
    · exact all_pure _
    · refine all_step_bind.2 fun s hs => ?_
      obtain ⟨-, -, first, hfirst, -⟩ := startSector_eq_some.1 (toOption_eq_some.2 hs)
      have hle : fat.bpb.sectorsPerCluster ≤ 56 :=
        hspc.resolve_right (by rw [hfirst]; exact Option.some_ne_none first)
      refine all_bind.2 ⟨parseSectors_allowed fat.sectorsPerCluster_pos hle hb, fun p hp => ?_⟩
      rw [result_parseSectors] at hp
      obtain ⟨hlen, l, hlisted⟩ := parseSectors_used (g := True) fat.sectorsPerCluster_pos hb hp
      split
      · exact all_pure _
      · refine all_bind.2 ⟨getNextCluster_allowed, ?_⟩
        rintro ⟨next, fat1⟩ hnext
        rw [result_getNextCluster] at hnext
        have hbpb : fat1.bpb = fat.bpb :=
          (getNextCluster_used (g := True) hnext).bpb.trans hlisted.used.bpb
        exact ih (.inl (hbpb ▸ hle)) (by rw [hlen, hbpb])

theorem readDirectory_allowed (hspc : fat.bpb.sectorsPerCluster ≤ 56 ∨ fat.dataStart = none) :
    All Call.Allowed (fat.readDirectory (m := Watched) fuel c) :=
  readClusters_allowed hspc length_blank

theorem readRootSectors_allowed {sectors : List Nat} (hb : b.length = 512) :
    All Call.Allowed (readRootSectors (m := Watched) sectors b entries lfn fat) := by
  induction sectors generalizing b entries lfn fat with
  | nil => exact all_pure _
  | cons s sectors ih =>
    refine all_bind.2 ⟨parseSectors_allowed (by decide) (by decide) hb, fun p hp => ?_⟩
    rw [result_parseSectors] at hp
    obtain ⟨hlen, -⟩ := parseSectors_used (g := True) (by decide) hb hp
    split
    · exact all_pure _
    · exact ih hlen

theorem enumerateRoot_allowed (hspc : fat.bpb.sectorsPerCluster ≤ 56 ∨ fat.dataStart = none) :
    All Call.Allowed (fat.enumerateRoot (m := Watched) fuel) := by
  refine all_step_bind.2 fun _ _ => all_bind.2 ⟨?_, fun _ _ => all_pure _⟩
  unfold readRoot
  split
  · exact readDirectory_allowed hspc
  · exact all_step_bind.2 fun _ _ => all_step_bind.2 fun _ _ => readRootSectors_allowed length_blank

theorem collectRuns_allowed : All Call.Allowed (collectRuns (m := Watched) fuel n c runs fat) := by
  induction fuel generalizing n c runs fat with
  | zero => exact all_pure _
  | succ fuel ih =>
    rw [collectRuns]
    split
    · exact all_pure _
    · exact all_step_bind.2 fun _ _ => all_step_bind.2 fun _ _ =>
        all_bind.2 ⟨getNextCluster_allowed, fun _ _ => ih⟩

theorem readPieces_allowed (hps : ∀ p ∈ ps, 0 < p.2 ∧ p.2 ≤ 56) (pre rest : List Cell)
    (hrest : 512 * (runSectors ps).length ≤ rest.length) :
    All (fun call => call.Allowed ∧ call.space ≤ (pre ++ rest).length)
      (readPieces (m := Watched) ps (pre ++ rest) pre.length fat) := by
  induction ps generalizing pre rest fat with
  | nil => exact all_pure _
  | cons p ps ih =>
    obtain ⟨hp, hps⟩ := forall_mem_cons.1 hps
    have hcons : (runSectors (p :: ps)).length = p.2 + (runSectors ps).length := by
      rw [runSectors, flatMap_cons, length_append, length_range']
      rfl
    rw [readPieces, drop_left, take_left]
    refine all_bind.2 ⟨?_, ?_⟩
    · intro call hcall
      obtain rfl := mem_singleton.1 hcall
      rw [length_append]
      exact ⟨⟨hp.1, hp.2, by dsimp only; omega⟩, Nat.le_add_left _ _⟩
    · rintro ⟨slice, fat1⟩ hread
      obtain ⟨-, -, bytes, hlen, rfl⟩ := diskRead_eq_ok hread
      have hnew : pre.length + 512 * p.2 = (pre ++ marked fat.succeeds bytes).length := by
        rw [length_append, length_marked, hlen]
      have htotal : (pre ++ rest).length
          = (pre ++ marked fat.succeeds bytes ++ rest.drop (512 * p.2)).length := by
        rw [length_append, length_append, length_drop]
        omega
      dsimp only
      rw [← append_assoc, hnew, htotal]
      refine ih hps _ _ ?_
      rw [length_drop]
      omega

theorem readRuns_allowed (hrest : 512 * (runSectors runs).length ≤ b.length) :
    All (fun call => call.Allowed ∧ call.space ≤ b.length)
      (readRuns (m := Watched) runs b 0 fat) := by
  rw [← runSectors_allPieces] at hrest
  have : LawfulMonad Watched := lawfulMonad
  rw [readRuns_eq]
  exact readPieces_allowed allPieces_bounds [] b hrest

theorem readFile_allowed : All Call.Allowed (fat.readFile (m := Watched) id b) := by
  rw [readFile, all_step_bind]
  refine fun file _ => all_step_bind.2 fun length _ => ?_
  rw [all_step_bind]
  refine fun rounded _ => all_bind.2 ⟨collectRuns_allowed, ?_⟩
  rintro ⟨runs, fat1⟩ hcollect
  rw [result_collectRuns] at hcollect
  obtain ⟨hcount, -⟩ := collectRuns_used (g := True) (by simp) (Nat.le_refl _) hcollect
  refine all_bind.2 ⟨fun call hcall => ?_, fun _ _ => all_pure _⟩
  have hrest : 512 * (runSectors runs.reverse).length
      ≤ (resize b (512 * (rounded / 512))).length := by
    rw [runSectors_reverse, hcount, length_resize]
    simp [expand]
  exact (readRuns_allowed hrest call hcall).1

theorem skipClusters_allowed : All Call.Allowed (skipClusters (m := Watched) k c fat) := by
  induction k generalizing c fat with
  | zero => exact all_pure _
  | succ k ih => exact all_bind.2 ⟨getNextCluster_allowed, fun _ _ => ih⟩

theorem readFileSector_allowed (hb : b.length = 512) :
    All Call.Allowed (fat.readFileSector (m := Watched) id k b) := by
  rw [readFileSector, all_step_bind]
  refine fun file _ => all_step_bind.2 fun length _ => ?_
  rw [all_step_bind]
  intro rounded _
  dsimp only
  split
  · exact all_pure _
  · refine all_step_bind.2 fun _ _ => all_bind.2 ⟨skipClusters_allowed, fun _ _ => ?_⟩
    refine all_step_bind.2 fun _ _ => all_step_bind.2 fun _ _ => ?_
    refine all_bind.2 ⟨diskRead_allowed ?_, fun _ _ => all_pure _⟩
    rw [hb]
    exact single_allowed

end FAT.Watched

/-- The functions that call the disk, with their arguments. -/
inductive DiskUser where
  | readDirectory (fuel cluster : Nat)
  | enumerateRoot (fuel : Nat)
  | getNextCluster (cluster : Nat)
  | readFile (fileId : Nat) (buffer : List Cell)
  | readFileSector (fileId fileSector : Nat) (buffer : List Cell) (length_eq : buffer.length = 512)

open FAT in
/-- What a function asks of the disk. -/
def DiskUser.calls (fat : FAT) : DiskUser → List Call
  | .readDirectory fuel cluster => (fat.readDirectory (m := Watched) fuel cluster).trace
  | .enumerateRoot fuel => (fat.enumerateRoot (m := Watched) fuel).trace
  | .getNextCluster cluster => (fat.getNextCluster (m := Watched) cluster).trace
  | .readFile fileId buffer => (fat.readFile (m := Watched) fileId buffer).trace
  | .readFileSector fileId fileSector buffer _ =>
    (fat.readFileSector (m := Watched) fileId fileSector buffer).trace

namespace FAT

variable {fat : FAT}

theorem readDirectory_two_call {n : Nat} (h : fat.dataStart = some n) :
    ⟨n, fat.bpb.sectorsPerCluster, 512 * fat.bpb.sectorsPerCluster⟩
      ∈ (fat.readDirectory (m := Watched) 1 2).trace := by
  have hs : fat.getStartSectorOfCluster 2 = .ok n :=
    toOption_eq_some.1 (startSector_eq_some.2
      ⟨Nat.le_refl 2, (dataStart_bounds h).2, n, h, by simp⟩)
  rw [readDirectory, readClusters, if_neg (by decide), Traced.trace_bind hs]
  refine mem_append_right _ (Traced.mem_trace_bind ?_)
  exact Traced.mem_trace_bind (mem_singleton.2 (by rw [length_blank]))

/-- The file system respects the limit of the driver exactly if a cluster has at most 56 sectors, or
    if the place of the clusters cannot be computed. -/
theorem calls_allowed_iff : (∀ user : DiskUser, ∀ call ∈ user.calls fat, call.Allowed) ↔
    fat.bpb.sectorsPerCluster ≤ 56 ∨ fat.dataStart = none := by
  constructor
  · intro h
    cases hstart : fat.dataStart with
    | none => exact .inr rfl
    | some => exact .inl (h (.readDirectory 1 2) _ (readDirectory_two_call hstart)).2.1
  · intro hspc user
    cases user with
    | readDirectory => exact Watched.readDirectory_allowed hspc
    | enumerateRoot => exact Watched.enumerateRoot_allowed hspc
    | getNextCluster => exact Watched.getNextCluster_allowed
    | readFile => exact Watched.readFile_allowed
    | readFileSector fileId fileSector buffer hb => exact Watched.readFileSector_allowed hb

/-- FAT16 with 64 sectors in a cluster. -/
def wideImage : Nat → List UInt8
  | 0 => replicate 11 0 ++ [0x00, 0x02, 0x40, 0x01, 0x00, 0x01, 0x10, 0x00, 0x00, 0x00, 0xF8,
      0x11, 0x00] ++ replicate 8 0 ++ [0x00, 0x01, 0x04, 0x00]
  | 1 => [0xF8, 0xFF, 0xFF, 0xFF, 0xFF, 0xFF]
  | 18 => entryBytes "SUB        ".toUTF8.toList 0x10 2 [0, 0, 0, 0]
  | _ => []

def wideDisk : FSPartitionDisk := ⟨.ofImage wideImage, 0, 262400, by decide⟩

/-- The state after mounting it. -/
def wideFat : FAT := (readBiosBlock 1 wideDisk 0 0 1).toOption.get (by decide +kernel)

/-- The folder in it cannot be read. -/
theorem wideFat_not_allowed :
    (wideFat.readDirectory (m := Watched) 1 2).trace.map (fun call => (call.sector, call.count))
      = [(19, 64)] ∧ ¬ ∀ user : DiskUser, ∀ call ∈ user.calls wideFat, call.Allowed := by
  have hcalls : (wideFat.readDirectory (m := Watched) 1 2).trace.map
      (fun call => (call.sector, call.count)) = [(19, 64)] := by
    decide +kernel
  refine ⟨hcalls, fun h => ?_⟩
  obtain ⟨call, hcall, hcount⟩ := mem_map.1 (hcalls ▸ mem_singleton_self (19, 64))
  have hle := (h (.readDirectory 1 2) call hcall).2.1
  rw [(Prod.mk.inj hcount).2] at hle
  exact absurd hle (by decide)

end FAT

end Fioxa.Fs
