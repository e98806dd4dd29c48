import Fioxa.Fs.Directory

/-! # Reading files

The sectors of a file are those of the clusters of its chain, one after the other (`fileSectors`).
`read_file` joins them to runs and reads these in pieces of at most 56 sectors. What it returns is
the contents of the sectors (`readFile_exact`), and what `read_file_sector` returns is one of them
(`readFileSector_exact`). -/

namespace Fioxa.Fs.FAT

open Faults List Nat Exact FSPartitionDisk

variable {fat fat' fat'' : FAT} {c s n fuel : Nat} {b : List Cell} {runs runs' : List (Nat × Nat)}
  {secs : List Nat}

/-! ## The sectors of a file -/

/-- The first `n` sectors of the chain from `c` on, if they are in the partition. As each cluster
    has sectors, `n` clusters are enough. -/
def fileSectors (fat : FAT) : Nat → Nat → Nat → Option (List Nat)
  | 0, _, _ => some []
  | fuel + 1, n, c =>
    if n = 0 then some []
    else
      match fat.startSector c with
      | none => none
      | some s =>
        let amount := min n fat.bpb.sectorsPerCluster
        if s + amount ≤ fat.disk.partitionLength then
          (fat.fileSectors fuel (n - amount) (fat.link c)).map (range' s amount ++ ·)
        else none

theorem fileSectors_succ_eq_some : fat.fileSectors (fuel + 1) n c = some secs ↔
    n = 0 ∧ secs = [] ∨ n ≠ 0 ∧ ∃ s secs', fat.startSector c = some s ∧
      s + min n fat.bpb.sectorsPerCluster ≤ fat.disk.partitionLength ∧
      fat.fileSectors fuel (n - min n fat.bpb.sectorsPerCluster) (fat.link c) = some secs' ∧
      secs = range' s (min n fat.bpb.sectorsPerCluster) ++ secs' := by
  rw [fileSectors]
  by_cases hn : n = 0
  · simp [hn, eq_comm]
  · rw [if_neg hn]
    cases fat.startSector c with
    | none => simp [hn]
    | some s =>
      by_cases hfit : s + min n fat.bpb.sectorsPerCluster ≤ fat.disk.partitionLength
      · simp only [hfit, if_true, Option.map_eq_some_iff, hn, false_and, false_or, ne_eq,
          not_false_eq_true, true_and, Option.some.injEq, exists_and_left, exists_eq_left']
        exact exists_congr fun secs' => and_congr_right fun _ => eq_comm
      · simp [hn, hfit]

theorem SameVolume.fileSectors_eq (h : SameVolume fat fat') (fuel n c : Nat) :
    fat'.fileSectors fuel n c = fat.fileSectors fuel n c := by
  induction fuel generalizing n c with
  | zero => rfl
  | succ fuel ih =>
    rw [fileSectors, fileSectors, h.startSector_eq, h.link_eq, h.bpb, h.disk]
    simp only [ih]

/-- The contents of sectors. -/
def sectorData (fat : FAT) (secs : List Nat) : List UInt8 :=
  secs.flatMap fun s => fat.disk.sectors s 1

theorem sectorData_append {secs' : List Nat} :
    fat.sectorData (secs ++ secs') = fat.sectorData secs ++ fat.sectorData secs' :=
  flatMap_append

theorem sectorData_range' : fat.sectorData (range' s n) = fat.disk.sectors s n := by
  induction n with
  | zero => rfl
  | succ n ih =>
    rw [range'_concat, sectorData_append, ih, sectors_succ]
    simp [sectorData]

theorem length_sectorData : (fat.sectorData secs).length = 512 * secs.length := by
  induction secs with
  | nil => rfl
  | cons s secs ih =>
    have hcons : fat.sectorData (s :: secs) = fat.disk.sectors s 1 ++ fat.sectorData secs := rfl
    rw [hcons, length_append, length_sectors, length_cons]
    omega

/-! ## Runs -/

/-- The sectors of the runs so far. -/
def expand (runs : List (Nat × Nat)) : List Nat :=
  runs.reverse.flatMap fun r => range' r.1 r.2

theorem expand_cons {r : Nat × Nat} : expand (r :: runs) = expand runs ++ range' r.1 r.2 := by
  simp [expand]

theorem noErr_pushRun : NoErr (pushRun runs s n) := by
  unfold pushRun
  split
  · refine noErr_u32.bind fun _ => ?_
    split
    · exact noErr_u32.bind fun _ => noErr_ok
    · exact noErr_ok
  · exact noErr_ok

theorem pushRun_eq_ok (h : pushRun runs s n = .ok runs') (hpos : 0 < n)
    (hruns : ∀ r ∈ runs, 0 < r.2) :
    expand runs' = expand runs ++ range' s n ∧ ∀ r ∈ runs', 0 < r.2 := by
  cases runs with
  | nil =>
    cases h
    simpa [expand] using hpos
  | cons =>
    obtain ⟨hr, hrest⟩ := forall_mem_cons.1 hruns
    simp only [pushRun, bind_eq_ok, u32_eq_ok] at h
    obtain ⟨_, ⟨-, rfl⟩, h⟩ := h
    split at h
    · rename_i heq
      simp only [bind_eq_ok, u32_eq_ok] at h
      obtain ⟨_, ⟨-, rfl⟩, h⟩ := h
      cases h
      refine ⟨?_, forall_mem_cons.2 ⟨Nat.add_pos_left hr n, hrest⟩⟩
      rw [expand_cons, expand_cons, append_assoc, ← heq, range'_append_1]
    · cases h
      exact ⟨expand_cons, forall_mem_cons.2 ⟨hpos, hruns⟩⟩

theorem pushRun_returns {limit : Nat} (hlimit : limit < 0x100000000) (hn : s + n ≤ limit)
    (hruns : ∀ r ∈ runs, 0 < r.2) (hlt : ∀ x ∈ expand runs, x < limit) :
    ∃ runs', pushRun runs s n = .ok runs' := by
  cases runs with
  | nil => exact ⟨_, rfl⟩
  | cons r rest =>
    have hr := hruns r mem_cons_self
    have hend : r.1 + r.2 ≤ limit := by
      have hmem : r.1 + (r.2 - 1) ∈ expand (r :: rest) := by
        rw [expand_cons]
        refine mem_append_right _ (mem_range'_1.2 ⟨by omega, by omega⟩)
      have hlast := hlt _ hmem
      omega
    by_cases heq : r.1 + r.2 = s
    · refine ⟨(r.1, r.2 + n) :: rest, ?_⟩
      simp only [pushRun, bind_eq_ok, u32_eq_ok]
      refine ⟨_, ⟨by omega, rfl⟩, ?_⟩
      rw [if_pos heq]
      exact bind_eq_ok.2 ⟨_, u32_eq_ok.2 ⟨by omega, rfl⟩, rfl⟩
    · refine ⟨(s, n) :: r :: rest, ?_⟩
      simp only [pushRun, bind_eq_ok, u32_eq_ok]
      refine ⟨_, ⟨by omega, rfl⟩, ?_⟩
      rw [if_neg heq]
      rfl

/-! ## Collecting the runs -/

theorem noErr_diskRead : NoErr (fat.diskRead s n b) :=
  read_exact.noErr.bind fun _ => noErr_ok

theorem noErr_getNextCluster : NoErr (fat.getNextCluster c) := by
  refine NoErr.bind ?_ fun _ => noErr_ok
  unfold fatBuffer
  split
  · exact noErr_ok
  · exact noErr_diskRead.bind fun _ => noErr_ok

theorem noErr_collectRuns : NoErr (collectRuns fuel n c runs fat) := by
  induction fuel generalizing n c runs fat with
  | zero => exact noErr_ok
  | succ fuel ih =>
    rw [collectRuns]
    split
    · exact noErr_ok
    · exact noErr_getStartSectorOfCluster.bind fun _ => noErr_pushRun.bind fun _ =>
        noErr_getNextCluster.bind fun _ => ih

/-- The runs that have been collected have as many sectors as are to be read. They are those of the
    file, if they are in the partition. -/
theorem collectRuns_eq_ok (h : fat.Cached) (hruns : ∀ r ∈ runs, 0 < r.2) (hfuel : n ≤ fuel)
    (hok : collectRuns fuel n c runs fat = .ok (runs', fat')) :
    ∃ secs, expand runs' = expand runs ++ secs ∧ secs.length = n ∧ Kept fat fat' ∧
      ((∀ x ∈ secs, x < fat.disk.partitionLength) → fat.fileSectors fuel n c = some secs) := by
  induction fuel generalizing n c runs fat with
  | zero =>
    cases hok
    exact ⟨[], (append_nil _).symm, (le_zero.1 hfuel).symm, .refl h, fun _ => rfl⟩
  | succ fuel ih =>
    rw [collectRuns] at hok
    split at hok
    · rename_i hn
      cases hok
      exact ⟨[], (append_nil _).symm, hn.symm, .refl h,
        fun _ => fileSectors_succ_eq_some.2 (.inl ⟨hn, rfl⟩)⟩
    · rename_i hn
      simp only [bind_eq_ok] at hok
      obtain ⟨s, hs, runs1, hrun, ⟨next, fat1⟩, hnext, hok⟩ := hok
      have hspc := fat.sectorsPerCluster_pos
      obtain ⟨hexpand, hruns1⟩ := pushRun_eq_ok hrun (by omega) hruns
      obtain ⟨-, rfl, hkept⟩ := (getNextCluster_exact h).of_ok hnext
      obtain ⟨secs, heq, hlen, hkept', hsecs⟩ := ih hkept.cached hruns1 (by omega) hok
      rw [hkept.toSamePartition.fileSectors_eq, hkept.disk] at hsecs
      refine ⟨range' s (min n fat.bpb.sectorsPerCluster) ++ secs, ?_, ?_, hkept.trans hkept',
        fun hlt => ?_⟩
      · rw [heq, hexpand, append_assoc]
      · rw [length_append, length_range']
        omega
      · obtain ⟨hfirst, hrest⟩ := forall_mem_append.1 hlt
        have hlast := hfirst (s + (min n fat.bpb.sectorsPerCluster - 1)) (mem_range'_1.2 (by omega))
        exact fileSectors_succ_eq_some.2
          (.inr ⟨hn, s, secs, toOption_eq_some.2 hs, by omega, hsecs hrest, rfl⟩)

theorem collectRuns_of_fileSectors (h : fat.Cached) (hruns : ∀ r ∈ runs, 0 < r.2)
    (hlt : ∀ x ∈ expand runs, x < fat.disk.partitionLength)
    (hsecs : fat.fileSectors fuel n c = some secs) :
    ∃ runs' fat', collectRuns fuel n c runs fat = .ok (runs', fat') ∧
      expand runs' = expand runs ++ secs ∧ Kept fat fat' := by
  induction fuel generalizing n c runs fat secs with
  | zero =>
    cases hsecs
    exact ⟨runs, fat, rfl, (append_nil _).symm, .refl h⟩
  | succ fuel ih =>
    rw [collectRuns]
    rcases fileSectors_succ_eq_some.1 hsecs with
      ⟨rfl, rfl⟩ | ⟨hn, s, secs', hs, hfit, hsecs', rfl⟩
    · exact ⟨runs, fat, if_pos rfl, (append_nil _).symm, .refl h⟩
    · have hspc := fat.sectorsPerCluster_pos
      obtain ⟨runs1, hrun⟩ := pushRun_returns fat.disk.length_lt hfit hruns hlt
      obtain ⟨hexpand, hruns1⟩ := pushRun_eq_ok hrun (by omega) hruns
      obtain ⟨⟨next, fat1⟩, hnext, rfl, hkept⟩ := (getNextCluster_exact h).returns
        (hasLink_of_lt hs (by omega))
      have hlt1 : ∀ x ∈ expand runs1, x < fat1.disk.partitionLength := by
        rw [show fat1.disk = fat.disk from hkept.disk, hexpand]
        refine forall_mem_append.2 ⟨hlt, fun x hx => ?_⟩
        have hrange := mem_range'_1.1 hx
        omega
      obtain ⟨runs', fat', hok, heq, hkept'⟩ := ih hkept.cached hruns1 hlt1
        ((hkept.toSamePartition.fileSectors_eq ..).trans hsecs')
      refine ⟨runs', fat', ?_, ?_, hkept.trans hkept'⟩
      · rw [if_neg hn]
        simp only [bind_eq_ok]
        exact ⟨s, toOption_eq_some.1 hs, runs1, hrun, _, hnext, hok⟩
      · rw [heq, hexpand, append_assoc]

/-! ## Reading the runs -/

/-- The sectors of runs in the order in which they are read. -/
def runSectors (runs : List (Nat × Nat)) : List Nat := runs.flatMap fun r => range' r.1 r.2

/-- What is read at once of a run. -/
def pieces : Nat → Nat → Nat → List (Nat × Nat)
  | 0, _, _ => []
  | fuel + 1, sector, len =>
    if len = 0 then []
    else (sector, min len 56) :: pieces fuel (sector + min len 56) (len - min len 56)

def allPieces (runs : List (Nat × Nat)) : List (Nat × Nat) :=
  runs.flatMap fun r => pieces r.2 r.1 r.2

/-- Pieces read one after the other into the buffer, from an offset on. -/
def readPieces {m : Type → Type} [Monad m] [Reads m] :
    List (Nat × Nat) → List Cell → Nat → FAT → m (List Cell × FAT)
  | [], buffer, _, fat => pure (buffer, fat)
  | p :: rest, buffer, offset, fat => do
    let (slice, fat) ← Reads.diskRead fat p.1 p.2 (buffer.drop offset)
    readPieces rest (buffer.take offset ++ slice) (offset + 512 * p.2) fat

variable {offset : Nat} {ps : List (Nat × Nat)}

section

variable {m : Type → Type} [Monad m] [Reads m] [LawfulMonad m]

theorem readRun_bind : (readRun fuel s n b offset fat >>= fun r => readPieces ps r.1 r.2.1 r.2.2)
    = (readPieces (pieces fuel s n ++ ps) b offset fat : m (List Cell × FAT)) := by
  induction fuel generalizing s n b offset fat with
  | zero => exact pure_bind _ _
  | succ fuel ih =>
    rw [readRun, pieces]
    split
    · exact pure_bind _ _
    · rw [bind_assoc]
      exact bind_congr fun _ => ih

theorem readRuns_eq : (readRuns runs b offset fat : m (List Cell × FAT))
    = readPieces (allPieces runs) b offset fat := by
  induction runs generalizing b offset fat with
  | nil => rfl
  | cons r runs ih =>
    rw [readRuns]
    simp only [ih]
    exact readRun_bind

end

theorem runSectors_pieces (hfuel : n ≤ fuel) : runSectors (pieces fuel s n) = range' s n := by
  induction fuel generalizing s n with
  | zero =>
    obtain rfl : n = 0 := by omega
    rfl
  | succ fuel ih =>
    rw [pieces]
    split
    · rename_i hn
      rw [hn]
      rfl
    · rw [runSectors, flatMap_cons, ← runSectors, ih (by omega), range'_append_1,
        add_sub_of_le (Nat.min_le_left n 56)]

theorem runSectors_allPieces : runSectors (allPieces runs) = runSectors runs := by
  rw [allPieces, runSectors, flatMap_assoc]
  exact congrArg (runs.flatMap ·) (funext fun _ => runSectors_pieces (Nat.le_refl _))

theorem pieces_bounds {p : Nat × Nat} (hp : p ∈ pieces fuel s n) : 0 < p.2 ∧ p.2 ≤ 56 := by
  induction fuel generalizing s n with
  | zero => cases hp
  | succ fuel ih =>
    rw [pieces] at hp
    split at hp
    · cases hp
    · rcases mem_cons.1 hp with rfl | hp
      · dsimp only
        omega
      · exact ih hp

theorem allPieces_bounds : ∀ p ∈ allPieces runs, 0 < p.2 ∧ p.2 ≤ 56 := by
  intro p hp
  obtain ⟨r, -, hp⟩ := mem_flatMap.1 hp
  exact pieces_bounds hp

theorem readPieces_exact (hps : ∀ p ∈ ps, 0 < p.2 ∧ p.2 ≤ 56) (h : fat.Cached)
    (pre rest : List Cell) (hrest : 512 * (runSectors ps).length = rest.length) :
    Exact (readPieces ps (pre ++ rest) pre.length fat)
      (∀ x ∈ runSectors ps, x < fat.disk.partitionLength) fun r =>
        r.1 = pre ++ marked true (fat.sectorData (runSectors ps)) ∧ Kept fat r.2 := by
  induction ps generalizing pre rest fat with
  | nil =>
    obtain rfl : rest = [] :=
      eq_nil_of_length_eq_zero (by simpa [runSectors] using hrest.symm)
    exact (Exact.pure ⟨by simp [runSectors, sectorData, marked], .refl h⟩).congr
      (by simp [runSectors]) fun _ _ hr => hr
  | cons p ps ih =>
    obtain ⟨hp, hps⟩ := forall_mem_cons.1 hps
    have hcons : runSectors (p :: ps) = range' p.1 p.2 ++ runSectors ps := rfl
    rw [hcons] at hrest ⊢
    rw [length_append, length_range'] at hrest
    rw [readPieces, drop_left, take_left]
    refine ((diskRead_exact h).bind (q := ∀ x ∈ runSectors ps, x < fat.disk.partitionLength)
      fun r hr => ?_).congr ?_ fun _ _ hr => hr
    · obtain ⟨slice, fat1⟩ := r
      obtain ⟨-, hslice, hkept⟩ := hr
      have hdisk : fat1.disk = fat.disk := hkept.disk
      have hih : Exact (readPieces ps
          (pre ++ marked true (fat.disk.sectors p.1 p.2) ++ rest.drop (512 * p.2))
          (pre ++ marked true (fat.disk.sectors p.1 p.2)).length fat1) _ _ :=
        ih hps hkept.cached _ _ (by rw [length_drop]; omega)
      have hoffset : (pre ++ marked true (fat.disk.sectors p.1 p.2)).length
          = pre.length + 512 * p.2 := by
        simp
      rw [append_assoc, ← show slice = _ from hslice, hoffset] at hih
      refine hih.congr (by rw [hdisk]) ?_
      rintro r - ⟨hbytes, hkept'⟩
      refine ⟨?_, hkept.trans hkept'⟩
      rw [hbytes, sectorData_append, sectorData_range', marked_append, append_assoc,
        sectorData, sectorData, hdisk]
    · rw [forall_mem_append]
      refine and_congr_left fun _ => ⟨fun hfit x hx => ?_, fun hlt => ⟨?_, hp.2, by omega⟩⟩
      · have hrange := mem_range'_1.1 hx
        omega
      · have hlast := hlt (p.1 + (p.2 - 1)) (mem_range'_1.2 (by omega))
        omega

theorem readRuns_exact (h : fat.Cached) (hb : 512 * (runSectors runs).length = b.length) :
    Exact (readRuns runs b 0 fat) (∀ x ∈ runSectors runs, x < fat.disk.partitionLength) fun r =>
      r.1 = marked true (fat.sectorData (runSectors runs)) ∧ Kept fat r.2 := by
  rw [← runSectors_allPieces] at hb ⊢
  rw [readRuns_eq]
  exact readPieces_exact allPieces_bounds h [] b hb

/-! ## Files -/

theorem length_fileSectors (hfuel : n ≤ fuel) (h : fat.fileSectors fuel n c = some secs) :
    secs.length = n := by
  induction fuel generalizing n c secs with
  | zero =>
    cases h
    exact (le_zero.1 hfuel).symm
  | succ fuel ih =>
    rcases fileSectors_succ_eq_some.1 h with ⟨rfl, rfl⟩ | ⟨hn, s, secs', -, -, hsecs', rfl⟩
    · rfl
    · have hspc := fat.sectorsPerCluster_pos
      rw [length_append, length_range', ih (by omega) hsecs']
      omega

theorem lt_of_fileSectors (h : fat.fileSectors fuel n c = some secs) :
    ∀ x ∈ secs, x < fat.disk.partitionLength := by
  induction fuel generalizing n c secs with
  | zero =>
    cases h
    simp
  | succ fuel ih =>
    rcases fileSectors_succ_eq_some.1 h with ⟨-, rfl⟩ | ⟨-, s, secs', -, hfit, hsecs', rfl⟩
    · simp
    · refine forall_mem_append.2 ⟨fun x hx => ?_, ih hsecs'⟩
      have hrange := mem_range'_1.1 hx
      omega

/-- The number of sectors of a file. -/
def sectorCount (length : Nat) : Nat := (length + 511) / 512

/-- The sectors of a file of some length whose chain starts at `c`. -/
def sectorsOf (fat : FAT) (c length : Nat) : Option (List Nat) :=
  fat.fileSectors (sectorCount length) (sectorCount length) c

variable {k : Nat}

theorem length_resize : (resize b k).length = k := by
  simp [resize]
  omega

theorem runSectors_reverse : runSectors runs.reverse = expand runs := rfl

variable {file : FATFile}

theorem readLoops_exact (h : fat.Cached) (n length : Nat) :
    Exact (do
      let (runs, fat) ← collectRuns n n file.cluster [] fat
      let (buffer, fat) ← readRuns runs.reverse (resize b (512 * n)) 0 fat
      return (buffer.take length, fat)) (fat.fileSectors n n file.cluster).isSome fun r =>
        ∃ secs, fat.fileSectors n n file.cluster = some secs ∧
          r.1 = marked true ((fat.sectorData secs).take length) ∧ Kept fat r.2 := by
  have hread : ∀ runs fat1, collectRuns n n file.cluster [] fat = .ok (runs, fat1) →
      Exact (readRuns runs.reverse (resize b (512 * n)) 0 fat1)
        (∀ x ∈ expand runs, x < fat1.disk.partitionLength) fun r =>
          r.1 = marked true (fat1.sectorData (expand runs)) ∧ Kept fat1 r.2 := by
    intro runs fat1 hcollect
    obtain ⟨secs, hexpand, hlen, hkept, -⟩ := collectRuns_eq_ok h (by simp) (Nat.le_refl n) hcollect
    refine readRuns_exact hkept.cached ?_
    rw [runSectors_reverse, hexpand, length_resize, ← hlen]
    rfl
  cases hsecs : fat.fileSectors n n file.cluster with
  | none =>
    have hnot : ¬ ((none : Option (List Nat)).isSome = true) := by simp
    cases hcollect : collectRuns n n file.cluster [] fat with
    | error stop =>
      cases stop with
      | err e => exact absurd hcollect (noErr_collectRuns e)
      | fault => exact fault_bind rfl hnot
    | ok r =>
      obtain ⟨runs, fat1⟩ := r
      obtain ⟨secs, hexpand, -, hkept, hsome⟩ := collectRuns_eq_ok h (by simp) (Nat.le_refl n)
        hcollect
      obtain ⟨f, hf⟩ := (hread runs fat1 hcollect).faults fun hlt => by
        rw [hkept.disk, hexpand] at hlt
        rw [hsome hlt] at hsecs
        cases hsecs
      exact ok_bind rfl (fault_bind hf hnot)
  | some secs =>
    obtain ⟨runs, fat1, hcollect, hexpand, hkept⟩ := collectRuns_of_fileSectors h
      (by simp : ∀ r ∈ ([] : List (Nat × Nat)), 0 < r.2) (by simp [expand]) hsecs
    have hlt : ∀ x ∈ expand runs, x < fat1.disk.partitionLength := by
      rw [hkept.disk, hexpand]
      exact lt_of_fileSectors hsecs
    obtain ⟨⟨bytes, fat2⟩, hok, hbytes, hkept'⟩ := (hread runs fat1 hcollect).returns hlt
    refine ok_bind hcollect (ok_bind hok ?_)
    refine (Exact.pure ⟨secs, rfl, ?_, hkept.trans hkept'⟩).congr (iff_of_true trivial rfl)
      fun _ _ hr => hr
    rw [show bytes = _ from hbytes, hexpand, sectorData, hkept.disk]
    exact map_take.symm

variable {id length : Nat}

theorem readFile_exact (h : fat.Cached) (hfile : fat.fileIdLookup id = some file)
    (htype : file.entryType = .file length) :
    Exact (fat.readFile id b)
      (length + 511 < 0x100000000 ∧ (fat.sectorsOf file.cluster length).isSome) fun r =>
        ∃ secs, fat.sectorsOf file.cluster length = some secs ∧
          r.1 = marked true ((fat.sectorData secs).take length) ∧ Kept fat r.2 := by
  refine ok_bind (unwrap_eq_ok.2 hfile) (ok_bind (a := length) ?_ ?_)
  · rw [fileLength, htype]
    rfl
  refine u32_exact.bind fun rounded hrounded => ?_
  subst hrounded
  exact readLoops_exact h (sectorCount length) length

/-! ## Single sectors -/

/-- The cluster after `k` links, if these are in the partition. -/
def nthCluster (fat : FAT) : Nat → Nat → Option Nat
  | 0, c => some c
  | k + 1, c => if fat.HasLink c then fat.nthCluster k (fat.link c) else none

theorem SameVolume.nthCluster_eq (h : SameVolume fat fat') (k c : Nat) :
    fat'.nthCluster k c = fat.nthCluster k c := by
  induction k generalizing c with
  | zero => rfl
  | succ k ih => simp only [nthCluster, h.hasLink_iff, h.link_eq, ih]

theorem skipClusters_exact (h : fat.Cached) :
    Exact (skipClusters k c fat) (fat.nthCluster k c).isSome fun r =>
      fat.nthCluster k c = some r.1 ∧ Kept fat r.2 := by
  induction k generalizing c fat with
  | zero => exact (Exact.pure ⟨rfl, .refl h⟩).congr (iff_of_true trivial rfl) fun _ _ hr => hr
  | succ k ih =>
    rw [nthCluster]
    by_cases hlink : fat.HasLink c
    · obtain ⟨⟨next, fat1⟩, hok, rfl, hkept⟩ := (getNextCluster_exact h).returns hlink
      refine ok_bind hok ?_
      rw [if_pos hlink, ← hkept.toSamePartition.nthCluster_eq]
      exact (ih hkept.cached).congr Iff.rfl fun r _ hr => ⟨hr.1, hkept.trans hr.2⟩
    · obtain ⟨f, hf⟩ := (getNextCluster_exact h).faults hlink
      rw [if_neg hlink]
      exact fault_bind hf (by simp)

/-- The sector that `read_file_sector` reads, if it is in the partition. -/
def sectorAt (fat : FAT) (c k : Nat) : Option Nat :=
  match (fat.nthCluster (k / fat.bpb.sectorsPerCluster) c).bind fat.startSector with
  | none => none
  | some s =>
    if s + k % 0x100000000 % fat.bpb.sectorsPerCluster < fat.disk.partitionLength then
      some (s + k % 0x100000000 % fat.bpb.sectorsPerCluster)
    else none

/-- The number of bytes of a sector that `read_file_sector` returns. -/
def sectorLength (length k : Nat) : Nat := if k + 1 = sectorCount length then length % 512 else 512

theorem readFileSector_none (hfile : fat.fileIdLookup id = some file)
    (htype : file.entryType = .file length) (hround : length + 511 < 0x100000000) :
    fat.readFileSector id (sectorCount length) b = .ok (none, b, fat) := by
  have hlength : fileLength file = .ok length := by rw [fileLength, htype]
  have hu32 : u32 (length + 511) = .ok (length + 511) := u32_eq_ok.2 ⟨hround, rfl⟩
  exact bind_eq_ok.2 ⟨file, unwrap_eq_ok.2 hfile, bind_eq_ok.2 ⟨length, hlength,
    bind_eq_ok.2 ⟨_, hu32, if_pos rfl⟩⟩⟩

theorem readFileSector_exact (h : fat.Cached) (hfile : fat.fileIdLookup id = some file)
    (htype : file.entryType = .file length) (hk : k ≠ sectorCount length) (hb : b.length = 512) :
    Exact (fat.readFileSector id k b) (length + 511 < 0x100000000 ∧ k + 1 < 0x10000000000000000 ∧
        (fat.sectorAt file.cluster k).isSome) fun r =>
        ∃ s, fat.sectorAt file.cluster k = some s ∧ r.1 = some (sectorLength length k) ∧
          r.2.1 = marked true (fat.disk.sectors s 1) ∧ Kept fat r.2.2 := by
  refine ok_bind (unwrap_eq_ok.2 hfile) (ok_bind (a := length) ?_ ?_)
  · rw [fileLength, htype]
    rfl
  refine u32_exact.bind fun rounded hrounded => ?_
  subst hrounded
  simp only [show ¬ k = (length + 511) / 512 from hk, if_false]
  refine (Exact.ensure (Q := fun _ => True) fun _ => trivial).bind fun _ _ => ?_
  rw [sectorAt]
  cases hn : fat.nthCluster (k / fat.bpb.sectorsPerCluster) file.cluster with
  | none =>
    obtain ⟨f, hf⟩ := (skipClusters_exact h).faults (by rw [hn]; simp)
    exact fault_bind hf (by simp)
  | some c =>
    obtain ⟨⟨c', fat1⟩, hskip, hc', hkept⟩ := (skipClusters_exact h).returns (by rw [hn]; rfl)
    obtain rfl : c = c' := Option.some.inj (hn.symm.trans hc')
    have hstart : fat1.startSector = fat.startSector := hkept.toSamePartition.startSector_eq
    refine ok_bind hskip ?_
    cases hs : fat.startSector c with
    | none =>
      obtain ⟨f, hf⟩ : ∃ f, fat1.getStartSectorOfCluster c = .error (.fault f) :=
        getStartSectorOfCluster_exact.faults (by rw [hstart, hs]; simp)
      exact fault_bind hf (by simp [hs])
    | some s =>
      have hok : fat1.getStartSectorOfCluster c = .ok s :=
        toOption_eq_some.1 ((congrFun hstart c).trans hs)
      refine ok_bind hok ?_
      obtain ⟨x, hx⟩ : ∃ x, x = s + k % 0x100000000 % fat.bpb.sectorsPerCluster := ⟨_, rfl⟩
      have hread : Exact (u32 x >>= fun sector => fat1.diskRead sector 1 b)
          (x < fat.disk.partitionLength) fun r => x < fat.disk.partitionLength ∧
            r.1 = marked true (fat.disk.sectors x 1) ∧ Kept fat r.2 := by
        refine (u32_exact.bind (q := x < fat.disk.partitionLength) fun m hm => ?_).congr ?_
          fun _ _ hr => hr
        · subst hm
          refine (diskRead_exact hkept.cached).congr ?_ ?_
          · rw [hkept.disk]
            omega
          · rintro r hlt ⟨-, hbytes, hkept'⟩
            refine ⟨hlt, ?_, hkept.trans hkept'⟩
            rw [hbytes, hkept.disk, drop_eq_nil_of_le (by omega), append_nil]
        · have hlimit := fat.disk.length_lt
          omega
      simp only [Option.bind_some, hs, ← hx]
      rw [← bind_assoc]
      refine (hread.bind (q := True) fun r hr => ?_).congr ?_ fun _ _ hr => hr
      · obtain ⟨hlt, hbytes, hkept'⟩ := hr
        exact Exact.pure ⟨x, if_pos hlt, rfl, hbytes, hkept'⟩
      · split <;> simp_all

end Fioxa.Fs.FAT
