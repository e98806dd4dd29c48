import Fioxa.Fs.CorruptImages
import Fioxa.Fs.FileCalls

/-! # The calls to the disk for directories

The loop of `read_directory` ends at an entry that says it is the last one, or at cluster 0. The
mark at the end of a chain is not cluster 0, so if no entry is the last one, the mark is taken for
the number of a cluster. -/

namespace Fioxa.Fs.FAT

open Faults List Option

open Traced
open DirectoryEntry (isLast)

variable {fat fat' : FAT} {c d s n fuel : Nat} {b : List Cell} {entries : Listing} {lfn : Name}
  {es es' : List DirectoryEntry} {cs : List Nat}

/-! ## The clusters that are read -/

/-- The clusters whose sectors `read_directory` asks for, from `c` on. -/
def visits (fat : FAT) : Nat → Nat → List Nat
  | 0, _ => []
  | fuel + 1, c =>
    if c = 0 then []
    else
      match fat.startSector c with
      | none => []
      | some s =>
        c :: if (s + fat.bpb.sectorsPerCluster ≤ fat.disk.partitionLength ∧
            fat.bpb.sectorsPerCluster ≤ 56) ∧
            (fat.sectorEntries s fat.bpb.sectorsPerCluster).any isLast = false
          then fat.visits fuel (fat.link c)
          else []

theorem SameVolume.visits_eq (h : SameVolume fat fat') (fuel c : Nat) :
    fat'.visits fuel c = fat.visits fuel c := by
  induction fuel generalizing c with
  | zero => rfl
  | succ fuel ih =>
    rw [visits, visits, h.startSector_eq, h.link_eq, h.sectorEntries_eq, h.bpb, h.disk, ih]

/-- The call is for the sectors of one of the clusters. -/
def ForCluster (fat : FAT) (cs : List Nat) (call : Call) : Prop :=
  ∃ c ∈ cs, ∃ s, fat.startSector c = some s ∧ call = ⟨s, fat.bpb.sectorsPerCluster,
    512 * fat.bpb.sectorsPerCluster⟩

/-- The call is for the entry of one of the clusters in the file allocation table. -/
def ForEntry (fat : FAT) (cs : List Nat) (call : Call) : Prop :=
  ∃ c ∈ cs, call = ⟨fat.fatBufOffset c, 1, 512⟩

theorem getNextCluster_calls : All (ForEntry fat [c]) (fat.getNextCluster (m := Watched) c) := by
  refine all_bind.2 ⟨?_, fun _ _ => all_pure _⟩
  unfold fatBuffer
  split
  · exact all_pure _
  · refine all_bind.2 ⟨fun call hcall => ?_, fun _ _ => all_pure _⟩
    obtain rfl := mem_singleton.1 hcall
    exact ⟨c, mem_singleton_self c, by rw [length_blank]⟩

variable {call : Call}

theorem SameVolume.forCluster_iff (h : SameVolume fat fat') :
    ForCluster fat' cs call ↔ ForCluster fat cs call := by
  rw [ForCluster, ForCluster, h.startSector_eq, h.bpb]

theorem SameVolume.forEntry_iff (h : SameVolume fat fat') :
    ForEntry fat' cs call ↔ ForEntry fat cs call := by
  simp only [ForEntry, fatBufOffset, fatSize, h.ebr, h.bpb]

theorem mem_visits_self (hc : c ≠ 0) (hs : fat.startSector c = some s) :
    c ∈ fat.visits (fuel + 1) c := by
  rw [visits, if_neg hc, hs]
  exact mem_cons_self

theorem readClusters_calls (h : fat.Cached) (hb : b.length = 512 * fat.bpb.sectorsPerCluster) :
    All (fun call => ForCluster fat (fat.visits fuel c) call ∨
        ForEntry fat (fat.visits fuel c) call)
      (readClusters (m := Watched) fuel c b entries lfn fat) := by
  induction fuel generalizing c b entries lfn fat with
  | zero => exact all_fail _
  | succ fuel ih =>
    rw [readClusters]
    split
    · exact all_pure _
    · rename_i hc
      refine Watched.all_step_bind.2 fun s hs => ?_
      have hstart : fat.startSector c = some s := toOption_eq_some.2 hs
      have hmem : c ∈ fat.visits (fuel + 1) c := mem_visits_self hc hstart
      refine all_bind.2 ⟨all_bind.2 ⟨fun call hcall => ?_, fun _ _ => all_pure _⟩, fun p hp => ?_⟩
      · obtain rfl := mem_singleton.1 hcall
        exact .inl ⟨c, hmem, s, hstart, by rw [hb]⟩
      · rw [Watched.result_parseSectors] at hp
        obtain ⟨hfit, hparsed, hlen⟩ := (parseSectors_exact h hb entries lfn).of_ok hp
        have hvolume := hparsed.minted.toSamePartition.toSameVolume
        split
        · exact all_pure _
        · rename_i hlast
          rw [hparsed.last, Bool.not_eq_true] at hlast
          refine all_bind.2 ⟨fun call hcall => ?_, fun r hnext => ?_⟩
          · obtain ⟨d, hd, heq⟩ := hvolume.forEntry_iff.1 (getNextCluster_calls call hcall)
            obtain rfl := mem_singleton.1 hd
            exact .inr ⟨d, hmem, heq⟩
          · obtain ⟨next, fat1⟩ := r
            rw [Watched.result_getNextCluster] at hnext
            have hpos := fat.sectorsPerCluster_pos
            obtain ⟨fat2, hnext', hkept⟩ := hparsed.next hstart (by omega)
            obtain ⟨rfl, rfl⟩ := Prod.mk.inj (Except.ok.inj (hnext'.symm.trans hnext))
            have hsame : SameVolume fat fat2 :=
              (hparsed.minted.toSamePartition.trans hkept.toSamePartition).toSameVolume
            have hvisits : fat.visits (fuel + 1) c = c :: fat.visits fuel (fat.link c) := by
              rw [visits, if_neg hc, hstart]
              exact congrArg (c :: ·) (if_pos ⟨hfit, hlast⟩)
            rw [hvisits]
            intro call hcall
            have hone := ih hkept.cached (by rw [hlen, hsame.bpb]) call hcall
            dsimp only at hone
            rw [hsame.forCluster_iff, hsame.forEntry_iff, hsame.visits_eq] at hone
            refine hone.imp ?_ ?_
            · rintro ⟨d, hd, hcall⟩
              exact ⟨d, .tail c hd, hcall⟩
            · rintro ⟨d, hd, hcall⟩
              exact ⟨d, .tail c hd, hcall⟩

theorem exists_call_of_visits (h : fat.Cached) (hb : b.length = 512 * fat.bpb.sectorsPerCluster)
    (hd : d ∈ fat.visits fuel c) :
    ∃ call ∈ (readClusters (m := Watched) fuel c b entries lfn fat).trace,
      ForCluster fat [d] call := by
  induction fuel generalizing c b entries lfn fat with
  | zero => cases hd
  | succ fuel ih =>
    rw [visits] at hd
    split at hd
    · cases hd
    · rename_i hc
      cases hs : fat.startSector c with
      | none =>
        rw [hs] at hd
        cases hd
      | some s =>
        have hstart : fat.getStartSectorOfCluster c = .ok s := toOption_eq_some.1 hs
        simp only [hs] at hd
        rw [readClusters, if_neg hc, trace_bind (Watched.result_step.trans hstart)]
        rcases mem_cons.1 hd with rfl | hd
        · refine ⟨⟨s, fat.bpb.sectorsPerCluster, b.length⟩, ?_, d, mem_singleton_self d, s,
            hs, by rw [hb]⟩
          exact mem_append_right _ (mem_trace_bind (mem_trace_bind (mem_singleton_self _)))
        · split at hd
          · rename_i hcond
            have hpos := fat.sectorsPerCluster_pos
            obtain ⟨p, hp, hparsed, hlen⟩ :=
              (parseSectors_exact h hb entries lfn).returns hcond.1
            obtain ⟨fat1, hnext, hkept⟩ := hparsed.next hs (by omega)
            have hsame : SameVolume fat fat1 :=
              (hparsed.minted.toSamePartition.trans hkept.toSamePartition).toSameVolume
            have hrest : ∃ call ∈ (readClusters (m := Watched) fuel (fat.link c) p.buffer p.entries
                p.lfnBuf fat1).trace, ForCluster fat1 [d] call :=
              ih hkept.cached (by rw [hlen, hsame.bpb]) (by rw [hsame.visits_eq]; exact hd)
            obtain ⟨call, hcall, hfor⟩ := hrest
            refine ⟨call, ?_, hsame.forCluster_iff.1 hfor⟩
            rw [trace_bind (Watched.result_parseSectors.trans hp), hparsed.last, hcond.2,
              if_neg Bool.false_ne_true,
              trace_bind (Watched.result_getNextCluster.trans hnext)]
            exact mem_append_right _ (mem_append_right _ (mem_append_right _ hcall))
          · cases hd

/-! ## Chains -/

/-- Entries from this one on mark the end of a chain. -/
def endMark (fat : FAT) : Nat :=
  match fat.ebr with
  | .fat16 => 0xFFF8
  | .fat32 .. => 0x0FFFFFF8

def IsEnd (fat : FAT) (m : Nat) : Prop := fat.endMark ≤ m ∧ m ≤ fat.endMark + 7

/-- The sector is one of a file allocation table. -/
def InFat (fat : FAT) (x : Nat) : Prop :=
  fat.bpb.reservedSectors ≤ x ∧ x < fat.bpb.reservedSectors + fat.fatSectors * fat.bpb.fatCopies

/-- The cluster is in the partition, and it has an entry. -/
structure ValidCluster (fat : FAT) (c : Nat) : Prop where
  fits : fat.Fits c
  entry : fat.InFat (fat.fatBufOffset c)
  lt : c < fat.endMark

/-- The chain from `c` on has the clusters `cs`. -/
inductive DirectoryChain (fat : FAT) : Nat → List Nat → Prop where
  | last {c : Nat} (hc : fat.ValidCluster c) (hend : fat.IsEnd (fat.link c)) :
      DirectoryChain fat c [c]
  | next {c : Nat} {cs : List Nat} (hc : fat.ValidCluster c)
      (h : DirectoryChain fat (fat.link c) cs) : DirectoryChain fat c (c :: cs)

/-- The directory entries of a cluster. -/
def clusterEntries (fat : FAT) (c : Nat) : List DirectoryEntry :=
  match fat.startSector c with
  | some s => fat.sectorEntries s fat.bpb.sectorsPerCluster
  | none => []

def chainEntries (fat : FAT) (cs : List Nat) : List DirectoryEntry := cs.flatMap fat.clusterEntries

theorem DirectoryChain.valid (h : fat.DirectoryChain c cs) : ∀ d ∈ cs, fat.ValidCluster d := by
  induction h with
  | last hc => simpa using hc
  | next hc _ ih => exact forall_mem_cons.2 ⟨hc, ih⟩

theorem ValidCluster.ne_zero (h : fat.ValidCluster c) : c ≠ 0 := by
  obtain ⟨s, hs, -⟩ := h.fits
  have hle := (startSector_eq_some.1 hs).1
  omega

theorem ValidCluster.visits_succ (h : fat.ValidCluster c) : fat.visits (fuel + 1) c
    = c :: if fat.bpb.sectorsPerCluster ≤ 56 ∧
        (fat.clusterEntries c).any isLast = false
      then fat.visits fuel (fat.link c) else [] := by
  obtain ⟨s, hs, hfit⟩ := h.fits
  rw [visits, if_neg h.ne_zero, clusterEntries, hs]
  simp only [hfit, true_and]

theorem exists_of_walk (h : fat.walk fuel c = some es) : ∃ k, fuel = k + 1 := by
  cases fuel with
  | zero => cases h
  | succ k => exact ⟨k, rfl⟩

theorem ValidCluster.walk_succ (h : fat.ValidCluster c) : fat.walk (fuel + 1) c = some es ↔
    fat.bpb.sectorsPerCluster ≤ 56 ∧
      ((fat.clusterEntries c).any isLast = true ∧ es = fat.clusterEntries c ∨
        (fat.clusterEntries c).any isLast = false ∧
          ∃ es', fat.walk fuel (fat.link c) = some es' ∧ es = fat.clusterEntries c ++ es') := by
  obtain ⟨s, hs, hfit⟩ := h.fits
  have hentries : fat.clusterEntries c = fat.sectorEntries s fat.bpb.sectorsPerCluster := by
    rw [clusterEntries, hs]
  rw [walk_succ_eq_some, hentries]
  constructor
  · rintro (⟨hzero, -⟩ | ⟨-, s', hs', hcond, hes⟩)
    · exact absurd hzero h.ne_zero
    · obtain rfl := Option.some.inj (hs.symm.trans hs')
      exact ⟨hcond.2, hes⟩
  · rintro ⟨hspc, hes⟩
    exact .inr ⟨h.ne_zero, s, hs, ⟨hfit, hspc⟩, hes⟩

theorem chainEntries_cons :
    fat.chainEntries (c :: cs) = fat.clusterEntries c ++ fat.chainEntries cs := rfl

theorem chainEntries_singleton : fat.chainEntries [c] = fat.clusterEntries c := by
  rw [chainEntries_cons, chainEntries, flatMap_nil, append_nil]

theorem DirectoryChain.walk (h : fat.DirectoryChain c cs) (hspc : fat.bpb.sectorsPerCluster ≤ 56)
    (hlast : (fat.chainEntries cs).any isLast = true) :
    ∃ es, fat.walk cs.length c = some es ∧
      ∀ lfn, named es lfn = named (fat.chainEntries cs) lfn := by
  induction h with
  | last hc =>
    rw [chainEntries_singleton] at hlast ⊢
    exact ⟨_, hc.walk_succ.2 ⟨hspc, .inl ⟨hlast, rfl⟩⟩, fun _ => rfl⟩
  | @next c cs hc hchain ih =>
    rw [chainEntries_cons] at hlast ⊢
    cases hfirst : (fat.clusterEntries c).any isLast with
    | true =>
      exact ⟨_, hc.walk_succ.2 ⟨hspc, .inl ⟨hfirst, rfl⟩⟩,
        fun _ => (named_append_of_last hfirst).symm⟩
    | false =>
      rw [any_append, hfirst] at hlast
      obtain ⟨es, hes, hnamed⟩ := ih hlast
      refine ⟨_, hc.walk_succ.2 ⟨hspc, .inr ⟨hfirst, es, hes, rfl⟩⟩, fun lfn => ?_⟩
      rw [named_append hfirst, named_append hfirst, hnamed]

theorem DirectoryChain.visits_subset (h : fat.DirectoryChain c cs)
    (hlast : (fat.chainEntries cs).any isLast = true) :
    ∀ d ∈ fat.visits fuel c, d ∈ cs := by
  induction h generalizing fuel with
  | @last c hc =>
    rw [chainEntries_singleton] at hlast
    intro d hd
    cases fuel with
    | zero => cases hd
    | succ =>
      rw [hc.visits_succ, hlast, if_neg (by simp)] at hd
      exact hd
  | @next c cs hc hchain ih =>
    intro d hd
    cases fuel with
    | zero => cases hd
    | succ =>
      rw [hc.visits_succ] at hd
      rcases mem_cons.1 hd with rfl | hd
      · exact mem_cons_self
      · split at hd
        · rename_i hcond
          rw [chainEntries_cons, any_append, hcond.2] at hlast
          exact .tail c (ih hlast d hd)
        · cases hd

theorem DirectoryChain.visits_end (h : fat.DirectoryChain c cs)
    (hlast : (fat.chainEntries cs).any isLast = false)
    (hwalk : fat.walk fuel c = some es) : ∃ m, fat.IsEnd m ∧ m ∈ fat.visits fuel c := by
  induction h generalizing fuel es with
  | @last c hc hend =>
    rw [chainEntries_singleton] at hlast
    obtain ⟨fuel, rfl⟩ := exists_of_walk hwalk
    obtain ⟨hspc, ⟨hfirst, -⟩ | ⟨-, es', hes', -⟩⟩ := hc.walk_succ.1 hwalk
    · rw [hlast] at hfirst
      cases hfirst
    · have hne : fat.link c ≠ 0 := by
        intro hzero
        rw [hzero] at hend
        have hle := hend.1
        unfold endMark at hle
        cases hebr : fat.ebr <;> simp [hebr] at hle
      obtain ⟨fuel, rfl⟩ := exists_of_walk hes'
      rcases walk_succ_eq_some.1 hes' with ⟨hzero, -⟩ | ⟨-, s, hs, -⟩
      · exact absurd hzero hne
      · refine ⟨fat.link c, hend, ?_⟩
        rw [hc.visits_succ, if_pos ⟨hspc, hlast⟩]
        exact .tail c (mem_visits_self hne hs)
  | @next c cs hc hchain ih =>
    rw [chainEntries_cons, any_append] at hlast
    obtain ⟨hfirst, hrest⟩ := Bool.or_eq_false_iff.1 hlast
    obtain ⟨fuel, rfl⟩ := exists_of_walk hwalk
    obtain ⟨hspc, ⟨hfirst', -⟩ | ⟨-, es', hes', -⟩⟩ := hc.walk_succ.1 hwalk
    · rw [hfirst] at hfirst'
      cases hfirst'
    · obtain ⟨m, hend, hm⟩ := ih hrest hes'
      refine ⟨m, hend, ?_⟩
      rw [hc.visits_succ, if_pos ⟨hspc, hfirst⟩]
      exact .tail c hm

/-! ## What is read of a chain -/

/-- The call asks only for sectors of the clusters and of the file allocation table. -/
def WithinChain (fat : FAT) (cs : List Nat) (call : Call) : Prop :=
  ∀ x ∈ range' call.sector call.count, (∃ c ∈ cs, x ∈ fat.clusterSectors c) ∨ fat.InFat x

/-- The directory with the clusters `cs` is read: reading it comes to an end, the disk is asked for
    nothing else, and the names are those of its entries. -/
def ReadsChain (fat : FAT) (c : Nat) (cs : List Nat) : Prop :=
  ∃ fuel listing fat', fat.readDirectory fuel c = .ok (listing, fat') ∧
    (∀ call ∈ (fat.readDirectory (m := Watched) fuel c).trace, fat.WithinChain cs call) ∧
    ∀ name, (listing name).isSome = true ↔ ∃ e, (name, e) ∈ named (fat.chainEntries cs) []

theorem withinChain_of_visits (hvalid : ∀ d ∈ cs, fat.ValidCluster d)
    (h : ForCluster fat cs call ∨ ForEntry fat cs call) : fat.WithinChain cs call := by
  intro x hx
  rcases h with ⟨d, hd, s, hs, rfl⟩ | ⟨d, hd, rfl⟩
  · refine .inl ⟨d, hd, ?_⟩
    rw [clusterSectors, hs]
    exact hx
  · obtain rfl : x = fat.fatBufOffset d := by
      have hrange := mem_range'_1.1 hx
      dsimp only at hrange
      omega
    exact .inr (hvalid d hd).entry

theorem not_withinChain_end {m : Nat} (hvalid : ∀ d ∈ cs, fat.ValidCluster d) (hm : fat.IsEnd m)
    (h : ForCluster fat [m] call) : ¬ fat.WithinChain cs call := by
  intro hwithin
  obtain ⟨m', hm', s, hs, rfl⟩ := h
  obtain rfl := mem_singleton.1 hm'
  have hpos := fat.sectorsPerCluster_pos
  obtain ⟨hle, -, first, hfirst, rfl⟩ := startSector_eq_some.1 hs
  rcases hwithin _ (mem_range'_1.2 ⟨Nat.le_refl _, by dsimp only; omega⟩) with
    ⟨d, hd, hx⟩ | ⟨-, hx⟩
  · obtain ⟨s, hs', -⟩ := (hvalid d hd).fits
    rw [clusterSectors, hs', mem_range'_1] at hx
    obtain ⟨hd', -, first', hfirst', rfl⟩ := startSector_eq_some.1 hs'
    obtain rfl := Option.some.inj (hfirst.symm.trans hfirst')
    have hlt : d < m' := Nat.lt_of_lt_of_le (hvalid d hd).lt hm.1
    have hmul : (d - 2 + 1) * fat.bpb.sectorsPerCluster ≤ (m' - 2) * fat.bpb.sectorsPerCluster :=
      Nat.mul_le_mul_right _ (by omega)
    rw [Nat.succ_mul] at hmul
    dsimp only at hx
    omega
  · have hle := (dataStart_bounds hfirst).1
    dsimp only at hx
    omega

/-- A directory is read as its chain says exactly if its clusters can be read at once and it has a
    last entry. -/
theorem readsChain_iff (h : fat.Cached) (hchain : fat.DirectoryChain c cs) : fat.ReadsChain c cs ↔
    fat.bpb.sectorsPerCluster ≤ 56 ∧ (fat.chainEntries cs).any isLast = true := by
  constructor
  · rintro ⟨fuel, listing, fat', hok, hcalls, -⟩
    obtain ⟨hsome, -⟩ := (readDirectory_exact h fuel c).of_ok hok
    obtain ⟨es, hes⟩ := isSome_iff_exists.1 hsome
    have hvalid := hchain.valid
    refine ⟨?_, ?_⟩
    · obtain ⟨fuel, rfl⟩ := exists_of_walk hes
      cases hchain with
      | last hc | next hc => exact (hc.walk_succ.1 hes).1
    · by_contra hlast
      obtain ⟨m, hend, hm⟩ := hchain.visits_end (Bool.not_eq_true _ ▸ hlast) hes
      obtain ⟨call, hcall, hfor⟩ := exists_call_of_visits (b := blank (512 * _)) h length_blank hm
      exact not_withinChain_end hvalid hend hfor (hcalls call hcall)
  · rintro ⟨hspc, hlast⟩
    obtain ⟨es, hes, hnamed⟩ := hchain.walk hspc hlast
    obtain ⟨⟨listing, fat'⟩, hok, es', hes', hread⟩ := (readDirectory_exact h cs.length c).returns
      (by rw [hes]; rfl)
    obtain rfl := Option.some.inj (hes.symm.trans hes')
    refine ⟨cs.length, listing, fat', hok, fun call hcall => ?_, fun name => ?_⟩
    · refine withinChain_of_visits hchain.valid ?_
      refine (readClusters_calls h length_blank call hcall).imp ?_ ?_
      · rintro ⟨d, hd, hfor⟩
        exact ⟨d, hchain.visits_subset hlast d hd, hfor⟩
      · rintro ⟨d, hd, hfor⟩
        exact ⟨d, hchain.visits_subset hlast d hd, hfor⟩
    · rw [show listing = _ from hread.entries, addNames_eq, ← hnamed]
      cases hl : lastNamed (named es []) name with
      | none =>
        have hnone := lastNamed_eq_none.1 hl
        simp only [map_none, none_or, noEntries, isSome_none, Bool.false_eq_true, false_iff]
        rintro ⟨e, he⟩
        exact hnone _ he rfl
      | some r =>
        exact iff_of_true rfl ⟨r.2, mem_of_getElem? (getElem_of_lastNamed hl)⟩

/-- Where clusters 4, 5 and 6 of the corrupt image are, with the links of their chains. In cluster 4
    there is no last entry; clusters 5 and 6 have 17 files before the last one. -/
theorem corruptFat_clusters :
    (corruptFat.bpb.sectorsPerCluster = 1 ∧ corruptFat.disk.partitionLength = 5000 ∧
      corruptFat.endMark = 0xFFF8 ∧ corruptFat.bpb.reservedSectors = 1 ∧
      corruptFat.fatSectors * corruptFat.bpb.fatCopies = 20) ∧
    (corruptFat.startSector 5 = some 25 ∧ corruptFat.fatBufOffset 5 = 1 ∧ corruptFat.link 5 = 6 ∧
      corruptFat.startSector 6 = some 26 ∧ corruptFat.fatBufOffset 6 = 1 ∧
      corruptFat.link 6 = 0xFFFF ∧ (corruptFat.chainEntries [5, 6]).any isLast = true ∧
      (named (corruptFat.chainEntries [5, 6]) []).length = 17) ∧
    corruptFat.startSector 4 = some 24 ∧ corruptFat.fatBufOffset 4 = 1 ∧
    corruptFat.link 4 = 0xFFFF ∧ (corruptFat.clusterEntries 4).any isLast = false ∧
    corruptFat.startSector 0xFFFF = some 65555 := by
  decide +kernel

theorem corruptFat_chain_many : corruptFat.DirectoryChain 5 [5, 6] := by
  obtain ⟨⟨hspc, hlength, hmark, hreserved, hfats⟩,
    ⟨hs, hoffset, hlink, hs', hoffset', hlink', -⟩, -⟩ := corruptFat_clusters
  refine .next ⟨⟨25, hs, by omega⟩, by rw [InFat]; omega, by omega⟩ ?_
  rw [hlink]
  exact .last ⟨⟨26, hs', by omega⟩, by rw [InFat]; omega, by omega⟩ (by rw [IsEnd]; omega)

theorem corruptFat_reads_many : corruptFat.DirectoryChain 5 [5, 6] ∧
    (named (corruptFat.chainEntries [5, 6]) []).length = 17 ∧ corruptFat.ReadsChain 5 [5, 6] := by
  obtain ⟨⟨hspc, -⟩, ⟨-, -, -, -, -, -, hlast, hnames⟩, -⟩ := corruptFat_clusters
  exact ⟨corruptFat_chain_many, hnames,
    (readsChain_iff (corruptFat_mounted.ready fun _ => rfl).toCached corruptFat_chain_many).2
      ⟨by omega, hlast⟩⟩

/-- A directory whose entries fill its only cluster is not read: its end is taken for cluster
    0xFFFF. -/
theorem corruptFat_fails_four : corruptFat.DirectoryChain 4 [4] ∧
    ¬ corruptFat.ReadsChain 4 [4] := by
  obtain ⟨⟨hspc, hlength, hmark, hreserved, hfats⟩, -, hs, hoffset, hlink, hlast, hend⟩ :=
    corruptFat_clusters
  have hvalid : corruptFat.ValidCluster 4 := by
    refine ⟨⟨24, hs, by omega⟩, ?_, by omega⟩
    rw [InFat]
    omega
  refine ⟨.last hvalid (by rw [IsEnd]; omega), ?_⟩
  rintro ⟨fuel, listing, fat', hok, -⟩
  obtain ⟨-, es, hes, -⟩ := (readDirectory_exact
    (corruptFat_mounted.ready fun _ => rfl).toCached fuel 4).of_ok hok
  obtain ⟨fuel, rfl⟩ := exists_of_walk hes
  obtain ⟨-, ⟨hfirst, -⟩ | ⟨-, es', hes', -⟩⟩ := hvalid.walk_succ.1 hes
  · rw [hlast] at hfirst
    cases hfirst
  · rw [hlink] at hes'
    obtain ⟨fuel, rfl⟩ := exists_of_walk hes'
    rcases walk_succ_eq_some.1 hes' with ⟨hzero, -⟩ | ⟨-, s, hs', ⟨hfit, -⟩, -⟩
    · cases hzero
    · obtain rfl := Option.some.inj (hend.symm.trans hs')
      omega

end Fioxa.Fs.FAT
