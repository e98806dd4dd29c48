import Mathlib.Data.List.Basic
import Mathlib.Tactic.SplitIfs
import Fioxa.Fs.View

/-! # Reading directories

What is listed of the entries of a directory is a list of names and entries (`named`). Reading the
directory makes an id for each of them, one after the other, and under each name the listing has the
last one (`lastNamed`). Which entries these are is a matter of the partition alone (`walk`). -/

namespace Fioxa.Fs

open Faults List Option Function

/-! ## What is listed -/

namespace DirectoryEntry

/-- There are no more entries after this one. -/
def isLast (e : DirectoryEntry) : Bool := e.first = 0

end DirectoryEntry

/-- An entry with its name. -/
abbrev NamedEntry := Name × DirectoryEntry

/-- The entries that are listed, with the part of a long name that comes before them. -/
def named : List DirectoryEntry → Name → List NamedEntry
  | [], _ => []
  | e :: rest, lfnBuf =>
    if e.isLast then []
    else if e.first = 0xE5 then named rest lfnBuf
    else if e.attributes = 0x0F then named rest (e.longNamePart ++ lfnBuf)
    else if isDots (e.nameWith lfnBuf) then named rest []
    else (e.nameWith lfnBuf, e) :: named rest []

/-- The part of a long name at the end. -/
def lfnAfter : List DirectoryEntry → Name → Name
  | [], lfnBuf => lfnBuf
  | e :: rest, lfnBuf =>
    if e.isLast then lfnBuf
    else if e.first = 0xE5 then lfnAfter rest lfnBuf
    else if e.attributes = 0x0F then lfnAfter rest (e.longNamePart ++ lfnBuf)
    else lfnAfter rest []

variable {es es' : List DirectoryEntry} {lfn : Name} {l l' : List NamedEntry} {id k : Nat}
  {entries : Listing} {files : Nat → Option FATFile} {name : Name}

theorem named_append (h : es.any DirectoryEntry.isLast = false) :
    named (es ++ es') lfn = named es lfn ++ named es' (lfnAfter es lfn) := by
  induction es generalizing lfn with
  | nil => rfl
  | cons e rest ih =>
    obtain ⟨hlast, hrest⟩ := Bool.or_eq_false_iff.1 h
    simp only [cons_append, named, lfnAfter, hlast, Bool.false_eq_true, if_false]
    split
    · exact ih hrest
    · split
      · exact ih hrest
      · split
        · exact ih hrest
        · rw [ih hrest, cons_append]

theorem named_append_of_last (hlast : es.any DirectoryEntry.isLast = true) :
    named (es ++ es') lfn = named es lfn := by
  induction es generalizing lfn with
  | nil => cases hlast
  | cons e es ih =>
    rw [cons_append, named, named]
    cases he : e.isLast with
    | true => simp
    | false =>
      rw [any_cons, he, Bool.false_or] at hlast
      simp only [ih hlast]

/-! ## The ids -/

/-- The names with the ids that are made for them. -/
def addNames : List NamedEntry → Nat → Listing → Listing
  | [], _, entries => entries
  | (name, _) :: rest, id, entries =>
    addNames rest (id + 1) (Function.update entries name (some id))

/-- The files with the ids that are made for them. -/
def addFiles : List NamedEntry → Nat → (Nat → Option FATFile) → Nat → Option FATFile
  | [], _, files => files
  | (_, e) :: rest, id, files =>
    addFiles rest (id + 1) (Function.update files id (some (FAT.fileOf e)))

/-- The last entry of a name, with its position. -/
def lastNamed : List NamedEntry → Name → Option (Nat × DirectoryEntry)
  | [], _ => none
  | (name', e) :: rest, name =>
    match lastNamed rest name with
    | some (i, e') => some (i + 1, e')
    | none => if name' = name then some (0, e) else none

theorem addNames_append : addNames (l ++ l') id entries
    = addNames l' (id + l.length) (addNames l id entries) := by
  induction l generalizing id entries with
  | nil => rfl
  | cons x l ih =>
    rw [cons_append, addNames, addNames, ih, length_cons]
    congr 1
    omega

theorem addFiles_append : addFiles (l ++ l') id files
    = addFiles l' (id + l.length) (addFiles l id files) := by
  induction l generalizing id files with
  | nil => rfl
  | cons x l ih =>
    rw [cons_append, addFiles, addFiles, ih, length_cons]
    congr 1
    omega

theorem addNames_eq : addNames l id entries name
    = ((lastNamed l name).map fun r => id + r.1).or (entries name) := by
  induction l generalizing id entries with
  | nil => rfl
  | cons x l ih =>
    rw [addNames, ih, lastNamed]
    cases lastNamed l name with
    | some =>
      simp only [map_some, some_or]
      congr 1
      omega
    | none =>
      by_cases hx : x.1 = name
      · subst hx
        simp
      · simp [hx, update_of_ne (Ne.symm hx)]

theorem addFiles_of_lt (h : k < id) : addFiles l id files k = files k := by
  induction l generalizing id files with
  | nil => rfl
  | cons x l ih => rw [addFiles, ih (by omega), update_of_ne (by omega)]

theorem addFiles_of_le (h : id + l.length ≤ k) : addFiles l id files k = files k := by
  induction l generalizing id files with
  | nil => rfl
  | cons x l ih =>
    rw [length_cons] at h
    rw [addFiles, ih (by omega), update_of_ne (by omega)]

theorem addFiles_getElem {i : Nat} {x : NamedEntry} (h : l[i]? = some x) :
    addFiles l id files (id + i) = some (FAT.fileOf x.2) := by
  induction l generalizing id files i with
  | nil => simp at h
  | cons y l ih =>
    cases i with
    | zero =>
      obtain rfl : y = x := by simpa using h
      rw [addFiles, addFiles_of_lt (by omega)]
      exact update_self ..
    | succ i =>
      rw [addFiles, show id + (i + 1) = id + 1 + i by omega]
      exact ih (by simpa using h)

theorem getElem_of_lastNamed {i : Nat} {e : DirectoryEntry} (h : lastNamed l name = some (i, e)) :
    l[i]? = some (name, e) := by
  induction l generalizing i e with
  | nil => cases h
  | cons x l ih =>
    rw [lastNamed] at h
    cases hl : lastNamed l name with
    | some =>
      rw [hl] at h
      cases h
      exact ih hl
    | none =>
      simp only [hl] at h
      split_ifs at h with heq
      cases h
      subst heq
      rfl

theorem lastNamed_eq_none : lastNamed l name = none ↔ ∀ x ∈ l, x.1 ≠ name := by
  induction l with
  | nil => simp [lastNamed]
  | cons x l ih =>
    rw [lastNamed, forall_mem_cons, ← ih]
    cases lastNamed l name with
    | some => simp
    | none => simp

namespace FAT

variable {fat fat' fat'' : FAT}

/-- The state after the entries have been parsed: an id for each entry that is listed. -/
def mint (fat : FAT) (l : List NamedEntry) (trusted : Bool) : FAT :=
  { fat with
    fileIdLookup := addFiles l fat.nextFileId fat.fileIdLookup
    nextFileId := fat.nextFileId + l.length
    trusted := trusted }

/-- The entries that are looked at are those up to the last one. -/
def seenGood : List DirectoryEntry → Bool
  | [] => true
  | e :: rest => e.good && (e.isLast || seenGood rest)

theorem parseEntries_eq : parseEntries es entries lfn fat
    = (es.any DirectoryEntry.isLast, addNames (named es lfn) fat.nextFileId entries,
      lfnAfter es lfn, fat.mint (named es lfn) (fat.trusted && seenGood es)) := by
  induction es generalizing entries lfn fat with
  | nil => simp [parseEntries, named, lfnAfter, addNames, mint, addFiles, seenGood]
  | cons e rest ih =>
    by_cases hlast : e.first = 0
    · simp [parseEntries, named, lfnAfter, addNames, mint, addFiles, seenGood,
        DirectoryEntry.isLast, hlast]
    · have hisLast : e.isLast = false := by simp [DirectoryEntry.isLast, hlast]
      simp only [parseEntries, named, lfnAfter, hlast, hisLast, if_false, Bool.false_eq_true,
        any_cons, Bool.false_or, seenGood, ← Bool.and_assoc]
      split_ifs
      · rw [ih]
        rfl
      · rw [ih]
        rfl
      · rw [ih]
        rfl
      · rw [ih, addNames, mint, mint, addFiles, length_cons,
          Nat.add_comm (named rest []).length, Nat.add_assoc]

/-! ## The entries of a directory -/

/-- The entries in consecutive sectors. -/
def sectorEntries (fat : FAT) (s n : Nat) : List DirectoryEntry :=
  directoryEntries (marked true (fat.disk.sectors s n)) (16 * n)

/-- The files with ids are those of before and those of the entries that are listed. -/
structure Minted (fat : FAT) (l : List NamedEntry) (fat' : FAT) : Prop
    extends SamePartition fat fat' where
  fileIdLookup : fat'.fileIdLookup = addFiles l fat.nextFileId fat.fileIdLookup
  nextFileId : fat'.nextFileId = fat.nextFileId + l.length
  cached : fat'.Cached

theorem Minted.trans (h : Minted fat l fat') (h' : Minted fat' l' fat'') :
    Minted fat (l ++ l') fat'' where
  toSamePartition := h.toSamePartition.trans h'.toSamePartition
  fileIdLookup := by
    rw [h'.fileIdLookup, h.fileIdLookup, h.nextFileId, addFiles_append]
  nextFileId := by
    rw [h'.nextFileId, h.nextFileId, length_append, Nat.add_assoc]
  cached := h'.cached

theorem Kept.minted (h : Kept fat fat') : Minted fat [] fat' :=
  ⟨h.toSamePartition, h.fileIdLookup, h.nextFileId, h.cached⟩

/-- The entries `es` have been parsed, after the long name `lfn` and the listing `entries`. -/
structure Parsed.Of (p : Parsed) (fat : FAT) (es : List DirectoryEntry) (entries : Listing)
    (lfn : Name) : Prop where
  last : p.last = es.any DirectoryEntry.isLast
  entries : p.entries = addNames (named es lfn) fat.nextFileId entries
  lfnBuf : p.lfnBuf = lfnAfter es lfn
  minted : Minted fat (named es lfn) p.fat

variable {b : List Cell}

theorem parseSectors_exact (h : fat.Cached) {s n : Nat} (hb : b.length = 512 * n)
    (entries : Listing) (lfn : Name) :
    Exact (fat.parseSectors s n b entries lfn) (s + n ≤ fat.disk.partitionLength ∧ n ≤ 56)
      fun p => p.Of fat (fat.sectorEntries s n) entries lfn ∧ p.buffer.length = 512 * n := by
  have hread : Exact (fat.diskRead s n b) (s + n ≤ fat.disk.partitionLength ∧ n ≤ 56)
      fun r => r.1 = marked true (fat.disk.sectors s n) ∧ Kept fat r.2 := by
    refine (diskRead_exact h).congr (by omega) ?_
    rintro r - ⟨-, hbytes, hkept⟩
    rw [drop_eq_nil_of_le (by omega), append_nil] at hbytes
    exact ⟨hbytes, hkept⟩
  refine (hread.bind (q := True) fun r hr => ?_).congr (and_iff_left trivial) fun _ _ hp => hp
  obtain ⟨b1, fat1⟩ := r
  obtain ⟨rfl, hkept⟩ := hr
  refine Exact.pure ?_
  simp only [parseEntries_eq]
  refine ⟨⟨rfl, ?_, rfl, ?_⟩, by simp⟩
  · rw [show fat1.nextFileId = fat.nextFileId from hkept.nextFileId]
    rfl
  · exact hkept.minted.trans
      ⟨⟨⟨rfl, rfl, rfl⟩, rfl⟩, rfl, rfl, hkept.cached.reliable, hkept.cached.chain⟩

/-! ### The root directory of FAT16 -/

/-- The entries of the root directory in the sectors, if they are in the partition up to the last
    entry. -/
def rootEntries (fat : FAT) : List Nat → Option (List DirectoryEntry)
  | [] => some []
  | s :: rest =>
    if s < fat.disk.partitionLength then
      if (fat.sectorEntries s 1).any DirectoryEntry.isLast then some (fat.sectorEntries s 1)
      else (fat.rootEntries rest).map (fat.sectorEntries s 1 ++ ·)
    else none

/-- The directory with the entries `es` has been read. -/
structure ReadTo (r : Listing × FAT) (fat : FAT) (es : List DirectoryEntry) (entries : Listing)
    (lfn : Name) : Prop where
  entries : r.1 = addNames (named es lfn) fat.nextFileId entries
  minted : Minted fat (named es lfn) r.2

variable {p : Parsed}

theorem Parsed.Of.readTo (h : p.Of fat es entries lfn) :
    ReadTo (p.entries, p.fat) fat es entries lfn :=
  ⟨h.entries, h.minted⟩

theorem Parsed.Of.append {r : Listing × FAT} (h : p.Of fat es entries lfn)
    (hlast : es.any DirectoryEntry.isLast = false) (hkept : Kept p.fat fat')
    (hr : ReadTo r fat' es' p.entries p.lfnBuf) : ReadTo r fat (es ++ es') entries lfn where
  entries := by
    rw [hr.entries, h.entries, h.lfnBuf, hkept.nextFileId, h.minted.nextFileId, named_append hlast,
      addNames_append]
  minted := by
    rw [named_append hlast, ← h.lfnBuf]
    exact h.minted.trans (hkept.minted.trans hr.minted)

theorem SameVolume.sectorEntries_eq (h : SameVolume fat fat') :
    fat'.sectorEntries = fat.sectorEntries := by
  funext s n
  rw [sectorEntries, sectorEntries, h.disk]

theorem SameVolume.rootEntries_eq (h : SameVolume fat fat') (sectors : List Nat) :
    fat'.rootEntries sectors = fat.rootEntries sectors := by
  induction sectors with
  | nil => rfl
  | cons s rest ih => rw [rootEntries, rootEntries, h.sectorEntries_eq, h.disk, ih]

theorem readRootSectors_exact {sectors : List Nat} (h : fat.Cached) (hb : b.length = 512) :
    Exact (readRootSectors sectors b entries lfn fat) (fat.rootEntries sectors).isSome fun r =>
        ∃ es, fat.rootEntries sectors = some es ∧ ReadTo r fat es entries lfn := by
  induction sectors generalizing b entries lfn fat with
  | nil =>
    exact (Exact.pure ⟨[], rfl, rfl, (Kept.refl h).minted⟩).congr (iff_of_true trivial rfl)
      fun _ _ hr => hr
  | cons s rest ih =>
    rw [readRootSectors, rootEntries]
    have hparse := parseSectors_exact h (s := s) (n := 1) (b := b) (by omega) entries lfn
    by_cases hfit : s < fat.disk.partitionLength
    · obtain ⟨p, hok, hp, hlen⟩ := hparse.returns ⟨hfit, by decide⟩
      refine Exact.ok_bind hok ?_
      simp only [hfit, if_true, hp.last]
      cases hlast : (fat.sectorEntries s 1).any DirectoryEntry.isLast with
      | true =>
        exact (Exact.pure ⟨_, rfl, hp.readTo⟩).congr (iff_of_true trivial rfl) fun _ _ hr => hr
      | false =>
        simp only [Bool.false_eq_true, if_false, isSome_map]
        have hrest : Exact (readRootSectors rest p.buffer p.entries p.lfnBuf p.fat) _ _ :=
          ih hp.minted.cached hlen
        rw [hp.minted.toSamePartition.rootEntries_eq] at hrest
        refine hrest.congr Iff.rfl ?_
        rintro r - ⟨es, hes, hr⟩
        exact ⟨_, by rw [hes]; rfl, hp.append hlast (.refl hp.minted.cached) hr⟩
    · obtain ⟨f, hf⟩ := hparse.faults fun hcond => hfit hcond.1
      simp only [hfit, if_false]
      exact Exact.fault_bind hf (by simp)

/-! ### Directories in clusters -/

/-- The entries of the directory in the clusters from `c` on, if reading it comes to an end. -/
def walk (fat : FAT) : Nat → Nat → Option (List DirectoryEntry)
  | 0, _ => none
  | fuel + 1, c =>
    if c = 0 then some []
    else
      match fat.startSector c with
      | none => none
      | some s =>
        let es := fat.sectorEntries s fat.bpb.sectorsPerCluster
        if s + fat.bpb.sectorsPerCluster ≤ fat.disk.partitionLength ∧
            fat.bpb.sectorsPerCluster ≤ 56 then
          if es.any DirectoryEntry.isLast then some es
          else (fat.walk fuel (fat.link c)).map (es ++ ·)
        else none

theorem SameVolume.startSector_eq (h : SameVolume fat fat') :
    fat'.startSector = fat.startSector := by
  obtain ⟨hbpb, hebr, hdisk⟩ := h
  cases fat
  cases fat'
  simp only at hbpb hebr hdisk
  subst hbpb hebr hdisk
  rfl

theorem SameVolume.link_eq (h : SameVolume fat fat') : fat'.link = fat.link := by
  funext c
  rw [link, link, fatEntry, fatEntry, fatBufOffset, fatBufOffset, fatSize, fatSize, h.ebr, h.bpb,
    h.disk]

variable {c : Nat}

theorem SameVolume.hasLink_iff (h : SameVolume fat fat') : fat'.HasLink c ↔ fat.HasLink c := by
  rw [HasLink, HasLink, fatBufOffset, fatBufOffset, fatSize, fatSize, h.ebr, h.bpb, h.disk]

theorem SameVolume.walk_eq (h : SameVolume fat fat') (fuel c : Nat) :
    fat'.walk fuel c = fat.walk fuel c := by
  induction fuel generalizing c with
  | zero => rfl
  | succ fuel ih =>
    rw [walk, walk, h.startSector_eq, h.link_eq, h.sectorEntries_eq, h.bpb, h.disk, ih]

theorem Parsed.Of.next {s : Nat} (h : p.Of fat es entries lfn) (hs : fat.startSector c = some s)
    (hlt : s < fat.disk.partitionLength) :
    ∃ fat', p.fat.getNextCluster c = .ok (fat.link c, fat') ∧ Kept p.fat fat' := by
  have hsame := h.minted.toSamePartition
  obtain ⟨⟨next, fat'⟩, hok, hnext, hkept⟩ := (getNextCluster_exact h.minted.cached).returns
    (hsame.hasLink_iff.2 (hasLink_of_lt hs hlt))
  obtain rfl : next = fat.link c := hnext.trans (congrFun hsame.link_eq c)
  exact ⟨fat', hok, hkept⟩

variable {fuel : Nat}

theorem readClusters_exact (h : fat.Cached) (hb : b.length = 512 * fat.bpb.sectorsPerCluster) :
    Exact (readClusters fuel c b entries lfn fat) (fat.walk fuel c).isSome fun r =>
      ∃ es, fat.walk fuel c = some es ∧ ReadTo r fat es entries lfn := by
  induction fuel generalizing c b entries lfn fat with
  | zero =>
    refine ⟨fun hsome => ?_, fun _ => ⟨_, rfl⟩⟩
    cases hsome
  | succ fuel ih =>
    rw [readClusters, walk]
    by_cases hc : c = 0
    · simp only [hc, if_true]
      exact (Exact.pure ⟨[], rfl, rfl, (Kept.refl h).minted⟩).congr
        (iff_of_true trivial rfl) fun _ _ hr => hr
    simp only [hc, if_false]
    cases hs : fat.startSector c with
    | none =>
      obtain ⟨f, hf⟩ := getStartSectorOfCluster_exact.faults (by rw [hs]; simp)
      exact Exact.fault_bind hf (by simp)
    | some s =>
      refine Exact.ok_bind (toOption_eq_some.1 hs) ?_
      have hparse := parseSectors_exact h (s := s) hb entries lfn
      by_cases hfit : s + fat.bpb.sectorsPerCluster ≤ fat.disk.partitionLength ∧
          fat.bpb.sectorsPerCluster ≤ 56
      · obtain ⟨p, hok, hp, hlen⟩ := hparse.returns hfit
        refine Exact.ok_bind hok ?_
        simp only [hfit, and_self, if_true, hp.last]
        cases hlast : (fat.sectorEntries s fat.bpb.sectorsPerCluster).any DirectoryEntry.isLast with
        | true =>
          exact (Exact.pure ⟨_, rfl, hp.readTo⟩).congr (iff_of_true trivial rfl) fun _ _ hr => hr
        | false =>
          simp only [Bool.false_eq_true, if_false, isSome_map]
          have hpos := fat.sectorsPerCluster_pos
          obtain ⟨fat1, hok1, hkept⟩ := hp.next hs (by omega)
          refine Exact.ok_bind hok1 ?_
          have hsame := hp.minted.toSamePartition.trans hkept.toSamePartition
          have hrest : Exact (readClusters fuel (fat.link c) p.buffer p.entries p.lfnBuf fat1)
              _ _ := ih hkept.cached (by rw [hlen, hsame.bpb])
          rw [hsame.walk_eq] at hrest
          refine hrest.congr Iff.rfl ?_
          rintro r - ⟨es, hes, hr⟩
          exact ⟨_, by rw [hes]; rfl, hp.append hlast hkept hr⟩
      · obtain ⟨f, hf⟩ := hparse.faults hfit
        simp only [hfit, if_false]
        exact Exact.fault_bind hf (by simp)

theorem readDirectory_exact (h : fat.Cached) (fuel c : Nat) :
    Exact (fat.readDirectory fuel c) (fat.walk fuel c).isSome fun r =>
      ∃ es, fat.walk fuel c = some es ∧ ReadTo r fat es noEntries [] :=
  readClusters_exact h (by rw [length_blank, Nat.mul_comm])

theorem walk_succ_eq_some : fat.walk (fuel + 1) c = some es ↔
    c = 0 ∧ es = [] ∨ c ≠ 0 ∧ ∃ s, fat.startSector c = some s ∧
      (s + fat.bpb.sectorsPerCluster ≤ fat.disk.partitionLength ∧ fat.bpb.sectorsPerCluster ≤ 56) ∧
      ((fat.sectorEntries s fat.bpb.sectorsPerCluster).any DirectoryEntry.isLast = true ∧
          es = fat.sectorEntries s fat.bpb.sectorsPerCluster ∨
        (fat.sectorEntries s fat.bpb.sectorsPerCluster).any DirectoryEntry.isLast = false ∧
          ∃ es', fat.walk fuel (fat.link c) = some es' ∧
            es = fat.sectorEntries s fat.bpb.sectorsPerCluster ++ es') := by
  rw [walk]
  by_cases hc : c = 0
  · rw [if_pos hc, some_inj, and_iff_right hc, eq_comm (a := es)]
    exact (or_iff_left fun h => h.1 hc).symm
  · rw [if_neg hc]
    cases hs : fat.startSector c with
    | none => simp [hc]
    | some s =>
      generalize fat.sectorEntries = entries
      simp only [hc, false_and, false_or, ne_eq, not_false_eq_true, true_and, Option.some.injEq,
        exists_eq_left']
      by_cases hfit : s + fat.bpb.sectorsPerCluster ≤ fat.disk.partitionLength ∧
          fat.bpb.sectorsPerCluster ≤ 56
      · simp only [hfit, and_self, if_true, true_and]
        cases (entries s fat.bpb.sectorsPerCluster).any DirectoryEntry.isLast with
        | true => simp [eq_comm]
        | false => simp [map_eq_some_iff, @eq_comm _ es]
      · simp [hfit]

theorem walk_mono {fuel' : Nat} (hle : fuel ≤ fuel') (h : fat.walk fuel c = some es) :
    fat.walk fuel' c = some es := by
  induction fuel generalizing fuel' c es with
  | zero => cases h
  | succ fuel ih =>
    obtain ⟨fuel', rfl⟩ : ∃ k, fuel' = k + 1 := ⟨fuel' - 1, by omega⟩
    rw [walk_succ_eq_some] at h ⊢
    refine h.imp_right fun ⟨hc, s, hs, hfit, hes⟩ => ⟨hc, s, hs, hfit, hes.imp_right ?_⟩
    rintro ⟨hlast, es', hes', rfl⟩
    exact ⟨hlast, es', ih (by omega) hes', rfl⟩

/-- The directory in the clusters from `c` on has the entries `es`. -/
def Walks (fat : FAT) (c : Nat) (es : List DirectoryEntry) : Prop :=
  ∃ fuel, fat.walk fuel c = some es

theorem Walks.unique (h : fat.Walks c es) (h' : fat.Walks c es') : es = es' := by
  obtain ⟨fuel, hes⟩ := h
  obtain ⟨fuel', hes'⟩ := h'
  have hmax := walk_mono (Nat.le_max_left fuel fuel') hes
  rw [walk_mono (Nat.le_max_right fuel fuel') hes'] at hmax
  exact (Option.some.inj hmax).symm

end FAT

end Fioxa.Fs
