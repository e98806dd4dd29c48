import Fioxa.Fs.DiskErrors
import Mathlib.Data.List.Perm.Subperm

/-! # Looking up files

`get_file_by_id` reads a folder whose entries are not known and makes new ids for them. The entries
are meant to be kept, but the file that is written back is the one that was there before. So each
look at such a folder makes new ids. Only the root, whose entries are kept when it is mounted, is
always listed with the same ids. -/

namespace Fioxa.Fs.FAT

open Faults List Option

variable {fat fat₁ fat₂ fat₃ fat' : FAT} {fuel id k : Nat} {disk : FSPartitionDisk} {file : FATFile}
  {l : List NamedEntry} {g g' : Prop} {root : Listing} {r : VFile × FAT}

/-! ## Paths -/

/-- `path.split('/')`, without the empty sections. -/
def sections (path : Name) : List Name := (path.splitOn '/').filter (· ≠ [])

/-- The loop of `get_file_from_path`. -/
def followPath (fuel : Nat) : List Name → VFile → FAT → Run (VFile × FAT)
  | [], file, fat => .ok (file, fat)
  | sect :: rest, file, fat =>
    match file.specialized with
    | .file _ => .error (.err .couldNotFollowPath)
    | .folder folder => do
        let id ← unwrap (folder sect) (.err .couldNotFollowPath)
        let (file, fat) ← fat.getFileById fuel id.2
        followPath fuel rest file fat

/-- The entries of a folder are on its own partition. -/
def getFileFromPath (fuel : Nat) (fat : FAT) (path : Name) : Run (VFile × FAT) := do
  let (file, fat) ← fat.getFileById fuel 0
  followPath fuel (sections path) file fat

/-! ## Later states -/

/-- Requests have been served in between, and other partitions have been used. -/
inductive Later (fat : FAT) : FAT → Prop where
  | refl : Later fat fat
  | request {fuel : Nat} {fat₁ fat₂ : FAT} {answer : List Cell} (req : Request) (h : Later fat fat₁)
      (hok : fat₁.serve fuel req = .ok (answer, fat₂)) : Later fat fat₂
  | elsewhere {fat₁ : FAT} (ids reads : Nat) (h : Later fat fat₁) :
      Later fat (fat₁.elsewhere ids reads)

/-- The root is known, and the folders in it are not. -/
structure Indexed (fat : FAT) (listing : Listing) : Prop where
  numbered : fat.Numbered
  pos : 0 < fat.nextFileId
  root : ∃ file, fat.fileIdLookup 0 = some file ∧ file.entryType = .folder (some listing)
  root_pos : ∀ name id, listing name = some id → 0 < id
  unread : ∀ id file children, 0 < id → fat.fileIdLookup id = some file →
    file.entryType ≠ .folder (some children)

/-- Ids are not taken back. -/
structure Grown (fat fat' : FAT) : Prop extends SamePartition fat fat' where
  nextFileId : fat.nextFileId ≤ fat'.nextFileId
  lookup : ∀ id file, fat.fileIdLookup id = some file → fat'.fileIdLookup id = some file

theorem Grown.refl (fat : FAT) : Grown fat fat := ⟨.refl fat, Nat.le_refl _, fun _ _ h => h⟩

theorem Grown.trans (h : Grown fat fat₁) (h' : Grown fat₁ fat₂) : Grown fat fat₂ :=
  ⟨h.toSamePartition.trans h'.toSamePartition, Nat.le_trans h.nextFileId h'.nextFileId,
    fun id file hfile => h'.lookup id file (h.lookup id file hfile)⟩

theorem Used.grown (h : Used fat g l fat' g') (hnum : fat.Numbered) : Grown fat fat' where
  toSamePartition := h.toSamePartition
  nextFileId := by
    rw [h.nextFileId]
    omega
  lookup id file hfile := by rw [h.fileIdLookup, addFiles_of_lt (hnum.lt hfile), hfile]

theorem fileOf_ne_known {e : DirectoryEntry} {children : Listing} :
    (fileOf e).entryType ≠ .folder (some children) := by
  unfold fileOf
  split <;> intro heq <;> cases heq

theorem Used.indexed (h : Used fat g l fat' g') (hindexed : fat.Indexed root) :
    fat'.Indexed root where
  numbered := h.numbered hindexed.numbered
  pos := Nat.lt_of_lt_of_le hindexed.pos (h.grown hindexed.numbered).nextFileId
  root := by
    obtain ⟨file, hfile, htype⟩ := hindexed.root
    exact ⟨file, (h.grown hindexed.numbered).lookup 0 file hfile, htype⟩
  root_pos := hindexed.root_pos
  unread id file children hid hfile := by
    rw [h.fileIdLookup] at hfile
    rcases addFiles_eq_some hfile with hfile | ⟨x, -, rfl⟩
    · exact hindexed.unread id file children hid hfile
    · exact fileOf_ne_known

theorem Indexed.elsewhere (h : fat.Indexed root) (ids reads : Nat) :
    (fat.elsewhere ids reads).Indexed root where
  numbered id hid := h.numbered id (Nat.le_trans (Nat.le_add_right _ _) hid)
  pos := Nat.lt_of_lt_of_le h.pos (Nat.le_add_right _ _)
  root := h.root
  root_pos := h.root_pos
  unread := h.unread

theorem Later.indexed (h : Later fat fat') (hindexed : fat.Indexed root) :
    fat'.Indexed root ∧ Grown fat fat' := by
  induction h with
  | refl => exact ⟨hindexed, .refl fat⟩
  | request req _ hok ih =>
    obtain ⟨hindexed1, hgrown⟩ := ih
    obtain ⟨⟨l, g', hused⟩, -⟩ := serve_used hindexed1.numbered hok
    exact ⟨hused.indexed hindexed1, hgrown.trans (hused.grown hindexed1.numbered)⟩
  | elsewhere ids reads _ ih =>
    obtain ⟨hindexed1, hgrown⟩ := ih
    exact ⟨hindexed1.elsewhere ids reads,
      hgrown.trans ⟨⟨⟨rfl, rfl, rfl⟩, rfl⟩, Nat.le_add_right _ _, fun _ _ h => h⟩⟩

variable {n : Nat}

theorem pos_of_addNames {name : Name} (hpos : 0 < n) (h : addNames l n noEntries name = some id) :
    0 < id := by
  rw [addNames_eq, noEntries, or_none] at h
  obtain ⟨x, -, rfl⟩ := map_eq_some_iff.1 h
  omega

theorem Mounted.indexed (h : Mounted disk fat) : ∃ root, fat.Indexed root := by
  induction h with
  | mount hpos hok =>
    obtain ⟨bpb, ebr, hspc, hroot⟩ := enumerateRoot_of_readBiosBlock hok
    obtain ⟨l, fat₁, hused, rfl⟩ := enumerateRoot_eq_ok hroot
    have hnext := hused.nextFileId
    have hfirst : 0 < fat₁.nextFileId := by
      rw [hnext]
      exact Nat.lt_of_lt_of_le hpos (Nat.le_add_right _ _)
    refine ⟨_, (enumerateRoot_used (fun _ => rfl) hpos hroot).1, hfirst, ⟨_, withRoot_zero, rfl⟩,
      fun _ _ => pos_of_addNames hpos, fun id file children hid hfile => ?_⟩
    rw [withRoot_of_ne (by omega), hused.fileIdLookup] at hfile
    rcases addFiles_eq_some hfile with hfile | ⟨x, -, rfl⟩
    · cases hfile
    · exact fileOf_ne_known
  | request req _ hok ih =>
    obtain ⟨root, hindexed⟩ := ih
    obtain ⟨⟨l, g', hused⟩, -⟩ := serve_used hindexed.numbered hok
    exact ⟨root, hused.indexed hindexed⟩
  | elsewhere ids reads _ ih =>
    obtain ⟨root, hindexed⟩ := ih
    exact ⟨root, hindexed.elsewhere ids reads⟩

theorem Later.mounted (hlater : Later fat fat') (h : Mounted disk fat) : Mounted disk fat' := by
  induction hlater with
  | refl => exact h
  | request req _ hok ih => exact ih.request req hok
  | elsewhere ids reads _ ih => exact ih.elsewhere ids reads

theorem Later.look (hlater : Later fat fat₁) (hok : fat₁.getFileById fuel id = .ok r) :
    Later fat r.2 :=
  hlater.request (.getFileById id) (bind_eq_ok.2 ⟨r, hok, rfl⟩)

/-! ## Looking at a file again -/

/-- A later look at the file returns the same, and makes no new ids. -/
def Stable (fat : FAT) (id : Nat) (vfile : VFile) : Prop :=
  ∀ fat₁, Later fat fat₁ → ∃ fuel fat₂, fat₁.getFileById fuel id = .ok (vfile, fat₂) ∧
    fat₂.fileIdLookup = fat₁.fileIdLookup

theorem addFiles_eq_self (hnum : fat.Numbered)
    (h : addFiles l fat.nextFileId fat.fileIdLookup = fat.fileIdLookup) : l = [] := by
  cases l with
  | nil => rfl
  | cons x l =>
    have hfirst : addFiles (x :: l) fat.nextFileId fat.fileIdLookup (fat.nextFileId + 0)
        = some (fileOf x.2) := addFiles_getElem rfl
    rw [h, hnum _ (Nat.le_add_right _ _)] at hfirst
    cases hfirst

theorem Grown.folder_eq (h : Grown fat fat') (children : Listing) :
    fat'.folder id children = fat.folder id children := by
  simp only [folder, h.partitionId]

theorem getFileById_known (hgrown : Grown fat fat') (hfile : fat.fileIdLookup id = some file)
    (htype : file.entryType ≠ .folder none) (hok : fat.getFileById fuel id = .ok r) :
    fat'.getFileById fuel id = .ok (r.1, fat') := by
  cases getFileById_found hok with
  | file hfile htype => rw [getFileById_eq_file (hgrown.lookup _ _ hfile) htype, hgrown.partitionId]
  | cached hfile htype =>
    rw [getFileById_eq_cached (hgrown.lookup _ _ hfile) htype, hgrown.folder_eq]
  | unread hfile' htype' =>
    obtain rfl := Option.some.inj (hfile.symm.trans hfile')
    exact absurd htype' htype

section

variable {es : List DirectoryEntry} (hfile : fat.fileIdLookup id = some file)
  (htype : file.entryType = .folder none)
include hfile htype

/-- What a look at a folder to be read returns, and which files it makes. -/
theorem getFileById_walks (h : fat.Ready) (hok : fat.getFileById fuel id = .ok r) :
    ∃ es, fat.Walks file.cluster es ∧
      r.1 = fat.folder id (addNames (named es []) fat.nextFileId noEntries) ∧
      r.2.fileIdLookup = addFiles (named es []) fat.nextFileId fat.fileIdLookup := by
  obtain ⟨-, es, hes, hr, hminted⟩ := (getFileById_exact h hfile htype).of_ok hok
  refine ⟨es, ⟨fuel, hes⟩, ?_, hminted.fileIdLookup⟩
  rw [hr]
  simp only [folder, hminted.partitionId]

theorem getFileById_returns (h : fat.Ready) (hes : fat.Walks file.cluster es) :
    ∃ fuel r, fat.getFileById fuel id = .ok r ∧
      r.1 = fat.folder id (addNames (named es []) fat.nextFileId noEntries) ∧
      r.2.fileIdLookup = addFiles (named es []) fat.nextFileId fat.fileIdLookup := by
  obtain ⟨fuel, hwalk⟩ := hes
  obtain ⟨r, hok, -⟩ := (getFileById_exact h hfile htype).returns (by rw [hwalk]; rfl)
  obtain ⟨es', hes', hr, hfiles⟩ := getFileById_walks hfile htype h hok
  obtain rfl := Walks.unique ⟨fuel, hwalk⟩ hes'
  exact ⟨fuel, r, hok, hr, hfiles⟩

end

theorem Grown.walks_iff {es : List DirectoryEntry} {c : Nat} (h : Grown fat fat') :
    fat'.Walks c es ↔ fat.Walks c es := by
  simp only [Walks, h.walk_eq]

/-- The directory in the clusters from `c` on has no entry that is listed. -/
def Vacant (fat : FAT) (c : Nat) : Prop := ∃ es, fat.Walks c es ∧ named es [] = []

theorem Mounted.stable_iff (h : Mounted disk fat) (hdisk : disk.Reliable)
    (hfile : fat.fileIdLookup id = some file) (hok : fat.getFileById fuel id = .ok r) :
    r.2.Stable id r.1 ↔ file.entryType ≠ .folder none ∨ fat.Vacant file.cluster := by
  obtain ⟨root, hindexed⟩ := h.indexed
  have hlater : ∀ fat₁, Later r.2 fat₁ → fat₁.Ready ∧ Grown fat fat₁ := by
    intro fat₁ hl
    have hr : Later fat r.2 := Later.refl.look hok
    obtain ⟨hindexed', hgrown⟩ := hr.indexed hindexed
    exact ⟨(hl.mounted (hr.mounted h)).ready hdisk, hgrown.trans (hl.indexed hindexed').2⟩
  by_cases htype : file.entryType = .folder none
  · simp only [htype, ne_eq, not_true, false_or]
    constructor
    · intro hstable
      obtain ⟨hready, hgrown⟩ := hlater r.2 .refl
      obtain ⟨fuel', fat₂, hok', hsame⟩ := hstable r.2 .refl
      obtain ⟨es, hes, -, hfiles⟩ :=
        getFileById_walks (hgrown.lookup id file hfile) htype hready hok'
      rw [hsame] at hfiles
      exact ⟨es, hgrown.walks_iff.1 hes, addFiles_eq_self hready.numbered hfiles.symm⟩
    · rintro ⟨es, hes, hnone⟩ fat₁ hl
      obtain ⟨es', hes', hr, -⟩ := getFileById_walks hfile htype (h.ready hdisk) hok
      obtain rfl := hes.unique hes'
      obtain ⟨hready, hgrown⟩ := hlater fat₁ hl
      obtain ⟨fuel', q, hq, hq1, hfiles⟩ :=
        getFileById_returns (hgrown.lookup id file hfile) htype hready (hgrown.walks_iff.2 hes)
      rw [hnone] at hr hq1 hfiles
      refine ⟨fuel', q.2, ?_, hfiles⟩
      rw [hq, hr, ← hgrown.folder_eq]
      exact congrArg (fun v => Except.ok (v, q.2)) hq1
  · simp only [htype, ne_eq, not_false_eq_true, true_or, iff_true]
    intro fat₁ hl
    exact ⟨fuel, fat₁, getFileById_known (hlater fat₁ hl).2 hfile htype hok, rfl⟩

/-! ## The size of the table -/

/-- There are files with these ids. -/
structure Files (fat : FAT) (ids : List Nat) : Prop where
  nodup : ids.Nodup
  found : ∀ id ∈ ids, (fat.fileIdLookup id).isSome

/-- Each look at a folder in which something is listed makes another file. -/
theorem Mounted.files_grow {es : List DirectoryEntry} (h : Mounted disk fat)
    (hdisk : disk.Reliable) (hfile : fat.fileIdLookup id = some file)
    (htype : file.entryType = .folder none) (hes : fat.Walks file.cluster es)
    (hsome : named es [] ≠ []) (n : Nat) :
    ∃ fat₁ ids, Later fat fat₁ ∧ fat₁.Files ids ∧ ids.length = n := by
  obtain ⟨root, hindexed⟩ := h.indexed
  induction n with
  | zero => exact ⟨fat, [], .refl, ⟨.nil, by simp⟩, rfl⟩
  | succ n ih =>
    obtain ⟨fat₁, ids, hl, hids, hlen⟩ := ih
    have hgrown := (hl.indexed hindexed).2
    have hready := (hl.mounted h).ready hdisk
    obtain ⟨fuel, q, hq, -, hfiles⟩ :=
      getFileById_returns (hgrown.lookup id file hfile) htype hready (hgrown.walks_iff.2 hes)
    obtain ⟨x, l, hl'⟩ := exists_cons_of_ne_nil hsome
    have hnew : q.2.fileIdLookup fat₁.nextFileId = some (fileOf x.2) := by
      rw [hfiles, hl', ← Nat.add_zero fat₁.nextFileId]
      exact addFiles_getElem rfl
    have hlt : ∀ i ∈ ids, i < fat₁.nextFileId := by
      intro i hi
      obtain ⟨file, hfile⟩ := isSome_iff_exists.1 (hids.found i hi)
      exact hready.numbered.lt hfile
    refine ⟨q.2, fat₁.nextFileId :: ids, hl.look hq, ⟨?_, fun i hi => ?_⟩, by simp [hlen]⟩
    · exact nodup_cons.2 ⟨fun hmem => Nat.lt_irrefl _ (hlt _ hmem), hids.nodup⟩
    · rcases mem_cons.1 hi with rfl | hi
      · rw [hnew]
        rfl
      · rw [hfiles, addFiles_of_lt (hlt i hi)]
        exact hids.found i hi

theorem serve_files {req : Request} {answer : List Cell}
    (hok : fat.serve fuel req = .ok (answer, fat')) :
    fat'.fileIdLookup = fat.fileIdLookup ∨
      ∃ id r, fat.getFileById fuel id = .ok r ∧ r.2 = fat' := by
  cases req with
  | getFileById id =>
    obtain ⟨r, hr, hok⟩ := bind_eq_ok.1 hok
    cases hok
    exact .inr ⟨id, r, hr, rfl⟩
  | readFile => exact .inl (readFile_used (g := True) hok).fileIdLookup
  | readFileSector id sector buffer =>
    obtain ⟨r, hr, hok⟩ := bind_eq_ok.1 hok
    cases hok
    rcases readFileSector_used (g := True) buffer.2 hr with rfl | ⟨m, fat₁, bytes, -, hused, rfl⟩
    · exact .inl rfl
    · exact .inl (hused.trans (counted_used fat₁ _)).fileIdLookup

/-- Nothing is listed in the folders to be read. -/
def Flat (fat : FAT) : Prop :=
  ∀ id file es, fat.fileIdLookup id = some file → file.entryType = .folder none →
    fat.Walks file.cluster es → named es [] = []

theorem Mounted.files_eq (h : Mounted disk fat) (hdisk : disk.Reliable) (hflat : fat.Flat)
    (hl : Later fat fat₁) : fat₁.fileIdLookup = fat.fileIdLookup := by
  obtain ⟨root, hindexed⟩ := h.indexed
  induction hl with
  | refl => rfl
  | elsewhere ids reads _ ih => exact ih
  | request req hl hok ih =>
    rcases serve_files hok with hfiles | ⟨id, r, hr, rfl⟩
    · exact hfiles.trans ih
    · cases getFileById_found hr with
      | file | cached => exact ih
      | unread hfile htype =>
        obtain ⟨es, hes, -, hfiles⟩ :=
          getFileById_walks hfile htype ((hl.mounted h).ready hdisk) hr
        rw [ih] at hfile
        have hes := (hl.indexed hindexed).2.walks_iff.1 hes
        rw [hfiles, hflat id _ es hfile htype hes]
        exact ih

theorem SameVolume.rootWalk_eq (h : SameVolume fat fat') :
    fat'.rootWalk fuel = fat.rootWalk fuel := by
  have hroot : fat'.rootDirSectors = fat.rootDirSectors := by
    rw [rootDirSectors, rootDirSectors, h.ebr, h.bpb]
  have hfirst : fat'.dataStart = fat.dataStart := by
    rw [dataStart, dataStart, firstDataSector, firstDataSector, hroot, h.ebr, h.bpb]
  simp only [rootWalk, h.ebr, h.walk_eq, h.rootEntries_eq, hroot, hfirst]

/-- Mounting makes a file for the root and for each entry that is listed there. -/
theorem Mounted.exists_mount (h : Mounted disk fat) (hdisk : disk.Reliable) :
    ∃ fuel es fat₀ n, fat.rootWalk fuel = some es ∧ Mounted disk fat₀ ∧ Later fat₀ fat ∧
      ∀ id, (fat₀.fileIdLookup id).isSome → id ∈ 0 :: range' n (named es []).length := by
  induction h with
  | @mount fuel partitionId reads n fat hpos hok =>
    obtain ⟨-, hspc, ebr, -, hroot⟩ := (readBiosBlock_eq_ok hdisk).1 hok
    obtain ⟨-, es, hes, hrooted⟩ := (enumerateRoot_exact (cached_unmounted hdisk) rfl).of_ok hroot
    refine ⟨fuel, es, fat, n, hrooted.rootWalk_eq.trans hes, .mount hpos hok, .refl, ?_⟩
    intro id hid
    by_contra hnot
    rw [mem_cons, mem_range'_1, not_or, not_and, Nat.not_lt] at hnot
    rw [hrooted.fileIdLookup id hnot.1] at hid
    change (addFiles (named es []) n (fun _ => none) id).isSome at hid
    rcases Nat.lt_or_ge id n with hlt | hge
    · rw [addFiles_of_lt hlt] at hid
      cases hid
    · rw [addFiles_of_le (hnot.2 hge)] at hid
      cases hid
  | request req h hok ih =>
    obtain ⟨fuel, es, fat₀, n, hes, h₀, hl, hids⟩ := ih
    obtain ⟨root, hindexed⟩ := h.indexed
    have hgrown := (Later.refl.request req hok).indexed hindexed
    exact ⟨fuel, es, fat₀, n, hgrown.2.rootWalk_eq.trans hes, h₀, hl.request req hok, hids⟩
  | elsewhere ids reads _ ih =>
    obtain ⟨fuel, es, fat₀, n, hes, h₀, hl, hids⟩ := ih
    refine ⟨fuel, es, fat₀, n, ?_, h₀, hl.elsewhere ids reads, hids⟩
    rw [← hes]
    exact SameVolume.rootWalk_eq ⟨rfl, rfl, rfl⟩

theorem Mounted.files_bounded_iff (h : Mounted disk fat) (hdisk : disk.Reliable) :
    ∃ fuel es, fat.rootWalk fuel = some es ∧
      ((∀ fat₁ ids, Later fat fat₁ → fat₁.Files ids → ids.length ≤ (named es []).length + 1) ↔
        fat.Flat) := by
  obtain ⟨fuel, es, fat₀, n, hes, h₀, hl₀, hmount⟩ := h.exists_mount hdisk
  refine ⟨fuel, es, hes, fun hbound id file es' hfile htype hes' => ?_, ?_⟩
  · by_contra hsome
    obtain ⟨fat₁, ids, hl, hids, hlen⟩ :=
      h.files_grow hdisk hfile htype hes' hsome ((named es []).length + 2)
    have hle := hbound fat₁ ids hl hids
    omega
  · intro hflat fat₁ ids hl hids
    obtain ⟨root, hindexed⟩ := h₀.indexed
    have hgrown := (hl₀.indexed hindexed).2
    -- no folder has been read into the table since the mount either
    have hflat₀ : fat₀.Flat := fun id file es' hfile htype hes' =>
      hflat id file es' (hgrown.lookup id file hfile) htype (hgrown.walks_iff.2 hes')
    have hsub : ids ⊆ 0 :: range' n (named es []).length := by
      intro i hi
      refine hmount i ?_
      rw [← h₀.files_eq hdisk hflat₀ hl₀, ← h.files_eq hdisk hflat hl]
      exact hids.found i hi
    simpa using (hids.nodup.subperm hsub).length_le

/-! ## Following a path again -/

/-- The entries of a folder have ids from `n` on. -/
def IdsFrom (n : Nat) (vfile : VFile) : Prop :=
  ∀ folder name x, vfile.specialized = .folder folder → folder name = some x → n ≤ x.2

theorem idsFrom_addNames : IdsFrom fat.nextFileId
    (fat.folder id (addNames l fat.nextFileId noEntries)) := by
  intro folder name x hfolder hx
  obtain rfl := VFileSpecialized.folder.inj hfolder
  obtain ⟨child, hchild, rfl⟩ := map_eq_some_iff.1 hx
  rw [addNames_eq, noEntries, or_none] at hchild
  obtain ⟨y, -, rfl⟩ := map_eq_some_iff.1 hchild
  exact Nat.le_add_right _ _

theorem getFileById_spec (hindexed : fat.Indexed root) (hok : fat.getFileById fuel id = .ok r) :
    r.1.location = (fat.partitionId, id) ∧ id < fat.nextFileId ∧
      (0 < id → IdsFrom fat.nextFileId r.1) := by
  cases getFileById_found hok with
  | file hfile htype =>
    refine ⟨rfl, hindexed.numbered.lt hfile, fun _ folder name x hfolder => ?_⟩
    cases hfolder
  | cached hfile htype =>
    exact ⟨rfl, hindexed.numbered.lt hfile,
      fun hid => absurd htype (hindexed.unread id _ _ hid hfile)⟩
  | unread hfile _ hread =>
    obtain ⟨l, hr, -⟩ := readDirectory_unread (g := True) hindexed.numbered hfile hread
    rw [hr]
    exact ⟨rfl, hindexed.numbered.lt hfile, fun _ => idsFrom_addNames⟩

theorem getFileById_indexed (hindexed : fat.Indexed root) (hok : fat.getFileById fuel id = .ok r) :
    r.2.Indexed root ∧ Grown fat r.2 := by
  obtain ⟨l, hused⟩ := getFileById_used (g := True) hindexed.numbered hok
  exact ⟨hused.indexed hindexed, hused.grown hindexed.numbered⟩

variable {vfile : VFile}

theorem followPath_cons_eq_ok {sect : Name} {rest : List Name} :
    followPath fuel (sect :: rest) vfile fat = .ok r ↔
      ∃ folder x q, vfile.specialized = .folder folder ∧ folder sect = some x ∧
        fat.getFileById fuel x.2 = .ok q ∧ followPath fuel rest q.1 q.2 = .ok r := by
  rw [followPath]
  cases hvfile : vfile.specialized with
  | file => simp
  | folder folder =>
    simp only [bind_eq_ok, unwrap_eq_ok, VFileSpecialized.folder.injEq]
    constructor
    · rintro ⟨x, hx, q, hq, hok⟩
      exact ⟨folder, x, q, rfl, hx, hq, hok⟩
    · rintro ⟨_, x, q, rfl, hx, hq, hok⟩
      exact ⟨x, hx, q, hq, hok⟩

section

variable (hindexed : fat.Indexed root)
include hindexed

theorem followPath_lt {path : List Name} (hvfile : vfile.location.2 < fat.nextFileId)
    (hok : followPath fuel path vfile fat = .ok r) :
    r.1.location.2 < r.2.nextFileId ∧ r.2.Indexed root ∧ Grown fat r.2 := by
  induction path generalizing vfile fat with
  | nil =>
    cases hok
    exact ⟨hvfile, hindexed, .refl fat⟩
  | cons sect rest ih =>
    obtain ⟨folder, x, q, -, -, hq, hok⟩ := followPath_cons_eq_ok.1 hok
    obtain ⟨hlocation, hlt, -⟩ := getFileById_spec hindexed hq
    obtain ⟨hindexed', hgrown⟩ := getFileById_indexed hindexed hq
    have hlt' : q.1.location.2 < q.2.nextFileId := by
      rw [hlocation]
      exact Nat.lt_of_lt_of_le hlt hgrown.nextFileId
    obtain ⟨hr, hindexedr, hgrownr⟩ := ih hindexed' hlt' hok
    exact ⟨hr, hindexedr, hgrown.trans hgrownr⟩

theorem followPath_le {path : List Name} (hpos : 0 < n) (hn : n ≤ fat.nextFileId)
    (hvfile : IdsFrom n vfile) (hne : path ≠ []) (hok : followPath fuel path vfile fat = .ok r) :
    n ≤ r.1.location.2 := by
  induction path generalizing vfile fat n with
  | nil => exact absurd rfl hne
  | cons sect rest ih =>
    obtain ⟨folder, x, q, hfolder, hx, hq, hok⟩ := followPath_cons_eq_ok.1 hok
    have hid : n ≤ x.2 := hvfile folder sect x hfolder hx
    obtain ⟨hlocation, -, hids⟩ := getFileById_spec hindexed hq
    cases rest with
    | nil =>
      cases hok
      rw [hlocation]
      exact hid
    | cons =>
      obtain ⟨hindexed', hgrown⟩ := getFileById_indexed hindexed hq
      exact Nat.le_trans hn (ih hindexed' hindexed.pos hgrown.nextFileId (hids (by omega))
        (cons_ne_nil _ _) hok)

theorem getFileById_root : fat.getFileById fuel 0 = .ok (fat.folder 0 root, fat) := by
  obtain ⟨file, hfile, htype⟩ := hindexed.root
  exact getFileById_eq_cached hfile htype

theorem getFileFromPath_eq (path : Name) :
    fat.getFileFromPath fuel path = followPath fuel (sections path) (fat.folder 0 root) fat := by
  rw [getFileFromPath, getFileById_root hindexed]
  rfl

/-- A path that is followed twice leads to the same id only if it ends in the root or right below
    it. -/
theorem location_eq_iff {fuel' : Nat} {path : Name} {f f' : VFile}
    (hok : fat.getFileFromPath fuel path = .ok (f, fat₁)) (hlater : Later fat₁ fat₂)
    (hok' : fat₂.getFileFromPath fuel' path = .ok (f', fat₃)) :
    f'.location = f.location ↔ (sections path).length ≤ 1 := by
  rw [getFileFromPath_eq hindexed] at hok
  obtain ⟨hlt, hindexed1, hgrown1⟩ := followPath_lt hindexed hindexed.pos hok
  obtain ⟨hindexed2, hgrown2⟩ := hlater.indexed hindexed1
  have hgrown := hgrown1.trans hgrown2
  rw [getFileFromPath_eq hindexed2] at hok'
  generalize sections path = sects at hok hok'
  cases sects with
  | nil =>
    cases hok
    cases hok'
    rw [hgrown.folder_eq]
    simp
  | cons sect rest =>
    obtain ⟨folder, x, q, hfolder, hx, hq, hok⟩ := followPath_cons_eq_ok.1 hok
    obtain ⟨folder', x', q', hfolder', hx', hq', hok'⟩ := followPath_cons_eq_ok.1 hok'
    have hsame : x' = x := by
      rw [hgrown.folder_eq] at hfolder'
      obtain rfl := VFileSpecialized.folder.inj (hfolder.symm.trans hfolder')
      exact Option.some.inj (hx'.symm.trans hx)
    subst hsame
    obtain ⟨hlocation, -, -⟩ := getFileById_spec hindexed hq
    obtain ⟨hlocation', -, hids⟩ := getFileById_spec hindexed2 hq'
    cases rest with
    | nil =>
      cases hok
      cases hok'
      rw [hlocation, hlocation', hgrown.partitionId]
      simp
    | cons =>
      have hroot : 0 < x'.2 := by
        obtain rfl := VFileSpecialized.folder.inj hfolder
        obtain ⟨id, hid, rfl⟩ := map_eq_some_iff.1 hx
        exact hindexed.root_pos sect id hid
      obtain ⟨hindexedq, hgrownq⟩ := getFileById_indexed hindexed2 hq'
      have hle := followPath_le hindexedq hindexed2.pos hgrownq.nextFileId (hids hroot)
        (cons_ne_nil _ _) hok'
      have hnext := hgrown2.nextFileId
      have hlt : f.location.2 < fat₁.nextFileId := hlt
      refine iff_of_false (fun heq => ?_) (by simp)
      rw [show f'.location = f.location from heq] at hle
      omega

end

/-- Mounting the small image, and following a path twice. -/
def followTwice (path : Name) : Option (FAT × (VFile × FAT) × VFile × FAT) :=
  (do
    let fat ← readBiosBlock 1 (smallDisk fun _ => false) 0 0 1
    let r ← fat.getFileFromPath 1 path
    let q ← r.2.getFileFromPath 1 path
    return (fat, r, q) : Run _).toOption

theorem followTwice_returns : (followTwice "HELLO.TXT".toList).isSome = true ∧
    (followTwice "/SUB/WORLD.TXT".toList).isSome = true := by
  decide +kernel

theorem followTwice_run {path : Name} {r : FAT × (VFile × FAT) × VFile × FAT}
    (h : followTwice path = some r) : Mounted (smallDisk fun _ => false) r.1 ∧
      r.1.getFileFromPath 1 path = .ok r.2.1 ∧ r.2.1.2.getFileFromPath 1 path = .ok r.2.2 := by
  obtain ⟨fat, hfat, hok⟩ := bind_eq_ok.1 (toOption_eq_some.1 h)
  obtain ⟨q, hq, hok⟩ := bind_eq_ok.1 hok
  obtain ⟨q', hq', hok⟩ := bind_eq_ok.1 hok
  cases hok
  exact ⟨.mount (by decide) hfat, hq, hq'⟩

end Fioxa.Fs.FAT
