import Fioxa.Fs.Requests

/-! # Disk errors

The result of a disk read is not looked at, so what a failed read leaves in a buffer is taken for
what is on the disk. It is returned, parsed as a directory, or kept as a sector of the file
allocation table. `Used` says this for one step: the state stays clean exactly if none of the reads
of the step fails. Along a history of requests it follows that what is returned, used and kept is
from reads that succeeded exactly if no read has failed. -/

namespace Fioxa.Fs

open Faults List Function

def AllGood (buffer : List Cell) : Prop := ∀ c ∈ buffer, c.good = true

variable {buffer buffer' : List Cell}

theorem allGood_nil : AllGood [] := forall_mem_nil _

theorem allGood_append : AllGood (buffer ++ buffer') ↔ AllGood buffer ∧ AllGood buffer' :=
  forall_mem_append

theorem allGood_marked {g : Bool} {bytes : List UInt8} (hne : bytes ≠ []) :
    AllGood (marked g bytes) ↔ g = true := by
  obtain ⟨b, hb⟩ := exists_mem_of_ne_nil bytes hne
  constructor
  · intro h
    exact h ⟨b, g⟩ (mem_map.2 ⟨b, hb, rfl⟩)
  · rintro rfl c hc
    obtain ⟨b', -, rfl⟩ := mem_map.1 hc
    rfl

/-- The cells of a sector are all from the same read. -/
def Sectored (buffer : List Cell) : Prop :=
  ∃ goods : List Bool, buffer.map Cell.good = goods.flatMap (replicate 512)

theorem Sectored.append (h : Sectored buffer) (h' : Sectored buffer') :
    Sectored (buffer ++ buffer') := by
  obtain ⟨goods, hgoods⟩ := h
  obtain ⟨goods', hgoods'⟩ := h'
  exact ⟨goods ++ goods', by rw [map_append, flatMap_append, hgoods, hgoods']⟩

theorem sectored_marked {g : Bool} {bytes : List UInt8} {n : Nat} (hlen : bytes.length = 512 * n) :
    Sectored (marked g bytes) := by
  refine ⟨replicate n g, ?_⟩
  have hmap : (marked g bytes).map Cell.good = replicate (512 * n) g := by
    rw [marked, map_map, ← hlen]
    exact map_const'
  rw [hmap]
  clear hlen hmap
  induction n with
  | zero => rfl
  | succ n ih =>
    rw [replicate_succ, flatMap_cons, ← ih, Nat.mul_succ, Nat.add_comm, replicate_add]

/-- A part of a buffer that has cells of each sector is good only if the buffer is. -/
theorem Sectored.allGood {m : Nat} (h : Sectored buffer) (hm : buffer.length < m + 512)
    (hgood : AllGood (buffer.take m)) : AllGood buffer := by
  obtain ⟨goods, hgoods⟩ := h
  induction goods generalizing buffer m with
  | nil =>
    obtain rfl : buffer = [] := map_eq_nil_iff.1 hgoods
    exact allGood_nil
  | cons g goods ih =>
    have hfirst : (buffer.take 512).map Cell.good = replicate 512 g := by
      rw [map_take, hgoods, flatMap_cons, take_left' length_replicate]
    have hrest : (buffer.drop 512).map Cell.good = goods.flatMap (replicate 512) := by
      rw [map_drop, hgoods, flatMap_cons, drop_left' length_replicate]
    have hlen : 512 ≤ buffer.length := by
      have hcount := congrArg List.length hfirst
      rw [length_map, length_take, length_replicate] at hcount
      omega
    -- the first cell is in the part, and has what the cells of its sector have
    obtain ⟨c, cs, rfl⟩ := exists_cons_of_length_pos (l := buffer) (by omega)
    obtain rfl : c.good = g := by
      have hhead := congrArg List.head? hfirst
      exact Option.some.inj hhead
    have hc : c.good = true := by
      refine hgood c ?_
      obtain ⟨m, rfl⟩ : ∃ k, m = k + 1 := ⟨m - 1, by omega⟩
      exact mem_cons_self
    rw [← take_append_drop 512 (c :: cs), allGood_append]
    constructor
    · intro c' hc'
      have hmem := mem_map_of_mem (f := Cell.good) hc'
      rw [hfirst] at hmem
      rw [eq_of_mem_replicate hmem, hc]
    · refine ih (m := m - 512) ?_ (fun c' hc' => hgood c' ?_) hrest
      · rw [length_drop]
        omega
      · rw [← drop_take] at hc'
        exact mem_of_mem_drop hc'

namespace FAT

variable {fat fat' fat'' : FAT} {fuel id k s n c : Nat} {b b' : List Cell} {g g' g'' : Prop}
  {l l' : List NamedEntry} {entries : Listing} {lfn : Name} {disk : FSPartitionDisk}

/-! ## What one step uses -/

/-- None of the reads with numbers from `a` to `b` fails. -/
def NoFails (fat : FAT) (a b : Nat) : Prop :=
  ∀ t, a ≤ t → t < b → fat.disk.backingDisk.fails t = false

/-- All entries that have been used, and all sectors that are kept, are from reads that succeeded.
    -/
structure Sane (fat : FAT) : Prop where
  trusted : fat.trusted = true
  chain : ∀ k b, fat.clusterChainBuffer k = some b → AllGood b

/-- The files are from entries that have been used. -/
def Vouched (fat : FAT) : Prop :=
  fat.trusted = true → ∀ id file, fat.fileIdLookup id = some file → file.good = true

/-- A step from `fat` with data that is good if `g`, to `fat'` with data that is good if `g'`. -/
structure Used (fat : FAT) (g : Prop) (l : List NamedEntry) (fat' : FAT) (g' : Prop) : Prop
    extends SamePartition fat fat' where
  fileIdLookup : fat'.fileIdLookup = addFiles l fat.nextFileId fat.fileIdLookup
  nextFileId : fat'.nextFileId = fat.nextFileId + l.length
  reads_le : fat.reads ≤ fat'.reads
  sane_iff : fat'.Sane ∧ g' ↔ (fat.Sane ∧ g) ∧ fat.NoFails fat.reads fat'.reads
  vouched : fat.Vouched → fat'.Vouched

theorem noFails_self : fat.NoFails n n := fun t hle hlt => absurd hle (by omega)

theorem Used.refl (fat : FAT) (g : Prop) : Used fat g [] fat g where
  toSamePartition := .refl fat
  fileIdLookup := rfl
  nextFileId := rfl
  reads_le := Nat.le_refl _
  sane_iff := (and_iff_left noFails_self).symm
  vouched h := h

theorem Used.trans (h : Used fat g l fat' g') (h' : Used fat' g' l' fat'' g'') :
    Used fat g (l ++ l') fat'' g'' where
  toSamePartition := h.toSamePartition.trans h'.toSamePartition
  fileIdLookup := by rw [h'.fileIdLookup, h.fileIdLookup, h.nextFileId, addFiles_append]
  nextFileId := by rw [h'.nextFileId, h.nextFileId, length_append, Nat.add_assoc]
  reads_le := Nat.le_trans h.reads_le h'.reads_le
  sane_iff := by
    rw [h'.sane_iff, h.sane_iff, and_assoc]
    refine and_congr_right fun _ => ?_
    rw [NoFails, NoFails, h.disk]
    constructor
    · rintro ⟨hfirst, hsecond⟩ t hle hlt
      by_cases ht : t < fat'.reads
      · exact hfirst t hle ht
      · exact hsecond t (by omega) hlt
    · intro hall
      have hle := h.reads_le
      have hle' := h'.reads_le
      exact ⟨fun t ht hlt => hall t ht (by omega), fun t ht hlt => hall t (by omega) hlt⟩
  vouched hv := h'.vouched (h.vouched hv)

theorem Used.of_iff (h : Used fat g l fat' g') (hiff : g' ↔ g'') : Used fat g l fat' g'' :=
  propext hiff ▸ h

/-! ## Reads -/

/-- After a read. -/
def counted (fat : FAT) : FAT := { fat with reads := fat.reads + 1 }

/-- The next read succeeds. -/
def succeeds (fat : FAT) : Bool := !fat.disk.backingDisk.fails fat.reads

theorem counted_used (fat : FAT) (g : Prop) :
    Used fat g [] fat.counted (g ∧ fat.succeeds = true) where
  toSamePartition := ⟨⟨rfl, rfl, rfl⟩, rfl⟩
  fileIdLookup := rfl
  nextFileId := rfl
  reads_le := Nat.le_succ _
  sane_iff := by
    have hsane : fat.counted.Sane ↔ fat.Sane := ⟨fun h => ⟨h.1, h.2⟩, fun h => ⟨h.1, h.2⟩⟩
    have hfails : fat.NoFails fat.reads fat.counted.reads ↔ fat.succeeds = true := by
      rw [succeeds, Bool.not_eq_true']
      constructor
      · intro h
        exact h fat.reads (Nat.le_refl _) (Nat.lt_succ_self _)
      · intro h t hle hlt
        obtain rfl : t = fat.reads := Nat.le_antisymm (Nat.le_of_lt_succ hlt) hle
        exact h
    rw [hsane, hfails, and_assoc]
  vouched h := h

theorem diskRead_eq_ok (hok : fat.diskRead s n b = .ok (b', fat')) :
    512 * n ≤ b.length ∧ fat' = fat.counted ∧ ∃ bytes : List UInt8, bytes.length = 512 * n ∧
      b' = marked fat.succeeds bytes ++ b.drop (512 * n) := by
  obtain ⟨⟨r, b1⟩, hread, hok⟩ := bind_eq_ok.1 hok
  cases hok
  obtain ⟨⟨-, -, hlen⟩, hr⟩ := FSPartitionDisk.read_exact.of_ok hread
  refine ⟨hlen, rfl, ?_⟩
  unfold DiskDevice.outcome at hr
  split at hr
  · rename_i hfails
    refine ⟨_, ?_, by rw [(Prod.mk.inj hr).2, succeeds, hfails]; rfl⟩
    rw [DiskDevice.length_residue, length_values, length_take]
    omega
  · rename_i hfails
    refine ⟨fat.disk.sectors s n, FSPartitionDisk.length_sectors, ?_⟩
    rw [(Prod.mk.inj hr).2, succeeds, Bool.eq_false_iff.2 hfails]
    rfl

variable {offset : Nat}

theorem store_used {bytes : List UInt8} (hne : bytes ≠ [])
    (hnew : fat.clusterChainBuffer offset = none) :
    Used fat g [] (fat.counted.store offset (marked fat.succeeds bytes)) g := by
  have hcounted := counted_used fat g
  refine ⟨⟨⟨rfl, rfl, rfl⟩, rfl⟩, rfl, rfl, hcounted.reads_le, ?_, hcounted.vouched⟩
  rw [show fat.NoFails fat.reads (fat.counted.store offset _).reads
    = fat.NoFails fat.reads fat.counted.reads from rfl, ← hcounted.sane_iff]
  constructor
  · rintro ⟨hsane, hg⟩
    have hself : (fat.counted.store offset (marked fat.succeeds bytes)).clusterChainBuffer offset
        = some (marked fat.succeeds bytes) := update_self ..
    refine ⟨⟨hsane.trusted, fun k b hb => hsane.chain k b ?_⟩, hg,
      (allGood_marked hne).1 (hsane.chain offset _ hself)⟩
    refine (update_of_ne ?_ _ _).trans hb
    rintro rfl
    rw [show fat.counted.clusterChainBuffer k = none from hnew] at hb
    cases hb
  · rintro ⟨hsane, hg, hgood⟩
    refine ⟨⟨hsane.trusted, fun k b hb => ?_⟩, hg⟩
    by_cases hk : k = offset
    · subst hk
      have hself : (fat.counted.store k (marked fat.succeeds bytes)).clusterChainBuffer k
          = some (marked fat.succeeds bytes) := update_self ..
      obtain rfl := Option.some.inj (hself.symm.trans hb)
      exact (allGood_marked hne).2 hgood
    · exact hsane.chain k b ((update_of_ne hk _ _).symm.trans hb)

theorem fatBuffer_used (hok : fat.fatBuffer offset = .ok (b, fat')) :
    Used fat g [] fat' g ∧ fat'.clusterChainBuffer offset = some b := by
  unfold fatBuffer at hok
  cases hb : fat.clusterChainBuffer offset with
  | some =>
    rw [hb] at hok
    cases hok
    exact ⟨.refl fat g, hb⟩
  | none =>
    simp only [hb] at hok
    obtain ⟨⟨b1, fat1⟩, hread, hok⟩ := bind_eq_ok.1 hok
    cases hok
    obtain ⟨-, rfl, bytes, hlen, rfl⟩ := diskRead_eq_ok hread
    have hne : bytes ≠ [] := by
      rintro rfl
      cases hlen
    rw [drop_eq_nil_of_le (by simp), append_nil]
    exact ⟨store_used hne hb, update_self ..⟩

theorem getNextCluster_used {next : Nat} (hok : fat.getNextCluster c = .ok (next, fat')) :
    Used fat g [] fat' g := by
  obtain ⟨⟨b, fat1⟩, hbuffer, hok⟩ := bind_eq_ok.1 hok
  cases hok
  obtain ⟨hused, hb⟩ := fatBuffer_used (g := g) hbuffer
  refine ⟨⟨⟨hused.bpb, hused.ebr, hused.disk⟩, hused.partitionId⟩, hused.fileIdLookup,
    hused.nextFileId, hused.reads_le, ?_, ?_⟩
  · rw [← hused.sane_iff]
    refine and_congr_left fun _ => ⟨fun h => ⟨(Bool.and_eq_true_iff.1 h.trusted).1, h.chain⟩,
      fun h => ⟨Bool.and_eq_true_iff.2 ⟨h.trusted, all_eq_true.2 fun x hx => ?_⟩, h.chain⟩⟩
    exact h.chain _ _ hb x (mem_of_mem_drop (mem_of_mem_take hx))
  · intro hv htrusted
    exact hused.vouched hv (Bool.and_eq_true_iff.1 htrusted).1

/-! ## Directories -/

variable {g0 : Bool}

theorem good_of_mem_directoryEntries {bytes : List UInt8} {m : Nat} {e : DirectoryEntry}
    (hlen : 32 * m ≤ bytes.length) (he : e ∈ directoryEntries (marked g0 bytes) m) :
    e.good = g0 := by
  obtain ⟨i, hi, rfl⟩ := mem_map.1 he
  have hcells : ((marked g0 bytes).drop (i * 32)).take 32
      = marked g0 ((bytes.drop (i * 32)).take 32) := by
    rw [marked, marked, map_take, map_drop]
  have hne : (bytes.drop (i * 32)).take 32 ≠ [] := by
    have hm := mem_range.1 hi
    refine ne_nil_of_length_pos ?_
    rw [length_take, length_drop]
    omega
  rw [Bool.eq_iff_iff, hcells, all_eq_true]
  exact allGood_marked hne

variable {es : List DirectoryEntry}

theorem seenGood_of_forall (hne : es ≠ []) (h : ∀ e ∈ es, e.good = g0) : seenGood es = g0 := by
  induction es with
  | nil => exact absurd rfl hne
  | cons e es ih =>
    obtain ⟨he, hes⟩ := forall_mem_cons.1 h
    rw [seenGood, he]
    cases es with
    | nil => simp [seenGood]
    | cons =>
      rw [ih (cons_ne_nil _ _) hes]
      cases g0 <;> simp

theorem mem_of_mem_named {x : NamedEntry} (h : x ∈ named es lfn) : x.2 ∈ es := by
  induction es generalizing lfn with
  | nil => cases h
  | cons e es ih =>
    rw [named] at h
    split_ifs at h
    · cases h
    · exact .tail _ (ih h)
    · exact .tail _ (ih h)
    · exact .tail _ (ih h)
    · rcases mem_cons.1 h with rfl | h
      · exact mem_cons_self
      · exact .tail _ (ih h)

theorem addFiles_eq_some {files : Nat → Option FATFile} {file : FATFile}
    (h : addFiles l n files id = some file) :
    files id = some file ∨ ∃ x ∈ l, file = fileOf x.2 := by
  induction l generalizing n files with
  | nil => exact .inl h
  | cons x l ih =>
    rcases ih h with h | ⟨y, hy, rfl⟩
    · by_cases hid : id = n
      · subst hid
        rw [update_self] at h
        exact .inr ⟨x, mem_cons_self, (Option.some.inj h).symm⟩
      · rw [update_of_ne hid] at h
        exact .inl h
    · exact .inr ⟨y, .tail _ hy, rfl⟩

theorem mint_used (hne : es ≠ []) (h : ∀ e ∈ es, e.good = g0) :
    Used fat (g ∧ g0 = true) (named es lfn)
      (fat.mint (named es lfn) (fat.trusted && seenGood es)) g where
  toSamePartition := ⟨⟨rfl, rfl, rfl⟩, rfl⟩
  fileIdLookup := rfl
  nextFileId := rfl
  reads_le := Nat.le_refl _
  sane_iff := by
    refine Iff.trans ?_ (and_iff_left noFails_self).symm
    rw [seenGood_of_forall hne h]
    constructor
    · rintro ⟨hsane, hg⟩
      obtain ⟨htrusted, hgood⟩ := Bool.and_eq_true_iff.1 hsane.trusted
      exact ⟨⟨htrusted, hsane.chain⟩, hg, hgood⟩
    · rintro ⟨hsane, hg, hgood⟩
      exact ⟨⟨Bool.and_eq_true_iff.2 ⟨hsane.trusted, hgood⟩, hsane.chain⟩, hg⟩
  vouched hv htrusted id file hfile := by
    rw [seenGood_of_forall hne h] at htrusted
    obtain ⟨hbefore, rfl⟩ := Bool.and_eq_true_iff.1 htrusted
    rcases addFiles_eq_some hfile with hfile | ⟨x, hx, rfl⟩
    · exact hv hbefore id file hfile
    · exact h x.2 (mem_of_mem_named hx)

/-- A part of a directory has been read, with the entries `l`. -/
structure Listed (fat : FAT) (g : Prop) (l : List NamedEntry) (entries entries' : Listing)
    (fat' : FAT) : Prop where
  used : Used fat g l fat' g
  entries : entries' = addNames l fat.nextFileId entries

theorem Listed.trans {entries' entries'' : Listing} (h : Listed fat g l entries entries' fat')
    (h' : Listed fat' g l' entries' entries'' fat'') :
    Listed fat g (l ++ l') entries entries'' fat'' where
  used := h.used.trans h'.used
  entries := by rw [h'.entries, h.entries, h.used.nextFileId, addNames_append]

theorem parseSectors_used {p : Parsed} (hn : 0 < n) (hb : b.length = 512 * n)
    (hok : fat.parseSectors s n b entries lfn = .ok p) :
    p.buffer.length = 512 * n ∧ ∃ l, Listed fat g l entries p.entries p.fat := by
  obtain ⟨⟨b1, fat1⟩, hread, hok⟩ := bind_eq_ok.1 hok
  obtain ⟨-, rfl, bytes, hlen, rfl⟩ := diskRead_eq_ok hread
  rw [drop_eq_nil_of_le (by omega), append_nil] at hok
  simp only [parseEntries_eq] at hok
  cases hok
  refine ⟨by rw [length_marked, hlen], _, ?_, rfl⟩
  refine (counted_used fat g).trans (mint_used ?_ fun e he =>
    good_of_mem_directoryEntries (by omega) he)
  rw [directoryEntries, ne_eq, map_eq_nil_iff, range_eq_nil]
  omega

variable {r : Listing × FAT}

theorem readRootSectors_used {sectors : List Nat} (hb : b.length = 512)
    (hok : readRootSectors sectors b entries lfn fat = .ok r) :
    ∃ l, Listed fat g l entries r.1 r.2 := by
  induction sectors generalizing b entries lfn fat with
  | nil =>
    cases hok
    exact ⟨[], .refl fat g, rfl⟩
  | cons s sectors ih =>
    obtain ⟨p, hparse, hok⟩ := bind_eq_ok.1 hok
    obtain ⟨hlen, l, hlisted⟩ := parseSectors_used (g := g) (by decide) (by omega) hparse
    split at hok
    · cases hok
      exact ⟨l, hlisted⟩
    · obtain ⟨l', hlisted'⟩ := ih hlen hok
      exact ⟨l ++ l', hlisted.trans hlisted'⟩

theorem readClusters_used (hb : b.length = 512 * fat.bpb.sectorsPerCluster)
    (hok : readClusters fuel c b entries lfn fat = .ok r) :
    ∃ l, Listed fat g l entries r.1 r.2 := by
  induction fuel generalizing c b entries lfn fat with
  | zero => cases hok
  | succ fuel ih =>
    rw [readClusters] at hok
    split at hok
    · cases hok
      exact ⟨[], .refl fat g, rfl⟩
    · obtain ⟨s, -, hok⟩ := bind_eq_ok.1 hok
      obtain ⟨p, hparse, hok⟩ := bind_eq_ok.1 hok
      obtain ⟨hlen, l, hlisted⟩ := parseSectors_used (g := g) fat.sectorsPerCluster_pos hb hparse
      split at hok
      · cases hok
        exact ⟨l, hlisted⟩
      · obtain ⟨⟨next, fat1⟩, hnext, hok⟩ := bind_eq_ok.1 hok
        have hused : Used p.fat g [] fat1 g := getNextCluster_used hnext
        have hbpb : fat1.bpb = fat.bpb := hused.bpb.trans hlisted.used.bpb
        obtain ⟨l', hlisted'⟩ := ih (by rw [hlen, hbpb]) hok
        have hnext : Listed p.fat g [] p.entries p.entries fat1 := ⟨hused, rfl⟩
        exact ⟨l ++ l', hlisted.trans (hnext.trans hlisted')⟩

theorem readDirectory_used (hok : fat.readDirectory fuel c = .ok r) :
    ∃ l, Listed fat g l noEntries r.1 r.2 :=
  readClusters_used length_blank hok

theorem readRoot_used (hok : fat.readRoot fuel = .ok r) :
    ∃ l, Listed fat g l noEntries r.1 r.2 := by
  unfold readRoot at hok
  split at hok
  · exact readDirectory_used hok
  · obtain ⟨first, -, hok⟩ := bind_eq_ok.1 hok
    obtain ⟨root, -, hok⟩ := bind_eq_ok.1 hok
    exact readRootSectors_used length_blank hok

/-! ## Requests -/

theorem Used.numbered (h : Used fat g l fat' g') (hnum : fat.Numbered) : fat'.Numbered := by
  intro id hid
  rw [h.nextFileId] at hid
  rw [h.fileIdLookup, addFiles_of_le hid]
  exact hnum id (by omega)

theorem readDirectory_unread {file : FATFile} {children : Listing} (hnum : fat.Numbered)
    (hfile : fat.fileIdLookup id = some file)
    (hread : fat.readDirectory fuel file.cluster = .ok (children, fat')) :
    ∃ l, fat'.folder id children = fat.folder id (addNames l fat.nextFileId noEntries) ∧
      Used fat g l { fat' with fileIdLookup := update fat'.fileIdLookup id (some file) } g := by
  obtain ⟨l, hused, hentries⟩ := readDirectory_used (g := g) hread
  have hback : some file = fat'.fileIdLookup id := by
    rw [hused.fileIdLookup, addFiles_of_lt (hnum.lt hfile), hfile]
  refine ⟨l, ?_, ?_⟩
  · rw [show children = _ from hentries]
    simp only [folder, show fat'.partitionId = fat.partitionId from hused.partitionId]
  · rw [Function.update_eq_self_iff.2 hback]
    exact hused

theorem getFileById_used {r : VFile × FAT} (hnum : fat.Numbered)
    (hok : fat.getFileById fuel id = .ok r) : ∃ l, Used fat g l r.2 g := by
  cases getFileById_found hok with
  | file | cached => exact ⟨[], .refl fat g⟩
  | unread hfile _ hread =>
    obtain ⟨l, -, hused⟩ := readDirectory_unread (g := g) hnum hfile hread
    exact ⟨l, hused⟩

theorem collectRuns_used {runs runs' : List (Nat × Nat)} (hruns : ∀ r ∈ runs, 0 < r.2)
    (hfuel : n ≤ fuel) (hok : collectRuns fuel n c runs fat = .ok (runs', fat')) :
    (expand runs').length = (expand runs).length + n ∧ Used fat g [] fat' g := by
  induction fuel generalizing n c runs fat with
  | zero =>
    obtain ⟨rfl, rfl⟩ := Prod.mk.inj (Except.ok.inj hok)
    exact ⟨by omega, .refl fat g⟩
  | succ fuel ih =>
    rw [collectRuns] at hok
    split at hok
    · obtain ⟨rfl, rfl⟩ := Prod.mk.inj (Except.ok.inj hok)
      exact ⟨by omega, .refl fat g⟩
    · simp only [bind_eq_ok] at hok
      obtain ⟨s, hs, runs1, hrun, ⟨next, fat1⟩, hnext, hok⟩ := hok
      have hspc := fat.sectorsPerCluster_pos
      obtain ⟨hexpand, hruns1⟩ := pushRun_eq_ok hrun (by omega) hruns
      obtain ⟨hlen, hused⟩ := ih hruns1 (by omega) hok
      refine ⟨?_, (getNextCluster_used hnext).trans hused⟩
      rw [hlen, hexpand, length_append, length_range']
      omega

theorem readPieces_used {ps : List (Nat × Nat)} (hps : ∀ p ∈ ps, 0 < p.2 ∧ p.2 ≤ 56)
    (pre rest : List Cell)
    (hok : readPieces ps (pre ++ rest) pre.length fat = .ok (b', fat')) :
    ∃ new, new.length = 512 * (runSectors ps).length ∧ Sectored new ∧
      b' = pre ++ new ++ rest.drop new.length ∧ Used fat g [] fat' (g ∧ AllGood new) := by
  induction ps generalizing pre rest fat g with
  | nil =>
    cases hok
    exact ⟨[], rfl, ⟨[], rfl⟩, by simp, (Used.refl _ g).of_iff (and_iff_left allGood_nil).symm⟩
  | cons p ps ih =>
    obtain ⟨hp, hps⟩ := forall_mem_cons.1 hps
    obtain ⟨⟨slice, fat1⟩, hread, hok⟩ := bind_eq_ok.1 hok
    rw [drop_left] at hread
    obtain ⟨-, rfl, bytes, hlen, rfl⟩ := diskRead_eq_ok hread
    have hlen' : (marked fat.succeeds bytes).length = 512 * p.2 := by rw [length_marked, hlen]
    have hgood : AllGood (marked fat.succeeds bytes) ↔ fat.succeeds = true :=
      allGood_marked (ne_nil_of_length_pos (by omega))
    rw [take_left] at hok
    dsimp only at hok
    rw [← hlen', ← append_assoc, ← length_append] at hok
    obtain ⟨new, hnew, hsectored, rfl, hused⟩ :=
      ih (g := g ∧ AllGood (marked fat.succeeds bytes)) hps _ _ hok
    refine ⟨marked fat.succeeds bytes ++ new, ?_, (sectored_marked hlen).append hsectored, ?_, ?_⟩
    · rw [length_append, hlen', hnew, runSectors, runSectors, flatMap_cons,
        length_append, length_range', Nat.mul_add]
    · rw [drop_drop, length_append]
      simp only [append_assoc]
    · refine ((counted_used fat g).of_iff (and_congr_right fun _ => hgood.symm)).trans
        (hused.of_iff ?_)
      rw [allGood_append, and_assoc]

theorem readFile_used {r : List Cell × FAT} (hok : fat.readFile id b = .ok r) :
    Used fat g [] r.2 (g ∧ AllGood r.1) := by
  obtain ⟨file, -, hok⟩ := bind_eq_ok.1 hok
  obtain ⟨length, -, hok⟩ := bind_eq_ok.1 hok
  obtain ⟨rounded, hrounded, hok⟩ := bind_eq_ok.1 hok
  obtain ⟨-, rfl⟩ := u32_eq_ok.1 hrounded
  obtain ⟨⟨runs, fat1⟩, hcollect, hok⟩ := bind_eq_ok.1 hok
  obtain ⟨⟨b1, fat2⟩, hread, hok⟩ := bind_eq_ok.1 hok
  cases hok
  obtain ⟨hcount, hused⟩ := collectRuns_used (g := g) (by simp) (Nat.le_refl _) hcollect
  rw [readRuns_eq] at hread
  obtain ⟨new, hlen, hsectored, hbytes, hused'⟩ :=
    readPieces_used (g := g) allPieces_bounds [] (resize _ _) hread
  rw [runSectors_allPieces, runSectors_reverse, hcount] at hlen
  have hall : b1 = new := by
    rw [hbytes, nil_append, drop_eq_nil_of_le, append_nil]
    rw [length_resize, hlen]
    simp [expand]
  refine hused.trans (hused'.of_iff (and_congr_right fun _ => ?_))
  subst hall
  refine ⟨fun h c hc => h c (mem_of_mem_take hc), hsectored.allGood ?_⟩
  rw [hlen]
  simp only [expand, reverse_nil, flatMap_nil, length_nil]
  omega

theorem skipClusters_used {r : Nat × FAT} (hok : skipClusters k c fat = .ok r) :
    Used fat g [] r.2 g := by
  induction k generalizing c fat with
  | zero =>
    cases hok
    exact .refl fat g
  | succ k ih =>
    obtain ⟨⟨next, fat1⟩, hnext, hok⟩ := bind_eq_ok.1 hok
    exact (getNextCluster_used hnext).trans (ih hok)

theorem readFileSector_used {r : Option Nat × List Cell × FAT} (hb : b.length = 512)
    (hok : fat.readFileSector id k b = .ok r) : r = (none, b, fat) ∨
      ∃ m fat1 bytes, bytes.length = 512 ∧ Used fat g [] fat1 g ∧
        r = (some m, marked fat1.succeeds bytes, fat1.counted) := by
  obtain ⟨file, -, hok⟩ := bind_eq_ok.1 hok
  obtain ⟨length, -, hok⟩ := bind_eq_ok.1 hok
  obtain ⟨rounded, -, hok⟩ := bind_eq_ok.1 hok
  dsimp only at hok
  split at hok
  · exact .inl (Except.ok.inj hok).symm
  · obtain ⟨-, hok⟩ := ensure_bind_eq_ok.1 hok
    obtain ⟨⟨cluster, fat1⟩, hskip, hok⟩ := bind_eq_ok.1 hok
    obtain ⟨start, -, hok⟩ := bind_eq_ok.1 hok
    obtain ⟨sector, -, hok⟩ := bind_eq_ok.1 hok
    obtain ⟨⟨b1, fat2⟩, hread, hok⟩ := bind_eq_ok.1 hok
    cases hok
    obtain ⟨-, rfl, bytes, hlen, rfl⟩ := diskRead_eq_ok hread
    refine .inr ⟨if k + 1 = rounded / 512 then length % 512 else 512, fat1, bytes, hlen,
      skipClusters_used hskip, ?_⟩
    rw [drop_eq_nil_of_le (by omega), append_nil]

/-! ## Histories -/

/-- What is kept and what has been used is from reads that succeeded. -/
structure Clean (fat : FAT) : Prop extends Sane fat where
  files : ∀ id file, fat.fileIdLookup id = some file → file.good = true

/-- The reads of a request whose data is used. When nothing of a sector is returned, its own read is
    not one of them. -/
def usedReads : Request → List Cell → Nat → Nat → List Nat
  | .readFileSector .., [], first, next => range' first (next - first - 1)
  | _, _, first, next => range' first (next - first)

/-- A partition is mounted and serves requests: the state, the reads whose data has been used after
    that of the boot sector, and the bytes that have been returned. -/
inductive History (disk : FSPartitionDisk) : FAT → List Nat → List Cell → Prop where
  | mount {fuel partitionId first nextFileId : Nat} {fat : FAT} (hpos : 0 < nextFileId)
      (hok : readBiosBlock fuel disk partitionId first nextFileId = .ok fat) :
      History disk fat (range' (first + 1) (fat.reads - (first + 1))) []
  | request {fuel : Nat} {fat fat' : FAT} {reads : List Nat} {bytes answer : List Cell}
      (req : Request) (h : History disk fat reads bytes)
      (hok : fat.serve fuel req = .ok (answer, fat')) :
      History disk fat' (reads ++ usedReads req answer fat.reads fat'.reads) (bytes ++ answer)
  | elsewhere {fat : FAT} {reads : List Nat} {bytes : List Cell} (ids others : Nat)
      (h : History disk fat reads bytes) : History disk (fat.elsewhere ids others) reads bytes

theorem noFails_iff (h : n ≤ k) :
    fat.NoFails n k ↔ ∀ t ∈ range' n (k - n), fat.disk.backingDisk.fails t = false := by
  simp only [NoFails, mem_range'_1, and_imp, Nat.add_sub_cancel' h]

theorem Used.sane_iff_reads (h : Used fat g l fat' g') (hg : g) : fat'.Sane ∧ g' ↔
    fat.Sane ∧ ∀ t ∈ range' fat.reads (fat'.reads - fat.reads),
      fat.disk.backingDisk.fails t = false := by
  rw [h.sane_iff, and_iff_left hg, noFails_iff h.reads_le]

variable {req : Request} {answer : List Cell}

theorem serve_used (hnum : fat.Numbered) (hok : fat.serve fuel req = .ok (answer, fat')) :
    (∃ l g', Used fat (AllGood []) l fat' g') ∧ (fat'.Sane ∧ AllGood answer ↔
      fat.Sane ∧ ∀ t ∈ usedReads req answer fat.reads fat'.reads,
        fat.disk.backingDisk.fails t = false) := by
  cases req with
  | getFileById =>
    obtain ⟨r, hr, hok⟩ := bind_eq_ok.1 hok
    cases hok
    obtain ⟨l, hused⟩ := getFileById_used hnum hr
    exact ⟨⟨l, _, hused⟩, hused.sane_iff_reads allGood_nil⟩
  | readFile =>
    have hused : Used fat (AllGood []) [] fat' (AllGood [] ∧ AllGood answer) := readFile_used hok
    exact ⟨⟨[], _, hused⟩, (hused.of_iff (and_iff_right allGood_nil)).sane_iff_reads allGood_nil⟩
  | readFileSector id sector buffer =>
    obtain ⟨r, hr, hok⟩ := bind_eq_ok.1 hok
    cases hok
    rcases readFileSector_used (g := AllGood []) buffer.2 hr with
      rfl | ⟨m, fat1, bytes, hlen, hused, rfl⟩
    · exact ⟨⟨[], _, .refl fat _⟩, by simp [usedReads, AllGood]⟩
    · have hread := hused.trans (counted_used fat1 _)
      refine ⟨⟨[], _, hread⟩, ?_⟩
      have hsane : fat1.counted.Sane ↔ fat1.Sane := ⟨fun h => ⟨h.1, h.2⟩, fun h => ⟨h.1, h.2⟩⟩
      by_cases hm : m = 0
      · subst hm
        have hreads : fat1.counted.reads - fat.reads - 1 = fat1.reads - fat.reads :=
          show fat1.reads + 1 - fat.reads - 1 = _ by omega
        simp only [Option.getD_some, take_zero, usedReads, hreads, hsane]
        exact hused.sane_iff_reads allGood_nil
      · have hpart : (marked fat1.succeeds bytes).take m
            = marked fat1.succeeds (bytes.take m) := map_take.symm
        have hne : bytes.take m ≠ [] := by
          refine ne_nil_of_length_pos ?_
          rw [length_take]
          omega
        have hreads : usedReads (.readFileSector id sector buffer)
            (marked fat1.succeeds (bytes.take m)) fat.reads fat1.counted.reads
              = range' fat.reads (fat1.counted.reads - fat.reads) := by
          obtain ⟨x, xs, hxs⟩ := exists_cons_of_ne_nil hne
          rw [hxs]
          rfl
        simp only [Option.getD_some, hpart, hreads, allGood_marked hne]
        exact (hread.of_iff (and_iff_right allGood_nil)).sane_iff_reads allGood_nil

/-- The root is put into folder 0. -/
def withRoot (fat : FAT) (children : Listing) : FAT :=
  { fat with
    fileIdLookup := update fat.fileIdLookup 0 (some ⟨0, .folder (some children), true⟩) }

theorem withRoot_zero {children : Listing} :
    (fat.withRoot children).fileIdLookup 0 = some ⟨0, .folder (some children), true⟩ := by
  simp only [withRoot, update_self]

theorem withRoot_of_ne {children : Listing} (hid : id ≠ 0) :
    (fat.withRoot children).fileIdLookup id = fat.fileIdLookup id :=
  update_of_ne hid _ _

theorem enumerateRoot_eq_ok (hok : fat.enumerateRoot fuel = .ok fat') :
    ∃ l fat1, Used fat True l fat1 True ∧
      fat' = fat1.withRoot (addNames l fat.nextFileId noEntries) := by
  obtain ⟨-, hok⟩ := ensure_bind_eq_ok.1 hok
  obtain ⟨⟨children, fat1⟩, hread, hok⟩ := bind_eq_ok.1 hok
  cases hok
  obtain ⟨l, hused, hentries⟩ := readRoot_used (g := True) hread
  exact ⟨l, fat1, hused, congrArg fat1.withRoot hentries⟩

theorem enumerateRoot_used (hroot : ∀ id, fat.fileIdLookup id = none) (hpos : 0 < fat.nextFileId)
    (hok : fat.enumerateRoot fuel = .ok fat') : fat'.Numbered ∧ fat'.disk = fat.disk ∧
      fat'.Vouched ∧ fat.reads ≤ fat'.reads ∧
      (fat'.Sane ↔ fat.Sane ∧ fat.NoFails fat.reads fat'.reads) := by
  obtain ⟨l, fat1, hused, rfl⟩ := enumerateRoot_eq_ok hok
  have hnum : fat1.Numbered := hused.numbered fun id _ => hroot id
  have hvouched : fat1.Vouched := hused.vouched fun _ id file hfile => by
    rw [hroot id] at hfile
    cases hfile
  have hle : fat.nextFileId ≤ fat1.nextFileId := by
    rw [show fat1.nextFileId = _ from hused.nextFileId]
    omega
  refine ⟨fun id hid => ?_, hused.disk, fun htrusted id file hfile => ?_, hused.reads_le, ?_⟩
  · have hne : id ≠ 0 := by
      rintro rfl
      exact absurd (Nat.le_trans hle hid) (by omega)
    rw [withRoot_of_ne hne]
    exact hnum id hid
  · by_cases hid : id = 0
    · subst hid
      cases hfile
      rfl
    · rw [withRoot_of_ne hid] at hfile
      exact hvouched htrusted id file hfile
  · have hiff := hused.sane_iff
    rw [and_true, and_true] at hiff
    exact Iff.trans ⟨fun h => ⟨h.1, h.2⟩, fun h => ⟨h.1, h.2⟩⟩ hiff

/-- What holds along a history. -/
structure Recorded (disk : FSPartitionDisk) (fat : FAT) (reads : List Nat) (bytes : List Cell) :
    Prop where
  numbered : fat.Numbered
  disk_eq : fat.disk = disk
  vouched : fat.Vouched
  sane_iff : fat.Sane ∧ AllGood bytes ↔ ∀ t ∈ reads, disk.backingDisk.fails t = false

theorem enumerateRoot_of_readBiosBlock {partitionId first nextFileId : Nat}
    (hok : readBiosBlock fuel disk partitionId first nextFileId = .ok fat) :
    ∃ bpb ebr h, (unmounted disk partitionId (first + 1) nextFileId bpb ebr h).enumerateRoot fuel
        = .ok fat := by
  obtain ⟨r, -, hok⟩ := bind_eq_ok.1 hok
  dsimp only at hok
  split at hok
  · rename_i hspc
    obtain ⟨ebr, -, hok⟩ := bind_eq_ok.1 hok
    exact ⟨_, ebr, hspc, hok⟩
  · cases hok

theorem readBiosBlock_recorded {partitionId first nextFileId : Nat} (hpos : 0 < nextFileId)
    (hok : readBiosBlock fuel disk partitionId first nextFileId = .ok fat) :
    Recorded disk fat (range' (first + 1) (fat.reads - (first + 1))) [] := by
  obtain ⟨bpb, ebr, hspc, hroot⟩ := enumerateRoot_of_readBiosBlock hok
  obtain ⟨hnum, hdisk, hvouched, hle, hsane⟩ := enumerateRoot_used (fun _ => rfl) hpos hroot
  refine ⟨hnum, hdisk, hvouched, ?_⟩
  have hstart : (unmounted disk partitionId (first + 1) nextFileId bpb ebr hspc).Sane :=
    ⟨rfl, fun k b hb => by cases hb⟩
  rw [and_iff_left allGood_nil, hsane, and_iff_right hstart, noFails_iff hle]
  rfl

theorem History.recorded {reads : List Nat} {bytes : List Cell} (h : History disk fat reads bytes) :
    Recorded disk fat reads bytes := by
  induction h with
  | mount hpos hok => exact readBiosBlock_recorded hpos hok
  | request req _ hok ih =>
    obtain ⟨⟨l, g', hused⟩, hsane⟩ := serve_used ih.numbered hok
    refine ⟨hused.numbered ih.numbered, hused.disk.trans ih.disk_eq, hused.vouched ih.vouched, ?_⟩
    rw [allGood_append, forall_mem_append, ← ih.sane_iff, and_left_comm, hsane, ih.disk_eq]
    tauto
  | elsewhere ids others _ ih =>
    refine ⟨fun id hid => ih.numbered id (Nat.le_trans (Nat.le_add_right _ _) hid), ih.disk_eq,
      ih.vouched, Iff.trans ?_ ih.sane_iff⟩
    exact and_congr_left fun _ => ⟨fun h => ⟨h.1, h.2⟩, fun h => ⟨h.1, h.2⟩⟩

/-- Everything that is kept, used and returned is from reads that succeeded exactly if no read whose
    data was used has failed. -/
theorem clean_iff_no_read_failed {reads : List Nat} {bytes : List Cell}
    (h : History disk fat reads bytes) :
    fat.Clean ∧ AllGood bytes ↔ ∀ t ∈ reads, disk.backingDisk.fails t = false := by
  have hrecorded := h.recorded
  rw [← hrecorded.sane_iff]
  exact and_congr_left fun _ => ⟨fun h => h.toSane, fun h => ⟨h, hrecorded.vouched h.trusted⟩⟩

/-- Mounting the small image and reading its first file. -/
def readFirst (fails : Nat → Bool) : Option (FAT × List Cell × FAT) :=
  (do
    let fat ← readBiosBlock 1 (smallDisk fails) 0 0 1
    let r ← fat.readFile 1 []
    return (fat, r) : Run _).toOption

theorem readFirst_history {fails : Nat → Bool} {r : FAT × List Cell × FAT}
    (h : readFirst fails = some r) (hmount : r.1.reads = 2) (hread : r.2.2.reads = 4) :
    History (smallDisk fails) r.2.2 [1, 2, 3] r.2.1 := by
  obtain ⟨fat, hfat, hok⟩ := bind_eq_ok.1 (toOption_eq_some.1 h)
  obtain ⟨⟨bytes, fat'⟩, hr, hok⟩ := bind_eq_ok.1 hok
  cases hok
  have hhistory := History.request (.readFile 1 []) (History.mount (by decide) hfat)
    (show fat.serve 0 (.readFile 1 []) = .ok (bytes, fat') from hr)
  rw [show fat.reads = 2 from hmount, show fat'.reads = 4 from hread] at hhistory
  exact hhistory

/-- The reads of the file allocation table and of the file fail. -/
def failsTwice (t : Nat) : Bool := t == 2 || t == 3

theorem readFirst_isSome : (readFirst fun _ => false).isSome = true ∧
    (readFirst failsTwice).isSome = true := by
  decide +kernel

theorem readFirst_returns : (readFirst fun _ => false).isSome = true := readFirst_isSome.1

theorem readFirst_returns_anyway : (readFirst failsTwice).isSome = true := readFirst_isSome.2

theorem readFirst_values :
    (((readFirst fun _ => false).get readFirst_returns).1.reads = 2 ∧
      ((readFirst fun _ => false).get readFirst_returns).2.2.reads = 4) ∧
    ((readFirst failsTwice).get readFirst_returns_anyway).1.reads = 2 ∧
    ((readFirst failsTwice).get readFirst_returns_anyway).2.2.reads = 4 ∧
    ((readFirst failsTwice).get readFirst_returns_anyway).2.1 = marked false [0, 0, 0, 0, 0] ∧
    (((readFirst failsTwice).get readFirst_returns_anyway).2.2.clusterChainBuffer 1).map
      (fun b => b.all Cell.good) = some false ∧
    ((smallDisk failsTwice).sectors 22 1).take 5 = "hello".toUTF8.toList := by
  decide +kernel

/-- If the reads succeed. -/
theorem readFirst_clean : ((readFirst fun _ => false).get readFirst_returns).2.2.Clean ∧
    AllGood ((readFirst fun _ => false).get readFirst_returns).2.1 :=
  (clean_iff_no_read_failed (readFirst_history (Option.some_get readFirst_returns).symm
    readFirst_values.1.1 readFirst_values.1.2)).2 fun _ _ => rfl

/-- Five bytes are returned that are not on the disk, and the sector that could not be read is kept.
    -/
theorem readFirst_not_clean :
    History (smallDisk failsTwice) ((readFirst failsTwice).get readFirst_returns_anyway).2.2
      [1, 2, 3] ((readFirst failsTwice).get readFirst_returns_anyway).2.1 ∧
    values ((readFirst failsTwice).get readFirst_returns_anyway).2.1 = [0, 0, 0, 0, 0] ∧
    ((smallDisk failsTwice).sectors 22 1).take 5 = "hello".toUTF8.toList ∧
    ¬ AllGood ((readFirst failsTwice).get readFirst_returns_anyway).2.1 ∧
    ¬ ((readFirst failsTwice).get readFirst_returns_anyway).2.2.Clean := by
  obtain ⟨-, hmount, hread, hbytes, hkept, hdisk⟩ := readFirst_values
  refine ⟨readFirst_history (Option.some_get readFirst_returns_anyway).symm hmount hread,
    by rw [hbytes]; rfl, hdisk, ?_, fun hclean => ?_⟩
  · rw [hbytes, allGood_marked (by decide)]
    decide
  · obtain ⟨b, hb, hbad⟩ := Option.map_eq_some_iff.1 hkept
    rw [all_eq_true.2 (hclean.chain 1 b hb)] at hbad
    cases hbad

end FAT

end Fioxa.Fs
