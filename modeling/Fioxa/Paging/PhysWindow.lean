import Mathlib.Data.Fintype.EquivFin
import Fioxa.Paging.ChunkedRange
import Fioxa.Paging.StoredTables

/-! # The window onto physical memory is right

`OFFSET_MAP` is one table of level 3, so it covers 512 GiB of physical memory. Below that, the pages
that the regions are cut into have different keys (`agree_iff_div`), each of them is inserted into
the tree of the table, and the address `PhysMapOffset + a` is translated to `a`. A byte above it is
behind another entry of the table of level 4, which `new_with_global` leaves empty. -/

namespace Fioxa.Paging

open Radix Radix.Tree TableSystem List Option Function Nat
open TableFrames (entrySize)

/-- The physical memory behind one entry of a table of level 4. -/
def windowSize : Nat := 0x8000000000

/-! ## Keys -/

namespace PageSize

/-- The height of the leaf for a page. -/
def height : PageSize → Nat
  | size4KB => 0
  | size2MB => 1
  | size1GB => 2

theorem height_le (size : PageSize) : size.height ≤ 2 := by
  cases size <;> decide

theorem entrySize_height (size : PageSize) : entrySize size.height = size.bytes := by
  cases size <;> rfl

end PageSize

/-- The leaf that a page is. -/
def item (x : PageSize × Nat) : Item (Fin 512) Mapping :=
  ⟨x.1.height, addressKey (x.2 + physMapOffset), x.2, ⟨true, false⟩⟩

variable {a b h f : Nat} {x y : PageSize × Nat} {done rest : List (PageSize × Nat)}
  {w w' : TableFrames}

theorem addressKey_window (hh : h ≤ 2) :
    (addressKey (a + physMapOffset) h).val = a / entrySize h % 512 := by
  show (a + physMapOffset) >>> ((h + 1) * 9 + 3) % 512 = _
  obtain rfl | rfl | rfl : h = 0 ∨ h = 1 ∨ h = 2 := by omega
  all_goals
    simp only [shiftRight_eq_div_pow, physMapOffset, entrySize]
    omega

theorem div_entrySize_succ :
    a / entrySize (h + 1) = a / entrySize h / 512 := by
  rw [Nat.div_div_eq_div_mul, Nat.mul_comm]
  rfl

/-- Two addresses of the window have the same key from `h` on if no boundary of an entry of that
    height is between them. -/
theorem agree_iff_div (hh : h ≤ 2) (ha : a < windowSize) (hb : b < windowSize) :
    Agree h 3 (addressKey (a + physMapOffset)) (addressKey (b + physMapOffset)) ↔
      a / entrySize h = b / entrySize h := by
  unfold windowSize at ha hb
  constructor
  · intro hagree
    have hdigit : ∀ j, h ≤ j → j ≤ 2 →
        a / entrySize j % 512 = b / entrySize j % 512 := by
      intro j hj hle
      rw [← addressKey_window hle, hagree j hj (by omega), addressKey_window hle]
    have h0 := hdigit 0
    have h1 := hdigit 1
    have h2 := hdigit 2
    obtain rfl | rfl | rfl : h = 0 ∨ h = 1 ∨ h = 2 := by omega
    all_goals
      simp only [entrySize] at h0 h1 h2 ⊢
      omega
  · intro heq j hj hlt
    have hdiv : a / entrySize j = b / entrySize j := by
      clear hlt
      induction j, hj using le_induction with
      | base => exact heq
      | succ j hj ih => rw [div_entrySize_succ, div_entrySize_succ, ih]
    have hle : j ≤ 2 := by omega
    exact Fin.ext (by rw [addressKey_window hle, addressKey_window hle, hdiv])

/-- A page of the window. -/
structure InWindow (x : PageSize × Nat) : Prop where
  pos : 0 < x.2
  aligned : x.2 % x.1.bytes = 0
  below : x.2 + x.1.bytes ≤ windowSize

theorem InWindow.lt (hx : InWindow x) : x.2 < windowSize := by
  have hpos := x.1.bytes_pos
  have hbelow := hx.below
  omega

/-- Two pages below the same entry of the height of the larger one overlap: the larger one is all
    that is below this entry. -/
theorem not_agree_of_disjoint (hx : InWindow x) (hy : InWindow y) (hd : DisjointPages x y) :
    ¬ Agree (max x.1.height y.1.height) 3 (item x).key (item y).key := by
  intro hagree
  have heq := (agree_iff_div (Nat.max_le.2 ⟨x.1.height_le, y.1.height_le⟩) hx.lt hy.lt).1 hagree
  have hax := hx.aligned
  have hay := hy.aligned
  obtain ⟨s, p⟩ := x
  obtain ⟨t, q⟩ := y
  refine hd (max p q) ⟨Nat.le_max_left _ _, ?_⟩ ⟨Nat.le_max_right _ _, ?_⟩
  all_goals
    cases s <;> cases t <;>
      simp [PageSize.height, PageSize.bytes, entrySize] at heq hax hay ⊢ <;> omega

theorem agree_of_covers (hx : InWindow x) (ha : CoversAddress x a) :
    Agree x.1.height 3 (item x).key (addressKey (a + physMapOffset)) := by
  obtain ⟨hle, hlt⟩ := ha
  have hbelow := hx.below
  refine (agree_iff_div x.1.height_le hx.lt (by omega)).2 ?_
  rw [x.1.entrySize_height]
  have hdvd := dvd_of_mod_eq_zero hx.aligned
  obtain ⟨k, hk⟩ := hdvd
  have hpos := x.1.bytes_pos
  have ha : a = x.1.bytes * k + (a - x.2) := by omega
  rw [hk, Nat.mul_div_cancel_left k hpos, ha, mul_add_div hpos, div_eq_of_lt (by omega),
    Nat.add_zero]

/-! ## Mapping the pages -/

/-- The tables that mapping a page takes: at each height above it, unless a page mapped before is
    below the same entry. -/
def newTables (done : List (PageSize × Nat)) (x : PageSize × Nat) : Nat :=
  ((List.range 2).filter fun h => decide (x.1.height ≤ h) && !done.any fun y =>
    decide (y.1.height ≤ h) &&
      decide (y.2 / entrySize (h + 1) = x.2 / entrySize (h + 1))).length

/-- The tables that mapping pages takes, one after the other. -/
def tableCount (done : List (PageSize × Nat)) : List (PageSize × Nat) → Nat
  | [] => 0
  | x :: pages => newTables done x + tableCount (done ++ [x]) pages

/-- The pages have been mapped in the table `f`. -/
structure Mapped (f : Nat) (c : Fin 512 → PageTree 2) (done : List (PageSize × Nat))
    (w : TableFrames) : Prop where
  stored : w.Stores f c
  apart : Apart (.table f c)
  used : ∀ g ∈ frames (.table f c), g ∈ w.used
  nodup : w.supply.Nodup
  fresh : ∀ g ∈ w.supply, g ∉ w.used ∧ frameOk g = true
  built : Built (done.map item) (.table f c)

variable {c : Fin 512 → PageTree 2}

theorem Mapped.vacant (hm : Mapped f c done w) (hdone : ∀ y ∈ done, InWindow y) (hx : InWindow x)
    (hd : ∀ y ∈ done, DisjointPages y x) :
    Vacant x.1.height (item x).key (table f c) := by
  rw [hm.built.vacant _ _ x.1.height_le]
  intro i hi
  obtain ⟨y, hy, rfl⟩ := List.mem_map.1 hi
  exact not_agree_of_disjoint (hdone y hy) hx (hd y hy)

theorem Mapped.missing_eq (hm : Mapped f c done w) (hdone : ∀ y ∈ done, InWindow y)
    (hx : InWindow x) (hvacant : Vacant x.1.height (item x).key (table f c)) :
    missing x.1.height (item x).key (table f c) = newTables done x := by
  rw [missing_eq_count hvacant, range_succ, filter_append, newTables]
  have hlast : [2].filter (fun j => decide (x.1.height ≤ j) &&
      !hasTable (j + 1) (item x).key (table f c)) = [] := by
    simp
  rw [hlast, append_nil]
  refine congrArg List.length (filter_congr fun j hj => ?_)
  have hj' : j + 1 ≤ 2 := mem_range.1 hj
  congr 2
  rw [Bool.eq_iff_iff, hm.built.tables _ _ hj', List.any_eq_true]
  simp only [List.mem_map, Bool.and_eq_true, decide_eq_true_eq]
  constructor
  · rintro ⟨i, ⟨y, hy, rfl⟩, hlt, hagree⟩
    exact ⟨y, hy, le_of_lt_succ hlt, (agree_iff_div hj' (hdone y hy).lt hx.lt).1 hagree⟩
  · rintro ⟨y, hy, hle, heq⟩
    exact ⟨item y, ⟨y, hy, rfl⟩, lt_succ_of_le hle,
      (agree_iff_div hj' (hdone y hy).lt hx.lt).2 heq⟩

theorem Mapped.supplied (hm : Mapped f c done w) : w.Supplied (.table f c) where
  nodup := hm.nodup
  fresh g hg hmem := (hm.fresh g hg).1 (hm.used g hmem)
  ok g hg := (hm.fresh g hg).2

theorem Mapped.mapAt_cases (size : PageSize) {p : Nat} (v : Nat) (flags : MemoryMappingFlags)
    (hm : Mapped f c done w) (hp : frameOk p = true)
    (hvacant : Vacant size.height (addressKey v) (table f c)) :
    (∃ taken y w', w.mapAt size.level (3 - size.level) f v p flags = some (.ok ⟨v⟩, w') ∧
        Inserts size.height (addressKey v) (p, flags) (.table f c) taken y ∧
        w.Outcome f taken y w') ∨
      w.mapAt size.level (3 - size.level) f v p flags = none ∧
        w.supply.length < missing size.height (addressKey v) (.table f c) := by
  have hn : size.height + (3 - size.level) = 2 := by
    cases size <;> rfl
  have hlevel : size.level = size.height + 1 := by
    cases size <;> rfl
  have hcases := TableFrames.mapAt_cases (a := v) flags hn hm.stored hm.apart
    hm.supplied hp
  rw [← hlevel] at hcases
  rcases hcases with hok | hnone | ⟨-, hno⟩
  · exact .inl hok
  · exact .inr hnone
  · exact absurd hvacant hno

theorem InWindow.newPage_eq (hx : InWindow x) : newPage x.1 x.2 = some x.2 ∧
    newPage x.1 (x.2 + physMapOffset) = some (x.2 + physMapOffset) ∧ frameOk x.2 = true := by
  obtain ⟨hpos, haligned, hbelow⟩ := hx
  unfold windowSize at hbelow
  have h4 : x.2 % 0x1000 = 0 := by
    have hdvd : PageSize.size4KB.bytes ∣ x.1.bytes := by
      cases x.1 <;> decide
    exact mod_of_dvd hdvd haligned
  have hoffset : (x.2 + physMapOffset) % x.1.bytes = 0 := by
    have hbase : physMapOffset % x.1.bytes = 0 := by
      cases x.1 <;> decide
    rw [add_mod, haligned, hbase]
    simp
  have hok : pageOk x.2 = true := pageOk_iff.2 ⟨h4, hpos, .inl (by omega)⟩
  have hok' : pageOk (x.2 + physMapOffset) = true := by
    unfold physMapOffset
    exact pageOk_iff.2 ⟨by omega, by omega, .inr ⟨by omega, by omega⟩⟩
  refine ⟨?_, ?_, decide_eq_true ⟨hok, by omega⟩⟩
  · rw [newPage, if_pos ⟨by rw [PageSize.and_mask, haligned], hok⟩]
  · rw [newPage, if_pos ⟨by rw [PageSize.and_mask, hoffset], hok'⟩]

theorem Mapped.mapChunk (hm : Mapped f c done w) (hdone : ∀ y ∈ done, InWindow y)
    (hx : InWindow x) (hd : ∀ y ∈ done, DisjointPages y x) :
    (∃ w' c', w.mapChunk f x = some w' ∧ Mapped f c' (done ++ [x]) w' ∧
        w.supply.length = newTables done x + w'.supply.length) ∨
      w.mapChunk f x = none ∧ w.supply.length < newTables done x := by
  obtain ⟨hp, hv, hok⟩ := hx.newPage_eq
  have hvacant := hm.vacant hdone hx hd
  rw [TableFrames.mapChunk, hp, bind_eq_bind, bind_some, hv, bind_some,
    ← hm.missing_eq hdone hx hvacant]
  rcases hm.mapAt_cases x.1 (x.2 + physMapOffset) ⟨true, false⟩ hok hvacant with
    ⟨taken, y, w', hw', hins, hout⟩ | ⟨hnone, hshort⟩
  · obtain ⟨c', rfl, hc'⟩ := hout.stored
    have hlength : taken.length = missing x.1.height (item x).key (table f c) := hins.length_taken
    have hnodup : (taken ++ w'.supply).Nodup := hout.supply ▸ hm.nodup
    obtain ⟨htaken, hrest, hdisjoint⟩ := nodup_append.1 hnodup
    have hfresh : ∀ g ∈ taken ++ w'.supply, g ∉ w.used ∧ frameOk g = true := hout.supply ▸ hm.fresh
    refine .inl ⟨w', c', by rw [hw'],
      ⟨hc', ?_, fun g hg => ?_, hrest, fun g hg => ⟨?_, ?_⟩, ?_⟩, ?_⟩
    · exact hins.apart hm.apart htaken fun g hg hmem =>
        (hfresh g (mem_append_left _ hg)).1 (hm.used g hmem)
    · rw [hout.used, mem_append, mem_reverse]
      exact (hins.mem_frames_iff.1 hg).symm.imp_right (hm.used g)
    · rw [hout.used, mem_append, mem_reverse]
      rintro (hmem | hmem)
      · exact hdisjoint g hmem g hg rfl
      · exact (hfresh g (mem_append_right _ hg)).1 hmem
    · exact (hfresh g (mem_append_right _ hg)).2
    · rw [map_append]
      exact hm.built.insert (a := item x) hins
    · rw [hout.supply, length_append, hlength]
  · rw [hnone]
    exact .inr ⟨rfl, hshort⟩

theorem Mapped.mapChunks (hm : Mapped f c done w) (hin : ∀ x ∈ done ++ rest, InWindow x)
    (hd : (done ++ rest).Pairwise DisjointPages) :
    (∃ w' c', w.mapChunks f rest = some w' ∧ Mapped f c' (done ++ rest) w' ∧
        tableCount done rest ≤ w.supply.length) ∨
      w.mapChunks f rest = none ∧ w.supply.length < tableCount done rest := by
  induction rest generalizing done c w with
  | nil => exact .inl ⟨w, c, rfl, by rwa [append_nil], Nat.zero_le _⟩
  | cons x rest ih =>
    have hbefore : ∀ y ∈ done, DisjointPages y x :=
      fun y hy => (pairwise_append.1 hd).2.2 y hy x mem_cons_self
    have hchunk := hm.mapChunk (fun y hy => hin y (mem_append_left _ hy))
      (hin x (mem_append_right _ mem_cons_self)) hbefore
    rw [show done ++ x :: rest = (done ++ [x]) ++ rest by simp] at hin hd ⊢
    simp only [TableFrames.mapChunks, tableCount]
    rcases hchunk with ⟨w₁, c1, hw1, hm1, hlength⟩ | ⟨hnone, hshort⟩
    · rw [hw1]
      rcases ih hm1 hin hd with ⟨w', c', hw', hm', hle⟩ | ⟨hnone, hshort⟩
      · exact .inl ⟨w', c', hw', hm', by omega⟩
      · exact .inr ⟨hnone, by omega⟩
    · rw [hnone]
      exact .inr ⟨rfl, by omega⟩

theorem Mapped.translate (hm : Mapped f c done w) (hkeep : ∀ g ∈ w.used, w'.entry g = w.entry g)
    (hx : x ∈ done) (hin : InWindow x) (ha : CoversAddress x a) :
    w'.translate 2 f (physMapOffset + a) = some a := by
  have hstored : w'.Stores f c := hm.stored.congr fun g hg => hkeep g (hm.used g hg)
  have hlookup := hm.built.lookup (item x) (List.mem_map.2 ⟨x, hx, rfl⟩) _ (agree_of_covers hin ha)
  rw [Nat.add_comm, hstored.translate_eq, hlookup]
  have hoffset : (a + physMapOffset) % x.1.bytes = a % x.1.bytes := by
    have hbase : x.1.bytes ∣ physMapOffset := by
      cases x.1 <;> decide
    obtain ⟨k, hk⟩ := hbase
    rw [hk, add_mul_mod_self_left]
  have hpage : x.2 + a % x.1.bytes = a := by
    obtain ⟨k, hk⟩ := dvd_of_mod_eq_zero hin.aligned
    obtain ⟨hle, hlt⟩ := ha
    have hrest : a = x.1.bytes * k + (a - x.2) := by omega
    rw [hrest, mul_add_mod, mod_eq_of_lt (by omega), hk]
  rw [map_some]
  show some (x.2 + (a + physMapOffset) % entrySize x.1.height) = some a
  rw [x.1.entrySize_height, hoffset, hpage]

/-! ## The regions -/

namespace MemoryDescriptor

def Covers (r : MemoryDescriptor) (a : Nat) : Prop :=
  r.physStart ≤ a ∧ a < r.physStart + r.pageCount * 0x1000

/-- What a region is cut into, without the zero page. -/
def chunks (r : MemoryDescriptor) : Option Chunks :=
  getChunkedPageRange (max r.physStart 0x1000) (r.physStart + r.pageCount * 0x1000)

def chunkPages (r : MemoryDescriptor) : List (PageSize × Nat) := (r.chunks.map Chunks.pages).getD []

variable {r : MemoryDescriptor}

theorem chunks_isSome_iff (hr : r.physStart % 0x1000 = 0) :
    r.chunks.isSome = true ↔ ¬ (r.physStart = 0 ∧ r.pageCount = 0) := by
  constructor
  · rintro hsome ⟨hstart, hcount⟩
    have hnone : getChunkedPageRange 0x1000 0 = none := by decide
    rw [chunks, hstart, hcount] at hsome
    rw [show max 0 0x1000 = 0x1000 from rfl, Nat.zero_mul, hnone] at hsome
    cases hsome
  · intro hne
    obtain ⟨c, hc, -⟩ : ∃ c, getChunkedPageRange (max r.physStart 0x1000)
        (r.physStart + r.pageCount * 0x1000) = some c ∧ _ :=
      getChunkedPageRange_partition (by omega) (by omega) (by omega)
    rw [chunks, hc]
    rfl

theorem chunkPages_partition (hr : r.physStart % 0x1000 = 0) (hsome : r.chunks.isSome = true) :
    Partition (fun a => r.Covers a ∧ 0x1000 ≤ a) r.chunkPages := by
  have hne := (chunks_isSome_iff hr).1 hsome
  obtain ⟨c, hc, hpart⟩ : ∃ c, getChunkedPageRange (max r.physStart 0x1000)
      (r.physStart + r.pageCount * 0x1000) = some c ∧ _ :=
    getChunkedPageRange_partition (by omega) (by omega) (by omega)
  have hpages : r.chunkPages = c.pages := by
    rw [chunkPages, chunks, hc]
    rfl
  rw [hpages]
  refine hpart.congr fun a => ?_
  unfold Covers
  omega

end MemoryDescriptor

/-- A memory map of UEFI that passes the assertion of `create_offset_map`. -/
structure MemoryMap where
  regions : List MemoryDescriptor
  aligned : ∀ r ∈ regions, r.physStart % 0x1000 = 0
  disjoint : regions.Pairwise fun r s => ∀ a, r.Covers a → ¬ s.Covers a
  inRange : ∀ r ∈ regions, TableFrames.inRange r = true

namespace MemoryMap

/-- The pages in the order in which they are mapped. -/
def pages (m : MemoryMap) : List (PageSize × Nat) := m.regions.flatMap MemoryDescriptor.chunkPages

/-- Each region is cut without an overflow, and ends in the window. -/
structure Fits (m : MemoryMap) : Prop where
  cut : ∀ r ∈ m.regions, ¬ (r.physStart = 0 ∧ r.pageCount = 0)
  ends : ∀ r ∈ m.regions, r.pageCount ≠ 0 → r.physStart + r.pageCount * 0x1000 ≤ windowSize

variable {m : MemoryMap}

theorem partition_flatMap {l : List MemoryDescriptor}
    (hpart : ∀ r ∈ l, Partition (fun a => r.Covers a ∧ 0x1000 ≤ a) r.chunkPages)
    (hd : l.Pairwise fun r s => ∀ a, r.Covers a → ¬ s.Covers a) :
    Partition (fun a => (∃ r ∈ l, r.Covers a) ∧ 0x1000 ≤ a)
      (l.flatMap MemoryDescriptor.chunkPages) := by
  induction l with
  | nil => exact Partition.nil.congr fun a => by simp
  | cons r l ih =>
    obtain ⟨hr, hl⟩ := pairwise_cons.1 hd
    have htail := ih (fun s hs => hpart s (.tail r hs)) hl
    have hboth := (hpart r mem_cons_self).append htail (by
      rintro a ⟨ha, -⟩ ⟨⟨s, hs, hsa⟩, -⟩
      exact hr s hs a ha hsa)
    refine hboth.congr fun a => ?_
    simp only [mem_cons, exists_eq_or_imp]
    tauto

theorem Fits.partition (hm : m.Fits) :
    Partition (fun a => (∃ r ∈ m.regions, r.Covers a) ∧ 0x1000 ≤ a) m.pages :=
  partition_flatMap (fun r hr => MemoryDescriptor.chunkPages_partition (m.aligned r hr)
    ((MemoryDescriptor.chunks_isSome_iff (m.aligned r hr)).2 (hm.cut r hr))) m.disjoint

theorem Fits.inWindow (hm : m.Fits) : ∀ x ∈ m.pages, InWindow x := by
  intro x hx
  have hpos := x.1.bytes_pos
  have hfirst := hm.partition.mem hx (a := x.2) ⟨Nat.le_refl _, by omega⟩
  have hlast := hm.partition.mem hx (a := x.2 + (x.1.bytes - 1)) ⟨by omega, by omega⟩
  obtain ⟨⟨r, hr, hstart, hend⟩, -⟩ := hlast
  have hcount : r.pageCount ≠ 0 := by
    intro hzero
    rw [hzero] at hend
    omega
  have hends := hm.ends r hr hcount
  exact ⟨by omega, hm.partition.aligned x hx, by omega⟩

end MemoryMap

namespace TableFrames

theorem mapChunks_append {l l' : List (PageSize × Nat)} :
    w.mapChunks f (l ++ l') = (w.mapChunks f l).bind fun w => w.mapChunks f l' := by
  induction l generalizing w with
  | nil => rfl
  | cons x l ih =>
    simp only [cons_append, mapChunks]
    cases w.mapChunk f x with
    | none => rfl
    | some => exact ih

theorem mapRegion_eq {r : MemoryDescriptor} (hr : inRange r = true) :
    w.mapRegion f r = r.chunks.bind fun c => w.mapChunks f c.pages := by
  simp only [mapRegion, hr, if_true, bind_eq_bind]
  rfl

theorem createOffsetMap_eq {l : List MemoryDescriptor} (hl : ∀ r ∈ l, inRange r = true)
    (hcut : ∀ r ∈ l, r.chunks.isSome = true) :
    w.createOffsetMap f l = w.mapChunks f (l.flatMap MemoryDescriptor.chunkPages) := by
  induction l generalizing w with
  | nil => rfl
  | cons r l ih =>
    obtain ⟨c, hc⟩ := isSome_iff_exists.1 (hcut r mem_cons_self)
    have hpages : r.chunkPages = c.pages := by
      rw [MemoryDescriptor.chunkPages, hc]
      rfl
    rw [createOffsetMap, mapRegion_eq (hl r mem_cons_self), hc, bind_some,
      flatMap_cons, hpages, mapChunks_append]
    cases w.mapChunks f c.pages with
    | none => rfl
    | some =>
      exact ih (fun s hs => hl s (.tail r hs))
        fun s hs => hcut s (.tail r hs)

theorem chunks_of_createOffsetMap {l : List MemoryDescriptor} (hl : ∀ r ∈ l, inRange r = true)
    (hw : w.createOffsetMap f l = some w') : ∀ r ∈ l, r.chunks.isSome = true := by
  induction l generalizing w with
  | nil => simp
  | cons r l ih =>
    rw [createOffsetMap, mapRegion_eq (hl r mem_cons_self)] at hw
    intro s hs
    cases hc : r.chunks with
    | none =>
      rw [hc] at hw
      cases hw
    | some =>
      rw [hc, bind_some] at hw
      split at hw
      · cases hw
      · rename_i w₁ _
        rcases mem_cons.1 hs with rfl | hs
        · rw [hc]
          rfl
        · exact ih (fun s hs => hl s (.tail r hs)) hw s hs

/-! ## Tables of level 4 -/

theorem setGlobal_spec {g t address : Nat} {i : Fin 512} (ht : frameOk t = true)
    (hi : calculateIndex 4 address = i) : ∃ e, w.setGlobal g address t = some (w.setEntry g i e) ∧
      e.present = true ∧ e.largerPages = (w.entry g i).largerPages ∧ e.getAddress = t := by
  obtain ⟨e, he, heq, haddress⟩ := setAddress_frameOk (f := t)
    (e := { w.entry g i with
      present := true
      readWrite := true
      userSuper := false }) ht
  refine ⟨e, ?_, by rw [heq], by rw [heq], haddress⟩
  simp only [setGlobal, hi, he, map_some]

/-- The tables shared by all address spaces are frames of physical memory. -/
structure GlobalMaps.Ok (maps : GlobalMaps) : Prop where
  offsetMap : frameOk maps.offsetMap = true
  kernelDataMap : frameOk maps.kernelDataMap = true
  kernelHeapMap : frameOk maps.kernelHeapMap = true
  perCpuMap : frameOk maps.perCpuMap = true

/-- What `new_with_global` makes of the new frame `g`. -/
structure NewTable (w : TableFrames) (maps : GlobalMaps) (g : Nat) (w' : TableFrames) : Prop where
  others : ∀ h, h ≠ g → w'.entry h = w.entry h
  window : (w'.entry g 448).present = true ∧ (w'.entry g 448).largerPages = false ∧
    (w'.entry g 448).getAddress = maps.offsetMap
  unset : ∀ i, i ≠ 448 → i ≠ 511 → i ≠ 510 → i ≠ 344 → (w'.entry g i).present = false

theorem newWithGlobal_spec {maps : GlobalMaps} {g : Nat} {supply : List Nat} (hmaps : maps.Ok)
    (hw : w.supply = g :: supply) :
    ∃ w', w.newWithGlobal maps = some (g, w') ∧ NewTable w maps g w' := by
  obtain ⟨w₁, hw1⟩ : ∃ w₁, w₁ = TableFrames.mk (Function.update w.entry g fun _ => .zero)
    (g :: w.used) supply := ⟨_, rfl⟩
  have hzero : w₁.entry g = fun _ => .zero := by
    rw [hw1]
    exact update_self ..
  obtain ⟨e1, h₁, hp1, hl1, ha1⟩ := setGlobal_spec (w := w₁) (g := g) (i := 448)
    hmaps.offsetMap (show calculateIndex 4 physMapOffset = 448 by decide)
  obtain ⟨e2, h₂, -⟩ := setGlobal_spec (w := w₁.setEntry g 448 e1) (g := g) (i := 511)
    hmaps.kernelDataMap (show calculateIndex 4 kernelStart = 511 by decide)
  obtain ⟨e3, h3, -⟩ := setGlobal_spec (w := (w₁.setEntry g 448 e1).setEntry g 511 e2) (g := g)
    (i := 510) hmaps.kernelHeapMap (show calculateIndex 4 kernelHeap = 510 by decide)
  obtain ⟨e4, h₄, -⟩ := setGlobal_spec (g := g) (i := 344)
    (w := ((w₁.setEntry g 448 e1).setEntry g 511 e2).setEntry g 510 e3)
    hmaps.perCpuMap (show calculateIndex 4 perCpuMem = 344 by decide)
  refine ⟨(((w₁.setEntry g 448 e1).setEntry g 511 e2).setEntry g 510 e3).setEntry g 344 e4,
    ?_, ?_, ?_, ?_⟩
  · rw [newWithGlobal, allocatePage_eq_some hw, ← hw1]
    simp only [bind_eq_bind, bind_some, h₁, h₂, h3, h₄, Option.pure_def]
  · intro h hh
    rw [setEntry_frame hh, setEntry_frame hh, setEntry_frame hh, setEntry_frame hh, hw1]
    exact update_of_ne hh _ _
  · rw [setEntry_of_ne (by decide), setEntry_of_ne (by decide), setEntry_of_ne (by decide),
      setEntry_self]
    refine ⟨hp1, ?_, ha1⟩
    rw [hl1, hzero]
    rfl
  · intro i h448 h511 h510 h344
    rw [setEntry_of_ne h344, setEntry_of_ne h510, setEntry_of_ne h511, setEntry_of_ne h448, hzero]
    rfl

end TableFrames

/-! ## The window -/

/-- The memory at boot: `OFFSET_MAP` is empty, and the allocator returns frames that are not in use,
    each of them once. -/
structure BootMemory where
  frames : TableFrames
  maps : TableFrames.GlobalMaps
  mapsOk : maps.Ok
  empty : ∀ i, (frames.entry maps.offsetMap i).present = false
  used : maps.offsetMap ∈ frames.used
  nodup : frames.supply.Nodup
  ok : ∀ g ∈ frames.supply, frameOk g = true
  unused : ∀ g ∈ frames.supply, g ∉ frames.used

/-- The frames in use keep their contents, and the allocator does not return them. -/
def Later (w w₁ : TableFrames) : Prop := ∀ g ∈ w.used, w₁.entry g = w.entry g ∧ g ∉ w₁.supply

/-- `create_offset_map` succeeds, and in each table of level 4 made afterwards the bytes of the
    regions, but for the zero page, are behind `PhysMapOffset`. -/
def WindowRight (m : MemoryMap) (b : BootMemory) : Prop :=
  ∃ w, b.frames.createOffsetMap b.maps.offsetMap m.regions = some w ∧
    ∀ w₁, Later w w₁ → ∀ table w₂, w₁.newWithGlobal b.maps = some (table, w₂) →
      ∀ r ∈ m.regions, ∀ a, r.Covers a → 0x1000 ≤ a →
        w₂.translate 3 table (physMapOffset + a) = some a

namespace BootMemory

variable {m : MemoryMap} {b : BootMemory}

theorem mapped_nil (b : BootMemory) :
    Mapped b.maps.offsetMap (fun _ => .empty) [] b.frames where
  stored := b.empty
  apart := by simp
  used g hg := by
    obtain rfl : g = b.maps.offsetMap := by simpa using hg
    exact b.used
  nodup := b.nodup
  fresh g hg := ⟨b.unused g hg, b.ok g hg⟩
  built := Built.nil

theorem createOffsetMap_cases (hm : m.Fits) :
    (∃ w c, b.frames.createOffsetMap b.maps.offsetMap m.regions = some w ∧
        Mapped b.maps.offsetMap c m.pages w ∧
        tableCount [] m.pages ≤ b.frames.supply.length) ∨
      b.frames.createOffsetMap b.maps.offsetMap m.regions = none ∧
        b.frames.supply.length < tableCount [] m.pages := by
  have hcut : ∀ r ∈ m.regions, r.chunks.isSome = true := fun r hr =>
    (MemoryDescriptor.chunks_isSome_iff (m.aligned r hr)).2 (hm.cut r hr)
  rw [TableFrames.createOffsetMap_eq m.inRange hcut]
  exact b.mapped_nil.mapChunks hm.inWindow hm.partition.disjoint

theorem translate_window {w w' : TableFrames} {maps : TableFrames.GlobalMaps} {g a : Nat}
    (hg : w.NewTable maps g w') (ha : a < windowSize) : w'.translate 3 g (physMapOffset + a)
      = w'.translate 2 maps.offsetMap (physMapOffset + a) := by
  have hindex : calculateIndex 4 (physMapOffset + a) = 448 := by
    refine Fin.ext ?_
    show (physMapOffset + a) >>> (4 * 9 + 3) % 512 = 448
    rw [shiftRight_eq_div_pow]
    unfold windowSize at ha
    unfold physMapOffset
    omega
  obtain ⟨hpresent, hlarge, haddress⟩ := hg.window
  simp only [TableFrames.translate, hindex, hpresent, hlarge, haddress, if_true, Bool.false_eq_true,
    if_false]

theorem translate_above {w w' : TableFrames} {maps : TableFrames.GlobalMaps} {g a : Nat}
    (hg : w.NewTable maps g w') (ha : windowSize ≤ a) (hlt : a < 0x100000000000) :
    w'.translate 3 g (physMapOffset + a) = none := by
  have hindex : (calculateIndex 4 (physMapOffset + a)).val = 448 + a / windowSize := by
    show (physMapOffset + a) >>> (4 * 9 + 3) % 512 = _
    rw [shiftRight_eq_div_pow]
    unfold physMapOffset windowSize at *
    omega
  have hunset : ∀ i : Fin 512, i.val = 448 + a / windowSize → (w'.entry g i).present = false := by
    unfold windowSize at *
    intro i hi
    have h448 : (448 : Fin 512).val = 448 := rfl
    have h511 : (511 : Fin 512).val = 511 := rfl
    have h510 : (510 : Fin 512).val = 510 := rfl
    have h344 : (344 : Fin 512).val = 344 := rfl
    refine hg.unset i ?_ ?_ ?_ ?_ <;>
      · intro heq
        rw [heq] at hi
        omega
  simp only [TableFrames.translate, hunset _ hindex, Bool.false_eq_true, if_false]

theorem fits_of_windowRight (h : WindowRight m b) : m.Fits := by
  obtain ⟨w, hw, hwindow⟩ := h
  refine ⟨fun r hr => ?_, fun r hr hcount => ?_⟩
  · exact (MemoryDescriptor.chunks_isSome_iff (m.aligned r hr)).1
      (TableFrames.chunks_of_createOffsetMap m.inRange hw r hr)
  · by_contra hend
    have hstart : r.physStart + r.pageCount * 1000 ≤ endPhysMapOffset - physMapOffset :=
      of_decide_eq_true (m.inRange r hr)
    have hrange : r.physStart < 0x100000000000 := by
      unfold endPhysMapOffset physMapOffset at hstart
      omega
    -- a table of level 4 that is made right after
    obtain ⟨g, hg⟩ := Infinite.exists_notMem_finset w.used.toFinset
    rw [List.mem_toFinset] at hg
    have hlater : Later w { w with supply := [g] } := by
      intro g' hg'
      refine ⟨rfl, fun hmem => hg ?_⟩
      rwa [← mem_singleton.1 hmem]
    obtain ⟨w₂, hw2, hnew⟩ := TableFrames.newWithGlobal_spec (w := { w with supply := [g] })
      b.mapsOk rfl
    unfold windowSize at hend
    have hcovers : r.Covers (max r.physStart windowSize) := by
      unfold MemoryDescriptor.Covers windowSize
      omega
    have hsome := hwindow _ hlater g w₂ hw2 r hr _ hcovers (by unfold windowSize; omega)
    rw [translate_above hnew (Nat.le_max_right _ _) (by unfold windowSize; omega)] at hsome
    cases hsome

theorem windowRight_of_fits (hm : m.Fits)
    (htables : tableCount [] m.pages ≤ b.frames.supply.length) : WindowRight m b := by
  obtain ⟨w, c, hw, hc, -⟩ :=
    (createOffsetMap_cases hm).resolve_right fun h => Nat.not_lt.2 htables h.2
  refine ⟨w, hw, ?_⟩
  intro w₁ hlater table w₂ hw2 r hr a ha hle
  obtain ⟨x, hx, hxa⟩ := (hm.partition.covers a).2 ⟨⟨r, hr, ha⟩, hle⟩
  have hin := hm.inWindow x hx
  have hlt : a < windowSize := Nat.lt_of_lt_of_le hxa.2 hin.below
  cases hsupply : w₁.supply with
  | nil =>
    simp [TableFrames.newWithGlobal, TableFrames.allocatePage, hsupply] at hw2
  | cons g =>
    obtain ⟨w3, hw3, hnew⟩ := TableFrames.newWithGlobal_spec b.mapsOk hsupply
    obtain ⟨rfl, rfl⟩ := Prod.mk.inj (Option.some.inj (hw2.symm.trans hw3))
    rw [translate_window hnew hlt]
    refine hc.translate (fun g hg => ?_) hx hin hxa
    obtain ⟨hsame, hfree⟩ := hlater g hg
    rw [hnew.others g fun heq => hfree (by rw [hsupply, heq]; simp), hsame]

end BootMemory

/-- The window is right exactly if each region ends in the 512 GiB that `OFFSET_MAP` covers, none of
    them is empty at 0, and the allocator has the tables. The assertion on the regions admits those
    up to 16 TiB. -/
theorem createOffsetMap_window_iff (m : MemoryMap) (b : BootMemory) :
    WindowRight m b ↔ m.Fits ∧ tableCount [] m.pages ≤ b.frames.supply.length := by
  constructor
  · intro h
    have hm := BootMemory.fits_of_windowRight h
    obtain ⟨w, hw, -⟩ := h
    rcases BootMemory.createOffsetMap_cases hm with ⟨-, -, -, -, hle⟩ | ⟨hnone, -⟩
    · exact ⟨hm, hle⟩
    · cases hnone.symm.trans hw
  · rintro ⟨hm, htables⟩
    exact BootMemory.windowRight_of_fits hm htables

/-- One page of memory at 512 GiB. -/
def highMap : MemoryMap where
  regions := [⟨true, 0x8000000000, 1⟩]
  aligned := by decide
  disjoint := pairwise_singleton _ _
  inRange := by decide

def emptyBoot : BootMemory where
  frames := ⟨fun _ _ => .zero, [0x1000, 0x2000, 0x3000, 0x4000],
    [0x5000, 0x6000, 0x7000, 0x8000, 0x9000]⟩
  maps := ⟨0x1000, 0x2000, 0x3000, 0x4000⟩
  mapsOk := ⟨by decide, by decide, by decide, by decide⟩
  empty := fun _ => rfl
  used := by decide
  nodup := by decide
  ok := by decide
  unused := by decide

/-- The translation of an address of the window in a table of level 4 that is made after the regions
    have been mapped. -/
def walkAfter (b : BootMemory) (regions : List MemoryDescriptor) (a : Nat) :
    Option (Option Nat) := do
  let w ← b.frames.createOffsetMap b.maps.offsetMap regions
  let (g, w) ← w.newWithGlobal b.maps
  return w.translate 3 g (physMapOffset + a)

/-- The page at 512 GiB is not mapped. With a page at 0x1000, its place in `OFFSET_MAP` is taken and
    `create_offset_map` panics, as it does for an empty region at 0. -/
theorem highMap_window_wrong : walkAfter emptyBoot highMap.regions 0x8000000000 = some none ∧
    walkAfter emptyBoot [⟨true, 0x1000, 1⟩] 0x1000 = some (some 0x1000) ∧
    walkAfter emptyBoot [⟨true, 0x1000, 1⟩, ⟨true, 0x8000001000, 1⟩] 0x1000 = none ∧
    walkAfter emptyBoot [⟨true, 0, 0⟩] 0x1000 = none ∧ ¬ WindowRight highMap emptyBoot := by
  refine ⟨by decide +kernel, by decide +kernel, by decide +kernel, by decide +kernel, fun h => ?_⟩
  have hends := (BootMemory.fits_of_windowRight h).ends ⟨true, 0x8000000000, 1⟩ (by decide)
    (by decide)
  exact absurd hends (by decide)

end Fioxa.Paging
