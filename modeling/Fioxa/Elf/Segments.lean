import Mathlib.Algebra.GroupWithZero.Nat
import Fioxa.Elf.Fill
import Fioxa.Paging.KernelMappings
import Fioxa.Paging.Totality

/-! # Loading segments

What the new process looks like after some of its segments have been loaded (`Holds`), and under
which conditions the loop over the program headers loads the next one (`Loads`). `insert_mapping_at`
refuses a range that overlaps with one that is there, which `load_elf` returns as an error. Its test
is not exact: a range is also refused when it ends where another one starts, and an empty range at
the same address makes it panic. -/

namespace Fioxa.Elf

open Faults Paging PageMapperManager List Nat
open TableSystem (frameOk)
open Elf64Phdr (pType pMemsz pVaddr pFlags pOffset pFilesz)

/-! ## The program headers -/

/-- The program headers that the loop goes through. -/
def visited (data : List UInt8) : List Nat :=
  stepBy (Elf64Ehdr.ePhoff.value data 0)
    (Elf64Ehdr.ePhnum.value data 0 * Elf64Ehdr.ePhentsize.value data 0)
    (Elf64Ehdr.ePhentsize.value data 0)

def privilegeOf (kernel : Bool) : ProcessPrivilige := if kernel then .kernel else .user

/-- The segments among these headers. -/
def segmentsOf (data : List UInt8) (headers : List Nat) : List Segment :=
  (headers.filter fun header => pType.value data header = ptLoad).map (segmentAt data)

/-! ## What has been taken -/

/-- The ranges of the new process: those of `Process::new`, and the segments. -/
def taken (hpet : Option Nat) (gs : List Segment) : List (Nat × Nat) :=
  kernelRanges hpet [] ++ gs.map fun g => (g.start, g.stop)

/-- A new range can be inserted. -/
def Free (ranges : List (Nat × Nat)) (start stop : Nat) : Prop :=
  ∀ r ∈ ranges, (r.2 ≤ start ∨ stop < r.1) ∧ r.1 ≠ start

/-- A new range is refused. -/
def Blocked (ranges : List (Nat × Nat)) (start stop : Nat) : Prop :=
  ∃ r ∈ ranges, start < r.2 ∧ r.1 ≤ stop

/-- The pages that have been allocated for segments. -/
def usedBy (gs : List Segment) : Nat := (gs.map Segment.used).sum

/-- The list entries that have been allocated for segments. -/
def slots (gs : List Segment) : Nat := (gs.map fun g => pageCount g.size).sum

def Segment.range (g : Segment) (object : Nat) : MappedRange := ⟨g.start, g.stop, object, g.flags⟩

/-- The header of a segment is inside the file, the end of the segment is an address, and the heap
    has room for the list of its pages. -/
structure Mappable (e : Loader) (data : List UInt8) (gs : List Segment) (header : Nat) : Prop where
  inside : pMemsz.Inside data header
  bound : (segmentAt data header).stop < 0x10000000000000000
  heap : slots (gs ++ [segmentAt data header]) ≤ e.heap

/-- The segment can be loaded after the segments `gs`. -/
structure Loads (e : Loader) (data : List UInt8) (gs : List Segment) (header : Nat) : Prop
    extends Mappable e data gs header where
  free : Free (taken e.hpet gs) (segmentAt data header).start (segmentAt data header).stop
  fits : (segmentAt data header).Fits e.mapper data (e.supply.length - usedBy gs)

section

variable {gs : List Segment} {g : Segment}

theorem usedBy_append : usedBy (gs ++ [g]) = usedBy gs + g.used := by
  simp [usedBy]

theorem slots_append : slots (gs ++ [g]) = slots gs + pageCount g.size := by
  simp [slots]

end

namespace Loading

/-! ## The state after some segments -/

/-- The segments `gs` have been loaded into the process `p₀`, and the loader is as it was before. -/
structure Holds (e : Loader) (data : List UInt8) (p₀ : Paging.Process) (gs : List Segment)
    (s : Loading) : Prop where
  loader : s.loader = e.mapper
  heap : s.heap + slots gs = e.heap
  supply : s.supply = e.supply.drop (usedBy gs)
  enough : usedBy gs ≤ e.supply.length
  count : s.objects.length = e.objects.length + gs.length
  process : s.process = { p₀ with pageMapper := s.process.pageMapper }
  table : s.process.pageMapper.pageMapper = p₀.pageMapper.pageMapper
  ordered : Ordered s.process.pageMapper.mappings
  ranges : ∀ x, x ∈ s.process.pageMapper.mappings ↔ x ∈ p₀.pageMapper.mappings ∨
    ∃ (k : Nat) (g : Segment), gs[k]? = some g ∧ x = g.range (e.objects.length + k)
  /-- The mappings have their pages from the allocator. -/
  pages : ∀ (k : Nat) (g : Segment), gs[k]? = some g → ∃ pages,
    s.objects[e.objects.length + k]? = some ⟨g.size, .lazyMapping pages⟩ ∧
      pages.length = pageCount g.size ∧ ∀ page, some page ∈ pages → page ∈ e.supply.take (usedBy gs)
  contents : ∀ (k : Nat) (g : Segment), gs[k]? = some g → ∀ offset < g.size,
    s.peek (e.objects.length + k) offset = some (image g.shift (g.contents data) offset)

variable {e : Loader} {data : List UInt8} {privilege : ProcessPrivilige} {p₀ : Paging.Process}
  {gs : List Segment} {g : Segment} {s s' : Loading} {header object offset t : Nat}
  {img : Nat → UInt8}

theorem holds_start (hp : Paging.Process.new privilege e.hpet = some p₀) :
    Holds e data p₀ [] (e.start p₀) where
  loader := rfl
  heap := rfl
  supply := rfl
  enough := Nat.zero_le _
  count := rfl
  process := rfl
  table := rfl
  ordered := Paging.Process.new_ordered hp
  ranges x := by simp [Loader.start]
  pages k g hk := by cases hk
  contents k g hk := by cases hk

/-! ### Bytes of a mapping -/

theorem Filled.peek {size : Nat} (h : Filled s object size t img s')
    (hobject : object < s.objects.length) (ht : ∀ i, 0x1000 * t ≤ i → img i = 0)
    (hoffset : offset < size) : s'.peek object offset = some (img offset) := by
  have hk : offset / 0x1000 < pageCount size := by
    unfold pageCount
    omega
  have hget : s'.objects[object]? = some ⟨size, .lazyMapping
      (usedPages s.supply t (pageCount size))⟩ := by
    rw [h.objects, List.getElem?_set_self hobject]
  simp only [Loading.peek, hget, getElem?_usedPages hk]
  by_cases hlt : offset / 0x1000 < t
  · have hpage := List.getElem?_eq_getElem (Nat.lt_of_lt_of_le hlt h.enough)
    have hwritten := h.written _ _ _ hlt hpage (mod_lt offset (by decide))
    rw [div_add_mod] at hwritten
    simp only [hlt, if_true, hpage, hwritten]
  · simp only [hlt, if_false]
    rw [ht offset (by omega)]

theorem peek_congr {n : Nat} {pages : List (Option Nat)}
    (hget : s.objects[object]? = some ⟨n, .lazyMapping pages⟩)
    (hget' : s'.objects[object]? = some ⟨n, .lazyMapping pages⟩)
    (hbytes : ∀ page, some page ∈ pages → ∀ i < 0x1000, s'.bytes (page + i) = s.bytes (page + i)) :
    s'.peek object offset = s.peek object offset := by
  simp only [Loading.peek, hget, hget']
  cases hslot : pages[offset / 0x1000]? with
  | none => rfl
  | some slot =>
    cases slot with
    | none => rfl
    | some page =>
      exact congrArg some (hbytes page (mem_of_getElem? hslot) _ (mod_lt _ (by decide)))

variable {page i : Nat}

theorem image_used (hinside : g.filesz = 0 ∨ g.offset + g.filesz ≤ data.length)
    (hi : 0x1000 * g.used ≤ i) : image g.shift (g.contents data) i = 0 := by
  have hlen := Segment.length_contents hinside
  rcases le_touched g.shift g.filesz with hle | hzero
  · apply image_eq_zero
    rw [hlen]
    exact Nat.le_trans hle hi
  · rw [hzero] at hlen
    rw [length_eq_zero_iff.1 hlen, image_nil]

/-! ### Ranges -/

section

variable (h : Holds e data p₀ gs s) (hp : Paging.Process.new privilege e.hpet = some p₀)
include h hp

theorem Holds.mem_taken {x : Nat × Nat} : x ∈ taken e.hpet gs ↔
      ∃ r ∈ s.process.pageMapper.mappings, x = (r.start, r.stop) := by
  have hnew : x ∈ kernelRanges e.hpet [] ↔ ∃ r ∈ p₀.pageMapper.mappings, x = (r.start, r.stop) := by
    obtain ⟨m, hm, ⟨hnone, rfl⟩ | ⟨base, m', hsome, hm', rfl⟩⟩ := Paging.Process.new_spec hp
    · simp [hnone, kernelRanges, hm.mem_iff, apicRange]
    · simp [hsome, kernelRanges, hm.mem_iff, hm'.mem_iff, apicRange, hpetRange, or_comm]
  rw [taken, mem_append, hnew, mem_map]
  simp only [h.ranges]
  constructor
  · rintro (⟨r, hr, rfl⟩ | ⟨g, hg, rfl⟩)
    · exact ⟨r, .inl hr, rfl⟩
    · obtain ⟨k, hk⟩ := mem_iff_getElem?.1 hg
      exact ⟨_, .inr ⟨k, g, hk, rfl⟩, rfl⟩
  · rintro ⟨r, hr | ⟨k, g, hk, rfl⟩, rfl⟩
    · exact .inl ⟨r, hr, rfl⟩
    · exact .inr ⟨g, mem_of_getElem? hk, rfl⟩

theorem Holds.free_iff {start size : Nat} :
    s.process.pageMapper.Vacant start size ↔ Free (taken e.hpet gs) start (start + size) := by
  simp only [Vacant, Free, overlaps_eq_false]
  constructor
  · intro hv x hx
    obtain ⟨r, hr, rfl⟩ := (h.mem_taken hp).1 hx
    exact hv r hr
  · intro hf r hr
    exact hf _ ((h.mem_taken hp).2 ⟨r, hr, rfl⟩)

theorem Holds.blocked_iff {start stop : Nat} :
    (∃ r ∈ s.process.pageMapper.mappings, r.overlaps start stop = true) ↔
      Blocked (taken e.hpet gs) start stop := by
  simp only [MappedRange.overlaps, decide_eq_true_eq, Blocked]
  constructor
  · rintro ⟨r, hr, hover⟩
    exact ⟨_, (h.mem_taken hp).2 ⟨r, hr, rfl⟩, hover⟩
  · rintro ⟨x, hx, hover⟩
    obtain ⟨r, hr, rfl⟩ := (h.mem_taken hp).1 hx
    exact ⟨r, hr, hover⟩

end

/-! ## The next segment -/

/-- The mapping of a segment has been inserted into the process, whose address space is `m` now. -/
def extended (s : Loading) (g : Segment) (m : PageMapperManager) : Loading :=
  { s with
    heap := s.heap - pageCount g.size
    objects := s.objects ++ [.newLazy g.size]
    process := { s.process with pageMapper := m } }

/-- The call of `insert_mapping_at` for a segment. -/
abbrev insertSegment (s : Loading) (g : Segment) : Option (Option PageMapperManager) :=
  s.process.pageMapper.insertMappingAt g.start (.newLazy g.size) s.objects.length g.flags

/-- What comes after it. -/
abbrev fillExtended (data : List UInt8) (header : Nat) (s : Loading) (g : Segment)
    (m : PageMapperManager) : Run Loading :=
  fillSegment data header g.vaddr g.size s.objects.length (s.extended g m)

theorem mem_take_of_mem_usedPages {supply : List Nat} {t n : Nat}
    (h : some page ∈ usedPages supply t n) : page ∈ supply.take t := by
  obtain ⟨k, -, hk⟩ := mem_map.1 h
  split at hk
  · rename_i hlt
    exact mem_of_getElem? ((List.getElem?_take_of_lt hlt).trans hk)
  · cases hk

theorem Holds.apart (h : Holds e data p₀ gs s) {q : Nat} (hpage : page ∈ e.supply.take (usedBy gs))
    (hq : q ∈ s.supply) (hi : i < 0x1000) :
    page + i < q ∨ q + 0x1000 ≤ page + i := by
  have hsplit : e.supply = e.supply.take (usedBy gs) ++ s.supply := by
    rw [h.supply, take_append_drop]
  have hnodup := e.supply_nodup
  rw [hsplit] at hnodup
  have hmem : q ∈ e.supply := by
    rw [hsplit]
    exact mem_append_right _ hq
  refine apart_of_frameOk (fun heq => ?_) (e.supply_ok page (mem_of_mem_take hpage))
    (e.supply_ok q hmem) hi
  exact (nodup_append.1 hnodup).2.2 page hpage q hq heq

variable {m : PageMapperManager}

theorem Holds.next (h : Holds e data p₀ gs s)
    (hins : Inserts s.process.pageMapper (g.range s.objects.length) [] m)
    (hheap : pageCount g.size ≤ s.heap) (hinside : g.filesz = 0 ∨ g.offset + g.filesz ≤ data.length)
    (hfill : Filled (s.extended g m) s.objects.length g.size g.used
      (image g.shift (g.contents data)) s') (hloader : s'.loader = (s.extended g m).loader) :
    Holds e data p₀ (gs ++ [g]) s' := by
  have hlast : s.objects.length = e.objects.length + gs.length := h.count
  have hold : ∀ k < gs.length, s'.objects[e.objects.length + k]?
      = s.objects[e.objects.length + k]? := by
    intro k hk
    rw [hfill.objects, List.getElem?_set_ne (by omega)]
    exact List.getElem?_append_left (by omega)
  have hnew : s'.objects[e.objects.length + gs.length]? = some ⟨g.size, .lazyMapping
      (usedPages s.supply g.used (pageCount g.size))⟩ := by
    rw [hfill.objects, ← hlast, List.getElem?_set_self]
    · rfl
    · show s.objects.length < (s.objects ++ [_]).length
      simp
  have htake : e.supply.take (usedBy (gs ++ [g]))
      = e.supply.take (usedBy gs) ++ s.supply.take g.used := by
    rw [usedBy_append, take_add, h.supply]
  have hindex : ∀ (k : Nat) (f : Segment), (gs ++ [g])[k]? = some f →
      gs[k]? = some f ∧ k < gs.length ∨ k = gs.length ∧ f = g := by
    intro k f hk
    rcases Nat.lt_trichotomy k gs.length with hlt | heq | hgt
    · rw [List.getElem?_append_left hlt] at hk
      exact .inl ⟨hk, hlt⟩
    · subst heq
      rw [List.getElem?_concat_length, Option.some.injEq] at hk
      exact .inr ⟨rfl, hk.symm⟩
    · rw [List.getElem?_eq_none] at hk
      · cases hk
      · simp only [length_append, length_singleton]
        omega
  exact
    { loader := hloader.trans h.loader
      heap := by
        have hs : s'.heap = s.heap - pageCount g.size := hfill.heap
        have hsum := h.heap
        rw [slots_append, hs]
        omega
      supply := by
        have hs : s'.supply = s.supply.drop g.used := hfill.supply
        rw [hs, h.supply, drop_drop, usedBy_append]
      enough := by
        have hs : g.used ≤ s.supply.length := hfill.enough
        have hlen : s.supply.length = e.supply.length - usedBy gs := by
          rw [h.supply, length_drop]
        have hle := h.enough
        rw [usedBy_append]
        omega
      count := by
        rw [hfill.objects, length_set]
        show (s.objects ++ [_]).length = _
        simp only [length_append, length_singleton]
        omega
      process := by
        rw [hfill.process]
        show { s.process with pageMapper := m } = { p₀ with pageMapper := m }
        rw [h.process]
      table := by
        rw [hfill.process, ← h.table]
        funext v
        exact hins.others v (fun _ => not_mem_nil)
      ordered := by
        rw [hfill.process]
        apply hins.ordered
        exact roundUp_mod
      ranges := by
        intro x
        rw [hfill.process]
        show x ∈ m.mappings ↔ _
        rw [hins.mem_iff, h.ranges]
        constructor
        · rintro (rfl | hx | ⟨k, f, hk, rfl⟩)
          · exact .inr ⟨gs.length, g, List.getElem?_concat_length, by rw [hlast]⟩
          · exact .inl hx
          · refine .inr ⟨k, f, ?_, rfl⟩
            rw [List.getElem?_append_left (List.getElem?_eq_some_iff.1 hk).1, hk]
        · rintro (hx | ⟨k, f, hk, rfl⟩)
          · exact .inr (.inl hx)
          · obtain ⟨hk, -⟩ | ⟨rfl, rfl⟩ := hindex k f hk
            · exact .inr (.inr ⟨k, f, hk, rfl⟩)
            · exact .inl (by rw [hlast])
      pages := by
        intro k f hk
        rw [htake]
        obtain ⟨hk, hlt⟩ | ⟨rfl, rfl⟩ := hindex k f hk
        · obtain ⟨pages, hget, hlen, hmem⟩ := h.pages k f hk
          exact ⟨pages, (hold k hlt).trans hget, hlen, fun page hpage =>
            mem_append_left _ (hmem page hpage)⟩
        · exact ⟨_, hnew, by simp [usedPages], fun page hpage =>
            mem_append_right _ (mem_take_of_mem_usedPages hpage)⟩
      contents := by
        intro k f hk offset hoffset
        obtain ⟨hk, hlt⟩ | ⟨rfl, rfl⟩ := hindex k f hk
        · obtain ⟨pages, hget, -, hmem⟩ := h.pages k f hk
          have hget' : s'.objects[e.objects.length + k]? = some ⟨f.size, .lazyMapping pages⟩ :=
            (hold k hlt).trans hget
          rw [← h.contents k f hk offset hoffset]
          refine peek_congr hget hget' fun page hpage i hi => hfill.others _ fun q hq => ?_
          exact h.apart (hmem page hpage) (mem_of_mem_take hq) hi
        · rw [← hlast]
          refine hfill.peek ?_ (fun i hi => image_used hinside hi) hoffset
          show s.objects.length < (s.objects ++ [_]).length
          simp }

/-! ### One turn of the loop -/

theorem inside_of_memsz (h : pMemsz.Inside data header) :
    pVaddr.Inside data header ∧ pFlags.Inside data header ∧
      pOffset.Inside data header ∧ pFilesz.Inside data header := by
  simp only [Field.Inside, pMemsz, pVaddr, pFlags, pOffset, pFilesz] at *
  omega

theorem loadSegment_eq_ok (hg : segmentAt data header = g) : s.loadSegment data header = .ok s' ↔
    pType.Inside data header ∧
      if pType.value data header = ptLoad then
        pMemsz.Inside data header ∧ g.stop < 0x10000000000000000 ∧ pageCount g.size ≤ s.heap ∧
        ∃ m, s.insertSegment g = some (some m) ∧ fillExtended data header s g m = .ok s'
      else s' = s := by
  subst hg
  rw [loadSegment, Field.read_bind_eq_ok (by decide)]
  refine and_congr_right fun _ => ?_
  split
  · simp only [Field.read_bind_eq_ok (f := pVaddr) (by decide),
      Field.read_bind_eq_ok (f := pMemsz) (by decide),
      Field.read_bind_eq_ok (f := pFlags) (by decide), ensure_bind_eq_ok,
      unwrap_bind_eq_ok]
    constructor
    · rintro ⟨-, hmemsz, -, hbound, hheap, -, inserted, hins, m, rfl, hfill⟩
      exact ⟨hmemsz, hbound, hheap, m, hins, hfill⟩
    · rintro ⟨hmemsz, hbound, hheap, m, hins, hfill⟩
      obtain ⟨hvaddr, hflags, -, -⟩ := inside_of_memsz hmemsz
      exact ⟨hvaddr, hmemsz, Nat.lt_of_le_of_lt le_roundUp hbound, hbound, hheap, hflags, some m,
        hins, m, rfl, hfill⟩
  · exact ⟨fun h => (Except.ok.inj h).symm, fun h => h ▸ rfl⟩

theorem sound_loadSegment (hg : segmentAt data header = g) : Sound (s.loadSegment data header) ↔
    pType.Inside data header ∧ (pType.value data header = ptLoad →
      pMemsz.Inside data header ∧ g.stop < 0x10000000000000000 ∧ pageCount g.size ≤ s.heap ∧
      ∃ inserted, s.insertSegment g = some inserted ∧
        ∀ m, inserted = some m → Sound (fillExtended data header s g m)) := by
  subst hg
  rw [loadSegment, Field.sound_read_bind (by decide)]
  refine and_congr_right fun _ => ?_
  split
  · rename_i hload
    rw [forall_prop_of_true hload]
    simp only [Field.sound_read_bind (f := pVaddr) (by decide),
      Field.sound_read_bind (f := pMemsz) (by decide),
      Field.sound_read_bind (f := pFlags) (by decide), sound_ensure_bind,
      sound_unwrap_bind, sound_orErr_bind]
    constructor
    · rintro ⟨-, hmemsz, -, hbound, hheap, -, inserted, hins, hfill⟩
      exact ⟨hmemsz, hbound, hheap, inserted, hins, hfill⟩
    · rintro ⟨hmemsz, hbound, hheap, inserted, hins, hfill⟩
      obtain ⟨hvaddr, hflags, -, -⟩ := inside_of_memsz hmemsz
      exact ⟨hvaddr, hmemsz, Nat.lt_of_le_of_lt le_roundUp hbound, hbound, hheap, hflags, inserted,
        hins, hfill⟩
  · rename_i hload
    exact ⟨fun _ h => absurd h hload, fun _ => sound_pure⟩

section

variable (h : Holds e data p₀ gs s)
include h

theorem Holds.heap_iff : pageCount g.size ≤ s.heap ↔ slots (gs ++ [g]) ≤ e.heap := by
  have hsum := h.heap
  rw [slots_append]
  omega

theorem Holds.length_supply : s.supply.length = e.supply.length - usedBy gs := by
  rw [h.supply, length_drop]

theorem Holds.insertSegment_iff (hp : Paging.Process.new privilege e.hpet = some p₀)
    (hbound : g.stop < 0x10000000000000000) :
    (s.insertSegment g = some none ↔ Blocked (taken e.hpet gs) g.start g.stop) ∧
    ((∃ m, s.insertSegment g = some (some m)) ↔ Free (taken e.hpet gs) g.start g.stop) := by
  have hstop : g.start + g.size = g.stop := Nat.add_sub_cancel' g.start_le_stop
  have hnone : s.process.pageMapper.place g.start g.size = some none ↔ _ := place_eq_some_none
  have hsome : (∃ idx, s.process.pageMapper.place g.start g.size = some (some idx)) ↔ _ :=
    exists_place_iff h.ordered
  rw [hstop, h.blocked_iff hp, and_iff_right g.start_mod, and_iff_right hbound] at hnone
  rw [h.free_iff hp, hstop, and_iff_right g.start_mod, and_iff_right hbound] at hsome
  rw [← hnone, ← hsome, insertSegment, insertMappingAt, PageMapping.newLazy]
  cases s.process.pageMapper.place g.start g.size with
  | none => simp
  | some result => cases result <;> simp

theorem Holds.inserts (hins : s.insertSegment g = some (some m)) :
    Inserts s.process.pageMapper (g.range s.objects.length) [] m := by
  have hstop : g.start + g.size = g.stop := Nat.add_sub_cancel' g.start_le_stop
  have hspec := insertMappingAt_inserts h.ordered hins
  simp only [PageMapping.newLazy, hstop] at hspec
  exact hspec

theorem Holds.fill (hmemsz : pMemsz.Inside data header) (hg : segmentAt data header = g) :
    ((∃ s', fillExtended data header s g m = .ok s') ↔
      g.Fits e.mapper data (e.supply.length - usedBy gs)) ∧
    ∀ s', fillExtended data header s g m = .ok s' →
      Filled (s.extended g m) s.objects.length g.size g.used (image g.shift (g.contents data)) s' ∧
        s'.loader = (s.extended g m).loader := by
  obtain ⟨-, -, hoffset, hfilesz⟩ := inside_of_memsz hmemsz
  have hsub : ∀ page ∈ s.supply, page ∈ e.supply := by
    intro page hpage
    rw [h.supply] at hpage
    exact mem_of_mem_drop hpage
  have hnodup : s.supply.Nodup := by
    rw [h.supply]
    exact e.supply_nodup.sublist (drop_sublist ..)
  have htidy : Tidy (s.extended g m).loader := by
    show Tidy s.loader
    rw [h.loader]
    exact e.tidy
  have hobject : (s.extended g m).objects[s.objects.length]? = some (.newLazy g.size) :=
    List.getElem?_concat_length
  obtain ⟨hsome, hfilled⟩ := fillSegment_spec htidy hnodup
    (fun page hpage => e.supply_ok page (hsub page hpage)) hg hobject
  refine ⟨hsome.trans ?_, hfilled⟩
  show _ ∧ _ ∧ g.Fits s.loader data s.supply.length ↔ _
  rw [h.loader, h.length_supply]
  exact ⟨fun hc => hc.2.2, fun hc => ⟨hoffset, hfilesz, hc⟩⟩

end

/-- A turn of the loop succeeds when the header is not that of a segment, or the segment can be
    loaded. -/
theorem Holds.loadSegment (header : Nat) (h : Holds e data p₀ gs s)
    (hp : Paging.Process.new privilege e.hpet = some p₀) :
    ((∃ s', s.loadSegment data header = .ok s') ↔ pType.Inside data header ∧
      (pType.value data header = ptLoad → Loads e data gs header)) ∧
    ∀ s', s.loadSegment data header = .ok s' →
      if pType.value data header = ptLoad then
        Holds e data p₀ (gs ++ [segmentAt data header]) s'
      else s' = s := by
  constructor
  · constructor
    · rintro ⟨s', hs'⟩
      obtain ⟨htype, hs'⟩ := (loadSegment_eq_ok rfl).1 hs'
      refine ⟨htype, fun hload => ?_⟩
      rw [if_pos hload] at hs'
      obtain ⟨hmemsz, hbound, hheap, m, hins, hfill⟩ := hs'
      exact ⟨⟨hmemsz, hbound, h.heap_iff.1 hheap⟩, (h.insertSegment_iff hp hbound).2.1 ⟨m, hins⟩,
        (h.fill hmemsz rfl).1.1 ⟨s', hfill⟩⟩
    · rintro ⟨htype, hloads⟩
      by_cases hload : pType.value data header = ptLoad
      · have hl := hloads hload
        obtain ⟨m, hins⟩ := (h.insertSegment_iff hp hl.bound).2.2 hl.free
        obtain ⟨s', hfill⟩ := (h.fill (m := m) hl.inside rfl).1.2 hl.fits
        refine ⟨s', (loadSegment_eq_ok rfl).2 ⟨htype, ?_⟩⟩
        rw [if_pos hload]
        exact ⟨hl.inside, hl.bound, h.heap_iff.2 hl.heap, m, hins, hfill⟩
      · exact ⟨s, (loadSegment_eq_ok rfl).2 ⟨htype, by rw [if_neg hload]⟩⟩
  · intro s' hs'
    obtain ⟨-, hs'⟩ := (loadSegment_eq_ok rfl).1 hs'
    split
    · rename_i hload
      rw [if_pos hload] at hs'
      obtain ⟨hmemsz, hbound, hheap, m, hins, hfill⟩ := hs'
      obtain ⟨hfits, hfilled⟩ := h.fill (m := m) hmemsz rfl
      obtain ⟨hf, hloader⟩ := hfilled s' hfill
      exact h.next (h.inserts hins) hheap (hfits.1 ⟨s', hfill⟩).inside hf hloader
    · rename_i hload
      rw [if_neg hload] at hs'
      exact hs'

theorem Holds.sound_loadSegment (h : Holds e data p₀ gs s)
    (hp : Paging.Process.new privilege e.hpet = some p₀) :
    Sound (s.loadSegment data header) ↔ pType.Inside data header ∧
      (pType.value data header = ptLoad → Mappable e data gs header ∧
        (Blocked (taken e.hpet gs) (segmentAt data header).start (segmentAt data header).stop ∨
          Loads e data gs header)) := by
  rw [Loading.sound_loadSegment rfl]
  refine and_congr_right fun _ => imp_congr_right fun _ => ?_
  constructor
  · rintro ⟨hmemsz, hbound, hheap, inserted, hins, hfill⟩
    have hmappable : Mappable e data gs header := ⟨hmemsz, hbound, h.heap_iff.1 hheap⟩
    refine ⟨hmappable, ?_⟩
    cases inserted with
    | none => exact .inl ((h.insertSegment_iff hp hbound).1.1 hins)
    | some m =>
      refine .inr ⟨hmappable, (h.insertSegment_iff hp hbound).2.1 ⟨m, hins⟩, ?_⟩
      exact (h.fill hmemsz rfl).1.1 (sound_fillSegment.1 (hfill m rfl))
  · rintro ⟨hm, hcases⟩
    refine ⟨hm.inside, hm.bound, h.heap_iff.2 hm.heap, ?_⟩
    rcases hcases with hblocked | hloads
    · exact ⟨none, (h.insertSegment_iff hp hm.bound).1.2 hblocked, nofun⟩
    · obtain ⟨m, hins⟩ := (h.insertSegment_iff hp hm.bound).2.2 hloads.free
      refine ⟨some m, hins, ?_⟩
      intro m' hm'
      cases hm'
      exact sound_fillSegment.2 ((h.fill hm.inside rfl).1.2 hloads.fits)

/-! ### The whole loop -/

theorem segmentsOf_cons {rest : List Nat} : segmentsOf data (header :: rest) =
    if pType.value data header = ptLoad then
      segmentAt data header :: segmentsOf data rest
    else segmentsOf data rest := by
  unfold segmentsOf
  by_cases hload : pType.value data header = ptLoad <;> simp [hload]

theorem segmentsOf_append (before after : List Nat) : segmentsOf data (before ++ after)
    = segmentsOf data before ++ segmentsOf data after := by
  unfold segmentsOf
  rw [filter_append, map_append]

/-- Each of the headers is inside the file, and each segment can be loaded after those before it. -/
def LoadsAll (e : Loader) (data : List UInt8) (headers : List Nat) (gs : List Segment) : Prop :=
  ∀ before header after, headers = before ++ header :: after →
    pType.Inside data header ∧
      (pType.value data header = ptLoad →
        Loads e data (gs ++ segmentsOf data before) header)

theorem loadsAll_cons {rest : List Nat} : LoadsAll e data (header :: rest) gs ↔
    pType.Inside data header ∧
      (pType.value data header = ptLoad → Loads e data gs header) ∧
      LoadsAll e data rest (gs ++ segmentsOf data [header]) := by
  have hsegments : ∀ before, segmentsOf data (header :: before)
      = segmentsOf data [header] ++ segmentsOf data before :=
    segmentsOf_append [header]
  constructor
  · intro h
    have hfirst := h [] header rest rfl
    rw [show segmentsOf data [] = [] from rfl, append_nil] at hfirst
    refine ⟨hfirst.1, hfirst.2, fun before other after heq => ?_⟩
    have hother := h (header :: before) other after (by rw [heq]; rfl)
    rwa [hsegments, ← append_assoc] at hother
  · rintro ⟨htype, hloads, hrest⟩ before other after heq
    cases before with
    | nil =>
      obtain ⟨rfl, -⟩ := List.cons.inj heq
      rw [show segmentsOf data [] = [] from rfl, append_nil]
      exact ⟨htype, hloads⟩
    | cons first before =>
      obtain ⟨rfl, htail⟩ := List.cons.inj heq
      rw [hsegments, ← append_assoc]
      exact hrest before other after htail

theorem Holds.loadSegments (headers : List Nat) (h : Holds e data p₀ gs s)
    (hp : Paging.Process.new privilege e.hpet = some p₀) :
    ((∃ s', s.loadSegments data headers = .ok s') ↔ LoadsAll e data headers gs) ∧
    ∀ s', s.loadSegments data headers = .ok s' →
      Holds e data p₀ (gs ++ segmentsOf data headers) s' := by
  induction headers generalizing gs s with
  | nil =>
    refine ⟨⟨fun _ before header after heq => ?_, fun _ => ⟨s, rfl⟩⟩, fun s' hs' => ?_⟩
    · cases before <;> cases heq
    · cases hs'
      rw [show segmentsOf data [] = [] from rfl, append_nil]
      exact h
  | cons header rest ih =>
    obtain ⟨hok, hstate⟩ := h.loadSegment header hp
    -- the state after the first header
    have hfirst : ∀ s1, s.loadSegment data header = .ok s1 →
        Holds e data p₀ (gs ++ segmentsOf data [header]) s1 := by
      intro s1 hs1
      have hs := hstate s1 hs1
      rw [segmentsOf_cons]
      split at hs
      · rename_i hload
        rw [if_pos hload]
        exact hs
      · rename_i hload
        subst hs
        rw [if_neg hload, show segmentsOf data [] = [] from rfl, append_nil]
        exact h
    have happend : segmentsOf data (header :: rest)
        = segmentsOf data [header] ++ segmentsOf data rest :=
      segmentsOf_append [header] rest
    rw [Loading.loadSegments, loadsAll_cons, happend]
    simp only [bind_eq_ok]
    constructor
    · constructor
      · rintro ⟨s', s1, hs1, hs'⟩
        obtain ⟨htype, hloads⟩ := hok.1 ⟨s1, hs1⟩
        exact ⟨htype, hloads, (ih (hfirst s1 hs1)).1.1 ⟨s', hs'⟩⟩
      · rintro ⟨htype, hloads, hrest⟩
        obtain ⟨s1, hs1⟩ := hok.2 ⟨htype, hloads⟩
        obtain ⟨s', hs'⟩ := (ih (hfirst s1 hs1)).1.2 hrest
        exact ⟨s', s1, hs1, hs'⟩
    · rintro s' ⟨s1, hs1, hs'⟩
      rw [← append_assoc]
      exact (ih (hfirst s1 hs1)).2 s' hs'

end Loading

end Fioxa.Elf
