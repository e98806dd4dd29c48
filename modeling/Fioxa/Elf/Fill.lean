import Fioxa.Elf.Copy

/-! # Filling a segment

The loader inserts the mapping of a segment into its own address space, at a free place, copies the
bytes of the file and removes the mapping again. What is left is the filled mapping: the address
space of the loader is what it was before (`fillSegment_spec`). `Segment.Fits` is exactly what the
header of a segment has to satisfy for this. -/

namespace Fioxa.Elf

open Faults Paging PageMapperManager List Option BinarySearch Elf.Field MappedRange
open TableSystem (frameOk)
open Elf64Phdr (pOffset pFilesz)

/-! ## The address space of the loader -/

/-- `insert_mapping` finds room for a mapping at `base`, all of whose pages have addresses that
    `Page::new` accepts, and `free_mapping` finds the range again. A range that is not empty is
    always found; an empty one is where the search happens to look at it. -/
def Room (m : PageMapperManager) (size base : Nat) : Prop :=
  ∃ idx, position size 0 m.mappings = some (idx, base) ∧
    (∀ v ∈ pagesOf base (base + size), pageOk v = true) ∧
    (0 < size ∨ ∃ i, search (·.compareRange base base)
      (m.insert (idx + 1) ⟨base, base, 0, .all⟩).mappings = .ok i)

/-- Where the loader maps a segment. -/
abbrev spot (base size object : Nat) : MappedRange := ⟨base, base + size, object, .all⟩

section room

variable {m : PageMapperManager} {r : MappedRange} {size idx base : Nat}

theorem eraseIdx_insert {i : Nat} (hi : i ≤ m.mappings.length) :
    (m.insert i r).mappings.eraseIdx i = m.mappings := by
  have hlen : (m.mappings.take i).length = i := by simp [hi]
  show (m.mappings.take i ++ r :: m.mappings.drop i).eraseIdx i = _
  rw [eraseIdx_append_of_length_le (Nat.le_of_eq hlen), hlen, Nat.sub_self,
    eraseIdx_cons_zero, take_append_drop]

theorem getElem?_insert {x : MappedRange} {i j : Nat}
    (hi : i ≤ m.mappings.length) (h : (m.insert i r).mappings[j]? = some x) :
    j = i ∧ x = r ∨ x ∈ m.mappings := by
  have hlen : (m.mappings.take i).length = i := by simp [hi]
  have h' : (m.mappings.take i ++ r :: m.mappings.drop i)[j]? = some x := h
  rcases Nat.lt_or_ge j i with hji | hji
  · rw [List.getElem?_append_left (by omega)] at h'
    exact .inr (mem_of_mem_take (mem_of_getElem? h'))
  · rw [List.getElem?_append_right (by omega), hlen] at h'
    cases hsub : j - i with
    | zero =>
      rw [hsub, List.getElem?_cons_zero, Option.some.injEq] at h'
      exact .inl ⟨by omega, h'.symm⟩
    | succ =>
      rw [hsub, List.getElem?_cons_succ] at h'
      exact .inr (mem_of_mem_drop (mem_of_getElem? h'))

variable (object : Nat) (hm : Tidy m) (hsize : size % 0x1000 = 0)
  (hpos : position size 0 m.mappings = some (idx, base))
include hm hsize hpos

theorem position_spec :
    idx + 1 ≤ m.mappings.length ∧
      Ordered (m.insert (idx + 1) (spot base size object)).mappings ∧
      ∀ x ∈ m.mappings, x.stop ≤ base ∨ base + size ≤ x.start := by
  have hins : m.insertMapping (.newLazy size) object .all
      = some (base, m.insert (idx + 1) (spot base size object)) := by
    simp only [insertMapping, PageMapping.newLazy, hpos, map_some]
  have hspec := insertMapping_inserts hm.ordered hins
  have hbase : base % 0x1000 = 0 := hspec.aligned
  have hordered := hspec.ordered (by
    show (base + size) % 0x1000 = 0
    omega)
  obtain ⟨before, left, right, after, hl, rfl, -, -⟩ := position_eq_some hpos
  refine ⟨by simp [hl], hordered, ?_⟩
  intro x hx
  rw [← take_append_drop (0 + before.length + 1) m.mappings] at hx
  obtain ⟨-, hbehind, hcross⟩ := pairwise_append.1 hordered.apart
  rcases mem_append.1 hx with hx | hx
  · exact .inl (hcross x hx _ mem_cons_self)
  · exact .inr ((pairwise_cons.1 hbehind).1 x hx)

theorem eq_of_compareRange {x : MappedRange} {j : Nat}
    (hx : (m.insert (idx + 1) (spot base size object)).mappings[j]? = some x)
    (hcmp : x.compareRange base (base + size) = .eq) :
    j = idx + 1 ∧ x = (spot base size object) := by
  obtain ⟨hlen, -, hapart⟩ := position_spec object hm hsize hpos
  rcases getElem?_insert hlen hx with hnew | hold
  · exact hnew
  · have hne := hm.nonempty x hold
    have hbounds := hapart x hold
    have heq := compareRange_eq.1 hcmp
    omega

theorem found_insert :
    found (m.insert (idx + 1) (spot base size object)).mappings
        (·.compareRange base (base + size)) = some (idx + 1, (spot base size object)) ↔
      0 < size ∨ ∃ i, search (·.compareRange base base)
        (m.insert (idx + 1) ⟨base, base, 0, .all⟩).mappings = .ok i := by
  obtain ⟨hlen, hordered, -⟩ := position_spec object hm hsize hpos
  have hfound : ∀ i, search (·.compareRange base (base + size))
      (m.insert (idx + 1) (spot base size object)).mappings = .ok i →
      found (m.insert (idx + 1) (spot base size object)).mappings
        (·.compareRange base (base + size)) = some (idx + 1, (spot base size object)) := by
    intro i hsearch
    obtain ⟨x, hx, hcmp⟩ := search_ok hsearch
    obtain ⟨rfl, rfl⟩ := eq_of_compareRange object hm hsize hpos hx hcmp
    simp only [found, hsearch, hx, map_some]
  rcases Nat.eq_zero_or_pos size with rfl | hpositive
  · -- the comparator does not see the number of the mapping
    have hsame : search (·.compareRange base (base + 0))
          (m.insert (idx + 1) ⟨base, base + 0, object, .all⟩).mappings
        = search (·.compareRange base base)
          (m.insert (idx + 1) ⟨base, base, 0, .all⟩).mappings := by
      apply search_congr
      simp [PageMapperManager.insert, compareRange]
    rw [← hsame, or_iff_right (Nat.lt_irrefl 0)]
    constructor
    · intro h
      unfold found at h
      split at h
      · cases h
      · exact ⟨_, ‹_›⟩
    · rintro ⟨i, hi⟩
      exact hfound i hi
  · have hne : ∀ x ∈ (m.insert (idx + 1) (spot base size object)).mappings, x.start < x.stop := by
      intro x hx
      rcases mem_insert.1 hx with rfl | hx
      · show base < base + size
        omega
      · exact hm.nonempty x hx
    have hself : compareRange base (base + size) (spot base size object)
        = .eq := compareRange_eq.2 (.inl ⟨rfl, rfl⟩)
    obtain ⟨i, hi⟩ := exists_search_ok (hordered.partitioned_range hne)
      (mem_insert.2 (.inl rfl)) hself
    exact ⟨fun _ => .inl hpositive, fun _ => hfound i hi⟩

end room

namespace Loading

variable {s s' s1 : Loading} {size idx base object t : Nat} {img : Nat → UInt8}

/-- The state in which a new mapping is in the address space of the loader. -/
def opened (s : Loading) (idx : Nat) (r : MappedRange) : Loading :=
  { s with loader := s.loader.insert (idx + 1) r }

theorem opened_spec (hm : Tidy s.loader) (hnodup : s.supply.Nodup)
    (hok : ∀ page ∈ s.supply, frameOk page = true)
    (hobject : s.objects[object]? = some (.newLazy size)) (hsize : size % 0x1000 = 0)
    (hpos : position size 0 s.loader.mappings = some (idx, base)) :
    Opened (s.opened idx (spot base size object)) (spot base size object) := by
  obtain ⟨-, hordered, hapart⟩ := position_spec object hm hsize hpos
  refine ⟨hordered, mem_insert.2 (.inl rfl), hnodup, hok, ?_, ?_⟩
  · intro v hstart hstop
    by_contra hmapped
    obtain ⟨x, hx, hxstart, hxstop⟩ := hm.mapped v hmapped
    rcases hapart x hx with h | h
    · exact absurd (Nat.le_trans h hstart) (Nat.not_le.2 hxstop)
    · exact absurd (Nat.le_trans h hxstart) (Nat.not_le.2 hstop)
  · show s.objects[object]? = some (.newLazy (base + size - base))
    rw [hobject, Nat.add_sub_cancel_left]

theorem Copied.unmap (hm : Tidy s1.loader) (hsize : size % 0x1000 = 0)
    (hpos : position size 0 s1.loader.mappings = some (idx, base))
    (hop : Opened (s1.opened idx (spot base size object)) (spot base size object))
    (h : Copied (s1.opened idx (spot base size object))
      (spot base size object) t img s) (ht : t ≤ pageCount size) :
    s.unmap base (base + size) = some s' ↔ s' = { s with loader := s1.loader } ∧
      (∀ v ∈ pagesOf base (base + size), pageOk v = true) ∧
      (0 < size ∨ ∃ i, search (·.compareRange base base)
        (s1.loader.insert (idx + 1) ⟨base, base, 0, .all⟩).mappings = .ok i) := by
  obtain ⟨hlen, -, -⟩ := position_spec object hm hsize hpos
  have hfound := found_insert object hm hsize hpos
  rw [← hfound]
  have hmappings : s.loader.mappings
      = (s1.loader.insert (idx + 1) (spot base size object)).mappings := h.mappings
  rw [Loading.unmap, freeMapping, hmappings]
  cases hsearch : found (s1.loader.insert (idx + 1) (spot base size object)).mappings
      (·.compareRange base (base + size)) with
  | none => simp
  | some result =>
    obtain ⟨j, x⟩ := result
    obtain ⟨hget, hcmp⟩ := found_eq_some hsearch
    obtain ⟨rfl, rfl⟩ := eq_of_compareRange object hm hsize hpos hget hcmp
    simp only [and_true]
    rw [eraseIdx_insert hlen]
    cases hunmap : ({ s.loader with mappings := s1.loader.mappings } :
        PageMapperManager).unmapAll (pagesOf base (base + size)) with
    | none =>
      have hnot : ¬ ∀ v ∈ pagesOf base (base + size), pageOk v = true := by
        rw [← unmapAll_isSome_iff, hunmap]
        simp
      simp [hnot]
    | some m =>
      have hpages : ∀ v ∈ pagesOf base (base + size), pageOk v = true := by
        rw [← unmapAll_isSome_iff, hunmap]
        rfl
      obtain ⟨hlist, htable⟩ := unmapAll_eq_some hunmap
      -- the pages of the range have not been mapped before, and the others are as they were
      have hloader : m = s1.loader := by
        have hpage : m.pageMapper = s1.loader.pageMapper := by
          funext v
          rw [htable]
          split
          · rename_i hv
            obtain ⟨hstart, hstop⟩ := bounds_of_mem_pagesOf hv
            exact (hop.unmapped v hstart hstop).symm
          · rename_i hv
            refine h.unmapped v fun k hk heq => hv ?_
            rw [heq]
            refine Span.mem_span.2 ⟨k, ?_, rfl⟩
            rw [Nat.add_sub_cancel_left]
            exact Nat.lt_of_lt_of_le hk ht
        cases m
        cases hl : s1.loader
        rw [hl] at hpage hlist
        cases hpage
        cases hlist
        rfl
      subst hloader
      simp only [map_some, Option.some.injEq]
      exact ⟨fun h => ⟨h.symm, hpages⟩, fun h => h.1.symm⟩

variable {data : List UInt8} {header vaddr : Nat}

open Elf64Phdr in
theorem fillSegment_eq_ok (data : List UInt8) (header vaddr size object : Nat) (s s' : Loading) :
    fillSegment data header vaddr size object s = .ok s' ↔
    ∃ base m, s.loader.insertMapping (.newLazy size) object .all = some (base, m) ∧
      pOffset.Inside data header ∧ pFilesz.Inside data header ∧
      (pFilesz.value data header = 0 ∨
        pOffset.value data header + pFilesz.value data header ≤ data.length) ∧
      (pFilesz.value data header = 0 ∨
        base + (vaddr &&& 0xFFF) + pFilesz.value data header ≤ base + size) ∧
      ∃ s1, copyNonoverlapping
          ((data.drop (pOffset.value data header)).take (pFilesz.value data header))
          (base + (vaddr &&& 0xFFF)) { s with loader := m } = some s1 ∧
        s1.unmap base (base + size) = some s' := by
  simp only [fillSegment, unwrap_bind_eq_ok, Prod.exists, readBytes_bind_eq_ok, ensure_bind_eq_ok,
    read_bind_eq_ok (f := pOffset) (by decide),
    read_bind_eq_ok (f := pFilesz) (by decide), unwrap_eq_ok]

theorem sound_fillSegment : Sound (fillSegment data header vaddr size object s) ↔
    ∃ s', fillSegment data header vaddr size object s = .ok s' := by
  simp only [fillSegment, unwrap_bind_eq_ok, Prod.exists, readBytes_bind_eq_ok, ensure_bind_eq_ok,
    read_bind_eq_ok (f := pOffset) (by decide),
    read_bind_eq_ok (f := pFilesz) (by decide), unwrap_eq_ok, sound_unwrap_bind,
    sound_readBytes_bind, sound_ensure_bind, sound_unwrap_fault,
    sound_read_bind (f := pOffset) (by decide),
    sound_read_bind (f := pFilesz) (by decide), isSome_iff_exists]
  constructor
  · rintro ⟨base, m, hins, h1, h2, h3, h4, s1, hcopy, s', hs'⟩
    exact ⟨s', base, m, hins, h1, h2, h3, h4, s1, hcopy, hs'⟩
  · rintro ⟨s', base, m, hins, h1, h2, h3, h4, s1, hcopy, hs'⟩
    exact ⟨base, m, hins, h1, h2, h3, h4, s1, hcopy, s', hs'⟩

end Loading

/-! ## Segments -/

/-- A segment, as its program header describes it. -/
structure Segment where
  vaddr : Nat
  memsz : Nat
  offset : Nat
  filesz : Nat
  flags : MemoryMappingFlags
deriving DecidableEq

open Elf64Phdr in
def segmentAt (data : List UInt8) (header : Nat) : Segment where
  vaddr := pVaddr.value data header
  memsz := pMemsz.value data header
  offset := pOffset.value data header
  filesz := pFilesz.value data header
  flags := toMappingFlags (pFlags.value data header)

namespace Segment

/-- The pages of the segment, from `start` to `stop`. -/
def start (g : Segment) : Nat := pageBase g.vaddr

def stop (g : Segment) : Nat := roundUp (g.vaddr + g.memsz)

def size (g : Segment) : Nat := g.stop - g.start

/-- How far into its first page the segment begins. -/
def shift (g : Segment) : Nat := g.vaddr % 0x1000

/-- The number of pages that the copy allocates. -/
def used (g : Segment) : Nat := touched g.shift g.filesz

/-- The bytes that are copied. -/
def contents (g : Segment) (data : List UInt8) : List UInt8 := (data.drop g.offset).take g.filesz

/-- The copy stays inside the file and inside the mapping, there are enough pages for it, and the
    loader has room for the mapping where it can be written. -/
structure Fits (g : Segment) (m : PageMapperManager) (data : List UInt8) (pages : Nat) : Prop where
  inside : g.filesz = 0 ∨ g.offset + g.filesz ≤ data.length
  within : g.filesz = 0 ∨ g.shift + g.filesz ≤ g.size
  pages : g.used ≤ pages
  room : ∃ base, Room m g.size base ∧ (g.filesz = 0 ∨ base + g.shift + g.filesz ≤ endUserMem + 1)

theorem start_le_stop (g : Segment) : g.start ≤ g.stop := by
  unfold start stop pageBase roundUp pageCount
  omega

theorem size_mod (g : Segment) : g.size % 0x1000 = 0 := by
  unfold size start stop pageBase roundUp
  omega

theorem start_mod (g : Segment) : g.start % 0x1000 = 0 := Nat.mul_mod_left ..

theorem shift_lt (g : Segment) : g.shift < 0x1000 := Nat.mod_lt _ (by decide)

theorem length_contents {g : Segment} {data : List UInt8}
    (h : g.filesz = 0 ∨ g.offset + g.filesz ≤ data.length) :
    (g.contents data).length = g.filesz := by
  rw [contents, length_take, length_drop]
  omega

theorem used_le {g : Segment} (h : g.filesz = 0 ∨ g.shift + g.filesz ≤ g.size) :
    g.used ≤ pageCount g.size := by
  unfold used touched pageCount
  split <;> omega

end Segment

namespace Loading

variable {s s' : Loading} {object header : Nat} {data : List UInt8} {g : Segment}

theorem copy_segment {idx base : Nat} (hm : Tidy s.loader) (hnodup : s.supply.Nodup)
    (hok : ∀ page ∈ s.supply, frameOk page = true)
    (hobject : s.objects[object]? = some (.newLazy g.size))
    (hpos : position g.size 0 s.loader.mappings = some (idx, base))
    (hinside : g.filesz = 0 ∨ g.offset + g.filesz ≤ data.length)
    (hwithin : g.filesz = 0 ∨ g.shift + g.filesz ≤ g.size) :
    ((copyNonoverlapping (g.contents data) (base + g.shift)
        (s.opened idx (spot base g.size object))).isSome ↔
      Served (spot base g.size object) g.used ∧ g.used ≤ s.supply.length) ∧
    ∀ s', copyNonoverlapping (g.contents data) (base + g.shift)
        (s.opened idx (spot base g.size object)) = some s' →
      Copied (s.opened idx (spot base g.size object)) (spot base g.size object)
        g.used (image g.shift (g.contents data)) s' := by
  have hop := opened_spec hm hnodup hok hobject g.size_mod hpos
  have hlen := Segment.length_contents hinside
  have hnil : g.contents data = [] ↔ g.filesz = 0 := by rw [← hlen, length_eq_zero_iff]
  have hstart : Copied (s.opened idx (spot base g.size object))
      (spot base g.size object) (touched g.shift ([] : List UInt8).length)
      (image g.shift []) (s.opened idx (spot base g.size object)) := by
    rw [image_nil]
    exact hop.init
  have hcopy := hstart.copy (g.contents data) hop g.shift_lt
    (fun k hk => absurd hk (Nat.not_lt_zero k)) (by
      simp only [hnil, hlen, length_nil, Nat.zero_add, Nat.add_sub_cancel_left]
      exact hwithin)
  simp only [length_nil, Nat.add_zero, Nat.zero_add, hlen, nil_append] at hcopy
  exact hcopy

theorem insertMapping_newLazy {m m' : PageMapperManager} {size base : Nat} :
    m.insertMapping (.newLazy size) object .all = some (base, m') ↔
      ∃ idx, position size 0 m.mappings = some (idx, base) ∧
        m' = m.insert (idx + 1) (spot base size object) := by
  simp only [insertMapping, PageMapping.newLazy, map_eq_some_iff, Prod.exists, Prod.mk.injEq]
  constructor
  · rintro ⟨idx, base', hpos, rfl, rfl⟩
    exact ⟨idx, hpos, rfl⟩
  · rintro ⟨idx, hpos, rfl⟩
    exact ⟨idx, base, hpos, rfl, rfl⟩

theorem served_iff {base : Nat} (hbase : base % 0x1000 = 0)
    (hpages : ∀ v ∈ pagesOf base (base + g.size), pageOk v = true)
    (hwithin : g.filesz = 0 ∨ g.shift + g.filesz ≤ g.size) :
    Served (spot base g.size object) g.used ↔
      g.filesz = 0 ∨ base + g.shift + g.filesz ≤ endUserMem + 1 := by
  have hshift := g.shift_lt
  constructor
  · intro h
    by_cases hzero : g.filesz = 0
    · exact .inl hzero
    · have hused : g.used = (g.shift + g.filesz - 1) / 0x1000 + 1 := if_neg hzero
      have hlast : base + 0x1000 * (g.used - 1) ≤ endUserMem := (h (g.used - 1) (by omega)).1
      unfold endUserMem at *
      omega
  · intro h k hk
    have hkc : k < pageCount g.size := Nat.lt_of_lt_of_le hk (Segment.used_le hwithin)
    have hmem : base + 0x1000 * k ∈ pagesOf base (base + g.size) := by
      refine Span.mem_span.2 ⟨k, ?_, rfl⟩
      rwa [Nat.add_sub_cancel_left]
    refine ⟨?_, hpages _ hmem⟩
    unfold Segment.used touched at hk
    show base + 0x1000 * k ≤ endUserMem
    split at hk <;> omega

theorem fillSegment_spec (hm : Tidy s.loader) (hnodup : s.supply.Nodup)
    (hok : ∀ page ∈ s.supply, frameOk page = true) (hg : segmentAt data header = g)
    (hobject : s.objects[object]? = some (.newLazy g.size)) :
    ((∃ s', fillSegment data header g.vaddr g.size object s = .ok s') ↔
      pOffset.Inside data header ∧ pFilesz.Inside data header ∧
        g.Fits s.loader data s.supply.length) ∧
    ∀ s', fillSegment data header g.vaddr g.size object s = .ok s' →
      Filled s object g.size g.used (image g.shift (g.contents data)) s' ∧
        s'.loader = s.loader := by
  have hmask : g.vaddr &&& 0xFFF = g.shift := and_mask g.vaddr
  have hoffset : pOffset.value data header = g.offset := by rw [← hg]; rfl
  have hfilesz : pFilesz.value data header = g.filesz := by rw [← hg]; rfl
  have heq := fillSegment_eq_ok data header g.vaddr g.size object s
  simp only [hmask, hoffset, hfilesz, insertMapping_newLazy] at heq
  have hrun : ∀ s', fillSegment data header g.vaddr g.size object s = .ok s' ↔
      pOffset.Inside data header ∧ pFilesz.Inside data header ∧
      (g.filesz = 0 ∨ g.offset + g.filesz ≤ data.length) ∧
      (g.filesz = 0 ∨ g.shift + g.filesz ≤ g.size) ∧
      ∃ base idx, position g.size 0 s.loader.mappings = some (idx, base) ∧
        ∃ s1, copyNonoverlapping (g.contents data) (base + g.shift)
            (s.opened idx (spot base g.size object)) = some s1 ∧
          s1.unmap base (base + g.size) = some s' := by
    intro s'
    rw [heq s']
    constructor
    · rintro ⟨base, m, ⟨idx, hpos, rfl⟩, h1, h2, h3, h4, s1, hcopy, hunmap⟩
      exact ⟨h1, h2, h3, h4.imp_right fun h => by omega, base, idx, hpos, s1, hcopy, hunmap⟩
    · rintro ⟨h1, h2, h3, h4, base, idx, hpos, s1, hcopy, hunmap⟩
      exact ⟨base, _, ⟨idx, hpos, rfl⟩, h1, h2, h3, h4.imp_right fun h => by omega, s1, hcopy,
        hunmap⟩
  constructor
  · constructor
    · rintro ⟨s', hs'⟩
      obtain ⟨h1, h2, hinside, hwithin, base, idx, hpos, s1, hcopy, hunmap⟩ := (hrun s').1 hs'
      obtain ⟨hsome, hcopied⟩ := copy_segment hm hnodup hok hobject hpos hinside hwithin
      have hop := opened_spec hm hnodup hok hobject g.size_mod hpos
      obtain ⟨hserved, hpages⟩ := hsome.1 (isSome_iff_exists.2 ⟨s1, hcopy⟩)
      obtain ⟨-, hok', hfree⟩ := ((hcopied s1 hcopy).unmap hm g.size_mod hpos hop
        (Segment.used_le hwithin)).1 hunmap
      have hbase := (hop.ordered.valid _ hop.mem).start_aligned
      exact ⟨h1, h2, hinside, hwithin, hpages, base, ⟨idx, hpos, hok', hfree⟩,
        (served_iff hbase hok' hwithin).1 hserved⟩
    · rintro ⟨h1, h2, hinside, hwithin, hpages, base, ⟨idx, hpos, hok', hfree⟩, huser⟩
      obtain ⟨hsome, hcopied⟩ := copy_segment hm hnodup hok hobject hpos hinside hwithin
      have hop := opened_spec hm hnodup hok hobject g.size_mod hpos
      have hbase := (hop.ordered.valid _ hop.mem).start_aligned
      obtain ⟨s1, hcopy⟩ := isSome_iff_exists.1
        (hsome.2 ⟨(served_iff hbase hok' hwithin).2 huser, hpages⟩)
      have hunmap := ((hcopied s1 hcopy).unmap hm g.size_mod hpos hop
        (Segment.used_le hwithin)).2 ⟨rfl, hok', hfree⟩
      exact ⟨_, (hrun _).2 ⟨h1, h2, hinside, hwithin, base, idx, hpos, s1, hcopy, hunmap⟩⟩
  · intro s' hs'
    obtain ⟨-, -, hinside, hwithin, base, idx, hpos, s1, hcopy, hunmap⟩ := (hrun s').1 hs'
    obtain ⟨-, hcopied⟩ := copy_segment hm hnodup hok hobject hpos hinside hwithin
    have hop := opened_spec hm hnodup hok hobject g.size_mod hpos
    obtain ⟨rfl, -, -⟩ := ((hcopied s1 hcopy).unmap hm g.size_mod hpos hop
      (Segment.used_le hwithin)).1 hunmap
    have hfilled := (hcopied s1 hcopy).toFilled
    simp only [Nat.add_sub_cancel_left] at hfilled
    exact ⟨⟨hfilled.enough, hfilled.supply, hfilled.heap, hfilled.process, hfilled.objects,
      hfilled.others, hfilled.written⟩, rfl⟩

end Loading

end Fioxa.Elf
