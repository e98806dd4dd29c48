import Fioxa.Elf.Access
import Fioxa.Elf.HostileInput

/-! # Faithful loading

A well-formed file is loaded faithfully when every byte of every segment of its table can be read in
the new process, with the permissions of the segment. The loop of `load_elf` ends at the size of the
table, `e_phnum * e_phentsize`, where the end of the table is `e_phoff` further on: the entries at
or behind that offset are never looked at. With the usual `e_phoff = 64` this is the last entry. -/

namespace Fioxa.Elf

open Faults Paging Loading List Nat Segment Option
open Elf64Ehdr (ePhoff ePhnum ePhentsize eEntry)
open Elf64Phdr (pType)

/-! ## Well-formed files -/

/-- Where the entry `k` of the program header table is. -/
def entryAt (data : List UInt8) (k : Nat) : Nat := ePhoff.value data 0 + 56 * k

/-- The entry `k` of the table is that of a segment. -/
def HasSegment (data : List UInt8) (k : Nat) : Prop :=
  k < ePhnum.value data 0 ∧ pType.value data (entryAt data k) = ptLoad

/-- The segment of entry `k`. -/
def segment (data : List UInt8) (k : Nat) : Segment := segmentAt data (entryAt data k)

/-- The address is in one of the pages of the segment. -/
def Segment.Covers (g : Segment) (a : Nat) : Prop := g.start ≤ a ∧ a < g.stop

structure WellFormed (hpet : Option Nat) (data : List UInt8) : Prop where
  length : 64 ≤ data.length
  header : ValidHeader data
  phentsize : ePhentsize.value data 0 = 56
  table : entryAt data (ePhnum.value data 0) ≤ data.length
  sizes : ∀ k, HasSegment data k → (segment data k).filesz ≤ (segment data k).memsz
  files : ∀ k, HasSegment data k →
    (segment data k).offset + (segment data k).filesz ≤ data.length
  disjoint : ∀ j k, HasSegment data j → HasSegment data k → j ≠ k →
    ∀ a, (segment data j).Covers a → ¬ (segment data k).Covers a
  /-- The segments stay clear of the mappings of `Process::new`. -/
  clear : ∀ k, HasSegment data k → ∀ r ∈ kernelRanges hpet [],
    ∀ a, (segment data k).Covers a → ¬ (r.1 ≤ a ∧ a < r.2)

/-- Each byte of each segment is there, with the permissions of the segment. -/
def Faithful (data : List UInt8) (s : Loading) : Prop :=
  ∀ k, HasSegment data k → ∀ i < (segment data k).memsz, s.access ((segment data k).vaddr + i) =
      some (if i < (segment data k).filesz then data[(segment data k).offset + i]?.getD 0 else 0,
        { writeable := Elf64Phdr.pFlags.value data (entryAt data k) &&& pfW = pfW
          userspace := true })

/-! ## The condition -/

/-- The loop gets to the entry `k`. -/
def Reached (data : List UInt8) (k : Nat) : Prop :=
  entryAt data k < 56 * ePhnum.value data 0

/-- A segment that cannot be told from the stack of the first thread. -/
structure Segment.LikeStack (g : Segment) (data : List UInt8) : Prop where
  start : stackBase 0 ≤ g.vaddr
  stop : g.vaddr + g.memsz ≤ stackBase 0 + stackSize
  flags : g.flags = .all
  zero : ∀ i < g.filesz, data[g.offset + i]?.getD 0 = 0

structure LoadsWhole (e : Loader) (data : List UInt8) (kernel : Bool) : Prop where
  product : 56 * ePhnum.value data 0 < 0x10000
  /-- Each segment that the loop gets to can be loaded after those before it. -/
  loads : ∀ before header after, visited data = before ++ header :: after →
    pType.value data header = ptLoad → Loads e data (segmentsOf data before) header
  thread : ThreadFits e data (privilegeOf kernel) (segmentsOf data (visited data))
  reached : ∀ k, HasSegment data k → 0 < (segment data k).memsz →
    Reached data k ∨ (segment data k).LikeStack data
  /-- The segments are in user memory, and not in its first page. -/
  user : ∀ k, HasSegment data k → Reached data k → 0 < (segment data k).memsz →
    0x1000 ≤ (segment data k).vaddr ∧
      (segment data k).vaddr + (segment data k).memsz ≤ 0x800000000000

variable {e : Loader} {data : List UInt8} {kernel : Bool} {p0 : Paging.Process} {s s' : Loading}
  {g : Segment} {k i a : Nat}

/-! ## Segments and entries -/

theorem Segment.covers_byte (hi : i < g.memsz) : g.Covers (g.vaddr + i) := by
  unfold Segment.Covers Segment.start Segment.stop pageBase
  have hle := le_roundUp (n := g.vaddr + g.memsz)
  omega

theorem Segment.image_byte : image g.shift (g.contents data) (g.vaddr + i - g.start)
    = if i < g.filesz then data[g.offset + i]?.getD 0 else 0 := by
  have hoffset : g.vaddr + i - g.start = g.shift + i := by
    unfold Segment.start shift pageBase
    omega
  rw [hoffset, image, if_neg (by omega), Nat.add_sub_cancel_left, Segment.contents,
    List.getElem?_take]
  split
  · rw [List.getElem?_drop]
  · rfl

theorem mem_segmentsOf {headers : List Nat} : g ∈ segmentsOf data headers ↔
    ∃ header ∈ headers, pType.value data header = ptLoad ∧ segmentAt data header = g := by
  simp [segmentsOf, and_assoc]

theorem mem_stepBy {start stop step : Nat} (hstep : 0 < step) :
    a ∈ stepBy start stop step ↔ ∃ k, a = start + step * k ∧ a < stop := by
  unfold stepBy
  rw [Span.mem_span]
  constructor
  · rintro ⟨k, hk, rfl⟩
    refine ⟨k, rfl, ?_⟩
    have hle := (Nat.le_div_iff_mul_le hstep).1 (succ_le_of_lt hk)
    rw [succ_mul, Nat.mul_comm] at hle
    omega
  · rintro ⟨k, rfl, hlt⟩
    refine ⟨k, (Nat.le_div_iff_mul_le hstep).2 ?_, rfl⟩
    rw [succ_mul, Nat.mul_comm]
    omega

namespace WellFormed

variable (h : WellFormed e.hpet data)

include h

theorem mem_visited {header : Nat} :
    header ∈ visited data ↔ ∃ k, header = entryAt data k ∧ Reached data k := by
  rw [visited, h.phentsize, mem_stepBy (by decide), Nat.mul_comm]
  unfold Reached entryAt
  constructor
  · rintro ⟨k, rfl, hlt⟩
    exact ⟨k, rfl, hlt⟩
  · rintro ⟨k, rfl, hlt⟩
    exact ⟨k, rfl, hlt⟩

theorem mem_segments : g ∈ segmentsOf data (visited data) ↔
    ∃ k, HasSegment data k ∧ Reached data k ∧ segment data k = g := by
  rw [mem_segmentsOf]
  constructor
  · rintro ⟨header, hmem, hload, rfl⟩
    obtain ⟨k, rfl, hk⟩ := h.mem_visited.1 hmem
    refine ⟨k, ⟨?_, hload⟩, hk, rfl⟩
    unfold Reached entryAt at hk
    omega
  · rintro ⟨k, ⟨-, hload⟩, hk, rfl⟩
    exact ⟨entryAt data k, h.mem_visited.2 ⟨k, rfl, hk⟩, hload, rfl⟩

theorem inside : ePhoff.Inside data 0 ∧ ePhnum.Inside data 0 ∧
    ePhentsize.Inside data 0 ∧ eEntry.Inside data 0 := by
  have hlen := h.length
  simp only [Field.Inside, ePhoff, ePhnum, ePhentsize, eEntry]
  omega

theorem type_inside {header : Nat} (hmem : header ∈ visited data) : pType.Inside data header := by
  obtain ⟨k, rfl, hk⟩ := h.mem_visited.1 hmem
  have htable := h.table
  unfold Reached at hk
  simp only [Field.Inside, pType, entryAt] at *
  omega

theorem loadElf_eq_ok (hp : Paging.Process.new (privilegeOf kernel) e.hpet = some p0) :
    loadElf e data kernel = .ok s' ↔ 56 * ePhnum.value data 0 < 0x10000 ∧
      ∃ s, Loading.loadSegments data (visited data) (e.start p0) = .ok s ∧
        s.newThread (eEntry.value data 0) = .ok s' := by
  have hp' : Paging.Process.new (if kernel then .kernel else .user) e.hpet = some p0 := hp
  obtain ⟨hphoff, hphnum, hphentsize, hentry⟩ := h.inside
  have hlen : 24 ≤ data.length := Nat.le_trans (by decide) h.length
  rw [loadElf, validateElfHeader_bind_eq_ok]
  simp only [hp', unwrap_bind_eq_ok, some.injEq, exists_eq_left', ensure_bind_eq_ok,
    Field.read_bind_eq_ok (f := ePhoff) (by decide),
    Field.read_bind_eq_ok (f := ePhnum) (by decide),
    Field.read_bind_eq_ok (f := ePhentsize) (by decide), h.phentsize]
  simp only [bind_eq_ok, Field.read_bind_eq_ok (f := eEntry) (by decide), h.header, hlen,
    hphoff, hphnum, hphentsize, hentry, visited, h.phentsize, Nat.mul_comm _ 56, true_and]
  exact and_congr_right fun _ => and_iff_right (by decide)

theorem loadElf_spec (kernel : Bool) :
    ((∃ s, loadElf e data kernel = .ok s) ↔ 56 * ePhnum.value data 0 < 0x10000 ∧
      (∀ before header after, visited data = before ++ header :: after →
        pType.value data header = ptLoad →
          Loads e data (segmentsOf data before) header) ∧
      ThreadFits e data (privilegeOf kernel) (segmentsOf data (visited data))) ∧
    ∀ s, loadElf e data kernel = .ok s → Complete e data (segmentsOf data (visited data)) s := by
  obtain ⟨p0, hp⟩ := isSome_iff_exists.1 (e.creates (privilegeOf kernel))
  have hstart : Holds e data p0 [] (e.start p0) := holds_start hp
  obtain ⟨hloop, hholds⟩ := hstart.loadSegments (visited data) hp
  have hall : LoadsAll e data (visited data) [] ↔
      ∀ before header after, visited data = before ++ header :: after →
        pType.value data header = ptLoad → Loads e data (segmentsOf data before) header := by
    constructor
    · intro hl before header after heq
      exact (hl before header after heq).2
    · intro hl before header after heq
      refine ⟨h.type_inside ?_, hl before header after heq⟩
      rw [heq]
      exact mem_append_right _ mem_cons_self
  rw [hall] at hloop
  constructor
  · simp only [h.loadElf_eq_ok hp]
    constructor
    · rintro ⟨s', hproduct, s, hs, hthread⟩
      exact ⟨hproduct, hloop.1 ⟨s, hs⟩, ((hholds s hs).newThread_iff hp).1 ⟨s', hthread⟩⟩
    · rintro ⟨hproduct, hloads, hfits⟩
      obtain ⟨s, hs⟩ := hloop.2 hloads
      obtain ⟨s', hthread⟩ := ((hholds s hs).newThread_iff hp).2 hfits
      exact ⟨s', hproduct, s, hs, hthread⟩
  · intro s' hs'
    obtain ⟨-, s, hs, hthread⟩ := (h.loadElf_eq_ok hp).1 hs'
    have hfits := ((hholds s hs).newThread_iff hp).1 ⟨s', hthread⟩
    refine (hholds s hs).complete hp (fun g hg v hstart hstop => ?_) hfits hthread
    -- the segment was free when it was loaded
    obtain ⟨header, hmem, hload, rfl⟩ := mem_segmentsOf.1 hg
    obtain ⟨before, after, heq⟩ := append_of_mem hmem
    have hfree := (hloop.1 ⟨s, hs⟩ before header after heq hload).free
    by_contra hmapped
    have hrange := (hfree _ (mem_append_left _ (new_table hp hmapped).1)).1
    simp only at hrange
    omega

end WellFormed

/-! ## Faithfulness -/

theorem WellFormed.faithful_of_loadsWhole (h : WellFormed e.hpet data)
    (hwhole : LoadsWhole e data kernel)
    (hc : Complete e data (segmentsOf data (visited data)) s) : Faithful data s := by
  intro k hk i hi
  have hpos : 0 < (segment data k).memsz := zero_lt_of_lt hi
  rcases hwhole.reached k hk hpos with hreached | hlike
  · obtain ⟨hlow, hhigh⟩ := hwhole.user k hk hreached hpos
    obtain ⟨j, hj⟩ := mem_iff_getElem?.1 (h.mem_segments.2 ⟨k, hk, hreached, rfl⟩)
    obtain ⟨hstart, hstop⟩ := covers_byte hi
    rw [hc.access_segment hj hstart hstop (by omega) (by omega), image_byte]
    rfl
  · have hstart := hlike.start
    have hstop := hlike.stop
    have hzero : (if i < (segment data k).filesz then data[(segment data k).offset + i]?.getD 0
        else 0) = 0 := by
      split
      · exact hlike.zero i (by assumption)
      · rfl
    rw [hc.access_stack ⟨by omega, by omega⟩, hzero]
    exact congrArg (fun flags => some (0, flags)) hlike.flags.symm

theorem Faithful.place (hf : Faithful data s)
    (hc : Complete e data (segmentsOf data (visited data)) s) (hk : HasSegment data k)
    (hi : i < (segment data k).memsz) :
    InStack ((segment data k).vaddr + i) ∨
      (∃ g ∈ segmentsOf data (visited data), g.Covers ((segment data k).vaddr + i)) ∧
        0x1000 ≤ (segment data k).vaddr + i ∧ (segment data k).vaddr + i < 0x800000000000 :=
  hc.of_access (hf k hk i hi) rfl

theorem WellFormed.reached_or_likeStack (h : WellFormed e.hpet data) (hf : Faithful data s)
    (hc : Complete e data (segmentsOf data (visited data)) s) (hk : HasSegment data k)
    (hpos : 0 < (segment data k).memsz) : Reached data k ∨ (segment data k).LikeStack data := by
  rw [or_iff_not_imp_left]
  intro hskipped
  -- no segment that has been loaded covers a byte of this one
  have hstack : ∀ i < (segment data k).memsz, InStack ((segment data k).vaddr + i) := by
    intro i hi
    refine (hf.place hc hk hi).resolve_right ?_
    rintro ⟨⟨g, hg, hcovers⟩, -⟩
    obtain ⟨j, hj, hreached, rfl⟩ := h.mem_segments.1 hg
    refine h.disjoint j k hj hk (fun hjk => ?_) _ hcovers (covers_byte hi)
    exact hskipped (hjk ▸ hreached)
  have hbyte : ∀ i < (segment data k).memsz, _ := fun i hi =>
    some.inj ((hf k hk i hi).symm.trans (hc.access_stack (hstack i hi)))
  have hfirst := (hstack 0 hpos).1
  have hlast := (hstack ((segment data k).memsz - 1) (by omega)).2
  refine ⟨hfirst, by omega, (Prod.mk.inj (hbyte 0 hpos)).2, fun i hi => ?_⟩
  have hsize := h.sizes k hk
  have hzero := (Prod.mk.inj (hbyte i (by omega))).1
  rwa [if_pos hi] at hzero

theorem WellFormed.user_of_faithful (h : WellFormed e.hpet data) (hf : Faithful data s)
    (hc : Complete e data (segmentsOf data (visited data)) s)
    (hfits : ThreadFits e data (privilegeOf kernel) (segmentsOf data (visited data)))
    (hk : HasSegment data k) (hreached : Reached data k) (hpos : 0 < (segment data k).memsz) :
    0x1000 ≤ (segment data k).vaddr ∧
      (segment data k).vaddr + (segment data k).memsz ≤ 0x800000000000 := by
  have hmem : ((segment data k).start, (segment data k).stop)
      ∈ taken e.hpet (segmentsOf data (visited data)) :=
    mem_append_right _ (mem_map.2 ⟨_, h.mem_segments.2 ⟨k, hk, hreached, rfl⟩, rfl⟩)
  have hfree := (hfits.stack _ hmem).1
  simp only at hfree
  have hbounds : ∀ i < (segment data k).memsz, 0x1000 ≤ (segment data k).vaddr + i ∧
      (segment data k).vaddr + i < 0x800000000000 := by
    intro i hi
    refine ((hf.place hc hk hi).resolve_left fun hstack => ?_).2
    -- the stack has been inserted next to the segment
    have hcovers := covers_byte hi
    unfold InStack at hstack
    unfold Segment.Covers at hcovers
    omega
  have hfirst := hbounds 0 hpos
  have hlast := hbounds ((segment data k).memsz - 1) (by omega)
  omega

/-- A well-formed file is loaded faithfully exactly when `LoadsWhole` holds. -/
theorem loadElf_faithful_iff (e : Loader) (data : List UInt8) (kernel : Bool)
    (h : WellFormed e.hpet data) :
    (∃ s, loadElf e data kernel = .ok s ∧ Faithful data s) ↔ LoadsWhole e data kernel := by
  obtain ⟨hok, hcomplete⟩ := h.loadElf_spec kernel
  constructor
  · rintro ⟨s, hs, hf⟩
    obtain ⟨hproduct, hloads, hfits⟩ := hok.1 ⟨s, hs⟩
    have hc := hcomplete s hs
    exact ⟨hproduct, hloads, hfits, fun k hk => h.reached_or_likeStack hf hc hk,
      fun k hk => h.user_of_faithful hf hc hfits hk⟩
  · intro hwhole
    obtain ⟨s, hs⟩ := hok.2 ⟨hwhole.product, hwhole.loads, hwhole.thread⟩
    exact ⟨s, hs, h.faithful_of_loadsWhole hwhole (hcomplete s hs)⟩

/-! ## Files with one segment -/

theorem WellFormed.of_single {hpet : Option Nat} (hlength : 64 ≤ data.length)
    (hheader : ValidHeader data) (hphentsize : ePhentsize.value data 0 = 56)
    (htable : entryAt data (ePhnum.value data 0) ≤ data.length)
    (honly : ∀ k, HasSegment data k → k = 0)
    (hsize : (segment data 0).filesz ≤ (segment data 0).memsz)
    (hfile : (segment data 0).offset + (segment data 0).filesz ≤ data.length)
    (hclear : ∀ r ∈ kernelRanges hpet [],
      r.2 ≤ (segment data 0).start ∨ (segment data 0).stop ≤ r.1) : WellFormed hpet data where
  length := hlength
  header := hheader
  phentsize := hphentsize
  table := htable
  sizes k hk := by
    obtain rfl := honly k hk
    exact hsize
  files k hk := by
    obtain rfl := honly k hk
    exact hfile
  disjoint j k hj hk hjk := absurd ((honly j hj).trans (honly k hk).symm) hjk
  clear k hk r hr a ha := by
    obtain rfl := honly k hk
    have hapart := hclear r hr
    unfold Segment.Covers at ha
    omega

/-- Two entries, the second of which is empty. -/
def loadedFile : List UInt8 :=
  fileHeader 0x400000 64 56 2 ++ programHeader ptLoad 5 176 0x400000 4 0x1800 ++
    programHeader 0 0 0 0 0 0 ++ [0x90, 0x90, 0x90, 0xC3]

theorem loadedFile_only (k : Nat) (hk : HasSegment loadedFile k) : k = 0 := by
  have hcount : ePhnum.value loadedFile 0 = 2 := by decide +kernel
  have hsecond : pType.value loadedFile (entryAt loadedFile 1) ≠ ptLoad := by
    decide +kernel
  obtain ⟨hlt, hload⟩ := hk
  rw [hcount] at hlt
  by_contra hne
  obtain rfl : k = 1 := by omega
  exact hsecond hload

theorem wellFormed_loadedFile : WellFormed none loadedFile :=
  .of_single (by decide +kernel)
    ⟨by decide +kernel, by decide +kernel, by decide +kernel, by decide +kernel⟩ (by decide +kernel)
    (by decide +kernel) loadedFile_only (by decide +kernel) (by decide +kernel) (by decide +kernel)

theorem loadsWhole_loadedFile : LoadsWhole kernelLoader loadedFile false where
  product := by decide +kernel
  loads before header after heq hload := by
    have hvisited : visited loadedFile = [64] := by decide +kernel
    rw [hvisited] at heq
    obtain ⟨rfl, rfl⟩ : before = [] ∧ header = 64 := by
      cases before with
      | nil => exact ⟨rfl, (List.cons.inj heq).1.symm⟩
      | cons => simp at heq
    exact
      { inside := by decide +kernel
        bound := by decide +kernel
        heap := by decide +kernel
        free := by
          unfold Free
          decide +kernel
        fits := ⟨by decide +kernel, by decide +kernel, by decide +kernel, 0xFEE02000,
          ⟨0, by decide +kernel, by decide +kernel, .inl (by decide +kernel)⟩,
          by decide +kernel⟩ }
  thread := by
    refine ⟨by decide +kernel, ?_, ?_, by decide +kernel⟩
    · unfold Free
      decide +kernel
    · unfold Free
      decide +kernel
  reached k hk _ := by
    obtain rfl := loadedFile_only k hk
    have hreached : entryAt loadedFile 0 < 56 * ePhnum.value loadedFile 0 := by
      decide +kernel
    exact .inl hreached
  user k hk _ _ := by
    obtain rfl := loadedFile_only k hk
    decide +kernel

theorem loadedFile_faithful : WellFormed none loadedFile ∧
    ∃ s, loadElf kernelLoader loadedFile false = .ok s ∧ Faithful loadedFile s :=
  ⟨wellFormed_loadedFile,
    (loadElf_faithful_iff kernelLoader loadedFile false wellFormed_loadedFile).2
      loadsWhole_loadedFile⟩

/-- One entry, which is that of a segment. -/
def skippedFile : List UInt8 :=
  fileHeader 0x400000 64 56 1 ++ programHeader ptLoad 5 120 0x400000 4 0x1800 ++
    [0x90, 0x90, 0x90, 0xC3]

theorem wellFormed_skippedFile : WellFormed none skippedFile := by
  have hcount : ePhnum.value skippedFile 0 = 1 := by decide +kernel
  refine .of_single (by decide +kernel)
    ⟨by decide +kernel, by decide +kernel, by decide +kernel, by decide +kernel⟩ (by decide +kernel)
    (by decide +kernel) (fun k hk => ?_) (by decide +kernel) (by decide +kernel) (by decide +kernel)
  have hlt := hk.1
  omega

/-- The file is loaded without its segment. -/
theorem skippedFile_unfaithful : WellFormed none skippedFile ∧
    (∃ s, loadElf kernelLoader skippedFile false = .ok s) ∧
    ∀ s, loadElf kernelLoader skippedFile false = .ok s →
      s.access 0x400000 = none ∧ ¬ Faithful skippedFile s := by
  have hrun : (loadElf kernelLoader skippedFile false).toOption.map (·.access 0x400000)
      = some none := by decide +kernel
  have hsegment : HasSegment skippedFile 0 := ⟨by decide +kernel, by decide +kernel⟩
  have hvaddr : (segment skippedFile 0).vaddr + 0 = 0x400000 := by decide +kernel
  have hmemsz : 0 < (segment skippedFile 0).memsz := by decide +kernel
  refine ⟨wellFormed_skippedFile, ?_, fun s hs => ?_⟩
  · cases hload : loadElf kernelLoader skippedFile false with
    | ok s => exact ⟨s, rfl⟩
    | error =>
      rw [hload] at hrun
      cases hrun
  · rw [hs] at hrun
    have hnone : s.access 0x400000 = none := some.inj hrun
    refine ⟨hnone, fun hf => ?_⟩
    have hbyte := hf 0 hsegment 0 hmemsz
    rw [hvaddr, hnone] at hbyte
    cases hbyte

end Fioxa.Elf
