import Fioxa.Elf.Thread

/-! # Hostile input

The header fields of an ELF file reach pointer arithmetic, multiplications, `step_by` and a raw copy
without having been checked. A run of `load_elf` is memory-safe, and returns, when no fault ends it:
each read is inside the input, each copy inside the mapping that has been inserted for it, and
nothing overflows or panics. `Harmless` is exactly what the input has to satisfy for this. Headers
behind a segment that is refused are never looked at, so that nothing is asked of them. -/

namespace Fioxa.Elf

open Faults Paging List
open Elf64Ehdr (ePhnum ePhentsize eEntry ePhoff)

/-- The headers from here on do no harm after the segments `gs` have been loaded: the fields that
    are read are inside the input, and each segment is either refused or can be loaded. -/
def HeadersHarmless (e : Loader) (data : List UInt8) (privilege : ProcessPrivilige) :
    List Nat → List Segment → Prop
  | [], gs => ThreadFits e data privilege gs
  | header :: rest, gs =>
    Elf64Phdr.pType.Inside data header ∧
      if Elf64Phdr.pType.value data header = ptLoad then
        Mappable e data gs header ∧
          (Blocked (taken e.hpet gs) (segmentAt data header).start (segmentAt data header).stop ∨
            Loads e data gs header ∧
              HeadersHarmless e data privilege rest (gs ++ [segmentAt data header]))
      else HeadersHarmless e data privilege rest gs

/-- An input that does no harm: one with an invalid header, or one whose program headers do none. -/
def Harmless (e : Loader) (data : List UInt8) (kernel : Bool) : Prop :=
  HeaderInside data ∧ (ValidHeader data →
    ePhnum.Inside data 0 ∧
    ePhnum.value data 0 * ePhentsize.value data 0 < 0x10000 ∧
    ePhentsize.value data 0 ≠ 0 ∧
    HeadersHarmless e data (privilegeOf kernel) (visited data) [])

variable {e : Loader} {data : List UInt8} {privilege : ProcessPrivilige} {p0 : Paging.Process}
  {gs : List Segment} {s : Loading}

theorem sound_loadSegments (hp : Paging.Process.new privilege e.hpet = some p0)
    (hentry : eEntry.Inside data 0) {headers : List Nat}
    (h : Loading.Holds e data p0 gs s) :
    Sound (s.loadSegments data headers >>= fun s => do
      let entry ← eEntry.read data 0
      s.newThread entry) ↔ HeadersHarmless e data privilege headers gs := by
  induction headers generalizing gs s with
  | nil =>
    show Sound (eEntry.read data 0 >>= fun entry => s.newThread entry) ↔ _
    rw [Field.sound_read_bind (by decide), and_iff_right hentry, Loading.sound_newThread,
      h.newThread_iff hp]
    rfl
  | cons header rest ih =>
    obtain ⟨hok, hstate⟩ := h.loadSegment header hp
    rw [Loading.loadSegments, bind_assoc, sound_bind, h.sound_loadSegment hp, HeadersHarmless,
      and_assoc]
    refine and_congr_right fun htype => ?_
    by_cases hload : Elf64Phdr.pType.value data header = ptLoad
    · simp only [hload, if_true, true_implies] at hok hstate ⊢
      rw [and_assoc]
      refine and_congr_right fun hmappable => ?_
      constructor
      · rintro ⟨hcases, hrest⟩
        refine hcases.imp_right fun hloads => ⟨hloads, ?_⟩
        obtain ⟨s', hs'⟩ := hok.2 ⟨htype, hloads⟩
        exact (ih (hstate s' hs')).1 (hrest s' hs')
      · rintro (hblocked | ⟨hloads, hrest⟩)
        · refine ⟨.inl hblocked, fun s' hs' => ?_⟩
          -- a segment that is refused ends the loop
          obtain ⟨r, hr, hover⟩ := hblocked
          have hfree := ((hok.1 ⟨s', hs'⟩).2.free r hr).1
          omega
        · exact ⟨.inr hloads, fun s' hs' => (ih (hstate s' hs')).2 hrest⟩
    · simp only [hload, if_false, false_implies, true_and] at hok hstate ⊢
      constructor
      · intro hrest
        obtain ⟨s', hs'⟩ := hok.2 ⟨htype, trivial⟩
        obtain rfl := hstate s' hs'
        exact (ih h).1 (hrest s' hs')
      · intro hrest s' hs'
        obtain rfl := hstate s' hs'
        exact (ih h).2 hrest

/-- No fault ends `load_elf` exactly when the input is harmless. -/
theorem loadElf_sound_iff (e : Loader) (data : List UInt8) (kernel : Bool) :
    Sound (loadElf e data kernel) ↔ Harmless e data kernel := by
  obtain ⟨p0, hp⟩ := Option.isSome_iff_exists.1 (e.creates (privilegeOf kernel))
  have hp' : Paging.Process.new (if kernel then .kernel else .user) e.hpet = some p0 := hp
  rw [loadElf, sound_validateElfHeader_bind, Harmless]
  refine and_congr_right fun _ => imp_congr_right fun _ => ?_
  simp only [hp', sound_unwrap_bind, Option.some.injEq, exists_eq_left',
    Field.sound_read_bind (f := ePhoff) (by decide),
    Field.sound_read_bind (f := ePhnum) (by decide),
    Field.sound_read_bind (f := ePhentsize) (by decide), sound_ensure_bind]
  constructor
  · rintro ⟨-, hphnum, -, hproduct, hstep, hloop⟩
    refine ⟨hphnum, hproduct, hstep, ?_⟩
    have hentry : eEntry.Inside data 0 := by
      simp only [Field.Inside, ePhnum, eEntry] at *
      omega
    exact (sound_loadSegments hp hentry (Loading.holds_start hp)).1 hloop
  · rintro ⟨hphnum, hproduct, hstep, hloop⟩
    have hinside : ePhoff.Inside data 0 ∧ ePhentsize.Inside data 0 ∧ eEntry.Inside data 0 := by
      simp only [Field.Inside, ePhnum, ePhoff, ePhentsize, eEntry] at *
      omega
    exact ⟨hinside.1, hphnum, hinside.2.1, hproduct, hstep,
      (sound_loadSegments hp hinside.2.2 (Loading.holds_start hp)).2 hloop⟩

/-! ## Files -/

/-- A number of `size` bytes. -/
def number (size value : Nat) : List UInt8 :=
  (List.range size).map fun k => UInt8.ofNat (value >>> (8 * k))

/-- The header of a file, which is valid. -/
def fileHeader (entry phoff phentsize phnum : Nat) : List UInt8 :=
  elfHeaderSig ++ number 10 0 ++ number 2 etExec ++ number 2 emX8664 ++ number 4 1 ++
    number 8 entry ++ number 8 phoff ++ number 8 0 ++ number 4 0 ++ number 2 64 ++
    number 2 phentsize ++ number 2 phnum ++ number 6 0

def programHeader (type flags offset vaddr filesz memsz : Nat) : List UInt8 :=
  number 4 type ++ number 4 flags ++ number 8 offset ++ number 8 vaddr ++ number 8 0 ++
    number 8 filesz ++ number 8 memsz ++ number 8 0x1000

/-- A loader with the page of the local APIC and the stack of one thread. -/
def kernelLoader : Loader where
  bytes _ := 0
  supply := Span.span 0x1000 0x200000 20
  heap := 100
  objects := [⟨0x1000, .mmap 0xfee00000⟩, .newLazy 0, .newLazy stackSize]
  mapper :=
    { pageMapper := fun v => if v = 0xfee00000 then some (v, .onlyWriteable) else none
      mappings := [apicRange, stackRange 0 2] }
  hpet := none
  supply_nodup := Span.nodup_span (by decide)
  supply_ok := by decide
  tidy :=
    { ordered := by
        refine ⟨fun r hr => ?_, by decide⟩
        rcases mem_cons.1 hr with rfl | hr
        · exact ⟨by decide, by decide, by decide, by decide⟩
        · obtain rfl := mem_singleton.1 hr
          exact ⟨by decide, by decide, by decide, by decide⟩
      nonempty := by decide
      mapped := by
        intro v hv
        refine ⟨apicRange, mem_cons_self, ?_⟩
        simp only [ne_eq, ite_eq_right_iff, reduceCtorEq, imp_false, Decidable.not_not] at hv
        subst hv
        decide }
  creates := by
    intro privilege
    cases privilege <;> decide

/-- Inputs that a fault ends, each with the fault. -/
def hostileInputs : List (List UInt8 × Fault) :=
  [ -- an empty file
    ([], .readOutside 0 6),
    -- the program headers have no size
    (fileHeader 0x400000 64 0 1, .zeroStep),
    -- the size of the table has more than 16 bits
    (fileHeader 0x400000 64 56 1171, .overflow),
    -- the table is not in the file
    (fileHeader 0x400000 64 56 2, .readOutside 64 4),
    -- the end of the segment is not an address
    (fileHeader 0x400000 64 56 2 ++ programHeader 1 5 0 0x400000 0 0xFFFFFFFFFFFFFFFF, .overflow),
    -- the bytes of the segment are not in the file
    (fileHeader 0x400000 64 56 2 ++ programHeader 1 5 0x1000 0x400000 16 16,
      .readOutside 0x1000 16),
    -- more bytes are copied than the segment has
    (fileHeader 0x400000 64 56 2 ++ programHeader 1 7 0 0x400FFF 100 1,
      .writeOutside 0xFEE02FFF 100),
    -- the list of the pages is too long for the heap
    (fileHeader 0x400000 64 56 2 ++ programHeader 1 5 0 0x400000 0 0x7F000000, .panic),
    -- the segment is where the stack of the first thread belongs
    (fileHeader 0x400000 64 56 2 ++ programHeader 1 7 0 0x100000000000 0 16, .panic),
    -- an entry point that is not an address
    (fileHeader 0x1000000000000 64 56 0, .panic)]

theorem hostile_input_faults :
    hostileInputs.map (fun x => stopped (loadElf kernelLoader x.1 false))
      = hostileInputs.map (fun x => some (.fault x.2)) := by
  decide +kernel

end Fioxa.Elf
