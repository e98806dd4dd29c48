import Fioxa.Paging.FrameAllocator
import Fioxa.Paging.PageTable

/-! # The window onto physical memory

`create_offset_map` (`paging/offset_map.rs`) maps the regions of the memory map of UEFI, so that
physical memory can be accessed at `PhysMapOffset`. Each region is cut into pages of 4 KiB, 2 MiB
and 1 GiB (`get_chunked_page_range`, `paging/page.rs`), which are mapped in `OFFSET_MAP`, a single
table of level 3. `new_with_global` puts this table into one entry of each new table of level 4.

`Mapper` is implemented for each page size: a page of 4 KiB, 2 MiB or 1 GiB is an entry of a table
of level 1, 2 or 3. A call that panics has no result (`none`), as in `PageTable`. -/

namespace Fioxa.Paging

inductive PageSize where
  | size4KB
  | size2MB
  | size1GB
deriving DecidableEq

namespace PageSize

/-- `PAGE_SIZE` -/
def bytes : PageSize → Nat
  | size4KB => 0x1000
  | size2MB => 0x200000
  | size1GB => 0x40000000

/-- The level of the tables whose entries are pages of this size (`TableLevelMap`). -/
def level : PageSize → Nat
  | size4KB => 1
  | size2MB => 2
  | size1GB => 3

end PageSize

/-- `Page::<S>::new` -/
def newPage (size : PageSize) (address : Nat) : Option Nat :=
  if address &&& (size.bytes - 1) = 0 ∧ pageOk address = true then some address else none

/-! ## Mapping -/

namespace TableFrames

/-- `map_inner` of a table of the given level. Only those of level 1 have `LARGER_PAGES = false`. -/
def mapInnerAt (level : Nat) (w : TableFrames) (table v p : Nat) (flags : MemoryMappingFlags) :
    Option (Except MapMemoryError Flusher × TableFrames) :=
  let index := calculateIndex level v
  let e := w.entry table index
  if e.present then
    some (.error (.memAlreadyMapped v p e.getAddress), w)
  else
    let e := { e with
      present := true
      largerPages := level ≠ 1
      readWrite := flags.writeable
      userSuper := flags.userspace }
    match e.setAddress p with
    | none => none
    | some e => some (.ok ⟨v⟩, w.setEntry table index e)

/-- `map` of a page that is an entry of a table of the given level, in a table that is a number of
    levels above. -/
def mapAt (level : Nat) : Nat → TableFrames → Nat → Nat → Nat → MemoryMappingFlags →
    Option (Except MapMemoryError Flusher × TableFrames)
  | 0, w, table, v, p, flags => w.mapInnerAt level table v p flags
  | d + 1, w, table, v, p, flags =>
    let index := calculateIndex (level + d + 1) v
    let e := w.entry table index
    if e.present then
      -- map over larger pages
      if e.largerPages then none
      else mapAt level d w e.getAddress v p flags
    else
      match w.allocatePage with
      | none => none
      | some (next, w) =>
        let e := { w.entry table index with
          present := true
          largerPages := false
          readWrite := true
          userSuper := true }
        match e.setAddress next with
        | none => none
        | some e => mapAt level d (w.setEntry table index e) next v p flags

theorem map_eq_mapAt (n : Nat) (w : TableFrames) (table : Nat) (v p : Page)
    (flags : MemoryMappingFlags) :
    w.map n table v p flags = w.mapAt 1 n table v.address p.address flags := by
  induction n generalizing w table with
  | zero => rfl
  | succ n ih =>
    have hlevel : 1 + n + 1 = n + 2 := by omega
    rw [map, mapAt, hlevel]
    split
    · split
      · rfl
      · exact ih ..
    · cases w.allocatePage with
      | none => rfl
      | some allocated =>
        dsimp only
        cases PageDirectoryEntry.setAddress _ allocated.1 with
        | none => rfl
        | some e => exact ih ..

end TableFrames

/-! ## Cutting a region into pages -/

structure PageRange where
  base : Nat
  count : Nat
deriving DecidableEq

namespace PageRange

def empty : PageRange := ⟨0, 0⟩

/-- The addresses that the iterator goes through. -/
def pages (r : PageRange) (size : PageSize) : List Nat := Span.span size.bytes r.base r.count

end PageRange

/-- `address & !(PAGE_SIZE - 1)` -/
def alignDown (size : PageSize) (address : Nat) : Nat := address - (address &&& (size.bytes - 1))

/-- The pages from `start` to the next boundary of a larger page, at most to `stop`, and where they
    end. The subtraction overflows if `stop` is before `start`. -/
def takeFront (size larger : PageSize) (start stop : Nat) : Option (PageRange × Nat) :=
  let newStart := min (alignDown larger start + larger.bytes) stop
  if start ≤ newStart then some (⟨start, (newStart - start) / size.bytes⟩, newStart) else none

/-- The pages to `stop` from the last boundary of a larger page, at most from `start`, and where
    they begin. -/
def takeBack (size larger : PageSize) (start stop : Nat) : Option (PageRange × Nat) :=
  let newEnd := max (alignDown larger stop) start
  if newEnd ≤ stop then some (⟨newEnd, (stop - newEnd) / size.bytes⟩, newEnd) else none

/-- What `get_chunked_page_range` returns. -/
structure Chunks where
  s4kb : PageRange
  s2mb : PageRange
  gb : PageRange
  e2mb : PageRange
  e4kb : PageRange

/-- A step that is left out, with no pages and the bound as it is, where it is not needed. -/
def whenNeeded (c : Prop) [Decidable c] (step : Option (PageRange × Nat)) (bound : Nat) :
    Option (PageRange × Nat) :=
  if c then step else some (.empty, bound)

open PageSize in
def getChunkedPageRange (start stop : Nat) : Option Chunks :=
  if start &&& 0xFFF = 0 ∧ stop &&& 0xFFF = 0 then do
    -- normalize 4kb chunks; the first step does not ask whether there is anything left
    let (s4kb, start) ← whenNeeded (0 < start &&& 0x1fffff)
      (takeFront size4KB size2MB start stop) start
    let (e4kb, stop) ← whenNeeded (0 < stop &&& 0x1fffff ∧ start ≠ stop)
      (takeBack size4KB size2MB start stop) stop
    -- normalize 2mb chunks
    let (s2mb, start) ← whenNeeded (0 < start &&& 0x3fffffff ∧ start ≠ stop)
      (takeFront size2MB size1GB start stop) start
    let (e2mb, stop) ← whenNeeded (0 < stop &&& 0x3fffffff ∧ start ≠ stop)
      (takeBack size2MB size1GB start stop) stop
    let gb := if start < stop ∧ start ≠ stop then ⟨start, (stop - start) / size1GB.bytes⟩
      else PageRange.empty
    return ⟨s4kb, s2mb, gb, e2mb, e4kb⟩
  else none

open PageSize in
/-- The pages in the order in which `create_offset_map` maps them. -/
def Chunks.pages (c : Chunks) : List (PageSize × Nat) :=
  ((c.s4kb.pages size4KB ++ c.e4kb.pages size4KB).map fun page => (size4KB, page)) ++
  ((c.s2mb.pages size2MB ++ c.e2mb.pages size2MB).map fun page => (size2MB, page)) ++
  (c.gb.pages size1GB).map fun page => (size1GB, page)

/-! ## The offset map -/

def physMapOffset : Nat := 0xffffE00000000000

def endPhysMapOffset : Nat := 0xffffEFFFFFFFFFFF

namespace TableFrames

/-- One page is mapped in a table of level 3. The result of `map` is unwrapped. An address whose sum
    with `PhysMapOffset` overflows is also not accepted by `Page::new`. -/
def mapChunk (w : TableFrames) (table : Nat) (chunk : PageSize × Nat) : Option TableFrames := do
  let p ← newPage chunk.1 chunk.2
  let v ← newPage chunk.1 (p + physMapOffset)
  match w.mapAt chunk.1.level (3 - chunk.1.level) table v p ⟨true, false⟩ with
  | some (.ok _, w) => some w
  | _ => none

def mapChunks (table : Nat) : List (PageSize × Nat) → TableFrames → Option TableFrames
  | [], w => some w
  | chunk :: rest, w =>
    match w.mapChunk table chunk with
    | none => none
    | some w => mapChunks table rest w

/-- The assertion on a region. The factor is not the page size. If the sum overflows, the assertion
    is not reached. -/
def inRange (r : MemoryDescriptor) : Bool :=
  r.physStart + r.pageCount * 1000 ≤ endPhysMapOffset - physMapOffset

/-- One turn of the loop over the regions. -/
def mapRegion (w : TableFrames) (table : Nat) (r : MemoryDescriptor) : Option TableFrames := do
  if inRange r then
    -- the zero page is ignored
    let pages ← getChunkedPageRange (max r.physStart 0x1000) (r.physStart + r.pageCount * 0x1000)
    w.mapChunks table pages.pages
  else none

def createOffsetMap (table : Nat) : List MemoryDescriptor → TableFrames → Option TableFrames
  | [], w => some w
  | r :: rest, w =>
    match w.mapRegion table r with
    | none => none
    | some w => createOffsetMap table rest w

/-! ## Tables of level 4 -/

def kernelHeap : Nat := 0xffffFF0000000000

def kernelStart : Nat := 0xffffFF8000000000

/-- The tables of level 3 that all address spaces share. -/
structure GlobalMaps where
  offsetMap : Nat
  kernelDataMap : Nat
  kernelHeapMap : Nat
  perCpuMap : Nat

/-- `set` in `new_with_global`. -/
def setGlobal (w : TableFrames) (table address t : Nat) : Option TableFrames :=
  let index := calculateIndex 4 address
  let e := { w.entry table index with
    present := true
    readWrite := true
    userSuper := false }
  (e.setAddress t).map (w.setEntry table index)

def newWithGlobal (w : TableFrames) (maps : GlobalMaps) : Option (Nat × TableFrames) := do
  let (table, w) ← w.allocatePage
  let w ← w.setGlobal table physMapOffset maps.offsetMap
  let w ← w.setGlobal table kernelStart maps.kernelDataMap
  let w ← w.setGlobal table kernelHeap maps.kernelHeapMap
  let w ← w.setGlobal table perCpuMem maps.perCpuMap
  return (table, w)

/-- The size of an entry of a table of level `n + 1`. -/
def entrySize : Nat → Nat
  | 0 => 0x1000
  | n + 1 => 512 * entrySize n

/-- The translation by the processor, from a table of level `n + 1` on. An entry with `larger_pages`
    is a page, whatever its level. -/
def translate : Nat → TableFrames → Nat → Nat → Option Nat
  | 0, w, table, address =>
    let e := w.entry table (calculateIndex 1 address)
    if e.present then some (e.getAddress + address % entrySize 0) else none
  | n + 1, w, table, address =>
    let e := w.entry table (calculateIndex (n + 2) address)
    if e.present then
      if e.largerPages then some (e.getAddress + address % entrySize (n + 1))
      else translate n w e.getAddress address
    else none

end TableFrames

end Fioxa.Paging
