import Fioxa.Lib.BinarySearch
import Fioxa.Lib.Span
import Fioxa.Paging.PageTable

/-! # Mapped ranges

`PageMapperManager` (`paging/page_mapper.rs`): the page table of a process, together with the
ordered list of the address ranges that are mapped in it. Each range refers to a `PageMapping`,
which is shared by reference count: either a window onto fixed physical memory, or pages that are
allocated when they are first used.

The page table is the map from pages to frames that `PageTableMap` shows it to be. References to a
`PageMapping` are numbers, and its contents are passed along where they are needed, because they
are not part of the manager. A call that panics has no result (`none`): a failed assertion, an
overflow, `Page::new` or an `unwrap`. -/

namespace Fioxa.Paging

open Span BinarySearch Function

/-- `MemoryLoc::EndUserMem` -/
def endUserMem : Nat := 0xFFFFFFFFFFFF

/-- `Page::containing` -/
def pageBase (address : Nat) : Nat := address / 0x1000 * 0x1000

/-- `(n + 0xFFF) / 0x1000`: the pages that `n` bytes need, and the steps of `0x1000` in `n`. -/
def pageCount (n : Nat) : Nat := (n + 0xFFF) / 0x1000

/-- `(n + 0xFFF) & !0xFFF` -/
def roundUp (n : Nat) : Nat := pageCount n * 0x1000

/-- `(start..stop).step_by(0x1000)` -/
def pagesOf (start stop : Nat) : List Nat := span 0x1000 start (pageCount (stop - start))

/-! ## Mappings -/

inductive PageMappingType where
  | mmap (baseAddress : Nat)
  /-- Pages that have been allocated, as far as they have been used. -/
  | lazyMapping (pages : List (Option Nat))
deriving DecidableEq

structure PageMapping where
  size : Nat
  mapping : PageMappingType
deriving DecidableEq

namespace PageMapping

def newLazy (size : Nat) : PageMapping :=
  ⟨size, .lazyMapping (List.replicate (pageCount size) none)⟩

/-- `new_lazy_filled`, with the results of the allocations. -/
def newLazyFilled (size : Nat) (pages : List (Option Nat)) : PageMapping :=
  ⟨size, .lazyMapping pages⟩

/-- The physical page behind page `k` of the mapping, if there is one by now. -/
def pageAt (mapping : PageMapping) (k : Nat) : Option Nat :=
  match mapping.mapping with
  | .mmap baseAddress => some (baseAddress + 0x1000 * k)
  | .lazyMapping pages => pages[k]?.join

/-- The pages to map when the mapping is inserted at `base`, virtual and physical. -/
def targets (mapping : PageMapping) (base : Nat) : List (Nat × Nat) :=
  (List.range (pageCount mapping.size)).filterMap fun k =>
    (mapping.pageAt k).map fun phys => (base + 0x1000 * k, phys)

end PageMapping

/-- An element of `mappings`: the range, the `PageMapping` it refers to, and the flags. -/
structure MappedRange where
  start : Nat
  stop : Nat
  object : Nat
  flags : MemoryMappingFlags
deriving DecidableEq

namespace MappedRange

/-- The test for overlaps; a range that ends where the next one starts is in the way as well. -/
def overlaps (r : MappedRange) (base stop : Nat) : Bool := base < r.stop ∧ r.start ≤ stop

/-- How `page_fault_handler` compares a range with an address. -/
def compareAddress (address : Nat) (r : MappedRange) : Ordering :=
  if address < r.start then .gt else if r.stop ≤ address then .lt else .eq

/-- `Iterator::cmp` on two ranges of numbers: the first elements decide, a proper prefix is smaller,
    and all empty ranges are equal. -/
def compareRange (start stop : Nat) (r : MappedRange) : Ordering :=
  if r.start < r.stop then
    if start < stop then (compare r.start start).then (compare r.stop stop) else .gt
  else if start < stop then .lt else .eq

end MappedRange

structure PageMapperManager where
  pageMapper : Nat → Option (Nat × MemoryMappingFlags)
  mappings : List MappedRange

namespace PageMapperManager

/-! ## The page table -/

/-- `page_mapper.map`, with the calls of `Page::new` for its arguments. -/
def map (m : PageMapperManager) (v p : Nat) (flags : MemoryMappingFlags) :
    Option (Except MapMemoryError PageMapperManager) :=
  if pageOk v ∧ pageOk p then
    match m.pageMapper v with
    | some (current, _) => some (.error (.memAlreadyMapped v p current))
    | none =>
      if p < 0x10000000000000 then
        some (.ok { m with pageMapper := update m.pageMapper v (some (p, flags)) })
      else none
  else none

/-- The loop of `insert_mapping_at_set`, which unwraps every result. -/
def mapAll (m : PageMapperManager) (flags : MemoryMappingFlags) :
    List (Nat × Nat) → Option PageMapperManager
  | [] => some m
  | (v, p) :: rest =>
    match m.map v p flags with
    | some (.ok m) => m.mapAll flags rest
    | _ => none

/-- `page_mapper.unmap`, where it makes no difference whether the page was mapped. -/
def unmap (m : PageMapperManager) (v : Nat) : Option PageMapperManager :=
  if pageOk v then some { m with pageMapper := update m.pageMapper v none } else none

def unmapAll (m : PageMapperManager) : List Nat → Option PageMapperManager
  | [] => some m
  | v :: rest =>
    match m.unmap v with
    | none => none
    | some m => m.unmapAll rest

/-! ## Inserting -/

/-- The checks of `insert_mapping_at`, and the index at which the range belongs. The inner option is
    the result of the function. -/
def place (m : PageMapperManager) (base size : Nat) : Option (Option Nat) :=
  if base &&& 0xFFF ≠ 0 ∨ 0x10000000000000000 ≤ base + size then none
  else if m.mappings.any (·.overlaps base (base + size)) then some none
  else
    match search (fun r => compare r.start base) m.mappings with
    | .ok _ => none
    | .error idx => some (some idx)

/-- `mappings.insert` -/
def insert (m : PageMapperManager) (idx : Nat) (r : MappedRange) : PageMapperManager :=
  { m with mappings := m.mappings.take idx ++ r :: m.mappings.drop idx }

def insertMappingAt (m : PageMapperManager) (base : Nat) (mapping : PageMapping) (object : Nat)
    (flags : MemoryMappingFlags) : Option (Option PageMapperManager) :=
  match m.place base mapping.size with
  | none => none
  | some none => some none
  | some (some idx) => some (some (m.insert idx ⟨base, base + mapping.size, object, flags⟩))

def insertMappingAtSet (m : PageMapperManager) (base : Nat) (mapping : PageMapping) (object : Nat)
    (flags : MemoryMappingFlags) : Option (Option PageMapperManager) :=
  match m.place base mapping.size with
  | none => none
  | some none => some none
  | some (some idx) =>
    (m.mapAll flags (mapping.targets base)).map fun m =>
      some (m.insert idx ⟨base, base + mapping.size, object, flags⟩)

/-- `windows(2).position(..)`: the index of the first range behind which there is room, and where
    the room starts. `idx` is the index of the first range of the list. -/
def position (size : Nat) : Nat → List MappedRange → Option (Nat × Nat)
  | idx, left :: right :: rest =>
    if 0x10000000000000000 ≤ left.stop + 0x1000 + size then none
    -- add some padding
    else if left.stop + 0x1000 + size ≤ right.start then some (idx, left.stop + 0x1000)
    else position size (idx + 1) (right :: rest)
  | _, _ => none

def insertMapping (m : PageMapperManager) (mapping : PageMapping) (object : Nat)
    (flags : MemoryMappingFlags) : Option (Nat × PageMapperManager) :=
  (position mapping.size 0 m.mappings).map fun (idx, base) =>
    (base, m.insert (idx + 1) ⟨base, base + mapping.size, object, flags⟩)

def insertMappingSet (m : PageMapperManager) (mapping : PageMapping) (object : Nat)
    (flags : MemoryMappingFlags) : Option (Nat × PageMapperManager) :=
  match position mapping.size 0 m.mappings with
  | none => none
  | some (idx, base) =>
    (m.mapAll flags (mapping.targets base)).map fun m =>
      (base, m.insert (idx + 1) ⟨base, base + mapping.size, object, flags⟩)

/-! ## Page faults -/

/-- The element that a search finds. -/
def found (l : List MappedRange) (f : MappedRange → Ordering) : Option (Nat × MappedRange) :=
  match search f l with
  | .error _ => none
  | .ok idx => l[idx]?.map fun r => (idx, r)

/-- The range that a fault at this address is about. -/
def faulting (m : PageMapperManager) (address : Nat) : Option MappedRange :=
  if endUserMem < address then none
  else (found m.mappings (·.compareAddress address)).map Prod.snd

/-- The end of `page_fault_handler`, with the physical page of the mapping. -/
def mapFault (m : PageMapperManager) (address : Nat) (r : MappedRange) (phys : Nat) :
    Option PageMapperManager :=
  match m.map (pageBase address) phys r.flags with
  | none => none
  | some (.ok m) => some m
  -- already mapped
  | some (.error _) => some m

/-! ## Removing -/

/-- `free_mapping`, with the range that has been removed, whose reference is dropped then. -/
def freeMapping (m : PageMapperManager) (start stop : Nat) :
    Option (Except UnMapMemoryError (MappedRange × PageMapperManager)) :=
  match found m.mappings (·.compareRange start stop) with
  | none => some (.error (.memNotMapped start))
  | some (idx, r) =>
    ({ m with mappings := m.mappings.eraseIdx idx }.unmapAll (pagesOf r.start r.stop)).map
      fun m => .ok (r, m)

end PageMapperManager

end Fioxa.Paging
