import Mathlib.Data.Nat.Log
import Fioxa.Lib.Lts
import Fioxa.Lib.Span
import Fioxa.Paging.Page

/-! # The frame allocator

`PageFrameAllocator` (`paging/page_allocator.rs`) hands out physical pages. Free memory is kept in
blocks of `2 ^ order` pages, one singly linked list per order, and the links are stored in the free
blocks themselves: the first page of a block holds a `PageMetadata`. The first pages that `new`
finds go to a separate pool for 32-bit devices, linked through `PageMetadata32`, and page `0x8000`
is kept back to boot the other cores.

Addresses are numbers. What a page holds is left open (`PageContent`): the two records overlap, so
that writing one of them says nothing about the other. A call that panics has no result (`none`): an
overflow, the `ilog2` of zero, an `unwrap`, or `Page::new` of an address that is not canonical. -/

namespace Fioxa.Paging

open Span Function

/-- The number of pages set apart for 32-bit devices (`memory.rs`). -/
def reserved32BitMemPages : Nat := 32

def maxOrder : Nat := 18

def pagesInOrder (order : Nat) : Nat := 1 <<< order

structure PageMetadata where
  order : Nat
  prevNode : Option Nat
  nextNode : Option Nat
deriving DecidableEq

/-- The contents of a page, read and written as `PageMetadata` and as `PageMetadata32`. -/
class PageContent (C : Type) where
  node : C → PageMetadata
  withNode : PageMetadata → C → C
  next32 : C → Option Nat
  withNext32 : Option Nat → C → C
  zeroed : C
  node_withNode : ∀ m c, node (withNode m c) = m
  next32_withNext32 : ∀ n c, next32 (withNext32 n c) = n

open PageContent

attribute [simp] node_withNode next32_withNext32

variable {C : Type}

/-- The allocator and the memory it works on. `total_free` is left out: nothing reads it. -/
structure PageFrameAllocator (C : Type) where
  freeLists : Nat → Option Nat
  reserved32Bit : Option Nat
  captured0x8000 : Bool
  mem : Nat → C

namespace PageFrameAllocator

variable [PageContent C]

/-- `left`, `right` and `nxt` are pages of which some fields are written. -/
def writeNode (mem : Nat → C) (page : Nat) (change : PageMetadata → PageMetadata) : Nat → C :=
  update mem page (withNode (change (node (mem page))) (mem page))

/-- `write_bytes(.., 0, ..)` over these pages. -/
def zeroPages (mem : Nat → C) (pages : List Nat) : Nat → C :=
  fun p => if p ∈ pages then zeroed else mem p

/-! ## Free blocks -/

def insertFreeOfOrder (s : PageFrameAllocator C) (base order : Nat) : PageFrameAllocator C :=
  let mem := writeNode s.mem base fun _ => ⟨order, none, none⟩
  let mem :=
    -- a block of order 0 has only one page
    if 0 < order then
      writeNode mem (base + (pagesInOrder order - 1) * 0x1000) fun right =>
        { right with order := order }
    else mem
  { s with
    mem := writeNode mem base fun left => { left with nextNode := s.freeLists order }
    freeLists := update s.freeLists order (some base) }

/-- The loop of `insert_free_of_range`. Every turn inserts at least one page, so that `pages` turns
    are enough. -/
def insertLoop : Nat → PageFrameAllocator C → Nat → Nat → Option (PageFrameAllocator C)
  | 0, s, _, pages => if pages = 0 then some s else none
  | fuel + 1, s, start, pages =>
    if pages = 0 then some s
    else if start / 0x1000 = 0 then none
    else
      let order := min (min (Nat.log 2 pages) (Nat.log 2 (start / 0x1000))) maxOrder
      insertLoop fuel (s.insertFreeOfOrder start order) (start + pagesInOrder order * 0x1000)
        (pages - pagesInOrder order)

def insertFreeOfRange (s : PageFrameAllocator C) (start pages : Nat) :
    Option (PageFrameAllocator C) :=
  insertLoop pages s start pages

/-- The first case of `request_page_of_order`: take the head of a list. -/
def popFree (s : PageFrameAllocator C) (order block : Nat) : PageFrameAllocator C :=
  let next := (node (s.mem block)).nextNode
  let mem :=
    match next with
    | some nxt => writeNode s.mem nxt fun nxt => { nxt with prevNode := none }
    | none => s.mem
  { s with mem := mem, freeLists := update s.freeLists order next }

/-- `request_page_of_order`, for `order = maxOrder + 1 - fuel`: the base of the block, if there is
    one. -/
def requestLoop : Nat → PageFrameAllocator C → Nat → Option (Option Nat × PageFrameAllocator C)
  | 0, s, _ => some (none, s)
  | fuel + 1, s, order =>
    match s.freeLists order with
    | some block => some (some block, s.popFree order block)
    | none =>
      -- request a larger block and split it
      match requestLoop fuel s (order + 1) with
      | none => none
      | some (none, s) => some (none, s)
      | some (some base, s) =>
        (s.insertFreeOfRange (base + pagesInOrder order * 0x1000)
          (pagesInOrder (order + 1) - pagesInOrder order)).map fun s => (some base, s)

def requestPageOfOrder (s : PageFrameAllocator C) (order : Nat) :
    Option (Option Nat × PageFrameAllocator C) :=
  requestLoop (maxOrder + 1 - order) s order

/-! ## Allocating and freeing pages -/

/-- The end of an allocation: the pages are cleared and `Page::new` is called. -/
def handOut (s : PageFrameAllocator C) (base count : Nat) :
    Option (Option Nat × PageFrameAllocator C) :=
  if pageOk base then some (some base, { s with mem := zeroPages s.mem (span 0x1000 base count) })
  else none

def allocatePage (s : PageFrameAllocator C) : Option (Option Nat × PageFrameAllocator C) :=
  match s.requestPageOfOrder 0 with
  | none => none
  | some (none, s) => some (none, s)
  | some (some base, s) => s.handOut base 1

def allocatePages (s : PageFrameAllocator C) (count : Nat) :
    Option (Option Nat × PageFrameAllocator C) :=
  if count = 0 then none
  else
    let order := Nat.log 2 count
    if pagesInOrder order = count then
      match s.requestPageOfOrder order with
      | none => none
      | some (none, s) => some (none, s)
      | some (some base, s) => s.handOut base count
    else
      -- split a larger block
      match s.requestPageOfOrder (order + 1) with
      | none => none
      | some (none, s) => some (none, s)
      | some (some base, s) =>
        match s.insertFreeOfRange (base + count * 0x1000) (pagesInOrder (order + 1) - count) with
        | none => none
        | some s => s.handOut base count

/-- `allocate_page_32bit`: the head of the pool is handed out, and its link is followed. -/
def allocatePage32bit (s : PageFrameAllocator C) : Option (Option Nat × PageFrameAllocator C) :=
  match s.reserved32Bit with
  | none => some (none, s)
  | some block => { s with reserved32Bit := next32 (s.mem block) }.handOut block 1

def freePage (s : PageFrameAllocator C) (page : Nat) : PageFrameAllocator C :=
  s.insertFreeOfOrder page 0

/-- `free_pages`: the pages are freed one by one. -/
def freePages (s : PageFrameAllocator C) (page : Nat) : Nat → Option (PageFrameAllocator C)
  | 0 => some s
  | count + 1 =>
    match s.freePages page count with
    | none => none
    | some s =>
      if pageOk (page + count * 0x1000) then some (s.freePage (page + count * 0x1000)) else none

def freePageOfOrder (s : PageFrameAllocator C) (base order : Nat) : PageFrameAllocator C :=
  s.insertFreeOfOrder base order

end PageFrameAllocator

/-! ## Setting up -/

/-- An entry of the memory map; `conventional` is `ty == MemoryType::CONVENTIONAL`. -/
structure MemoryDescriptor where
  conventional : Bool
  physStart : Nat
  pageCount : Nat
deriving DecidableEq

namespace MemoryDescriptor

variable (e : MemoryDescriptor)

def pages : List Nat := span 0x1000 e.physStart e.pageCount

def limit : Nat := e.physStart + e.pageCount * 0x1000

/-- `range.contains(&0x8000)` -/
def contains0x8000 : Bool := e.physStart ≤ 0x8000 ∧ 0x8000 < e.limit

/-- How many pages of the entry the pool takes, with `found` taken so far. -/
def taken (found : Nat) : Nat :=
  min (if e.contains0x8000 then e.pageCount - 1 else e.pageCount) (reserved32BitMemPages - found)

/-- The pages of the entry that go to the pool. -/
def pooled (found : Nat) : List Nat :=
  (span 0x1000 e.physStart (e.taken found)).filter (· ≠ 0x8000)

end MemoryDescriptor

namespace PageFrameAllocator

variable [PageContent C]

def free32BitReservedPage (s : PageFrameAllocator C) (page : Nat) : PageFrameAllocator C :=
  match s.reserved32Bit with
  | some p =>
    { s with
      mem := update s.mem page (withNext32 (some p) (s.mem page))
      reserved32Bit := some page }
  | none => { s with reserved32Bit := some page }

/-- The first loop of `new`: pages are taken for the pool until there are enough. The entries after
    the one at which this happens are left. -/
def reserve : List MemoryDescriptor → PageFrameAllocator C → Nat →
    Option (PageFrameAllocator C × List MemoryDescriptor)
  | [], _, _ => none
  | entry :: rest, s, found =>
    if 0x10000000000000000 ≤ entry.limit then none
    else
      let s := { s with captured0x8000 := s.captured0x8000 || entry.contains0x8000 }
      let s := (entry.pooled found).foldl free32BitReservedPage s
      if found + entry.taken found = reserved32BitMemPages then
        (s.insertFreeOfRange (entry.physStart + entry.taken found * 0x1000)
          (entry.pageCount - entry.taken found)).map fun s => (s, rest)
      else reserve rest s (found + entry.taken found)

/-- The second loop of `new`. -/
def insertAll : List MemoryDescriptor → PageFrameAllocator C → Option (PageFrameAllocator C)
  | [], s => some s
  | entry :: rest, s =>
    if 0x10000000000000000 ≤ entry.limit then none
    else
      match s.insertFreeOfRange entry.physStart entry.pageCount with
      | none => none
      | some s => insertAll rest s

def new (mmap : List MemoryDescriptor) (mem : Nat → C) : Option (PageFrameAllocator C) :=
  match reserve (mmap.filter (·.conventional)) ⟨fun _ => none, none, false, mem⟩ 0 with
  | none => none
  | some (s, rest) => insertAll rest s

end PageFrameAllocator

/-! ## Allocation histories -/

/-- The allocator, with the blocks (base and page count) that are handed out. -/
structure FrameSystem (C : Type) where
  frames : PageFrameAllocator C
  out : List (Nat × Nat)

namespace FrameSystem

inductive Action (C : Type) where
  | requestPageOfOrder (order : Nat)
  | allocatePage
  | allocatePages (count : Nat)
  | freePage (page : Nat)
  | freePages (page count : Nat)
  | freePageOfOrder (base order : Nat)
  /-- The owner of a page writes to it. -/
  | write (page : Nat) (content : C)

/-- The state after an allocation of `count` pages. -/
def allocated (s : FrameSystem C) (count : Nat) :
    Option (Option Nat × PageFrameAllocator C) → Option (FrameSystem C)
  | none => none
  | some (none, frames) => some { s with frames := frames }
  | some (some base, frames) => some ⟨frames, (base, count) :: s.out⟩

/-- The state after the block `(base, count)` has been given back. -/
def freed (s : FrameSystem C) (base count : Nat) :
    Option (PageFrameAllocator C) → Option (FrameSystem C)
  | none => none
  | some frames => some ⟨frames, s.out.erase (base, count)⟩

open PageFrameAllocator in
/-- Only blocks that are handed out are freed, and only their pages are written to. -/
def step [PageContent C] (s : FrameSystem C) : Action C → Option (FrameSystem C)
  | .requestPageOfOrder order =>
    s.allocated (pagesInOrder order) (s.frames.requestPageOfOrder order)
  | .allocatePage => s.allocated 1 s.frames.allocatePage
  | .allocatePages count => s.allocated count (s.frames.allocatePages count)
  | .freePage page =>
    if (page, 1) ∈ s.out then s.freed page 1 (some (s.frames.freePage page)) else none
  | .freePages page count =>
    if (page, count) ∈ s.out then s.freed page count (s.frames.freePages page count) else none
  | .freePageOfOrder base order =>
    if (base, pagesInOrder order) ∈ s.out ∧ order ≤ maxOrder then
      s.freed base (pagesInOrder order) (some (s.frames.freePageOfOrder base order))
    else none
  | .write page content =>
    if page ∈ covered 0x1000 s.out then
      some { s with frames :=
        { s.frames with mem := update s.frames.mem page content } }
    else none

end FrameSystem

end Fioxa.Paging
