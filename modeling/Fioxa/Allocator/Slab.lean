import Fioxa.Paging.Mapper
import Fioxa.Paging.OffsetMap

/-! # The kernel heap

`Locked<SlabAllocator>` (`allocator/slab_allocator.rs`), the global allocator of the kernel. Blocks
of up to 2048 bytes come from nine lists of free blocks, which are linked through the blocks
themselves and refilled with the blocks of a new page; larger ones take new pages, which are
unmapped again when they are freed. All pages are mapped by `KERNEL_HEAP_MAP`, the table of level 3
that the entry of `KernelHeap` in all tables of level 4 refers to. The entry behind it is that of
`KernelStart`, where `create_kernel_map` has mapped the image of the kernel.

A call that panics has no result (`none`): an allocator that has no frame left, a sum that
overflows, `Page::new`, an `unwrap` of what `map` and `unmap` return, or a page fault. -/

namespace Fioxa.Allocator

open Paging Span Function

/-- `core::alloc::Layout` -/
structure Layout where
  size : Nat
  align : Nat
  align_two_pow : ∃ k, align = 1 <<< k
  size_le : size + (align - 1) < 0x8000000000000000
deriving DecidableEq

/-- The `min_size` of `alloc`, and the `max_size` of `dealloc`. -/
def Layout.minSize (layout : Layout) : Nat := max layout.size layout.align

def slabSizes : List Nat := [8, 16, 32, 64, 128, 256, 512, 1024, 2048]

/-- The index of the smallest blocks that are large enough. -/
def blockSize (minSize : Nat) : Option Nat := slabSizes.findIdx? (minSize ≤ ·)

def slabSize (index : Nat) : Nat := slabSizes.getD index 0

/-- The bytes that an allocation takes: a block of its list, or whole pages. -/
def Layout.blockLength (layout : Layout) : Nat :=
  match blockSize layout.minSize with
  | some index => slabSize index
  | none => roundUp layout.minSize

structure SlabAllocator where
  slabHeads : Nat → Option Nat
  baseAddress : Nat

def SlabAllocator.new (baseAddress : Nat) : SlabAllocator := ⟨fun _ => none, baseAddress⟩

/-- The image of the kernel: the `kernel_start` and `kernel_pages` of `BootInfo`. -/
structure Image where
  start : Nat
  pages : Nat

/-- The allocator with the memory it works on: the `next` of the `ListNode` at each address,
    `KERNEL_HEAP_MAP` with the frames of its tables and pages, and the image that `KERNEL_DATA_MAP`
    maps. -/
structure Heap where
  allocator : SlabAllocator
  next : Nat → Option Nat
  frames : TableFrames
  root : Nat
  image : Image

namespace Heap

/-! ## Pages -/

/-- `unwrap` of what `map` and `unmap` return. -/
def unwrapFlusher {E : Type} : Except E Flusher × TableFrames → Option TableFrames
  | (.ok _, w) => some w
  | (.error _, _) => none

/-- `allocate_page` and `map` of the frame that it returns. -/
def mapPage (w : TableFrames) (root page : Nat) : Option TableFrames := do
  let (frame, w) ← w.allocatePage
  let frame ← Page.new frame
  let page ← Page.new page
  unwrapFlusher (← w.map 2 root page frame ⟨true, false⟩)

/-- `map` for each of the pages from `page` on. -/
def mapPages (root : Nat) : Nat → TableFrames → Nat → Option TableFrames
  | 0, w, _ => some w
  | n + 1, w, page => (mapPage w root page).bind fun w => mapPages root n w (page + 0x1000)

/-- `unmap`, and `free_page` of the frame that was mapped. -/
def unmapPage (w : TableFrames) (root page : Nat) : Option TableFrames := do
  let page ← Page.new page
  let physPage ← (← w.addressOf 2 root page)
  let w ← unwrapFlusher (← w.unmap 2 root page)
  return w.freePage physPage.address

def unmapPages (root : Nat) : Nat → TableFrames → Nat → Option TableFrames
  | 0, w, _ => some w
  | n + 1, w, page => (unmapPage w root page).bind fun w => unmapPages root n w (page + 0x1000)

/-! ## Allocating and freeing -/

/-- The loop over the blocks of a new page, which links the nodes in reverse. -/
def carve (next : Nat → Option Nat) (currentNode : Option Nat) :
    List Nat → (Nat → Option Nat) × Option Nat
  | [] => (next, currentNode)
  | block :: blocks => carve (update next block currentNode) (some block) blocks

/-- The slot of `KernelHeap` in the tables of level 4. An address in another slot is not translated
    by `KERNEL_HEAP_MAP`. -/
def InSlot (address : Nat) : Prop :=
  calculateIndex 4 address = calculateIndex 4 TableFrames.kernelHeap

instance {address : Nat} : Decidable (InSlot address) := inferInstanceAs (Decidable (_ = _))

/-- The translation of an address of the last two slots by the processor: the frame, and whether the
    page may be written to and accessed in user mode. -/
def translate (h : Heap) (address : Nat) : Option (Nat × Bool × Bool) :=
  if InSlot address then
    (Page.new (address / 0x1000 * 0x1000)).bind (h.frames.walk 2 h.root)
  else
    -- `create_kernel_map`
    let offset := address / 0x1000 * 0x1000 - TableFrames.kernelStart
    if TableFrames.kernelStart ≤ address ∧ offset < h.image.pages * 0x1000 then
      some (h.image.start + offset, true, false)
    else none

/-- No block is in the list: a new page is cut into blocks. The nodes are written to the page that
    `base` translates to, which in the slot of `KernelStart` is not the page that has been mapped
    but one of the image of the kernel, or none. -/
def refill (h : Heap) (index : Nat) : Option (Nat × Heap) := do
  let base := h.allocator.baseAddress
  if base + 0x1000 < 0x10000000000000000 then
    let frames ← mapPage h.frames h.root base
    if ({ h with frames := frames }.translate base).isSome then
      let (next, currentNode) :=
        carve h.next none (span (slabSize index) base (0x1000 / slabSize index))
      let nxt ← currentNode
      return (nxt,
        { h with
          allocator :=
            { slabHeads := update h.allocator.slabHeads index (next nxt)
              baseAddress := base + 0x1000 }
          next := update next nxt none
          frames := frames })
    else none
  else none

def alloc (h : Heap) (layout : Layout) : Option (Nat × Heap) :=
  match blockSize layout.minSize with
  | some index =>
    match h.allocator.slabHeads index with
    | some node =>
      some (node,
        { h with
          allocator :=
            { h.allocator with
              slabHeads := update h.allocator.slabHeads index (h.next node) }
          next := update h.next node none })
    | none => h.refill index
  | none =>
    let length := roundUp layout.minSize
    let base := h.allocator.baseAddress
    if base + length < 0x10000000000000000 then
      (mapPages h.root (length / 0x1000) h.frames base).map fun frames =>
        (base,
          { h with
            allocator := { h.allocator with baseAddress := base + length }
            frames := frames })
    else none

def dealloc (h : Heap) (pointer : Nat) (layout : Layout) : Option Heap :=
  match blockSize layout.minSize with
  | some index =>
    some
      { h with
        allocator :=
          { h.allocator with
            slabHeads := update h.allocator.slabHeads index (some pointer) }
        next := update h.next pointer (h.allocator.slabHeads index) }
  | none =>
    (unmapPages h.root (roundUp layout.minSize / 0x1000) h.frames pointer).map fun frames =>
      { h with frames := frames }

/-- Some of these bytes are written to. A node is eight bytes long, so that all nodes that have a
    byte in common with them may change. -/
def store (h : Heap) (pointer size : Nat) (next : Nat → Option Nat) : Heap :=
  { h with
    next := fun address =>
      if pointer < address + 8 ∧ address < pointer + size then next address else h.next address }

end Heap

/-! ## Sequences of calls -/

/-- The heap with the allocations that are live, all that have been made so far, and the largest
    number of bytes that were live at the same time. -/
structure HeapSystem where
  heap : Heap
  live : List (Nat × Layout)
  returned : List (Nat × Layout)
  peak : Nat

namespace HeapSystem

inductive Action where
  /-- `alloc`, with the frames that the page allocator has for it. -/
  | alloc (layout : Layout) (supply : List Nat)
  | dealloc (pointer : Nat) (layout : Layout)
  /-- The owner of an allocation writes to it. -/
  | write (pointer : Nat) (layout : Layout) (next : Nat → Option Nat)

/-- The page allocator returns frames that are not in use, each of them once. -/
def Fresh (s : HeapSystem) (supply : List Nat) : Prop :=
  supply.Nodup ∧ ∀ frame ∈ supply, frame ∉ s.heap.frames.used ∧ TableSystem.frameOk frame = true

instance {s : HeapSystem} {supply : List Nat} : Decidable (s.Fresh supply) :=
  inferInstanceAs (Decidable (_ ∧ _))

/-- The heap when the page allocator has these frames. -/
def supplied (s : HeapSystem) (supply : List Nat) : Heap :=
  { s.heap with frames := { s.heap.frames with supply := supply } }

/-- The number of bytes that are live. -/
def liveSize (live : List (Nat × Layout)) : Nat := live.foldr (fun x n => x.2.size + n) 0

/-- The kernel heap before its first use. -/
def new (memory : Nat → Fin 512 → PageDirectoryEntry) (next : Nat → Option Nat) (root : Page)
    (image : Image) : HeapSystem where
  heap :=
    { allocator := .new TableFrames.kernelHeap
      next := next
      frames := ⟨update memory root.address fun _ => .zero, [root.address], []⟩
      root := root.address
      image := image }
  live := []
  returned := []
  peak := 0

def step (s : HeapSystem) : Action → Option HeapSystem
  | .alloc layout supply =>
    if s.Fresh supply then
      ((s.supplied supply).alloc layout).map fun (pointer, heap) =>
        { heap := heap
          live := (pointer, layout) :: s.live
          returned := (pointer, layout) :: s.returned
          peak := max s.peak (liveSize ((pointer, layout) :: s.live)) }
    else none
  | .dealloc pointer layout =>
    if (pointer, layout) ∈ s.live then
      (s.heap.dealloc pointer layout).map fun heap =>
        { s with heap := heap, live := s.live.erase (pointer, layout) }
    else none
  | .write pointer layout next =>
    if (pointer, layout) ∈ s.live then
      some { s with heap := s.heap.store pointer layout.size next }
    else none

end HeapSystem

end Fioxa.Allocator
