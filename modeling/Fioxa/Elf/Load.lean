import Fioxa.Elf.Format
import Fioxa.Paging.OrderedRanges
import Fioxa.Paging.ProcessMemory

/-! # Loading an ELF file

`load_elf` (`kernel/src/elf.rs`): the program headers are gone through, and for each loadable
segment a new `PageMapping` is inserted into the new process and, for the time of the copy, into the
process of the loader. The pages of the mapping are allocated by the page faults that the copy
causes, in the address space of the loader; a page that the copy does not touch is allocated, and
cleared, when the new process uses it.

Physical memory is a function from addresses to bytes, and the allocator a list of the pages that it
hands out next. The pages of tables are not counted, and the kernel heap is only asked for the lists
of pages (`PageMapping::new_lazy`). The references that the new process is given are the subject of
`Kernel.Handles`. -/

namespace Fioxa.Elf

open Faults Paging Elf64Phdr
open TableSystem (frameOk)

/-- The address space of a loader: its ranges are in order, none of them is empty, and only their
    pages are mapped, because a loader has no pages of `owned32_pages`. -/
structure Tidy (m : PageMapperManager) : Prop where
  ordered : Ordered m.mappings
  nonempty : ∀ r ∈ m.mappings, r.start < r.stop
  mapped : ∀ v, m.pageMapper v ≠ none → ∃ r ∈ m.mappings, r.start ≤ v ∧ v < r.stop

/-- What `load_elf` finds: memory, the mappings that exist and the address space of the loader. -/
structure Loader where
  bytes : Nat → UInt8
  supply : List Nat
  /-- The number of list entries that the heap has room for. -/
  heap : Nat
  objects : List PageMapping
  mapper : PageMapperManager
  /-- The address of the HPET if it is initialized. -/
  hpet : Option Nat
  /-- The allocator hands out different pages. -/
  supply_nodup : supply.Nodup
  supply_ok : ∀ page ∈ supply, frameOk page = true
  tidy : Tidy mapper
  /-- A process can be created. -/
  creates : ∀ privilege, (Paging.Process.new privilege hpet).isSome = true

/-- The state of `load_elf`. -/
structure Loading where
  bytes : Nat → UInt8
  supply : List Nat
  heap : Nat
  objects : List PageMapping
  loader : PageMapperManager
  process : Paging.Process

/-- The state before the first program header. -/
def Loader.start (e : Loader) (process : Paging.Process) : Loading :=
  ⟨e.bytes, e.supply, e.heap, e.objects, e.mapper, process⟩

def pfW : Nat := 0x2

/-- `to_mapping_flags`, of the bits of `p_flags`. -/
def toMappingFlags (flags : Nat) : MemoryMappingFlags where
  writeable := flags &&& pfW = pfW
  userspace := true

namespace Loading

/-! ## Memory -/

/-- `AllocatedPage::new`, which clears the page. -/
def allocatePage (s : Loading) : Option (Nat × Loading) :=
  match s.supply with
  | [] => none
  | page :: supply =>
    some (page, { s with
      bytes := fun a => if page ≤ a ∧ a < page + 0x1000 then 0 else s.bytes a
      supply := supply })

/-- The allocations of `new_lazy_filled`. -/
def newPages : Nat → Loading → List (Option Nat) × Loading
  | 0, s => ([], s)
  | n + 1, s =>
    match s.allocatePage with
    | none => (none :: (newPages n s).1, (newPages n s).2)
    | some (page, s) => (some page :: (newPages n s).1, (newPages n s).2)

/-- The physical page at an offset of a mapping, allocated if it has not been used before. -/
def faultPage (s : Loading) (object offset : Nat) : Option (Nat × Loading) :=
  match s.objects[object]? with
  | none => none
  | some ⟨_, .mmap baseAddress⟩ => some (pageBase (baseAddress + offset), s)
  | some ⟨size, .lazyMapping pages⟩ =>
    match pages[offset / 0x1000]? with
    | none => none
    | some (some page) => some (page, s)
    | some none =>
      s.allocatePage.map fun (page, s) =>
        (page, { s with
          objects := s.objects.set object
            ⟨size, .lazyMapping (pages.set (offset / 0x1000) (some page))⟩ })

/-- `page_fault_handler` in the address space of the loader. -/
def pageFault (s : Loading) (address : Nat) : Option Loading := do
  let r ← s.loader.faulting address
  let (phys, s) ← s.faultPage r.object (address - r.start)
  let m ← s.loader.mapFault address r phys
  return { s with loader := m }

/-- A byte is written to a physical address. -/
def poke (s : Loading) (address : Nat) (b : UInt8) : Loading :=
  { s with bytes := Function.update s.bytes address b }

/-- The loader writes a byte, with the page fault that this may cause. -/
def store (s : Loading) (address : Nat) (b : UInt8) : Option Loading :=
  match s.loader.pageMapper (pageBase address) with
  | some (phys, _) => some (s.poke (phys + address % 0x1000) b)
  | none => do
      let s ← s.pageFault address
      let (phys, _) ← s.loader.pageMapper (pageBase address)
      return s.poke (phys + address % 0x1000) b

/-- `copy_nonoverlapping` -/
def copyNonoverlapping : List UInt8 → Nat → Loading → Option Loading
  | [], _, s => some s
  | b :: rest, address, s =>
    match s.store address b with
    | none => none
    | some s => copyNonoverlapping rest (address + 1) s

/-! ## Segments -/

/-- `free_mapping`, which is unwrapped. -/
def unmap (s : Loading) (start stop : Nat) : Option Loading :=
  match s.loader.freeMapping start stop with
  | some (.ok (_, m)) => some { s with loader := m }
  | _ => none

/-- The mapping of a segment is inserted into the address space of the loader, the bytes of the file
    are copied, and it is removed again. -/
def fillSegment (data : List UInt8) (header vaddr size object : Nat) (s : Loading) :
    Run Loading := do
  let (base, m) ← unwrap (s.loader.insertMapping (.newLazy size) object .all) (.fault .panic)
  let offset ← pOffset.read data header
  let filesz ← pFilesz.read data header
  let bytes ← readBytes data offset filesz
  let address := base + (vaddr &&& 0xFFF)
  ensure (filesz = 0 ∨ address + filesz ≤ base + size) (.fault (.writeOutside address filesz))
  let s ← unwrap (copyNonoverlapping bytes address { s with loader := m }) (.fault .panic)
  unwrap (s.unmap base (base + size)) (.fault .panic)

/-- One turn of the loop over the program headers. -/
def loadSegment (data : List UInt8) (header : Nat) (s : Loading) : Run Loading := do
  let type ← pType.read data header
  if type = ptLoad then do
    let vaddr ← pVaddr.read data header
    let memsz ← pMemsz.read data header
    let vstart := pageBase vaddr
    ensure (vaddr + memsz < 0x10000000000000000) (.fault .overflow)
    let vend := roundUp (vaddr + memsz)
    ensure (vend < 0x10000000000000000) (.fault .overflow)
    let size := vend - vstart
    ensure (pageCount size ≤ s.heap) (.fault .panic)
    let flags ← pFlags.read data header
    let object := s.objects.length
    -- map into the new process's address space
    let inserted ← unwrap (s.process.pageMapper.insertMappingAt vstart (.newLazy size) object
      (toMappingFlags flags)) (.fault .panic)
    let m ← unwrap inserted (.err .internalError)
    fillSegment data header vaddr size object { s with
      heap := s.heap - pageCount size
      objects := s.objects ++ [.newLazy size]
      process := { s.process with pageMapper := m } }
  else return s

def loadSegments (data : List UInt8) : List Nat → Loading → Run Loading
  | [], s => return s
  | header :: rest, s => do
      let s ← s.loadSegment data header
      loadSegments data rest s

/-! ## The first thread -/

/-- The pages of the stack of a thread; those of a user process are allocated when they are used. -/
def stackPages (s : Loading) : List (Option Nat) × Loading :=
  match s.process.privilege with
  | .kernel => newPages (pageCount stackSize) s
  | .user => (List.replicate (pageCount stackSize) none, s)

/-- `new_thread`. If the last page of the kernel stack is missing, there is none for the second
    attempt either. -/
def newThread (entryPoint : Nat) (s : Loading) : Run Loading :=
  let (stack, s) := s.stackPages
  let (kstack, s) := newPages (pageCount kstackSize) s
  let object := s.objects.length
  do
    let process ← unwrap (s.process.newThread entryPoint ⟨object, stack⟩ ⟨object + 1, kstack⟩)
      (.fault .panic)
    return { s with
      objects := s.objects ++ [.newLazyFilled stackSize stack, .newLazyFilled kstackSize kstack]
      process := process }

end Loading

/-! ## The whole file -/

/-- `(start..stop).step_by(step)` -/
def stepBy (start stop step : Nat) : List Nat :=
  Span.span step start ((stop - start + step - 1) / step)

open Elf64Ehdr in
def loadElf (e : Loader) (data : List UInt8) (kernel : Bool) : Run Loading := do
  validateElfHeader data
  let process ← unwrap (Paging.Process.new (if kernel then .kernel else .user) e.hpet)
    (.fault .panic)
  let phoff ← ePhoff.read data 0
  let phnum ← ePhnum.read data 0
  let phentsize ← ePhentsize.read data 0
  -- both are numbers of 16 bits, and so is their product
  ensure (phnum * phentsize < 0x10000) (.fault .overflow)
  ensure (phentsize ≠ 0) (.fault .zeroStep)
  let s ← Loading.loadSegments data (stepBy phoff (phnum * phentsize) phentsize) (e.start process)
  let entry ← eEntry.read data 0
  s.newThread entry

/-! ## What the new process sees -/

/-- The byte at an offset of a mapping. A page that has not been used is cleared when it is. -/
def Loading.peek (s : Loading) (object offset : Nat) : Option UInt8 :=
  match s.objects[object]? with
  | none => none
  | some ⟨_, .mmap baseAddress⟩ => some (s.bytes (baseAddress + offset))
  | some ⟨_, .lazyMapping pages⟩ =>
    match pages[offset / 0x1000]? with
    | none => none
    | some none => some 0
    | some (some page) => some (s.bytes (page + offset % 0x1000))

/-- The byte at an address in the new process, with the permissions: through the page table if the
    page is mapped, and else through the page fault that maps it. -/
def Loading.access (s : Loading) (address : Nat) : Option (UInt8 × MemoryMappingFlags) :=
  match s.process.pageMapper.pageMapper (pageBase address) with
  | some (phys, flags) => some (s.bytes (phys + address % 0x1000), flags)
  | none =>
    match s.process.pageMapper.faulting address with
    | none => none
    | some r =>
      if pageOk (pageBase address) then
        (s.peek r.object (address - r.start)).map fun b => (b, r.flags)
      else none

end Fioxa.Elf
