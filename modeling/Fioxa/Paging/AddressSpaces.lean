import Fioxa.Paging.FrameAllocator
import Fioxa.Paging.ProcessMemory

/-! # Address spaces

All processes with their memory, the `PageMapping`s that they refer to, and the frame allocator. A
`PageMapping` owns the pages that have been allocated for it and is shared by the ranges that refer
to it; when the last of them is gone, its pages are freed (`Arc`, `AllocatedPage`). A process owns
the pages of `owned32_pages` in the same way.

An action is a section under the memory lock of a process, so that a list of actions is an
interleaving of the calls of any number of processes; `new_thread` takes the lock twice and is two
actions. The rest of the kernel uses the same allocator, among other things for page tables
(`Action.kernel`). An action that panics, or that kills the caller before anything has changed, is
not possible. -/

namespace Fioxa.Paging

variable {C : Type}

/-- The pages that belong to a mapping. -/
def PageMapping.owned (mapping : PageMapping) : List Nat :=
  match mapping.mapping with
  | .mmap _ => []
  | .lazyMapping pages => pages.filterMap id

namespace FrameSystem

variable [PageContent C]

/-! ## Owned pages -/

/-- The state after an allocation of one page, with the page. -/
def granted (s : FrameSystem C) :
    Option (Option Nat × PageFrameAllocator C) → Option (Option Nat × FrameSystem C)
  | none => none
  | some (none, frames) => some (none, { s with frames := frames })
  | some (some page, frames) => some (some page, ⟨frames, (page, 1) :: s.out⟩)

/-- `AllocatedPage::new` -/
def newPage (s : FrameSystem C) : Option (Option Nat × FrameSystem C) :=
  s.granted s.frames.allocatePage

def newPage32 (s : FrameSystem C) : Option (Option Nat × FrameSystem C) :=
  s.granted s.frames.allocatePage32bit

/-- `Drop for AllocatedPage` -/
def dropPage (s : FrameSystem C) (page : Nat) : FrameSystem C :=
  ⟨s.frames.freePage page, s.out.erase (page, 1)⟩

/-- The allocations of `new_lazy_filled`. -/
def newPages : Nat → FrameSystem C → Option (List (Option Nat) × FrameSystem C)
  | 0, s => some ([], s)
  | n + 1, s => do
      let (page, s) ← s.newPage
      let (pages, s) ← newPages n s
      return (page :: pages, s)

/-- The pages of a new stack; those of a user process are allocated when they are used. -/
def stackPages (s : FrameSystem C) :
    ProcessPrivilige → Option (List (Option Nat) × FrameSystem C)
  | .kernel => newPages (pageCount stackSize) s
  | .user => some (List.replicate (pageCount stackSize) none, s)

/-- `base_top_stack`: the last page is allocated if it is missing. -/
def baseTopStack (pages : List (Option Nat)) (s : FrameSystem C) :
    Option (List (Option Nat) × FrameSystem C) :=
  match pages.getLast? with
  | some none => do
      let (page, s) ← s.newPage
      let page ← page
      return (pages.dropLast ++ [some page], s)
  | _ => some (pages, s)

/-- The block that an action frees. -/
def Action.freed : Action C → Option (Nat × Nat)
  | .freePage page => some (page, 1)
  | .freePages page count => some (page, count)
  | .freePageOfOrder base order => some (base, pagesInOrder order)
  | _ => none

end FrameSystem

structure World (C : Type) where
  frames : FrameSystem C
  /-- The address of the HPET. -/
  hpet : Nat
  objects : List PageMapping
  /-- The processes by their number; a process that has been destroyed is `none`. -/
  processes : List (Option Process)

namespace World

/-- The allocator has been set up, and there are no processes yet. -/
def boot (frames : PageFrameAllocator C) (hpet : Nat) : World C where
  frames := ⟨frames, []⟩
  hpet := hpet
  objects := [⟨0x1000, .mmap 0xfee00000⟩, ⟨0x1000, .mmap hpet⟩]
  processes := []

variable (w : World C)

def process (pid : Nat) : Option Process := w.processes[pid]?.join

def setProcess (pid : Nat) (p : Option Process) : World C :=
  { w with processes := w.processes.set pid p }

/-- A new `PageMapping`; its number is the length of the list before. -/
def addObject (mapping : PageMapping) : World C :=
  { w with objects := w.objects ++ [mapping] }

/-- Some range of some process refers to the mapping. -/
def referenced (object : Nat) : Bool :=
  w.processes.any fun p => p.any fun p => p.pageMapper.mappings.any (·.object == object)

/-- The pages that a process owns besides its mappings. -/
def owned32 : Option Process → List Nat
  | none => []
  | some p => p.owned32Pages

/-- All pages that have an owner. -/
def owned (w : World C) : List Nat :=
  w.objects.flatMap PageMapping.owned ++ w.processes.flatMap owned32

variable [PageContent C]

variable (w : World C)

/-- A reference to the mapping has been dropped. -/
def release (object : Nat) : World C :=
  match w.objects[object]? with
  | some ⟨size, .lazyMapping pages⟩ =>
    if w.referenced object then w
    else
      { w with
        frames := (pages.filterMap id).foldl FrameSystem.dropPage w.frames
        objects := w.objects.set object ⟨size, .lazyMapping []⟩ }
  -- fixed memory is not freed
  | _ => w

/-! ## System calls -/

def mmapPage (pid arg1 arg2 : Nat) : Option (World C) := do
  let p ← w.process pid
  let reply ← p.mmapPageHandler arg1 arg2 w.objects.length
  match reply.result with
  | .error _ => none
  | .ok _ => return (w.addObject (.newLazy (roundUp arg2))).setProcess pid reply.process

def mmapPage32 (pid : Nat) : Option (World C) := do
  let p ← w.process pid
  let (page, frames) ← w.frames.newPage32
  let reply ← p.mmapPage32Handler page
  return { w with frames := frames }.setProcess pid reply.process

def unmmapPage (pid arg1 arg2 : Nat) : Option (World C) := do
  let p ← w.process pid
  let reply ← p.unmmapPageHandler arg1 arg2
  let object ← reply.dropped
  return (w.setProcess pid reply.process).release object

/-- The first part of `new_thread`. -/
def newStack (pid : Nat) : Option (World C) := do
  let p ← w.process pid
  let (pages, frames) ← w.frames.stackPages p.privilege
  let p' ← p.takeId.insertStack p.threadNextId w.objects.length pages
  return ({ w with frames := frames }.addObject (.newLazyFilled stackSize pages)).setProcess pid p'

/-- The rest of `new_thread`, for a number that has been taken. -/
def newKstack (pid tid entryPoint : Nat) : Option (World C) := do
  let p ← w.process pid
  guard (tid < p.threadNextId)
  let (pages, frames) ← w.frames.newPages (pageCount kstackSize)
  let (pages, frames) ← FrameSystem.baseTopStack pages frames
  let p' ← p.insertKstack tid entryPoint w.objects.length pages
  return ({ w with frames := frames }.addObject (.newLazyFilled kstackSize pages)).setProcess pid p'

/-! ## Page faults -/

/-- The physical page at an offset of a mapping, allocated if it has not been used before. -/
def faultPage (object offset : Nat) : Option (Nat × World C) :=
  match w.objects[object]? with
  | none => none
  | some ⟨_, .mmap baseAddress⟩ => some (pageBase (baseAddress + offset), w)
  | some ⟨size, .lazyMapping pages⟩ =>
    match pages[offset / 0x1000]? with
    | none => none
    | some (some page) => some (page, w)
    | some none => do
        let (page, frames) ← w.frames.newPage
        let page ← page
        let pages := pages.set (offset / 0x1000) (some page)
        return (page, { w with
          frames := frames
          objects := w.objects.set object ⟨size, .lazyMapping pages⟩ })

def pageFault (pid address : Nat) : Option (World C) := do
  let p ← w.process pid
  let r ← p.pageMapper.faulting address
  let (phys, w) ← w.faultPage r.object (address - r.start)
  let p' ← p.pageFault address phys
  return w.setProcess pid p'

/-! ## Creating and destroying -/

/-- `Process::new`; the HPET may not be initialized yet. -/
def newProcess (privilege : ProcessPrivilige) (hpetReady : Bool) :
    Option (World C) := do
  let p ← Process.new privilege (if hpetReady then some w.hpet else none)
  return { w with processes := w.processes ++ [some p] }

/-- `load_elf` maps a segment into the new process, and into the loader to fill it. -/
def loadSegment (loader pid vaddr memsz : Nat) (flags : MemoryMappingFlags) :
    Option (World C) := do
  let object := w.objects.length
  let mapping := PageMapping.newLazy (Process.segment vaddr memsz).2
  let p ← w.process pid
  let p' ← p.loadSegment vaddr memsz object flags
  let w := (w.addObject mapping).setProcess pid p'
  let l ← w.process loader
  let (_, m) ← l.pageMapper.insertMapping mapping object .all
  return w.setProcess loader (some { l with pageMapper := m })

/-- The loader unmaps a segment. -/
def unloadSegment (loader start stop : Nat) : Option (World C) := do
  let l ← w.process loader
  match ← l.pageMapper.freeMapping start stop with
  | .error _ => none
  | .ok (r, m) => return (w.setProcess loader (some { l with pageMapper := m })).release r.object

def dropThread (pid tid : Nat) : Option (World C) := do
  let p ← w.process pid
  let (r, p') ← p.dropThread tid
  return (w.setProcess pid p').release r.object

/-- A process is destroyed, which its threads prevent. The ranges drop their references, and
    `owned32_pages` its pages. -/
def dropProcess (pid : Nat) : Option (World C) := do
  let p ← w.process pid
  guard (p.threads = [])
  let w := w.setProcess pid none
  let w := p.pageMapper.mappings.foldl (fun w r => w.release r.object) w
  return { w with frames := p.owned32Pages.foldl FrameSystem.dropPage w.frames }

/-- The rest of the kernel allocates and frees pages of its own, and pages that have been handed out
    are written to. -/
def kernel (a : FrameSystem.Action C) : Option (World C) := do
  guard (∀ block ∈ a.freed, ∀ page ∈ w.owned, block ≠ (page, 1))
  let frames ← w.frames.step a
  return { w with frames := frames }

/-! ## Interleavings -/

inductive Action (C : Type) where
  | mmapPage (pid arg1 arg2 : Nat)
  | mmapPage32 (pid : Nat)
  | unmmapPage (pid arg1 arg2 : Nat)
  | newStack (pid : Nat)
  | newKstack (pid tid entryPoint : Nat)
  | pageFault (pid address : Nat)
  | newProcess (privilege : ProcessPrivilige) (hpetReady : Bool)
  | loadSegment (loader pid vaddr memsz : Nat) (flags : MemoryMappingFlags)
  | unloadSegment (loader start stop : Nat)
  | dropThread (pid tid : Nat)
  | dropProcess (pid : Nat)
  | kernel (a : FrameSystem.Action C)

def step (w : World C) : Action C → Option (World C)
  | .mmapPage pid arg1 arg2 => w.mmapPage pid arg1 arg2
  | .mmapPage32 pid => w.mmapPage32 pid
  | .unmmapPage pid arg1 arg2 => w.unmmapPage pid arg1 arg2
  | .newStack pid => w.newStack pid
  | .newKstack pid tid entryPoint => w.newKstack pid tid entryPoint
  | .pageFault pid address => w.pageFault pid address
  | .newProcess privilege hpetReady => w.newProcess privilege hpetReady
  | .loadSegment loader pid vaddr memsz flags => w.loadSegment loader pid vaddr memsz flags
  | .unloadSegment loader start stop => w.unloadSegment loader start stop
  | .dropThread pid tid => w.dropThread pid tid
  | .dropProcess pid => w.dropProcess pid
  | .kernel a => w.kernel a

end World

end Fioxa.Paging
