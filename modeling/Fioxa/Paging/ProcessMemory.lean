import Fioxa.Paging.Mapper

/-! # The memory of a process

What a process does with its address space: `Process::new`, `new_thread` and `Drop for Thread`
(`scheduling/process.rs`), the system calls that map memory (`syscall/mod.rs`), page faults, and
the segments that `load_elf` puts into a new process. The kernel and the program share one list of
ranges.

The physical pages that a call is given by the allocator are arguments here, and so is the number
of a new `PageMapping`. A call that panics has no result. -/

namespace Fioxa.Paging

inductive ProcessPrivilige where
  | kernel
  | user
deriving DecidableEq

inductive SyscallError where
  | error
deriving DecidableEq

namespace MemoryMappingFlags

def all : MemoryMappingFlags := ⟨true, true⟩

def onlyWriteable : MemoryMappingFlags := ⟨true, false⟩

end MemoryMappingFlags

def stackAddr : Nat := 0x100000000000

def kstackAddr : Nat := 0xFFFF800000000000

def stackSize : Nat := 0x20000

def kstackSize : Nat := 0x10000

def stackBase (tid : Nat) : Nat := stackAddr + (stackSize + 0x1000) * tid

def kstackBase (tid : Nat) : Nat := kstackAddr + (kstackSize + 0x1000) * tid

/-- The addresses that `VirtAddr::new` accepts: those whose bits from 47 on are equal, and those in
    which bit 47 is the last one that is set, which it extends. -/
def virtAddrOk (address : Nat) : Bool :=
  address < 0x1000000000000 ∨ 0xFFFF800000000000 ≤ address ∧ address < 0x10000000000000000

/-- The two `PageMapping`s that all processes share. -/
def apicLocation : Nat := 0

def hpetLocation : Nat := 1

/-- The fields of `Process`, `ProcessMemory` and `ProcessThreads` that are about memory. The threads
    are those whose `Thread` exists. -/
structure Process where
  privilege : ProcessPrivilige
  pageMapper : PageMapperManager
  owned32Pages : List Nat
  threadNextId : Nat
  threads : List Nat
  exited : Bool

namespace Process

/-! ## Processes and threads -/

/-- `Process::new`; `hpet` is the address of the HPET if it is initialized. -/
def new (privilege : ProcessPrivilige) (hpet : Option Nat) : Option Process :=
  let empty : PageMapperManager := ⟨fun _ => none, []⟩
  match (empty.insertMappingAtSet 0xfee00000 ⟨0x1000, .mmap 0xfee00000⟩ apicLocation
      .onlyWriteable).join with
  | none => none
  | some m =>
    match hpet with
    -- only init is created before the HPET is set up
    | none => some ⟨privilege, m, [], 0, [], false⟩
    | some base =>
      (m.insertMappingAtSet base ⟨0x1000, .mmap base⟩ hpetLocation .onlyWriteable).join.map
        fun m => ⟨privilege, m, [], 0, [], false⟩

/-- `get_next_id`; the number is the counter before. -/
def takeId (p : Process) : Process := { p with threadNextId := p.threadNextId + 1 }

/-- The first part of `new_thread`: the stack is inserted. -/
def insertStack (p : Process) (tid object : Nat) (pages : List (Option Nat)) : Option Process :=
  (p.pageMapper.insertMappingAtSet (stackBase tid) (.newLazyFilled stackSize pages) object
    .all).join.map fun m => { p with pageMapper := m }

/-- The rest of `new_thread`: the kernel stack, whose last page has to exist, and the thread. A
    process that has exited gets no thread, which the callers do not expect. The first kernel stack
    that reaches `perCpuMem` has a page in common with it and cannot be mapped, so there are none
    above. -/
def insertKstack (p : Process) (tid entryPoint object : Nat) (pages : List (Option Nat)) :
    Option Process :=
  match pages.getLast?.join with
  | none => none
  | some _ =>
    match (p.pageMapper.insertMappingAtSet (kstackBase tid) (.newLazyFilled kstackSize pages)
        object .onlyWriteable).join with
    | none => none
    | some m =>
      if kstackBase tid + kstackSize ≤ perCpuMem ∧ virtAddrOk entryPoint ∧
          virtAddrOk (stackBase tid + stackSize) ∧ ¬ p.exited then
        some { p with pageMapper := m, threads := tid :: p.threads }
      else none

/-- A new `PageMapping`: its number and its pages. -/
structure NewPages where
  object : Nat
  pages : List (Option Nat)
deriving DecidableEq

def newThread (p : Process) (entryPoint : Nat) (stack kstack : NewPages) : Option Process :=
  let tid := p.threadNextId
  match p.takeId.insertStack tid stack.object stack.pages with
  | none => none
  | some p => p.insertKstack tid entryPoint kstack.object kstack.pages

/-- `Drop for Thread`, with the range whose reference is dropped. The process has exited when the
    last thread is gone. -/
def dropThread (p : Process) (tid : Nat) : Option (MappedRange × Process) :=
  if tid ∈ p.threads then
    match p.pageMapper.freeMapping (stackBase tid) (stackBase tid + stackSize) with
    | some (.ok (r, m)) =>
      let threads := p.threads.erase tid
      some (r, { p with
        pageMapper := m
        threads := threads
        exited := p.exited || threads.isEmpty })
    | _ => none
  else none

/-! ## System calls -/

structure Reply where
  result : Except SyscallError Nat
  process : Process
  /-- The `PageMapping` of which the call has dropped a reference. -/
  dropped : Option Nat

def mmapPageHandler (p : Process) (arg1 arg2 object : Nat) : Option Reply :=
  if endUserMem < arg1 then some ⟨.error .error, p, none⟩
  else if 0x10000000000000000 ≤ arg2 + 0xFFF then none
  else
    let lazyPage := PageMapping.newLazy (roundUp arg2)
    if arg1 = 0 then
      (p.pageMapper.insertMapping lazyPage object .all).map fun (base, m) =>
        ⟨.ok base, { p with pageMapper := m }, none⟩
    else
      match p.pageMapper.insertMappingAt arg1 lazyPage object .all with
      | none => none
      | some none => some ⟨.error .error, p, none⟩
      | some (some m) => some ⟨.ok arg1, { p with pageMapper := m }, none⟩

/-- `mmap_page32_handler`, with the page from the pool. -/
def mmapPage32Handler (p : Process) : Option Nat → Option Reply
  | none => some ⟨.error .error, p, none⟩
  | some page =>
    match p.pageMapper.map page page .all with
    | some (.ok m) =>
      some ⟨.ok page, { p with
        pageMapper := m
        owned32Pages := p.owned32Pages ++ [page] }, none⟩
    | _ => none

def unmmapPageHandler (p : Process) (arg1 arg2 : Nat) : Option Reply :=
  if endUserMem < arg1 then some ⟨.error .error, p, none⟩
  else if 0x10000000000000000 ≤ arg1 + arg2 + 0xFFF then none
  else
    match p.pageMapper.freeMapping arg1 (roundUp (arg1 + arg2)) with
    | none => none
    | some (.error _) => some ⟨.error .error, p, none⟩
    | some (.ok (r, m)) => some ⟨.ok 0, { p with pageMapper := m }, some r.object⟩

def spawnThread (p : Process) (entryPoint : Nat) (stack kstack : NewPages) : Option Reply :=
  (p.newThread entryPoint stack kstack).map fun p' => ⟨.ok p.threadNextId, p', none⟩

inductive Call where
  | mmapPage (arg1 arg2 object : Nat)
  | mmapPage32 (page : Option Nat)
  | unmmapPage (arg1 arg2 : Nat)
  | spawnThread (entryPoint : Nat) (stack kstack : NewPages)
deriving DecidableEq

def syscall (p : Process) : Call → Option Reply
  | .mmapPage arg1 arg2 object => p.mmapPageHandler arg1 arg2 object
  | .mmapPage32 page => p.mmapPage32Handler page
  | .unmmapPage arg1 arg2 => p.unmmapPageHandler arg1 arg2
  | .spawnThread entryPoint stack kstack => p.spawnThread entryPoint stack kstack

/-! ## Histories -/

/-- `page_fault_handler`, with the physical page that the mapping has for the address. -/
def pageFault (p : Process) (address phys : Nat) : Option Process :=
  match p.pageMapper.faulting address with
  | none => none
  | some r => (p.pageMapper.mapFault address r phys).map fun m => { p with pageMapper := m }

/-- The address and the size of a segment of an ELF file, in whole pages. -/
def segment (vaddr memsz : Nat) : Nat × Nat :=
  (pageBase vaddr, roundUp (vaddr + memsz) - pageBase vaddr)

/-- A segment is mapped by `load_elf`. -/
def loadSegment (p : Process) (vaddr memsz object : Nat) (flags : MemoryMappingFlags) :
    Option Process :=
  if 0x10000000000000000 ≤ roundUp (vaddr + memsz) then none
  else
    let (base, size) := segment vaddr memsz
    (p.pageMapper.insertMappingAt base (.newLazy size) object flags).join.map fun m =>
      { p with pageMapper := m }

inductive Action where
  | syscall (call : Call)
  | pageFault (address phys : Nat)
  | dropThread (tid : Nat)
  | loadSegment (vaddr memsz object : Nat) (flags : MemoryMappingFlags)
deriving DecidableEq

def step (p : Process) : Action → Option Process
  | .syscall call => (p.syscall call).map (·.process)
  | .pageFault address phys => p.pageFault address phys
  | .dropThread tid => (p.dropThread tid).map Prod.snd
  | .loadSegment vaddr memsz object flags => p.loadSegment vaddr memsz object flags

end Process

end Fioxa.Paging
