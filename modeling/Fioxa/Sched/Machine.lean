import Fioxa.Lib.Lts
import Fioxa.Lib.IntrusiveQueue
import Fioxa.Kernel.Signal

/-! # The scheduler

The scheduler loop of every core, the threads it runs and everything that touches a thread's
`ThreadSched` or the run queue: `scheduler`, `sched_run_tick`, `enter_sched`, `kill_bad_task` and
`exit_thread_inner` (`scheduling/taskmanager.rs`), `Thread::wake`, `Process::new_thread` and
`kill_threads` (`scheduling/process.rs`), the entry and exit of system calls (`syscall/mod.rs`), the
timer tick (`lapic.rs`), the exception and panic handlers, and the bookkeeping that `Spinlock` keeps
about interrupts (`cpu_localstorage.rs`).

An action is one step between two points at which other cores can interfere: a section under the
`SCHEDULER` lock is one action, and so is a section under a thread's `sched` lock that takes and
releases it. The `sched` lock is also held *across* actions (`enter_sched` hands it from the thread
to the scheduler loop of the core and back), so its owner is part of the state, and an action that
has to take it is enabled only while it is free. -/

namespace Fioxa.Sched

open Intrusive Function

/-! ## Interrupts -/

/-- The interrupt flag of a core, and the `hold_interrupts_*` fields of its `CPULocalStorage`. -/
structure Interrupts where
  /-- `IF` in the processor's flags. -/
  enabled : Bool
  /-- `hold_interrupts_depth` -/
  depth : Nat
  /-- `hold_interrupts_initial` -/
  initial : Bool
deriving DecidableEq

/-- `CPULocalStorageRW::inc_hold_interrupts`: what `Spinlock::lock` does before it spins. -/
def Interrupts.incHold (k : Interrupts) : Interrupts :=
  if k.depth = 0 then { enabled := false, depth := 1, initial := k.enabled }
  else { k with depth := k.depth + 1 }

/-- `CPULocalStorageRW::dec_hold_interrupts`: what `Spinlock::unlock` does after its store. -/
def Interrupts.decHold (k : Interrupts) : Interrupts :=
  if k.depth - 1 = 0 then { k with enabled := k.enabled || k.initial, depth := k.depth - 1 }
  else { k with depth := k.depth - 1 }

/-! ## Threads -/

/-- The code a thread is executing. -/
inductive Mode where
  /-- Its own code, outside of system calls. -/
  | user
  /-- The body of a system call. -/
  | kernel
  /-- The rest of an entry stub, up to the instruction that restores the flags of the code `m` it
      returns to. -/
  | handler (m : Mode)
  /-- About to call `kill_bad_task`. -/
  | doomed
deriving DecidableEq

/-- Where a saved thread goes on: what the `ip` and `sp` of its `SavedTaskState` stand for. -/
inductive Resume where
  /-- `start_new_task` -/
  | start
  /-- `tick_handler`, which interrupted `m`. -/
  | tick (m : Mode)
  /-- A system call that blocked. -/
  | syscall
  /-- The `return 0` of `YIELD_NOW`. -/
  | yielded
  /-- An `enter_sched` that is followed by `unreachable!`. -/
  | never
deriving DecidableEq

/-- The code a thread executes once it was resumed and has released its `sched` lock. -/
def Resume.mode : Resume → Mode
  | .start => .handler .user
  | .tick m => .handler m
  | .syscall => .kernel
  | .yielded => .handler .user
  | .never => .doomed

structure SavedTaskState where
  resume : Resume
  /-- The interrupt flag that the `pushfq` of `enter_sched` left on the thread's stack. -/
  flags : Bool
deriving DecidableEq

/-- The interrupt flag a thread starts with when the core jumps to it: the `popfq` of `enter_sched`
    restores its own, `start_new_task` has none to restore. -/
def SavedTaskState.enabled (sv : SavedTaskState) (now : Bool) : Bool :=
  match sv.resume with
  | .start => now
  | _ => sv.flags

structure ThreadSched where
  state : ThreadState
  taskState : Option SavedTaskState
  inSyscall : Bool
  killed : Bool
deriving DecidableEq

/-- A thread, on a machine with `n` cores. -/
structure Thread (n : Nat) where
  sched : ThreadSched
  /-- The core on which the holder of the `sched` lock is executing. -/
  lock : Option (Fin n)
  /-- The thread is in the thread list of its process. -/
  listed : Bool

/-- What `Process::new_thread` puts into its list. -/
def Thread.new (n : Nat) : Thread n where
  sched :=
    { state := .runnable
      taskState := some { resume := .start, flags := false }
      inSyscall := false
      killed := false }
  lock := none
  listed := true

/-- What `kill_threads` does to a thread: `t.sched().lock().killed = true`. -/
def Thread.kill {n : Nat} (th : Thread n) : Thread n :=
  { th with sched := { th.sched with killed := true } }

/-! ## Cores -/

/-- What a thread that a core runs is doing. -/
inductive Phase where
  /-- Switched to, and still holding the `sched` lock that the scheduler loop took. -/
  | resuming (r : Resume)
  | active (m : Mode)
  /-- Holding its `sched` lock with its state set to `Sleeping`, on the way to `enter_sched`. -/
  | marked
  /-- Waiting, without an end, for the `sched` lock it holds itself. -/
  | wedged
deriving DecidableEq

/-- Thread code that may be holding other spinlocks, and take or release one. -/
def Phase.mayLock : Phase → Bool
  | .active .user => true
  | .active .kernel => true
  | .active .doomed => true
  | .marked => true
  | _ => false

/-- Where a core is in its `scheduler` loop. -/
inductive Pc where
  /-- At the top of the loop. -/
  | loop
  /-- At the `hlt`. -/
  | halted
  /-- Popped a thread, about to lock it. -/
  | popped (t : Nat)
  | locked (t : Nat)
  /-- Inside `sched_run_tick`. -/
  | running (t : Nat) (ph : Phase)
  /-- The thread came back through `enter_sched`. -/
  | returned (t : Nat)
  /-- Released the thread's lock, about to queue it. -/
  | requeue (t : Nat)
  /-- Panicked in context 0, from which the panic handler does not recover. -/
  | panicked
deriving DecidableEq

structure Core where
  pc : Pc
  ints : Interrupts
  /-- The interrupt flag that the `pushfq` of `sched_run_tick` left on the stack of the core. -/
  flags : Bool
  /-- How many spinlocks the running thread holds besides its `sched` lock. -/
  held : Nat
  /-- Of the tick and the exceptions that interrupted thread code on this core on the one hand, and
      the returns to interrupted code and the entries into system calls on the other, the last one
      was of the first kind. -/
  dark : Bool

/-- The interrupt bookkeeping of `Spinlock::lock`. -/
def Core.hold (c : Core) : Core := { c with ints := c.ints.incHold }

/-- The interrupt bookkeeping of `Spinlock::unlock`. -/
def Core.unhold (c : Core) : Core := { c with ints := c.ints.decHold }

/-- Interrupts are switched on by the `sti` of a system call's entry stub, or come back on with the
    flags that the end of a stub restores. -/
def Core.lit (c : Core) : Core := { c with ints := { c.ints with enabled := true }, dark := false }

/-- The timer interrupt is taken: its gate switches interrupts off. -/
def Core.interrupted (c : Core) : Core :=
  { c with ints := { c.ints with enabled := false }, dark := true }

/-- An exception is taken. Under a spinlock, where interrupts are off already, its gate changes
    nothing. -/
def Core.excepted (c : Core) : Core :=
  { c with
    ints := { c.ints with enabled := false }
    dark := if c.ints.depth = 0 then true else c.dark }

/-! ## The machine -/

/-- `n` cores, and `w` agents: the calls of `Thread::wake` and of `new_thread` that can be under way
    at a time. Between its two lock sections such a call is the only owner of the thread it is about
    to queue. -/
structure Machine (n w : Nat) where
  core : Fin n → Core
  thread : Nat → Thread n
  /-- The threads created so far are those below `next`. -/
  next : Nat
  /-- `GlobalSchedData` with the `ThreadSchedGlobalData` of every thread. -/
  queue : Queue Nat
  agent : Fin w → Option Nat
  /-- The threads that `exit_thread_inner` took out of their process's list, in that order. -/
  removed : List Nat

namespace Machine

variable {n w : Nat}

def setCore (s : Machine n w) (i : Fin n) (c : Core) : Machine n w :=
  { s with core := update s.core i c }

def setThread (s : Machine n w) (t : Nat) (th : Thread n) : Machine n w :=
  { s with thread := update s.thread t th }

def setAgent (s : Machine n w) (a : Fin w) (t : Option Nat) : Machine n w :=
  { s with agent := update s.agent a t }

/-- Every core has executed `core_start_multitasking`; no thread exists yet. -/
def boot (n w : Nat) : Machine n w where
  core _ :=
    { pc := .loop
      ints := { enabled := true, depth := 0, initial := false }
      flags := false
      held := 0
      dark := false }
  thread _ := { Thread.new n with listed := false }
  next := 0
  queue := .empty
  agent _ := none
  removed := []

/-! ## The scheduler loop -/

variable (s : Machine n w)

/-- `exit_thread_inner`, once it has the lock of the process's thread list: who else may have that
    lock is up to `System`, which also has what follows if the list is empty. Whether the lock `l`
    of the thread is kept is up to the caller. -/
def exitThreadInner (t : Nat) (l : Option (Fin n)) : Machine n w :=
  { s.setThread t { s.thread t with
      sched := { (s.thread t).sched with state := .zombie }, lock := l, listed := false } with
    removed := if (s.thread t).listed then s.removed ++ [t] else s.removed }

/-- `sched_run_tick`, up to the jump into the thread; `none` is the failing `unwrap`. -/
def schedRunTick (i : Fin n) (t : Nat) : Option (Machine n w) :=
  match (s.thread t).sched.taskState with
  | none => none
  | some sv =>
    some ((s.setThread t { s.thread t with
        sched := { (s.thread t).sched with taskState := none } }).setCore i
      { s.core i with
        pc := .running t (.resuming sv.resume)
        flags := (s.core i).ints.enabled
        ints := { (s.core i).ints with enabled := sv.enabled (s.core i).ints.enabled }
        held := 0 })

/-- The panic handler in context 0: the core is lost. -/
def panic (i : Fin n) : Machine n w :=
  s.setCore i { s.core i with pc := .panicked }

/-- `SCHEDULER.lock().pop_thread()`, and `hlt` if there was none. -/
def popThread (i : Fin n) : Machine n w :=
  match s.queue.pop with
  | none => s.setCore i { (s.core i).hold.unhold with pc := .halted }
  | some (t, q) => { s.setCore i { (s.core i).hold.unhold with pc := .popped t } with queue := q }

/-- `task.sched().lock()` -/
def lockThread (i : Fin n) (t : Nat) : Option (Machine n w) :=
  if (s.thread t).lock = none then
    some ((s.setThread t { s.thread t with lock := some i }).setCore i
      { (s.core i).hold with pc := .locked t })
  else none

/-- From the check of `killed` to the jump into the thread. -/
def runThread (i : Fin n) (t : Nat) : Machine n w :=
  if (s.thread t).sched.inSyscall = false ∧ (s.thread t).sched.killed = true then
    -- `continue` drops the guard
    (s.exitThreadInner t none).setCore i { (s.core i).unhold with pc := .loop }
  else if (s.thread t).sched.state = .runnable then (s.schedRunTick i t).getD (s.panic i)
  else s.panic i

/-- `drop(sched)` after a thread came back. -/
def unlockThread (i : Fin n) (t : Nat) (pc : Pc) : Machine n w :=
  (s.setThread t { s.thread t with lock := none }).setCore i { (s.core i).unhold with pc := pc }

/-- What the loop does with a thread that came back. -/
def settleThread (i : Fin n) (t : Nat) : Machine n w :=
  if (s.core i).ints.depth ≠ 1 then
    -- `exit_thread_inner` makes it a zombie, so the `match` that follows panics
    (s.exitThreadInner t (s.thread t).lock).setCore i
      { s.core i with pc := .panicked, ints := { (s.core i).ints with depth := 0 } }
  else
    match (s.thread t).sched.state with
    | .zombie => s.panic i
    | .runnable => s.unlockThread i t (.requeue t)
    | .sleeping => s.unlockThread i t .loop

/-- `SCHEDULER.lock().queue_thread(task)` -/
def queueThread (i : Fin n) (t : Nat) : Machine n w :=
  match s.queue.push t with
  | none => s.panic i
  | some q => { s.setCore i { (s.core i).hold.unhold with pc := .loop } with queue := q }

/-- One step of the `scheduler` loop of core `i`. -/
def schedStep (i : Fin n) : Option (Machine n w) :=
  match (s.core i).pc with
  | .loop => some (s.popThread i)
  | .popped t => s.lockThread i t
  | .locked t => some (s.runThread i t)
  | .returned t => some (s.settleThread i t)
  | .requeue t => some (s.queueThread i t)
  | .halted => none
  | .running _ _ => none
  | .panicked => none

/-! ## Thread code -/

/-- `enter_sched`, called on core `i` (whose bookkeeping is `c`) by thread `t`, which holds its
    `sched` lock: the flags are pushed, and the `popfq` of `sched_run_tick` restores those of the
    scheduler loop. -/
def enterSched (i : Fin n) (t : Nat) (r : Resume) (sched : ThreadSched) (c : Core) : Machine n w :=
  (s.setThread t { s.thread t with
      sched := { sched with taskState := some { resume := r, flags := c.ints.enabled } }
      lock := some i }).setCore i
    { c with pc := .returned t, ints := { c.ints with enabled := c.flags } }

/-- Thread code goes on on core `i`. -/
def goOn (i : Fin n) (t : Nat) (ph : Phase) (c : Core) : Machine n w :=
  s.setCore i { c with pc := .running t ph }

/-- The guard that came with the switch is dropped, or `force_unlock`ed by `start_new_task`. -/
def release (i : Fin n) (t : Nat) : Phase → Option (Machine n w)
  | .resuming r => some (s.unlockThread i t (.running t (.active r.mode)))
  | _ => none

/-- The end of an entry stub: `iretq`, `sysretq` or `popfq`. -/
def iret (i : Fin n) (t : Nat) : Phase → Option (Machine n w)
  | .active (.handler m) =>
    if (s.core i).held = 0 then some (s.goOn i t (.active m) (s.core i).lit) else none
  | _ => none

/-- A system call is entered: the stub, and the first lock section of `syscall_handler`. -/
def sysEnter (i : Fin n) (t : Nat) : Phase → Option (Machine n w)
  | .active .user =>
    if (s.core i).ints.depth ≠ 0 then
      -- `bad_interrupts_held` panics
      some (s.goOn i t (.active .doomed) (s.core i))
    else if (s.thread t).lock ≠ none then none
    else if (s.thread t).sched.inSyscall then
      -- `assert!(!sched.in_syscall)` panics with the guard alive, and `kill_bad_task` waits for it
      some ((s.setThread t { s.thread t with lock := some i }).goOn i t .wedged
        (s.core i).lit.hold.hold)
    else if (s.thread t).sched.killed then
      some (s.enterSched i t .never (s.thread t).sched (s.core i).lit.hold)
    else
      some ((s.setThread t { s.thread t with
          sched := { (s.thread t).sched with inSyscall := true } }).goOn i t (.active .kernel)
        (s.core i).lit.hold.unhold)
  | _ => none

/-- The body of a system call has returned, so that all its guards are dropped: `in_syscall` is
    cleared, and the thread goes on in mode `m`. -/
def sysLeave (i : Fin n) (t : Nat) (m : Mode) : Phase → Option (Machine n w)
  | .active .kernel =>
    if (s.core i).held = 0 ∧ (s.thread t).lock = none then
      some ((s.setThread t { s.thread t with
          sched := { (s.thread t).sched with inSyscall := false } }).goOn i t (.active m)
        (s.core i).hold.unhold)
    else none
  | _ => none

/-- `YIELD_NOW` -/
def yieldNow (i : Fin n) (t : Nat) : Phase → Option (Machine n w)
  | .active .kernel =>
    if (s.core i).held = 0 ∧ (s.thread t).lock = none then
      some (s.enterSched i t .yielded { (s.thread t).sched with inSyscall := false }
        (s.core i).hold)
    else none
  | _ => none

/-- `EXIT_THREAD` -/
def exitThread (i : Fin n) (t : Nat) : Phase → Option (Machine n w)
  | .active .kernel =>
    if (s.core i).held = 0 ∧ (s.thread t).lock = none then
      some (s.enterSched i t .never
        { (s.thread t).sched with inSyscall := false, killed := true } (s.core i).hold)
    else none
  | _ => none

/-- A system call that blocks takes the `sched` lock of its thread and sets the state to
    `Sleeping`. -/
def mark (i : Fin n) (t : Nat) : Phase → Option (Machine n w)
  | .active .kernel =>
    if (s.thread t).lock = none then
      some ((s.setThread t { s.thread t with
          sched := { (s.thread t).sched with state := .sleeping }
          lock := some i }).goOn i t .marked (s.core i).hold)
    else none
  | _ => none

/-- Having registered itself as a waiter and dropped its other guards, it enters the scheduler. -/
def block (i : Fin n) (t : Nat) : Phase → Option (Machine n w)
  | .marked =>
    if (s.core i).held = 0 then
      some (s.enterSched i t .syscall (s.thread t).sched (s.core i))
    else none
  | _ => none

/-- Some other spinlock is taken. -/
def acquire (i : Fin n) (t : Nat) (ph : Phase) : Option (Machine n w) :=
  if ph.mayLock then
    some (s.goOn i t ph { (s.core i).hold with held := (s.core i).held + 1 })
  else none

/-- One of them is released. -/
def unlock (i : Fin n) (t : Nat) (ph : Phase) : Option (Machine n w) :=
  if ph.mayLock ∧ 0 < (s.core i).held then
    some (s.goOn i t ph { (s.core i).unhold with held := (s.core i).held - 1 })
  else none

/-- `tick_handler` interrupts thread code. -/
def tick (i : Fin n) (t : Nat) : Phase → Option (Machine n w)
  | .active m =>
    if (s.core i).ints.enabled ∧ (s.thread t).lock = none then
      some (s.enterSched i t (.tick m) (s.thread t).sched (s.core i).interrupted.hold)
    else none
  | _ => none

/-- Thread code panics, or raises an exception (`c` is the core then) that is not handled: what
    follows is `kill_bad_task`, which needs the thread's own `sched` lock. A thread that holds it
    already waits for it with one more count in `hold_interrupts_depth`. -/
def fail (i : Fin n) (t : Nat) (c : Core) : Phase → Option (Machine n w)
  | .active _ => some (s.goOn i t (.active .doomed) c)
  | .marked => some (s.goOn i t .wedged c.hold)
  | _ => none

/-- `kill_bad_task` -/
def killBadTask (i : Fin n) (t : Nat) : Phase → Option (Machine n w)
  | .active .doomed =>
    if (s.thread t).lock = none then
      some (s.enterSched i t .never
        { (s.thread t).sched with inSyscall := false, killed := true } (s.core i).hold)
    else none
  | _ => none

/-! ## Actions -/

/-- What thread code can do next. -/
inductive Op where
  | release
  | iret
  | sysEnter
  | sysReturn
  | sysFail
  | yieldNow
  | exitThread
  | mark
  | block
  | acquire
  | unlock
  | tick
  | exception
  | panic
  | killBadTask
deriving DecidableEq

inductive Action (n w : Nat) where
  /-- The scheduler loop of core `i` goes on. -/
  | sched (i : Fin n)
  /-- The thread that core `i` runs goes on. -/
  | thread (i : Fin n) (op : Op)
  /-- Core `i` takes an interrupt that does not enter the scheduler. -/
  | irq (i : Fin n)
  /-- The first lock section of `Thread::wake` for thread `t`. -/
  | wake (a : Fin w) (t : Nat)
  /-- `new_thread` -/
  | create (a : Fin w)
  /-- The agent queues the thread it has. -/
  | enqueue (a : Fin w)
  /-- `kill_threads` sets the `killed` flag of thread `t`. -/
  | kill (t : Nat)
deriving DecidableEq

variable (s : Machine n w)

def runningStep (i : Fin n) (t : Nat) (ph : Phase) : Op → Option (Machine n w)
  | .release => s.release i t ph
  | .iret => s.iret i t ph
  | .sysEnter => s.sysEnter i t ph
  | .sysReturn => s.sysLeave i t (.handler .user) ph
  | .sysFail => s.sysLeave i t .doomed ph
  | .yieldNow => s.yieldNow i t ph
  | .exitThread => s.exitThread i t ph
  | .mark => s.mark i t ph
  | .block => s.block i t ph
  | .acquire => s.acquire i t ph
  | .unlock => s.unlock i t ph
  | .tick => s.tick i t ph
  | .exception => s.fail i t (s.core i).excepted ph
  | .panic => s.fail i t (s.core i) ph
  | .killBadTask => s.killBadTask i t ph

def threadStep (i : Fin n) (op : Op) : Option (Machine n w) :=
  match (s.core i).pc with
  | .running t ph => s.runningStep i t ph op
  | _ => none

/-- An interrupt whose handler returns. Its locks are taken with interrupts off, which is what they
    leave in `hold_interrupts_initial`; `hlt` is over. -/
def irqStep (i : Fin n) : Option (Machine n w) :=
  if (s.core i).ints.enabled then
    some (s.setCore i { s.core i with
      pc := if (s.core i).pc = .halted then .loop else (s.core i).pc
      ints := { (s.core i).ints with initial := false } })
  else none

/-- The first lock section of `Thread::wake`. -/
def wakeStep (a : Fin w) (t : Nat) : Option (Machine n w) :=
  if s.agent a = none ∧ t < s.next ∧ (s.thread t).lock = none then
    if (s.thread t).sched.state = .sleeping then
      some ((s.setThread t { s.thread t with
        sched := { (s.thread t).sched with state := .runnable } }).setAgent a (some t))
    else some s
  else none

/-- `new_thread`, for a process that has not exited. -/
def createStep (a : Fin w) : Option (Machine n w) :=
  if s.agent a = none then
    some { (s.setThread s.next (Thread.new n)).setAgent a (some s.next) with next := s.next + 1 }
  else none

/-- `SCHEDULER.lock().queue_thread(thread)`: the second lock section of `Thread::wake`, and what
    follows a `new_thread`. -/
def enqueueStep (a : Fin w) : Option (Machine n w) :=
  match s.agent a with
  | none => none
  | some t =>
    match s.queue.push t with
    | none => none
    | some q => some { s.setAgent a none with queue := q }

/-- One iteration of the loop of `kill_threads`. -/
def killStep (t : Nat) : Option (Machine n w) :=
  if t < s.next ∧ (s.thread t).lock = none then some (s.setThread t (s.thread t).kill)
  else none

/-- The transition function of the machine. -/
def step : Action n w → Option (Machine n w)
  | .sched i => s.schedStep i
  | .thread i op => s.threadStep i op
  | .irq i => s.irqStep i
  | .wake a t => s.wakeStep a t
  | .create a => s.createStep a
  | .enqueue a => s.enqueueStep a
  | .kill t => s.killStep t

end Machine

end Fioxa.Sched
