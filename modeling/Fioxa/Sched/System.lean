import Fioxa.Kernel.Interrupt
import Fioxa.Kernel.Port
import Fioxa.Sched.Exit

/-! # Processes, blocking objects and the scheduler

The scheduler of `Sched/Machine.lean` together with what puts threads to sleep and wakes them
(object signals, ports, interrupt handles and `SLEEP`) and with the processes the threads belong to:
their exit status, their entry in `PROCESSES` and their `PROCESS_EXITED` signal. Everything a thread
does besides the blocking calls and `SPAWN_THREAD` is a step of the machine.

As before an action is a section under a lock. Where a section tells threads (`Notice`), the calls
of `Thread::wake` it makes follow as steps of their own, `due` until then. What ends a process is
done by two functions in the same four steps, once they find the thread list empty:
`exit_thread_inner` on a core, and `kill_threads`; both are an `Exiter`. -/

namespace Fioxa.Sched

open Function (update)

/-- The objects on which threads block. -/
structure Objects where
  signals : SignalObject → KObjectSignal
  port : PortRef → KPort
  interrupt : Nat → KInterruptHandle
  /-- `SLEPT_PROCESSES` -/
  slept : List (Nat × ThreadRef)

namespace Objects

def setSignals (x : Objects) (o : SignalObject) (s : KObjectSignal) : Objects :=
  { x with signals := update x.signals o s }

def setPort (x : Objects) (p : PortRef) (port : KPort) : Objects :=
  { x with port := update x.port p port }

def setInterrupt (x : Objects) (h : Nat) (handle : KInterruptHandle) : Objects :=
  { x with interrupt := update x.interrupt h handle }

def setSlept (x : Objects) (slept : List (Nat × ThreadRef)) : Objects := { x with slept := slept }

end Objects

structure ProcessState where
  exitStatus : ProcessExit
  /-- Its pid is in `PROCESSES`. -/
  listed : Bool
  /-- Its first thread has been created. -/
  given : Bool
  /-- Its pid has been inserted into `PROCESSES`. -/
  entered : Bool
deriving DecidableEq

/-- What is left of a call that found the thread list of a process empty. -/
inductive ExitPc where
  /-- Released the list's lock, about to set `exit_status`. -/
  | status
  /-- About to set `PROCESS_EXITED`. -/
  | signal
  /-- Inside that `set_signal`: these threads are still to be woken. -/
  | waking (threads : List ThreadRef)
  /-- About to remove the pid from `PROCESSES`. -/
  | remove
deriving DecidableEq

/-- Who ends a process: the loop of core `i` in `exit_thread_inner`, or call `j` of
    `kill_threads`. -/
inductive Exiter (n k : Nat) where
  | core (i : Fin n)
  | killer (j : Fin k)
deriving DecidableEq

inductive KillCall where
  | idle
  /-- Holding the list's lock; the flags of the threads in `rest` are still to be set. -/
  | marking (p : Nat) (rest : List Nat)
  /-- Released the lock. If the list was empty, the rest of the call is an exit. -/
  | released (p : Nat)
deriving DecidableEq

/-- The call holds the lock of the thread list of `p`. -/
def KillCall.holds (p : Nat) : KillCall → Bool
  | .marking q _ => q = p
  | _ => false

/-- A machine with `n` cores and `w` agents, and `k` calls of `kill_threads`. -/
structure System (n w k : Nat) where
  machine : Machine n w
  /-- The process a thread belongs to. -/
  owner : Nat → Nat
  process : Nat → ProcessState
  objects : Objects
  /-- The threads that a section has decided to wake and not woken yet. -/
  due : List ThreadRef
  exiting : Exiter n k → Option (Nat × ExitPc)
  killer : Fin k → KillCall
  /-- Ghost: the object wait a thread sleeps in, from its registration until it is woken. -/
  waiting : ThreadRef → Option (SignalObject × ObjectSignal)

namespace System

variable {n w k : Nat}

def boot (n w k : Nat) : System n w k where
  machine := .boot n w
  owner _ := 0
  process _ := ⟨.notExitedYet, false, false, false⟩
  objects := ⟨fun _ => .new, fun _ => ⟨[], []⟩, fun _ => .new, []⟩
  due := []
  exiting _ := none
  killer _ := .idle
  waiting _ := none

/-- The thread list of process `p`. -/
def threads (s : System n w k) (p : Nat) : List Nat :=
  (List.range s.machine.next).filter fun t => s.owner t = p ∧ (s.machine.thread t).listed

/-- Some call of `kill_threads` holds the lock of the thread list of `p`. -/
def Locked (s : System n w k) (p : Nat) : Prop := ∃ j, (s.killer j).holds p = true

instance (s : System n w k) (p : Nat) : Decidable (s.Locked p) :=
  inferInstanceAs (Decidable (∃ _, _))

variable (s : System n w k)

def withMachine (m : Machine n w) : System n w k := { s with machine := m }

def setProcess (p : Nat) (proc : ProcessState) : System n w k :=
  { s with process := update s.process p proc }

def setExiting (e : Exiter n k) (x : Option (Nat × ExitPc)) : System n w k :=
  { s with exiting := update s.exiting e x }

def setKiller (j : Fin k) (call : KillCall) : System n w k :=
  { s with killer := update s.killer j call }

/-- Objects after a section, with the threads its notices wake. -/
def tell (x : Objects) (notices : List Notice) : System n w k :=
  { s with
    objects := { x with port := (deliverAll x.port notices).1 }
    due := s.due ++ (deliverAll x.port notices).2 }

/-! ## The thread lists -/

/-- The thread that the next step of the loop of core `i` passes to `exit_thread_inner`. -/
def leaving (m : Machine n w) (i : Fin n) : Option Nat :=
  match (m.core i).pc with
  | .locked t =>
    if (m.thread t).sched.inSyscall = false ∧ (m.thread t).sched.killed = true then some t
    else none
  | .returned t => if (m.core i).ints.depth ≠ 1 then some t else none
  | _ => none

variable (s : System n w k)

/-- `if threads.is_empty()`, with which both functions go on. -/
def checkEmpty (e : Exiter n k) (p : Nat) : System n w k :=
  if s.threads p = [] then s.setExiting e (some (p, .status)) else s

/-- A step of the loop of core `i`. -/
def schedStep (i : Fin n) : Option (System n w k) :=
  if s.exiting (.core i) = none then
    match leaving s.machine i with
    | none => (s.machine.step (.sched i)).map s.withMachine
    | some t =>
      if s.Locked (s.owner t) then none
      else (s.machine.step (.sched i)).map fun m =>
        (s.withMachine m).checkEmpty (.core i) (s.owner t)
  else none

/-- `Process::new_thread`: the thread it returns. -/
def newThread (p : Nat) : Option Nat :=
  if (s.process p).exitStatus = .exited then none else some s.machine.next

/-- Process `p` gets the thread that agent `a` is about to queue. -/
def addThread (a : Fin w) (p t : Nat) : Option (System n w k) :=
  (s.machine.step (.create a)).map fun m =>
    { s.withMachine m with owner := update s.owner t p }

/-- The first `new_thread` of a process, called by its loader. -/
def load (a : Fin w) (p : Nat) : Option (System n w k) :=
  if (s.process p).given then none
  else
    match s.newThread p with
    | none => none
    | some t => (s.addThread a p t).map fun s => s.setProcess p { s.process p with given := true }

/-- `PROCESSES.lock().insert(..)`, which the loader does after the first `new_thread`, and the
    kernel's `main` for the init process before it. -/
def insert (p : Nat) : Option (System n w k) :=
  if (s.process p).entered then none
  else some (s.setProcess p { s.process p with listed := true, entered := true })

/-- `SCHEDULER.lock().queue_thread(..)`: the end of a wake or of a thread's creation. The loader
    queues the first thread of a process last. -/
def enqueue (a : Fin w) : Option (System n w k) :=
  match s.machine.agent a with
  | none => none
  | some t =>
    if (s.process (s.owner t)).entered then (s.machine.step (.enqueue a)).map s.withMachine
    else none

/-! ## Blocking calls -/

/-- The thread that core `i` runs in the body of a system call. -/
def caller (i : Fin n) : Option Nat :=
  match (s.machine.core i).pc with
  | .running t (.active .kernel) => some t
  | _ => none

/-- The thread on core `i` has set its state to `Sleeping` and registered itself. -/
def fallAsleep (i : Fin n) (x : Objects) : Option (System n w k) :=
  (s.machine.step (.thread i .mark)).map fun m => { s.withMachine m with objects := x }

/-- `SPAWN_THREAD`. In a process that has exited, `spawn_thread` runs into its `todo!()`. -/
def spawn (i : Fin n) (a : Fin w) (caller : Nat) : Option (System n w k) :=
  if s.Locked (s.owner caller) then none
  else
    match s.newThread (s.owner caller) with
    | none => (s.machine.step (.thread i .panic)).map s.withMachine
    | some t => s.addThread a (s.owner caller) t

/-- `Wait` on an object. -/
def objectWait (i : Fin n) (o : SignalObject) (bits : BitVec 64)
    (caller : Nat) : Option (System n w k) :=
  let mask := ObjectSignal.fromBitsTruncate bits
  let signals := s.objects.signals o
  if signals.signalStatus.intersects mask then some s
  else
    (s.fallAsleep i (s.objects.setSignals o (signals.wait ⟨.one caller, mask, 0⟩))).map fun s =>
      { s with waiting := update s.waiting caller (some (o, mask)) }

/-- `WaitPort` on an object. -/
def waitPort (o : SignalObject) (p : PortRef) (bits key : BitVec 64) : System n w k :=
  let mask := ObjectSignal.fromBitsTruncate bits
  let signals := s.objects.signals o
  if signals.signalStatus.intersects mask then
    s.tell s.objects [.notify p ⟨key, .signalOne mask signals.signalStatus⟩]
  else s.tell (s.objects.setSignals o (signals.wait ⟨.port p key, mask, 0⟩)) []

/-- A turn of the loop in `KPort::wait`. -/
def portWait (i : Fin n) (p : PortRef) (caller : Nat) : Option (System n w k) :=
  match (s.objects.port p).wait caller with
  | (some _, port) => some (s.tell (s.objects.setPort p port) [])
  | (none, port) => s.fallAsleep i (s.objects.setPort p port)

/-- A turn of the loop in `KInterruptHandle::wait`. -/
def interruptWait (i : Fin n) (h : Nat) (caller : Nat) : Option (System n w k) :=
  match (s.objects.interrupt h).wait caller with
  | (.failed, _) => some s
  | (.returned, handle) => some (s.tell (s.objects.setInterrupt h handle) [])
  | (.registered, handle) => s.fallAsleep i (s.objects.setInterrupt h handle)

/-- `sleep_handler`, with the uptime it reads. -/
def sleep (i : Fin n) (start arg1 : Nat) (caller : Nat) : Option (System n w k) :=
  s.fallAsleep i (s.objects.setSlept ((start + arg1, caller) :: s.objects.slept))

/-- What the thread on core `i` asks of the kernel. -/
inductive Call (w : Nat) where
  | spawn (a : Fin w)
  | objectWait (o : SignalObject) (bits : BitVec 64)
  | waitPort (o : SignalObject) (p : PortRef) (bits key : BitVec 64)
  | portWait (p : PortRef)
  | interruptWait (h : Nat)
  | sleep (start arg1 : Nat)

def callStep (s : System n w k) (i : Fin n) (t : Nat) : Call w → Option (System n w k)
  | .spawn a => s.spawn i a t
  | .objectWait o bits => s.objectWait i o bits t
  | .waitPort o p bits key => some (s.waitPort o p bits key)
  | .portWait p => s.portWait i p t
  | .interruptWait h => s.interruptWait i h t
  | .sleep start arg1 => s.sleep i start arg1 t

/-! ## Events -/

/-- What happens to an object, from wherever it comes. -/
inductive Event where
  | setSignal (e : Nat) (signal : ObjectSignal) (status : Bool)
  | notify (p : PortRef) (notif : PortNotification)
  | trigger (h : Nat) (now : BitVec 64)
  | setPort (h : Nat) (p : PortRef) (key now : BitVec 64)
  | ack (h : Nat) (now : BitVec 64)
  /-- `check_sleep` at this uptime. -/
  | checkSleep (now : Nat)

/-- The objects after an event, before its notices are delivered. -/
def Event.objects (x : Objects) : Event → Objects
  | .setSignal e signal status =>
    x.setSignals (.channel e) ((x.signals (.channel e)).setSignal signal status).signal
  | .notify _ _ => x
  | .trigger h now => x.setInterrupt h ((x.interrupt h).trigger now).1
  | .setPort h p key now => x.setInterrupt h ((x.interrupt h).setPort p key now).1
  | .ack h now => x.setInterrupt h ((x.interrupt h).ack now).1
  | .checkSleep now => x.setSlept (x.slept.filter fun e => now < e.1)

def Event.notices (x : Objects) : Event → List Notice
  | .setSignal e signal status => ((x.signals (.channel e)).setSignal signal status).notices
  | .notify p notif => [.notify p notif]
  | .trigger h now => ((x.interrupt h).trigger now).2
  | .setPort h p key now => ((x.interrupt h).setPort p key now).2
  | .ack h now => ((x.interrupt h).ack now).2
  | .checkSleep now => (x.slept.filter fun e => e.1 ≤ now).map fun e => .wake e.2

/-! ## The end of a process -/

variable (s : System n w k)

/-- The `set_signal` call that announces the end of `p`. -/
def exitSignal (p : Nat) : SetSignal :=
  (s.objects.signals (.process p)).setSignal .processExited true

/-- The next step of an exit; agent `a` is the one for a wake. -/
def exitStep (e : Exiter n k) (a : Fin w) : Option (System n w k) :=
  match s.exiting e with
  | none => none
  | some (p, .status) =>
    some ((s.setProcess p { s.process p with exitStatus := .exited }).setExiting e
      (some (p, .signal)))
  | some (p, .signal) =>
    let x := s.objects.setSignals (.process p) (s.exitSignal p).signal
    let (ports, woken) := deliverAll x.port (s.exitSignal p).notices
    some ({ s with objects := { x with port := ports } }.setExiting e (some (p, .waking woken)))
  | some (p, .waking []) => some (s.setExiting e (some (p, .remove)))
  | some (p, .waking (t :: rest)) =>
    (s.machine.step (.wake a t)).map fun m =>
      { s.withMachine m with waiting := update s.waiting t none }.setExiting e
        (some (p, .waking rest))
  | some (p, .remove) =>
    some ((s.setProcess p { s.process p with listed := false }).setExiting e none)

/-- `kill_threads` takes the lock of the thread list. A handle to a process only exists once its
    loader is done. -/
def kill (j : Fin k) (p : Nat) : Option (System n w k) :=
  if s.killer j = .idle ∧ (s.process p).given ∧ (s.process p).entered ∧ ¬ s.Locked p then
    some (s.setKiller j (.marking p (s.threads p)))
  else none

/-- One iteration of its loop, or what follows the loop. -/
def killStep (j : Fin k) : Option (System n w k) :=
  match s.killer j with
  | .marking p (t :: rest) =>
    (s.machine.step (.kill t)).map fun m => (s.withMachine m).setKiller j (.marking p rest)
  | .marking p [] => some ((s.setKiller j (.released p)).checkEmpty (.killer j) p)
  | _ => none

/-! ## Actions -/

inductive Action (n w k : Nat) where
  /-- The scheduler loop of core `i` goes on. -/
  | sched (i : Fin n)
  /-- The thread that core `i` runs goes on. -/
  | thread (i : Fin n) (op : Machine.Op)
  | irq (i : Fin n)
  | call (i : Fin n) (c : Call w)
  | event (v : Event)
  /-- A wake that is due. -/
  | wake (a : Fin w) (t : Nat)
  | load (a : Fin w) (p : Nat)
  | insert (p : Nat)
  | enqueue (a : Fin w)
  | kill (j : Fin k) (p : Nat)
  | killStep (j : Fin k)
  | exit (e : Exiter n k) (a : Fin w)

def step (s : System n w k) : Action n w k → Option (System n w k)
  | .sched i => s.schedStep i
  | .thread i op =>
    -- a thread only sets its state to `Sleeping` in a blocking call
    if op = .mark then none else (s.machine.step (.thread i op)).map s.withMachine
  | .irq i => (s.machine.step (.irq i)).map s.withMachine
  | .call i c => (s.caller i).bind fun t => s.callStep i t c
  | .event v => some (s.tell (v.objects s.objects) (v.notices s.objects))
  | .wake a t =>
    if t ∈ s.due then
      (s.machine.step (.wake a t)).map fun m =>
        { s.withMachine m with
          due := s.due.erase t
          waiting := update s.waiting t none }
    else none
  | .load a p => s.load a p
  | .insert p => s.insert p
  | .enqueue a => s.enqueue a
  | .kill j p => s.kill j p
  | .killStep j => s.killStep j
  | .exit e a => s.exitStep e a

end System

end Fioxa.Sched
