import Mathlib.Data.Fintype.Basic
import Mathlib.Logic.Function.Basic
import Fioxa.Lib.Lts
import Fioxa.Kernel.Channel

/-! # Inter-process communication as a system

Any number of threads use channels, processes and ports through the kernel: they create channels,
send, read, drop their handles, wait on an object (`Wait`, `WaitPort`), and a process may exit. The
atomic steps are the spinlock sections of the source, so the system can interleave two calls at
every point where the kernel can.

Endpoints are reference counted. `held e` counts the strong references kept in handle tables and
queued messages; the references a thread holds on its stack in the middle of a call are the `arcs`
of its `Task`. An endpoint whose last strong reference goes away runs its destructor, which is
`close`: first a section on itself, then (if the weak peer reference still upgrades) one on the
peer. -/

namespace Fioxa

open Function (update)

inductive PortNotificationType where
  | signalOne (trigger signals : ObjectSignal)
  | interrupt (timestamp : BitVec 64)
  | user (bytes : BitVec 64)
  deriving DecidableEq

structure PortNotification where
  key : BitVec 64
  ty : PortNotificationType
  deriving DecidableEq

structure KPort where
  queue : List PortNotification
  waiters : List ThreadRef
  deriving DecidableEq

/-- `KPort::notify`: the port afterwards and the thread to wake. -/
def KPort.notify (port : KPort) (notif : PortNotification) : KPort × Option ThreadRef :=
  match port.waiters with
  | [] => (⟨port.queue ++ [notif], []⟩, none)
  | t :: rest => (⟨port.queue ++ [notif], rest⟩, some t)

/-! ## Whom a signal reaches -/

/-- The receiving side of notifications: threads and ports. -/
structure Listeners where
  port : PortRef → KPort
  thread : ThreadRef → ThreadState

namespace Listeners

/-- `Thread::wake`, up to the run queue (which is the scheduler's, `Sched/Machine.lean`). -/
def wake (l : Listeners) (t : ThreadRef) : Listeners :=
  match l.thread t with
  | .zombie | .runnable => l
  | .sleeping => { l with thread := update l.thread t .runnable }

def notify (l : Listeners) (p : PortRef) (notif : PortNotification) : Listeners :=
  let (port, waiter) := (l.port p).notify notif
  let l := { l with port := update l.port p port }
  match waiter with
  | none => l
  | some t => l.wake t

/-- One turn of the loop in `set_signal` over the extracted waiters. -/
def fireOne (new : ObjectSignal) (l : Listeners) (waiter : SignalWaiter) : Listeners :=
  match waiter.ty with
  | .one t => l.wake t
  | .port p key => l.notify p ⟨key, .signalOne waiter.mask new⟩

def fire (l : Listeners) (call : SetSignal) : Listeners :=
  call.fired.foldl (fireOne call.new) l

end Listeners

/-! ## The state -/

/-- The kernel objects that have signals. -/
inductive SignalObject where
  | channel (e : Nat)
  | process (p : Nat)
  deriving DecidableEq

/-- The endpoint a reference to this object keeps alive. -/
def SignalObject.arcs : SignalObject → List Nat
  | .channel e => [e]
  | .process _ => []

/-- Where a thread stands inside a kernel call. -/
inductive Task where
  | idle
  /-- `send` on `e`, before the peer reference is upgraded. -/
  | sendUpgrade (e : Nat) (msg : ChannelMessage)
  /-- `send` on `e`, holding a strong reference to the peer `p`, before `p`'s lock. -/
  | sendLock (e p : Nat) (msg : ChannelMessage)
  | readLock (e : Nat) (maxBytes maxHandles : Nat)
  | waitLock (o : SignalObject) (mask : ObjectSignal)
  /-- Inside `enter_sched`, registered on `o`. -/
  | asleep (o : SignalObject)
  | waitPortLock (o : SignalObject) (port : PortRef) (mask : ObjectSignal) (key : BitVec 64)
  /-- The call is over; these strong references are still to be dropped, in order. -/
  | release (arcs : List Nat)
  /-- The destructor of `e`, whose strong count is zero, before its first section. -/
  | closeSelf (e : Nat) (rest : List Nat)
  | closeUpgrade (e : Nat) (rest : List Nat)
  | closePeer (p : Nat) (rest : List Nat)
  /-- `exit_thread_inner` (or `kill_threads`) once the thread list is empty: three sections. -/
  | exitStatus (p : Nat)
  | exitSignal (p : Nat)
  | exitRemove (p : Nat)
  deriving DecidableEq

/-- The strong endpoint references on the thread's stack. -/
def Task.arcs : Task → List Nat
  | .idle => []
  | .sendUpgrade e _ => [e]
  | .sendLock e p _ => [p, e]
  | .readLock e _ _ => [e]
  | .waitLock o _ => o.arcs
  | .asleep o => o.arcs
  | .waitPortLock o _ _ _ => o.arcs
  | .release arcs => arcs
  | .closeSelf _ rest => rest
  | .closeUpgrade _ rest => rest
  | .closePeer p rest => p :: rest
  | .exitStatus _ | .exitSignal _ | .exitRemove _ => []

structure ProcessObject where
  exitStatus : ProcessExit
  signals : KObjectSignal
  /-- Its pid is in `PROCESSES`. -/
  listed : Bool
  deriving DecidableEq

/-- The kernel with `n` threads. The last four fields are ghost: per receiving endpoint the messages
    accepted by `send` and returned by `read`, the number of registrations so far, and what happened
    to each object's signals (newest first). -/
structure Kernel (n : Nat) where
  handle : Nat → KChannelHandle
  next : Nat
  held : Nat → Nat
  process : Nat → ProcessObject
  listeners : Listeners
  task : Fin n → Task
  sent : Nat → List ChannelMessage
  received : Nat → List ChannelMessage
  registrations : Nat
  history : SignalObject → List (OneShot.Event ObjectSignal SignalWaiter)

namespace Kernel

variable {n : Nat}

/-- No channel yet, every process running, every thread idle. -/
def boot (n : Nat) : Kernel n where
  handle := fun _ => ⟨.new, 0⟩
  next := 0
  held := fun _ => 0
  process := fun _ => ⟨.notExitedYet, .new, true⟩
  listeners := ⟨fun _ => ⟨[], []⟩, fun _ => .runnable⟩
  task := fun _ => .idle
  sent := fun _ => []
  received := fun _ => []
  registrations := 0
  history := fun _ => []

def channel (k : Kernel n) (e : Nat) : KChannelInner := (k.handle e).channel

def peer (k : Kernel n) (e : Nat) : Nat := (k.handle e).peer

/-- The strong count of `e` is not zero. -/
def Alive (k : Kernel n) (e : Nat) : Prop := 0 < k.held e ∨ ∃ a, e ∈ (k.task a).arcs

instance (k : Kernel n) (e : Nat) : Decidable (k.Alive e) :=
  inferInstanceAs (Decidable (0 < k.held e ∨ ∃ a, e ∈ (k.task a).arcs))

variable (k : Kernel n)

def signals : SignalObject → KObjectSignal
  | .channel e => (k.channel e).signal
  | .process p => (k.process p).signals

/-! ## Elementary updates -/

@[simps -fullyApplied next history registrations sent received]
def setTask (a : Fin n) (t : Task) : Kernel n :=
  { k with task := update k.task a t }

/-- Store the state a section left an endpoint in; `call` is the `set_signal` call it made. -/
def putChannel (e : Nat) (chan : KChannelInner) : Option SetSignal → Kernel n
  | none => { k with handle := update k.handle e ⟨chan, k.peer e⟩ }
  | some call =>
    { k with
      handle := update k.handle e ⟨chan, k.peer e⟩
      listeners := k.listeners.fire call
      history := update k.history (.channel e)
        (.updated call.new call.fired :: k.history (.channel e)) }

@[simps -fullyApplied history registrations]
def logSent (e : Nat) (msg : ChannelMessage) : Kernel n :=
  { k with sent := update k.sent e (k.sent e ++ [msg]) }

@[simps -fullyApplied history registrations]
def logReceived (e : Nat) (msg : ChannelMessage) : Kernel n :=
  { k with received := update k.received e (k.received e ++ [msg]) }

def putProcess (p : Nat) (proc : ProcessObject) : Kernel n :=
  { k with process := update k.process p proc }

def putSignals (o : SignalObject) (s : KObjectSignal) : Kernel n :=
  match o with
  | .channel e => { k with
      handle := update k.handle e ⟨{ k.channel e with signal := s }, k.peer e⟩ }
  | .process p => k.putProcess p { k.process p with signals := s }

/-- `signals.wait(..)` with the next registration number. -/
def register (o : SignalObject) (ty : SignalWaiterType) (mask : ObjectSignal) : Kernel n :=
  let waiter : SignalWaiter := ⟨ty, mask, k.registrations⟩
  let k := k.putSignals o ((k.signals o).wait waiter)
  { k with
    registrations := k.registrations + 1
    history := update k.history o (.registered waiter :: k.history o) }

def sleep (t : ThreadRef) : Kernel n :=
  { k with listeners :=
      { k.listeners with thread := update k.listeners.thread t .sleeping } }

/-! ## Steps -/

/-- The next section of the call thread `a` is in. -/
def resume (a : Fin n) : Option (Kernel n) :=
  match k.task a with
  | .idle => none
  | .sendUpgrade e msg =>
    let p := k.peer e
    if k.Alive p then some (k.setTask a (.sendLock e p msg))
    else some (k.setTask a (.release [e]))
  | .sendLock e p msg =>
    match (k.channel p).send msg with
    | none => some (k.setTask a (.release [p, e]))
    | some (chan, call) =>
      some (((k.putChannel p chan (some call)).logSent p msg).setTask a (.release [p, e]))
  | .readLock e maxBytes maxHandles =>
    match (k.channel e).read maxBytes maxHandles with
    | (.ok packet, chan, call) =>
      some (((k.putChannel e chan call).logReceived e packet).setTask a (.release [e]))
    | (.error _, chan, call) =>
      some ((k.putChannel e chan call).setTask a (.release [e]))
  | .waitLock o mask =>
    if (k.signals o).signalStatus.intersects mask then some (k.setTask a (.release o.arcs))
    else some (((k.register o (.one a.val) mask).sleep a.val).setTask a (.asleep o))
  | .asleep o =>
    -- `enter_sched` only returns once the thread has been woken
    if k.listeners.thread a.val = .runnable then some (k.setTask a (.release o.arcs)) else none
  | .waitPortLock o port mask key =>
    if (k.signals o).signalStatus.intersects mask then
      some ({ k with listeners :=
        k.listeners.notify port ⟨key, .signalOne mask (k.signals o).signalStatus⟩ }.setTask a
          (.release o.arcs))
    else some ((k.register o (.port port key) mask).setTask a (.release o.arcs))
  | .release [] => some (k.setTask a .idle)
  | .release (e :: rest) =>
    let k := k.setTask a (.release rest)
    if k.Alive e then some k else some (k.setTask a (.closeSelf e rest))
  | .closeSelf e rest =>
    let (chan, call) := (k.channel e).closeSelf
    some ((k.putChannel e chan (some call)).setTask a (.closeUpgrade e rest))
  | .closeUpgrade e rest =>
    let p := k.peer e
    if k.Alive p then some (k.setTask a (.closePeer p rest))
    else some (k.setTask a (.release rest))
  | .closePeer p rest =>
    let (chan, call) := (k.channel p).closePeer
    some ((k.putChannel p chan (some call)).setTask a (.release (p :: rest)))
  | .exitStatus p =>
    some ((k.putProcess p { k.process p with exitStatus := .exited }).setTask a (.exitSignal p))
  | .exitSignal p =>
    let call := (k.process p).signals.setSignal .processExited true
    some ({ k.putProcess p { k.process p with signals := call.signal } with
      listeners := k.listeners.fire call
      history := update k.history (.process p)
        (.updated call.new call.fired :: k.history (.process p)) }.setTask a (.exitRemove p))
  | .exitRemove p =>
    some ((k.putProcess p { k.process p with listed := false }).setTask a .idle)

/-- `channel_create`: two endpoints that are each other's peer, with one handle each. -/
def channelCreate : Kernel n :=
  let left := k.next
  let right := k.next + 1
  { k with
    handle := update (update k.handle left ⟨.new, right⟩) right ⟨.new, left⟩
    next := k.next + 2
    held := update (update k.held left 1) right 1 }

inductive Action (n : Nat) where
  | create
  /-- One more handle to an endpoint someone has a handle to. -/
  | clone (e : Nat)
  | send (a : Fin n) (e : Nat) (msg : ChannelMessage)
  | read (a : Fin n) (e : Nat) (maxBytes maxHandles : Nat)
  | drop (a : Fin n) (e : Nat)
  | wait (a : Fin n) (o : SignalObject) (bits : BitVec 64)
  | waitPort (a : Fin n) (o : SignalObject) (port : PortRef) (bits key : BitVec 64)
  | exit (a : Fin n) (p : Nat)
  | resume (a : Fin n)

/-- The thread has a handle to the object. -/
def HasHandle (k : Kernel n) : SignalObject → Prop
  | .channel e => 0 < k.held e
  | .process _ => True

instance (k : Kernel n) : (o : SignalObject) → Decidable (k.HasHandle o)
  | .channel e => inferInstanceAs (Decidable (0 < k.held e))
  | .process _ => inferInstanceAs (Decidable True)

def step (k : Kernel n) : Action n → Option (Kernel n)
  | .create => some k.channelCreate
  | .clone e =>
    if 0 < k.held e then some { k with held := update k.held e (k.held e + 1) } else none
  | .send a e msg =>
    if k.task a = .idle ∧ 0 < k.held e then some (k.setTask a (.sendUpgrade e msg)) else none
  | .read a e maxBytes maxHandles =>
    if k.task a = .idle ∧ 0 < k.held e then some (k.setTask a (.readLock e maxBytes maxHandles))
    else none
  | .drop a e =>
    if k.task a = .idle ∧ 0 < k.held e then
      some ({ k with held := update k.held e (k.held e - 1) }.setTask a (.release [e]))
    else none
  | .wait a o bits =>
    if k.task a = .idle ∧ k.HasHandle o then
      some (k.setTask a (.waitLock o (.fromBitsTruncate bits)))
    else none
  | .waitPort a o port bits key =>
    if k.task a = .idle ∧ k.HasHandle o then
      some (k.setTask a (.waitPortLock o port (.fromBitsTruncate bits) key))
    else none
  | .exit a p => if k.task a = .idle then some (k.setTask a (.exitStatus p)) else none
  | .resume a => k.resume a

end Kernel

end Fioxa
