import Fioxa.Init.Moves

/-! # Callers of the init service

`get_handle`, `publish_handle` and `clone_init_service` (`kernel_userspace/src/process.rs`): each
writes one request to the channel behind `REFERENCE_FIRST` and reads one reply from it. The channel
is shared by all threads of the process, and nothing ties a reply to a request.

The system is the init service with its surroundings, of which one client is now looked at from the
inside: a process with `n` threads, which call the three functions again and again. The process is
the `k`-th client, so its end of the channel is endpoint `2 k + 1` and the service's `2 k`. The
other processes have a handle to neither. A thread that finds its channel empty sleeps and reads
again; how it is woken is the subject of `User/ChannelRead.lean`.

Ghost state records where replies come from: requests are numbered by their position among the
messages accepted for the service's end, and `origins` has, for every message accepted for the
client's end, the number of the request it answers. -/

namespace Fioxa

open Function

/-! ## The three functions -/

inductive ClientCall (Name : Type) where
  | getHandle (name : Name)
  | publishHandle (name : Name) (handle : KernelValue)
  | cloneInitService
  deriving DecidableEq

inductive CallResult where
  | getHandle (handle : Option KernelValue)
  | publishHandle (replaced : Bool)
  | cloneInitService (handle : KernelValue)
  deriving DecidableEq

namespace ClientCall

variable {Name : Type}

def msg : ClientCall Name → InitHandleMessage Name
  | .getHandle name => .getHandle name
  | .publishHandle name _ => .publishHandle name
  | .cloneInitService => .clone

def handles : ClientCall Name → List KernelValue
  | .publishHandle _ handle => [handle]
  | _ => []

/-- The message the call writes. -/
def request (c : Codec Name) (call : ClientCall Name) : ChannelMessage :=
  InitWorld.message (c.serialize call.msg) call.handles

/-- What the call makes of the message it has read; `none` if an index is out of range, which
    panics. -/
def finish : ClientCall Name → ChannelMessage → Option CallResult
  | .getHandle _, reply =>
    match reply.data with
    | [] => none
    | found :: _ =>
      if found = 1 then (reply.handles.bind List.head?).map (.getHandle ∘ some)
      else some (.getHandle none)
  | .publishHandle _ _, reply =>
    reply.data.head?.map fun replaced => .publishHandle (replaced == 1)
  | .cloneInitService, reply => (reply.handles.bind List.head?).map .cloneInitService

end ClientCall

/-! ## The process -/

/-- A thread: outside the three functions, or between the write and the read of a call whose request
    has number `index`, with a read buffer of `cap` bytes. -/
inductive Caller (Name : Type) where
  | idle
  | waiting (call : ClientCall Name) (index cap : Nat)
  | panicked
  deriving DecidableEq

def Caller.index {Name : Type} : Caller Name → Option Nat
  | .waiting _ index _ => some index
  | _ => none

/-- A call that has read its reply: `origin` is the request which that reply answers. -/
structure Return (Name : Type) where
  call : ClientCall Name
  index : Nat
  origin : Option Nat
  result : Option CallResult
  deriving DecidableEq

structure Process (Name : Type) (n : Nat) where
  world : InitWorld Name
  thread : Fin n → Caller Name
  origins : List (Option Nat)
  returned : List (Return Name)

/-- The request the service is about to answer on endpoint `l`, the last one it has read there. -/
def InitWorld.replying {Name : Type} (s : InitWorld Name) (l : Nat) : Option Nat :=
  match s.pc with
  | .work _ w =>
    match w.phase with
    | .reply _ _ _ =>
      if s.refs.value w.chan = some (.channel l) then some ((s.net.received l).length - 1)
      else none
    | _ => none
  | _ => none

namespace Process

variable {Name : Type} [DecidableEq Name] {n : Nat}

def start (Name : Type) (n m : Nat) : Process Name n where
  world := .boot Name m
  thread := fun _ => .idle
  origins := []
  returned := []

inductive Action (Name : Type) (n : Nat) where
  /-- The service or another process. -/
  | world (a : InitWorld.Action)
  /-- A thread enters one of the functions, up to its write. -/
  | call (i : Fin n) (call : ClientCall Name)
  /-- A turn of the loop in `channel_read_rs`. -/
  | read (i : Fin n)

/-- The action of a process without handles to the `k`-th client's channel, or of the service. -/
def Foreign (k : Nat) : InitWorld.Action → Prop
  | .init | .create => True
  | .send e msg => e / 2 ≠ k ∧ ∀ v ∈ msg.handles.getD [], v ≠ .channel (2 * k)
  | .read e _ _ | .drop e => e / 2 ≠ k

instance (k : Nat) (a : InitWorld.Action) : Decidable (Foreign k a) :=
  match a with
  | .init | .create => isTrue trivial
  | .send e msg =>
    inferInstanceAs (Decidable (e / 2 ≠ k ∧ ∀ v ∈ msg.handles.getD [], v ≠ .channel (2 * k)))
  | .read e _ _ | .drop e => inferInstanceAs (Decidable (e / 2 ≠ k))

/-- After a step of the others, note what a new message on the client's end answers. -/
def observe (k : Nat) (s : Process Name n) (w : InitWorld Name) : Process Name n :=
  { s with
    world := w
    origins := s.origins ++
      if w.net.sent (2 * k + 1) = s.world.net.sent (2 * k + 1) then []
      else [s.world.replying (2 * k)] }

/-- Serialise the request and write it. -/
def write (c : Codec Name) (g : Growth) (k : Nat) (s : Process Name n) (i : Fin n)
    (call : ClientCall Name) : Process Name n :=
  let net := s.world.net
  { s with
    world := { s.world with net := net.send (2 * k + 1) (call.request c) }
    thread := update s.thread i <|
      if net.accepts (2 * k + 1) (call.request c) then
        .waiting call (net.sent (2 * k)).length (g.reserve 0 0 (c.serialize call.msg).length)
      -- `assert!(channel_write_rs(..))`
      else .panicked }

/-- What `channel_read_rs`, and then the functions, do with the outcome of a `Read` system call. -/
def afterRead (k : Nat) (s : Process Name n) (i : Fin n) (call : ClientCall Name) (index : Nat)
    (out : SysRead) : Process Name n :=
  let net := s.world.net
  match out.result, out.packet with
  | .ok, some reply =>
    { s with
      world := { s.world with net := net.finishRead (2 * k + 1) out }
      thread := update s.thread i (if (call.finish reply).isSome then .idle else .panicked)
      returned := s.returned ++
        [⟨call, index, (s.origins[(net.received (2 * k + 1)).length]?).join, call.finish reply⟩] }
  | .empty, _ => s
  | _, _ => { s with thread := update s.thread i .panicked }

def read (k : Nat) (s : Process Name n) (i : Fin n) (call : ClientCall Name) (index cap : Nat) :
    Process Name n :=
  s.afterRead k i call index ((s.world.net.channel (2 * k + 1)).sysRead ⟨cap, 1⟩)

def step (c : Codec Name) (g : Growth) (k : Nat) (s : Process Name n) :
    Action Name n → Option (Process Name n)
  | .world a => if Foreign k a then (s.world.step c g a).map (s.observe k) else none
  | .call i call =>
    match s.thread i with
    | .idle =>
      -- the process has no handle to the service's end
      if .channel (2 * k) ∈ call.handles then none else some (s.write c g k i call)
    | _ => none
  | .read i =>
    match s.thread i with
    | .waiting call index cap => some (s.read k i call index cap)
    | _ => none

end Process

end Fioxa
