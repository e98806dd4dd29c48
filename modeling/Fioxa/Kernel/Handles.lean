import Mathlib.Algebra.GroupWithZero.Nat
import Fioxa.Init.Moves

/-! # Handle tables and the objects they keep alive

Every process has a table of handles (`ProcessReferences`, `kernel/src/scheduling/process.rs`). The
system calls that create objects, clone and delete handles, and send and receive them in messages
(`kernel/src/syscall/mod.rs`) are cut at their lock sections, and any number of calls of any
processes may be in progress at the same time. A new process starts with handles its loader has
given it.

Channel endpoints are reference counted. Handles in tables, in queued messages and on the stacks of
calls in progress are strong references; when the last one goes away the endpoint is dropped, which
closes it (`Drop for KChannelHandle`). Closing clears the queue, and thereby drops the handles in
it. Processes do not exit here, so that no table goes away as a whole. -/

namespace Fioxa

open Function

/-! ## Tables -/

inductive HandlePanic where
  /-- `NonZeroUsize::new(self.next_id).unwrap()` -/
  | zero
  /-- `self.next_id += 1` -/
  | overflow
  /-- `assert!(self.references.insert(id, value).is_none())` -/
  | occupied
  /-- `expect("loader proc should have ref in its map")` -/
  | missing
  deriving DecidableEq

namespace ProcessReferences

/-- The table of a new process. -/
def new : ProcessReferences := ⟨fun _ => none, 1⟩

/-- `add_value`, with its panics. -/
def tryAddValue (refs : ProcessReferences) (v : KernelValue) :
    Except HandlePanic (ProcessReferences × Nat) :=
  if refs.nextId = 0 then .error .zero
  else if refs.nextId + 1 = 0x10000000000000000 then .error .overflow
  else if (refs.value refs.nextId).isSome then .error .occupied
  else .ok (refs.addValue v)

def values (refs : ProcessReferences) : List KernelValue :=
  (List.range refs.nextId).filterMap refs.value

end ProcessReferences

/-! ## Dropping references -/

/-- What is left to do when references go away: drop one, or (at the end of `close`) tell the peer
    of an endpoint. -/
inductive DropWork where
  | value (v : KernelValue)
  | peer (e : Nat)
  deriving DecidableEq

namespace Endpoints

/-- The handles in the queues. -/
def queued (n : Endpoints) : List KernelValue :=
  (List.range n.next).flatMap fun e => (n.channel e).queue.flatMap ChannelMessage.values

/-- The number of steps dropping takes at most. -/
def dropFuel (n : Endpoints) (work : List DropWork) : Nat :=
  work.length + ((List.range n.next).map fun e =>
    if n.alive e then ((n.channel e).queue.flatMap ChannelMessage.values).length + 1 else 0).sum

/-- Drop references, one after the other; `roots` are the references outside of queues that stay.
    An endpoint whose last reference goes is closed: its queue is cleared, with the handles in it,
    before its peer is told. -/
def releaseWith : Nat → List KernelValue → Endpoints → List DropWork → Endpoints
  | 0, _, n, _ => n
  | _ + 1, _, n, [] => n
  | fuel + 1, roots, n, .peer e :: work => releaseWith fuel roots (n.closePeerOf e) work
  | fuel + 1, roots, n, .value v :: work =>
    match v with
    | .channel e =>
      if n.alive e = true ∧ v ∉ roots ++ n.queued ∧ .value v ∉ work then
        releaseWith fuel roots (n.closeSelf e)
          (((n.channel e).queue.flatMap ChannelMessage.values).map .value ++ .peer e :: work)
      else releaseWith fuel roots n work
    | _ => releaseWith fuel roots n work

def release (n : Endpoints) (roots values : List KernelValue) : Endpoints :=
  releaseWith (n.dropFuel (values.map .value)) roots n (values.map .value)

end Endpoints

/-! ## The state -/

/-- A `Write` that has collected its handles: the identifiers it was given, and what they denoted
    for the writer. -/
structure WriteRecord where
  process : Nat
  ids : List (Option Nat)
  denoted : List (Option KernelValue)
  deriving DecidableEq

/-- A `Read` that has returned the message number `index` of an endpoint: the identifiers it has
    added, each with what it denoted then. -/
structure ReadRecord where
  process : Nat
  endpoint : Nat
  index : Nat
  got : List (Nat × Option KernelValue)
  deriving DecidableEq

/-- A system call in progress. -/
inductive Call where
  /-- `Create`: these endpoints are still to be added. -/
  | creating (p : Nat) (ends : List Nat)
  /-- `Write`, before the handles are collected; a null handle is `none`. -/
  | writing (p e : Nat) (data : List UInt8) (ids : List (Option Nat))
  | sending (p e : Nat) (msg : ChannelMessage) (record : WriteRecord)
  | reading (p e : Nat) (maxBytes maxHandles : Nat)
  /-- `Read`: the message is out of the queue, the handles in `rest` are still to be added. -/
  | receiving (p e index : Nat) (rest : List KernelValue) (got : List (Nat × Option KernelValue))
  deriving DecidableEq

/-- The references on the stack of a call. -/
def Call.values : Call → List KernelValue
  | .creating _ ends => ends.map .channel
  | .writing _ e _ _ => [.channel e]
  | .sending _ e msg _ => .channel e :: msg.values
  | .reading _ e _ _ => [.channel e]
  | .receiving _ e _ rest _ => .channel e :: rest

/-- The process a call is made by. -/
def Call.process : Call → Nat
  | .creating p _ | .writing p _ _ _ | .sending p _ _ _ | .reading p _ _ _
  | .receiving p _ _ _ _ => p

/-- The last three fields are ghost: the identifiers each process has been given, the writes that an
    endpoint has accepted, and the reads. -/
structure HandleWorld where
  refs : Nat → ProcessReferences
  processes : Nat
  /-- The next name for an object that is no channel. -/
  objects : Nat
  net : Endpoints
  calls : List Call
  panicked : Option HandlePanic
  given : Nat → List Nat
  writes : Nat → List WriteRecord
  reads : List ReadRecord

namespace HandleWorld

/-- One process without handles. -/
def boot : HandleWorld where
  refs := fun _ => .new
  processes := 1
  objects := 0
  net :=
    { handle := fun _ => ⟨.new, 0⟩
      next := 0
      alive := fun _ => false
      port := []
      registrations := 0
      sent := fun _ => []
      received := fun _ => [] }
  calls := []
  panicked := none
  given := fun _ => []
  writes := fun _ => []
  reads := []

/-- The references in tables. -/
def tableValues (s : HandleWorld) : List KernelValue :=
  (List.range s.processes).flatMap fun p => (s.refs p).values

/-- The references outside of queues. -/
def roots (s : HandleWorld) : List KernelValue := s.tableValues ++ s.calls.flatMap Call.values

/-- Drop references that are in no table and on no stack any more. -/
def release (s : HandleWorld) (values : List KernelValue) : HandleWorld :=
  { s with net := s.net.release s.roots values }

/-! ## Adding handles -/

/-- `add_value` on the table of process `p`. -/
def addValue (s : HandleWorld) (p : Nat) (v : KernelValue) :
    Except HandlePanic (HandleWorld × Nat) :=
  match (s.refs p).tryAddValue v with
  | .error why => .error why
  | .ok (refs, id) =>
    .ok ({ s with
      refs := update s.refs p refs
      given := update s.given p (s.given p ++ [id]) }, id)

/-- Go on with the new identifier, unless `add_value` has panicked. -/
def withValue (s : HandleWorld) (p : Nat) (v : KernelValue)
    (next : HandleWorld → Nat → HandleWorld) : HandleWorld :=
  match s.addValue p v with
  | .error why => { s with panicked := some why }
  | .ok (t, id) => next t id

/-- The loop over the initial references of a new process. -/
def addAll (s : HandleWorld) (p : Nat) : List KernelValue → HandleWorld
  | [] => s
  | v :: values => s.withValue p v fun t _ => t.addAll p values

/-! ## System calls -/

/-- The call is over; it drops what it holds. -/
def endCall (s : HandleWorld) (i : Nat) (values : List KernelValue) : HandleWorld :=
  { s with calls := s.calls.eraseIdx i }.release values

def setCall (s : HandleWorld) (i : Nat) (c : Call) : HandleWorld :=
  { s with calls := s.calls.set i c }

/-- The next lock section of the `i`-th call in progress. -/
def advance (s : HandleWorld) (i : Nat) : Call → HandleWorld
  | .creating _ [] => s.endCall i []
  | .creating p (e :: ends) =>
    s.withValue p (.channel e) fun t _ => t.setCall i (.creating p ends)
  | .writing p e data ids =>
    let denoted := ids.map fun id => id.bind (s.refs p).value
    let record : WriteRecord := ⟨p, ids, denoted⟩
    if ids.isEmpty then s.setCall i (.sending p e ⟨data, none⟩ record)
    else
      match ids.mapM fun id => id.bind (s.refs p).value with
      -- an unknown or a null handle: the call fails
      | none => s.endCall i [.channel e]
      | some values => s.setCall i (.sending p e ⟨data, some values⟩ record)
  | .sending _ e msg record =>
    if s.net.accepts e msg then
      { s with
        net := s.net.send e msg
        writes := update s.writes (s.net.peer e)
          (s.writes (s.net.peer e) ++ [record]) }.endCall i [.channel e]
    else s.endCall i (msg.values ++ [.channel e])
  | .reading p e maxBytes maxHandles =>
    let out := (s.net.channel e).sysRead ⟨maxBytes, maxHandles⟩
    match out.packet with
    | none => s.endCall i [.channel e]
    | some packet =>
      { s with net := s.net.finishRead e out }.setCall i
        (.receiving p e (s.net.received e).length packet.values [])
  | .receiving p e index [] got =>
    { s with reads := s.reads ++ [ReadRecord.mk p e index got] }.endCall i [.channel e]
  | .receiving p e index (v :: rest) got =>
    s.withValue p v fun t id =>
      t.setCall i (.receiving p e index rest (got ++ [(id, (t.refs p).value id)]))

/-- The objects without references of their own. -/
inductive PlainObject where
  | message
  | port
  | interrupt
  deriving DecidableEq

def PlainObject.value (o : PlainObject) (name : Nat) : KernelValue :=
  match o with
  | .message => .message name
  | .port => .port name
  | .interrupt => .interrupt name

inductive Action where
  | create (p : Nat) (o : PlainObject)
  /-- The loader gets a handle to a process. -/
  | processHandle (p q : Nat)
  | clone (p id : Nat)
  | delete (p id : Nat)
  | channelCreate (p : Nat)
  | write (p id : Nat) (data : List UInt8) (ids : List (Option Nat))
  | read (p id maxBytes maxHandles : Nat)
  | advance (i : Nat)
  /-- `load_elf` or `spawn_process`, called by process `p`. -/
  | load (p : Nat) (ids : List Nat)
  deriving DecidableEq

/-- The process that acts. -/
def Action.process : Action → Nat
  | .create p _ | .processHandle p _ | .clone p _ | .delete p _ | .channelCreate p
  | .write p _ _ _ | .read p _ _ _ | .load p _ => p
  | .advance _ => 0

/-- What an action does. A call that fails kills its thread and changes nothing here. -/
def act (s : HandleWorld) : Action → HandleWorld
  | .create p o =>
    { s with objects := s.objects + 1 }.withValue p (o.value s.objects) fun t _ => t
  | .processHandle p q => s.withValue p (.process q) fun t _ => t
  | .clone p id =>
    match (s.refs p).value id with
    | none => s
    | some v => s.withValue p v fun t _ => t
  | .delete p id =>
    match (s.refs p).value id with
    | none => s
    | some v =>
      { s with refs := update s.refs p ((s.refs p).remove id) }.release [v]
  | .channelCreate p =>
    { s with
      net := s.net.create
      calls := s.calls ++ [.creating p [s.net.next, s.net.next + 1]] }
  | .write p id data ids =>
    match (s.refs p).value id with
    | some (.channel e) => { s with calls := s.calls ++ [.writing p e data ids] }
    | _ => s
  | .read p id maxBytes maxHandles =>
    match (s.refs p).value id with
    | some (.channel e) => { s with calls := s.calls ++ [.reading p e maxBytes maxHandles] }
    | _ => s
  | .advance i =>
    match s.calls[i]? with
    | none => s
    | some c => s.advance i c
  | .load p ids =>
    match ids.mapM (s.refs p).value with
    | none => { s with panicked := some .missing }
    | some values => { s with processes := s.processes + 1 }.addAll s.processes values

def step (s : HandleWorld) (a : Action) : Option HandleWorld :=
  if s.panicked.isNone ∧ a.process < s.processes then some (s.act a) else none

end HandleWorld

end Fioxa
