import Fioxa.Init.Moves

/-! # Services

`Service::new` and `Service::run` (`kernel_userspace/src/service.rs`), the loop most services are
written with: one thread accepts clients on a channel, keeps the handle each of them sends in a map
under a key of its own, and waits on a port for any of them to become readable. What is done for a
client is up to a handler, which decides whether the client stays.

The steps of the service are its system calls. Around it, and in the middle of a handler call, any
process (the service's own included) may create channels, send, read, drop handles, register waiters
with other ports and exit. The channels and the service's port are those of the init service's
model; an endpoint is only dropped when neither the service nor a message on its accepting channel
refers to it. -/

namespace Fioxa

open Function

/-- What `WaitPort` accepts: objects with signals. -/
def SignalObject.ofValue : KernelValue → Option SignalObject
  | .channel e => some (.channel e)
  | .process p => some (.process p)
  | _ => none

def SignalObject.value : SignalObject → KernelValue
  | .channel e => .channel e
  | .process p => .process p

inductive ControlFlow where
  | continues
  | breaks
  deriving DecidableEq

/-- Why the service is gone. -/
inductive ServiceExit where
  /-- `todo!()`: a message on the accepting channel does not fit. -/
  | todo
  /-- `assert!(handles_buf.len() == 1)` -/
  | assertion
  /-- `*e.0 + 1` -/
  | overflow
  /-- `kpanic!("object not signalable")` in the system call. -/
  | notSignalable
  /-- `self.customers.get_mut(&ev.key).unwrap()` -/
  | noCustomer
  /-- The handler has read from something that is no channel. -/
  | notChannel
  deriving DecidableEq

/-- Where the service stands. -/
inductive ServicePc where
  /-- In `Service::new`, before `object_wait_port_rs`. -/
  | starting
  /-- At the top of the loop. -/
  | portWait
  /-- `channel_read_rs` on the accepting channel. -/
  | accept
  /-- The accepting channel is to be armed again; a client has sent `v`. -/
  | rearm (v : KernelValue)
  /-- The client's handle is to be armed and entered. -/
  | enroll (v : KernelValue)
  /-- In the handler; has a read of the client's channel returned `Closed`? -/
  | handling (key : Key) (closed : Bool)
  | dead (why : ServiceExit)
  deriving DecidableEq

/-- The handles in local variables. -/
def ServicePc.values : ServicePc → List KernelValue
  | .rearm v | .enroll v => [v]
  | _ => []

def ServicePc.isDead : ServicePc → Bool
  | .dead _ => true
  | _ => false

structure ServiceWorld where
  net : Endpoints
  process : Nat → KObjectSignal
  accepting : Nat
  /-- `customers`, in the order of the keys. -/
  customers : List (Key × SignalObject)
  pc : ServicePc

namespace ServiceWorld

/-- After `channel_create_rs` in `Service::new`. All other channels are created later. -/
def boot : ServiceWorld where
  net :=
    { handle := fun e => ⟨.new, if e % 2 = 0 then e + 1 else e - 1⟩
      next := 2
      alive := fun e => decide (e < 2)
      port := []
      registrations := 0
      sent := fun _ => []
      received := fun _ => [] }
  process := fun _ => .new
  accepting := 0
  customers := []
  pc := .starting

variable (s : ServiceWorld)

/-- What the service, and the messages queued for it, hold references to. -/
def held : List KernelValue :=
  .channel s.accepting :: s.customers.map (fun kc => kc.2.value) ++ s.pc.values
    ++ (s.net.channel s.accepting).queue.flatMap ChannelMessage.values

/-- `customers.get_mut(&key)` -/
def lookup (key : Key) : Option SignalObject :=
  (s.customers.find? (fun kc => kc.1 == key)).map Prod.snd

/-- `self.customers.last_key_value().map(|e| *e.0 + 1).unwrap_or(1)` -/
def nextKey : Option Key :=
  match s.customers.getLast? with
  | none => some 1
  | some (key, _) => if key = BitVec.allOnes 64 then none else some (key + 1)

/-! ## Waiting on an object -/

/-- The signals of an object. -/
def signal : SignalObject → KObjectSignal
  | .channel e => (s.net.channel e).signal
  | .process p => s.process p

/-- Store a waiter at `o`. -/
def wait (o : SignalObject) (ty : SignalWaiterType) (mask : ObjectSignal) :
    ServiceWorld :=
  let w : SignalWaiter := ⟨ty, mask, s.net.registrations⟩
  match o with
  | .channel e =>
    { s with net := { s.net with
        handle := update s.net.handle e
          ⟨{ s.net.channel e with signal := (s.net.channel e).signal.wait w }, s.net.peer e⟩
        registrations := s.net.registrations + 1 } }
  | .process p =>
    { s with
      process := update s.process p ((s.process p).wait w)
      net := { s.net with registrations := s.net.registrations + 1 } }

/-- `object_wait_port_rs(o, port, READABLE, key)` -/
def arm (o : SignalObject) (key : Key) : ServiceWorld :=
  if (s.signal o).signalStatus.intersects .readable then
    { s with net := { s.net with
        port := s.net.port ++ [⟨key, .signalOne .readable (s.signal o).signalStatus⟩] } }
  else s.wait o (.port initPort key) .readable

/-! ## The service -/

/-- The next system call of the loop; `none` when it is blocked in `port_wait` or not running. -/
def serviceStep : Option ServiceWorld :=
  match s.pc with
  | .starting => some { s.arm (.channel s.accepting) 0 with pc := .portWait }
  | .portWait =>
    match s.net.port with
    | [] => none
    | ev :: rest =>
      let s := { s with net := { s.net with port := rest } }
      if ev.key = 0 then some { s with pc := .accept }
      else
        match s.lookup ev.key with
        | none => some { s with pc := .dead .noCustomer }
        | some _ => some { s with pc := .handling ev.key false }
  | .accept =>
    let out := (s.net.channel s.accepting).sysRead ⟨100, 1⟩
    let t := { s with net := s.net.finishRead s.accepting out }
    match out.result, out.packet with
    | .ok, some packet =>
      match packet.values with
      | [v] => some { t with pc := .rearm v }
      | _ => some { t with pc := .dead .assertion }
    -- `object_wait` and another turn of the loop in `channel_read_rs`
    | .empty, _ => some s
    | _, _ => some { t with pc := .dead .todo }
  | .rearm v => some { s.arm (.channel s.accepting) 0 with pc := .enroll v }
  | .enroll v =>
    match s.nextKey, SignalObject.ofValue v with
    | none, _ => some { s with pc := .dead .overflow }
    | some _, none => some { s with pc := .dead .notSignalable }
    | some id, some o =>
      some { s.arm o id with customers := s.customers ++ [(id, o)], pc := .portWait }
  | .handling _ _ | .dead _ => none

/-- The handler reads from the channel it has been called for. -/
def handlerRead (maxBytes maxHandles : Nat) : Option ServiceWorld :=
  match s.pc with
  | .handling key closed =>
    match s.lookup key with
    | some (.channel e) =>
      let out := (s.net.channel e).sysRead ⟨maxBytes, maxHandles⟩
      some { s with
        net := s.net.finishRead e out
        pc := .handling key (closed || out.result == .closed) }
    | _ => some { s with pc := .dead .notChannel }
  | _ => none

/-- The handler returns. -/
def handlerReturn (flow : ControlFlow) : Option ServiceWorld :=
  match s.pc with
  | .handling key _ =>
    match flow, s.lookup key with
    | .continues, some o => some { s.arm o key with pc := .portWait }
    | .continues, none => none
    | .breaks, _ =>
      some { s with customers := s.customers.filter (fun kc => kc.1 != key), pc := .portWait }
  | _ => none

/-! ## The system -/

/-- A waiter that does not notify the service's port. -/
def foreign : SignalWaiterType → Bool
  | .one _ => true
  | .port p _ => p != initPort

/-- `Wait` or `WaitPort` elsewhere. If the object is signalled already, nothing happens here. -/
def watch (s : ServiceWorld) (o : SignalObject) (ty : SignalWaiterType) (mask : ObjectSignal) :
    ServiceWorld :=
  if (s.signal o).signalStatus.intersects mask then s else s.wait o ty mask

/-- Process `p` exits. -/
def exit (s : ServiceWorld) (p : Nat) : ServiceWorld :=
  let call := (s.process p).setSignal .processExited true
  { s with
    process := update s.process p call.signal
    net := { s.net with
      port := s.net.port ++ call.fired.filterMap (Listeners.notification call.new initPort) } }

inductive Action where
  | service
  | handlerRead (maxBytes maxHandles : Nat)
  | handlerReturn (flow : ControlFlow)
  /-- Some process sends on an endpoint it has a handle to. -/
  | send (e : Nat) (msg : ChannelMessage)
  | read (e : Nat) (maxBytes maxHandles : Nat)
  /-- The last handle to an endpoint goes away. -/
  | drop (e : Nat)
  | create
  | watch (o : SignalObject) (ty : SignalWaiterType) (mask : ObjectSignal)
  | exit (p : Nat)
  deriving DecidableEq

/-- The objects a process refers to exist. -/
def Exist (n : Endpoints) (values : List KernelValue) : Prop :=
  ∀ v ∈ values, ∀ e, v = .channel e → n.alive e = true

instance (n : Endpoints) (values : List KernelValue) : Decidable (Exist n values) :=
  decidable_of_iff (∀ v ∈ values, (match v with | .channel e => n.alive e | _ => true) = true) <| by
    refine forall_congr' fun v => forall_congr' fun _ => ?_
    cases v <;> simp

def step (s : ServiceWorld) (a : Action) : Option ServiceWorld :=
  if s.pc.isDead then none
  else
    match a with
    | .service => s.serviceStep
    | .handlerRead maxBytes maxHandles => s.handlerRead maxBytes maxHandles
    | .handlerReturn flow => s.handlerReturn flow
    | .send e msg =>
      if s.net.alive e = true ∧ Exist s.net msg.values then
        some { s with net := s.net.send e msg }
      else none
    | .read e maxBytes maxHandles =>
      if s.net.alive e = true then
        some { s with
          net := s.net.finishRead e ((s.net.channel e).sysRead ⟨maxBytes, maxHandles⟩) }
      else none
    | .drop e =>
      if s.net.alive e = true ∧ .channel e ∉ s.held then some { s with net := s.net.close e }
      else none
    | .create => some { s with net := s.net.create }
    | .watch o ty mask =>
      if Exist s.net [o.value] ∧ foreign ty = true then some (s.watch o ty mask) else none
    | .exit p => some (s.exit p)

end ServiceWorld

end Fioxa
