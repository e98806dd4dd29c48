import Mathlib.Logic.Function.Basic
import Fioxa.Lib.Growth
import Fioxa.Kernel.Wakeups

/-! # The init service

`init_handle_new_proc` and `work_on_chan` (`kernel/src/object.rs`): a single thread that owns one
end of a channel for every client, waits on a port for any of them to become readable, and answers
the requests it finds (`GetHandle`, `PublishHandle`, `Clone`).

The service is a state machine whose steps are its system calls; everything between two calls is
local to the thread. Around it any number of other processes create channels and send on, read from
and drop the endpoints that are not the service's own. A process needs a handle for that, so the
service's ends of its client channels are out of their reach; which process holds which of the other
endpoints, and when the last handle to one goes away, is left open.

The service's port receives one notification for each of its waiters that fires (see
`Listeners.fire_queue`); it is the only port here. -/

namespace Fioxa

open List Prod
open Function (update)

/-! ## Requests -/

inductive InitHandleMessage (Name : Type) where
  | getHandle (name : Name)
  | publishHandle (name : Name)
  | clone
  deriving DecidableEq

/-- The serialisation library, for the messages of this protocol. `Name` is the type of names, in
    the source `&str`. -/
structure Codec (Name : Type) where
  serialize : InitHandleMessage Name → List UInt8
  deserialize : List UInt8 → Option (InitHandleMessage Name)
  deserialize_serialize : ∀ msg, deserialize (serialize msg) = some msg
  /-- Too short: no variant tag. -/
  deserialize_nil : deserialize [] = none
  /-- Too short: the tag of `PublishHandle` without a name. -/
  deserialize_publish : deserialize [1] = none

/-- The message of a request that carries no handle. -/
def Codec.request {Name : Type} (c : Codec Name) (msg : InitHandleMessage Name) : ChannelMessage :=
  ⟨c.serialize msg, none⟩

/-- ASCII names short enough for a one-byte length. -/
def ShortName := { chars : List (Fin 128) // chars.length < 128 }
  deriving DecidableEq

namespace ShortName

/-- A name on the wire: its length and its bytes. -/
def toBytes (name : ShortName) : List UInt8 :=
  UInt8.ofNat name.val.length :: name.val.map (fun ch => UInt8.ofNat ch.val)

def charOfByte (b : UInt8) : Option (Fin 128) :=
  if h : b.toNat < 128 then some ⟨b.toNat, h⟩ else none

/-- The name at the start of a byte string; what follows it is ignored. -/
def ofBytes : List UInt8 → Option ShortName
  | [] => none
  | len :: bytes =>
    if bytes.length < len.toNat then none
    else
      match (bytes.take len.toNat).mapM charOfByte with
      | none => none
      | some chars => if h : chars.length < 128 then some ⟨chars, h⟩ else none

theorem charOfByte_ofNat (ch : Fin 128) : charOfByte (UInt8.ofNat ch.val) = some ch := by
  have hval : (UInt8.ofNat ch.val).toNat = ch.val := by
    rw [UInt8.toNat_ofNat']
    exact Nat.mod_eq_of_lt (by have := ch.isLt; omega)
  simp [charOfByte, hval]

theorem mapM_charOfByte (chars : List (Fin 128)) :
    (chars.map (fun ch => UInt8.ofNat ch.val)).mapM charOfByte = some chars := by
  induction chars with
  | nil => rfl
  | cons ch chars ih => simp [mapM_cons, charOfByte_ofNat, ih]

theorem ofBytes_toBytes (name : ShortName) : ofBytes name.toBytes = some name := by
  obtain ⟨chars, hlen⟩ := name
  have hbyte : (UInt8.ofNat chars.length).toNat = chars.length := by
    rw [UInt8.toNat_ofNat']
    exact Nat.mod_eq_of_lt (by omega)
  have htake : (chars.map (fun ch => UInt8.ofNat ch.val)).take chars.length
      = chars.map (fun ch => UInt8.ofNat ch.val) := take_of_length_le (by simp)
  simp only [toBytes, ofBytes, hbyte, length_map, Nat.lt_irrefl, if_false, htake,
    mapM_charOfByte, dif_pos hlen]

/-- The name `aa…a` with the given number of letters. -/
def ofLetters (len : Nat) : ShortName := ⟨replicate (min len 127) 97, by simp⟩

end ShortName

/-- The wire format of the serialisation library for short ASCII names: the variant index, and for
    the first two variants the name. -/
def Codec.ascii : Codec ShortName where
  serialize
    | .getHandle name => 0 :: name.toBytes
    | .publishHandle name => 1 :: name.toBytes
    | .clone => [2]
  deserialize
    | [] => none
    | tag :: rest =>
      if tag = 0 then (ShortName.ofBytes rest).map .getHandle
      else if tag = 1 then (ShortName.ofBytes rest).map .publishHandle
      else if tag = 2 then some .clone
      else none
  deserialize_serialize := by
    intro msg
    cases msg with
    | getHandle | publishHandle => simp [ShortName.ofBytes_toBytes]
    | clone => rfl
  deserialize_nil := rfl
  deserialize_publish := rfl

/-! ## Local state -/

/-- `ProcessReferences`: the handle table of a process. -/
structure ProcessReferences where
  value : Nat → Option KernelValue
  nextId : Nat

namespace ProcessReferences

/-- `add_value`, with the identifier it returns. Identifiers are never reused, so the entry is
    always free. -/
def addValue (refs : ProcessReferences) (v : KernelValue) : ProcessReferences × Nat :=
  (⟨update refs.value refs.nextId (some v), refs.nextId + 1⟩, refs.nextId)

def remove (refs : ProcessReferences) (id : Nat) : ProcessReferences :=
  { refs with value := update refs.value id none }

end ProcessReferences

/-- Keys of the service's port. -/
abbrev Key := BitVec 64

/-- The service's port. -/
def initPort : PortRef := 0

/-- A request the service has acted on, with the object a `PublishHandle` published. -/
structure Executed (Name : Type) where
  msg : InitHandleMessage Name
  handle : Option KernelValue
  deriving DecidableEq

/-- The next system call of `work_on_chan`. References that go out of scope are deleted by the calls
    that follow. -/
inductive Phase where
  | read
  /-- `GetHandle`: `channel_create_rs`. -/
  | createPair (handle : Nat)
  /-- `GetHandle`: `channel_write_rs(handle.id(), &[true], &[left.id()])`. -/
  | notify (handle left right : Nat)
  /-- `Clone`: `channel_create_rs`. -/
  | createClone
  /-- `Clone`: `object_wait_port_rs(chan, port, READABLE, key)`. -/
  | armClone (key : Key) (right : Nat)
  /-- `channel_write_rs(chan, &[byte], handles)`, then delete `drops`. -/
  | reply (byte : UInt8) (handles drops : List Nat)
  | drop (refs : List Nat)
  deriving DecidableEq

/-- The local variables of `work_on_chan`. The last three fields are ghost: what had been read from
    the channel before the call, the messages this call has read, and the requests it has acted
    on. -/
structure Work (Name : Type) where
  chan : Nat
  data : List UInt8
  cap : Nat
  /-- The uninitialised handle slot, once something has been written to it. -/
  slot : Option Nat
  phase : Phase
  before : List ChannelMessage
  consumed : List ChannelMessage
  executed : List (Executed Name)
  deriving DecidableEq

/-- Where the service stands. -/
inductive Pc (Name : Type) where
  /-- The loop over `channels`: those not yet armed, and the index of the next one. -/
  | starting (todo : List Nat) (i : Nat)
  | portWait
  | work (key : Key) (w : Work Name)
  /-- `work_on_chan` has returned `true`; about to arm the channel again. -/
  | rearm (key : Key) (w : Work Name)
  /-- `work_on_chan` has returned `false`; about to remove the channel. -/
  | remove (key : Key)
  /-- Panicked, or killed by a system call that failed. -/
  | dead
  deriving DecidableEq

/-! ## Channels and the port -/

/-- The channel endpoints and the service's port. `sent` and `received` are ghost: the messages
    accepted for an endpoint and those read from it. -/
structure Endpoints where
  handle : Nat → KChannelHandle
  next : Nat
  /-- The endpoint has a strong reference. -/
  alive : Nat → Bool
  port : List PortNotification
  registrations : Nat
  sent : Nat → List ChannelMessage
  received : Nat → List ChannelMessage

namespace Endpoints

variable (n : Endpoints)

def channel (e : Nat) : KChannelInner := (n.handle e).channel

def peer (e : Nat) : Nat := (n.handle e).peer

/-- Store what a lock section left endpoint `e` in, and notify the waiters its `set_signal` call
    fires. -/
def put (e : Nat) (chan : KChannelInner) (call : SetSignal) : Endpoints :=
  { n with
    handle := update n.handle e ⟨chan, n.peer e⟩
    port := n.port ++ call.fired.filterMap (Listeners.notification call.new initPort) }

/-- `send` on endpoint `e`. -/
def send (e : Nat) (msg : ChannelMessage) : Endpoints :=
  if n.alive (n.peer e) then
    match (n.channel (n.peer e)).send msg with
    | none => n
    | some (chan, call) =>
      { n.put (n.peer e) chan call with
        sent := update n.sent (n.peer e) (n.sent (n.peer e) ++ [msg]) }
  else n

/-- What `channel_write` on `e` returns: `send` gives `Some(())`. -/
def accepts (net : Endpoints) (e : Nat) (msg : ChannelMessage) : Bool :=
  net.alive (net.peer e) && ((net.channel (net.peer e)).send msg).isSome

variable (n : Endpoints)

/-- What a `Read` system call on `e` with the outcome `out` leaves behind. -/
def finishRead (e : Nat) (out : SysRead) : Endpoints :=
  match out.packet, out.call with
  | some packet, some call =>
    { n.put e out.chan call with
      received := update n.received e (n.received e ++ [packet]) }
  | _, _ => n

/-- The last reference to `e` goes away: the section of `close` on `e` itself. -/
def closeSelf (e : Nat) : Endpoints :=
  { n.put e (n.channel e).closeSelf.1 (n.channel e).closeSelf.2 with
    alive := update n.alive e false }

/-- The whole of `close`; its second section only runs if the peer still exists. -/
def close (e : Nat) : Endpoints :=
  let n := n.closeSelf e
  let p := n.peer e
  if n.alive p then n.put p (n.channel p).closePeer.1 (n.channel p).closePeer.2 else n

/-- `channel_create`: the endpoints `next` and `next + 1`. -/
def create : Endpoints :=
  { n with
    handle := update (update n.handle n.next ⟨.new, n.next + 1⟩) (n.next + 1) ⟨.new, n.next⟩
    next := n.next + 2
    alive := update (update n.alive n.next true) (n.next + 1) true }

/-- The `WaitPort` system call on `e` for `READABLE`. -/
def arm (e : Nat) (p : PortRef) (key : Key) : Endpoints :=
  let chan := n.channel e
  if chan.signal.signalStatus.intersects .readable then
    { n with port := n.port ++ [⟨key, .signalOne .readable chan.signal.signalStatus⟩] }
  else
    { n with
      handle := update n.handle e ⟨{ chan with
            signal := chan.signal.wait ⟨.port p key, .readable, n.registrations⟩ }, n.peer e⟩
      registrations := n.registrations + 1 }

end Endpoints

/-! ## The state -/

/-- The service together with the channels. -/
structure InitWorld (Name : Type) where
  net : Endpoints
  refs : ProcessReferences
  portHandle : Nat
  /-- `chans`, the key of each client channel with its reference. -/
  chans : List (Key × Nat)
  /-- `handles`, the published names with their references. -/
  names : Name → Option Nat
  pc : Pc Name

namespace InitWorld

variable {Name : Type} [DecidableEq Name]

/-- The references still to be armed at start-up. -/
def todo (s : InitWorld Name) : List Nat :=
  match s.pc with
  | .starting todo _ => todo
  | _ => []

/-- The references the service keeps for its clients. -/
def clientRefs (s : InitWorld Name) : List Nat := s.chans.map snd ++ s.todo

/-- The endpoint is the service's end of a client channel. -/
def Owned (s : InitWorld Name) (e : Nat) : Prop :=
  ∃ id ∈ s.clientRefs, s.refs.value id = some (.channel e)

instance (s : InitWorld Name) (e : Nat) : Decidable (s.Owned e) :=
  inferInstanceAs (Decidable (∃ id ∈ s.clientRefs, s.refs.value id = some (.channel e)))

/-- `m` clients: endpoint `2 i` is the service's end of the `i`-th channel and `2 i + 1` the
    client's. Creating them has given out the references `2 i + 1` and `2 i + 2`, of which the
    service has kept the first; its port comes next. -/
def boot (Name : Type) (m : Nat) : InitWorld Name where
  net :=
    { handle := fun e => ⟨.new, if e % 2 = 0 then e + 1 else e - 1⟩
      next := 2 * m
      alive := fun e => decide (e < 2 * m)
      port := []
      registrations := 0
      sent := fun _ => []
      received := fun _ => [] }
  refs := ⟨fun id => if id = 2 * m + 1 then some (.port initPort)
    else if id % 2 = 1 ∧ id < 2 * m then some (.channel (id - 1)) else none, 2 * m + 2⟩
  portHandle := 2 * m + 1
  chans := []
  names := fun _ => none
  pc := .starting ((List.range m).map (2 * · + 1)) 0

/-! ## System calls of the service -/

variable (s : InitWorld Name)

/-- `channel_create_rs`: the references to the two new endpoints. -/
def channelCreate : InitWorld Name × Nat × Nat :=
  let (refs, left) := s.refs.addValue (.channel s.net.next)
  let (refs, right) := refs.addValue (.channel (s.net.next + 1))
  ({ s with net := s.net.create, refs := refs }, left, right)

/-- `channel_write_rs` on the reference `id`; `none` if a reference is bad, which kills the
    service. -/
def write (id : Nat) (data : List UInt8) (handles : List Nat) : Option (InitWorld Name) :=
  match s.refs.value id, handles.mapM s.refs.value with
  | some (.channel e), some values =>
    some { s with net := s.net.send e ⟨data, if values.isEmpty then none else some values⟩ }
  | _, _ => none

/-- `object_wait_port_rs(id, port, READABLE, key)`. The service only does this on channels. -/
def arm (id : Nat) (key : Key) : Option (InitWorld Name) :=
  match s.refs.value id, s.refs.value s.portHandle with
  | some (.channel e), some (.port p) => some { s with net := s.net.arm e p key }
  | _, _ => none

/-- Delete the reference `id`. Only the service's own ends of client channels are closed by this for
    certain, and those are deleted when the client is removed. -/
def delete (id : Nat) : Option (InitWorld Name) :=
  if s.refs.value id = none then none else some { s with refs := s.refs.remove id }

/-- `chans.last_key_value().unwrap().0` -/
def lastKey : Option Key :=
  match s.chans with
  | [] => none
  | kr :: rest => some (rest.foldl (fun k kr => if k < kr.1 then kr.1 else k) kr.1)

/-- `chans.get(&key)` -/
def lookup (key : Key) : Option Nat :=
  (s.chans.find? (fun kr => kr.1 == key)).map snd

/-! ## The service -/

/-- The start of a call of `work_on_chan`. -/
def startWork (id : Nat) : Work Name where
  chan := id
  data := []
  cap := 100
  slot := none
  phase := .read
  before := match s.refs.value id with | some (.channel e) => s.net.received e | _ => []
  consumed := []
  executed := []

/-- From `deserialize(&data)` to the next system call. `handlesLen` is what the last `Read` left in
    `read.handles_len`. -/
def dispatch (c : Codec Name) (s : InitWorld Name) (key : Key) (w : Work Name)
    (handlesLen : Nat) : InitWorld Name :=
  match c.deserialize w.data with
  | none => { s with pc := .remove key }
  | some (.getHandle name) =>
    let w := { w with executed := w.executed ++ [Executed.mk (.getHandle name) none] }
    match s.names name with
    | some handle => { s with pc := .work key { w with phase := .createPair handle } }
    | none => { s with pc := .work key { w with phase := .reply 0 [] [] } }
  | some (.publishHandle name) =>
    if handlesLen ≠ 1 then { s with pc := .remove key }
    else
      match w.slot with
      -- `assume_init` on a slot that was never written: undefined, so nothing is promised
      | none => { s with pc := .dead }
      | some publisher =>
        let w := { w with
          executed :=
            w.executed ++ [Executed.mk (.publishHandle name) (s.refs.value publisher)] }
        let old := s.names name
        { s with
          names := update s.names name (some publisher)
          pc := .work key
            { w with phase := .reply (if old.isSome then 1 else 0) [] old.toList } }
  | some .clone =>
    let w := { w with executed := w.executed ++ [Executed.mk .clone none] }
    { s with pc := .work key { w with phase := .createClone } }

/-- The handles of a message are added to the table; the identifier of the (only) one ends up in
    the slot. -/
def receiveHandles (s : InitWorld Name) (slot : Option Nat) (packet : ChannelMessage) :
    InitWorld Name × Option Nat :=
  match packet.handles with
  | some (v :: _) =>
    let (refs, id) := s.refs.addValue v
    ({ s with refs := refs }, some id)
  | _ => (s, slot)

/-- One turn of the loop in `work_on_chan`, from the `Read` system call on. -/
def workRead (c : Codec Name) (g : Growth) (s : InitWorld Name) (key : Key) (w : Work Name) :
    InitWorld Name :=
  match s.refs.value w.chan with
  | some (.channel e) =>
    let out := (s.net.channel e).sysRead ⟨w.cap, 1⟩
    match out.result, out.packet with
    | .ok, some packet =>
      let (s, slot) := { s with net := s.net.finishRead e out }.receiveHandles w.slot packet
      dispatch c s key
        { w with data := packet.data, slot := slot, consumed := w.consumed ++ [packet] }
        out.read.handlesLen
    | .empty, _ => { s with pc := .rearm key w }
    | .size, _ =>
      if 0x1000 < out.read.dataLen then { s with pc := .remove key }
      -- `read.data_len - data.len()` would overflow
      else if out.read.dataLen < w.data.length then { s with pc := .dead }
      else
        -- the arm grows the buffer and falls through to `deserialize`
        dispatch c s key
          { w with cap := g.reserve w.data.length w.cap (out.read.dataLen - w.data.length) }
          out.read.handlesLen
    | _, _ => { s with pc := .remove key }
  | _ => { s with pc := .dead }

/-- Continue after a system call, or die. -/
def orDie (s : InitWorld Name) : Option (InitWorld Name) → (InitWorld Name → InitWorld Name) →
    InitWorld Name
  | none, _ => { s with pc := .dead }
  | some t, f => f t

def workStep (c : Codec Name) (g : Growth) (s : InitWorld Name) (key : Key) (w : Work Name) :
    InitWorld Name :=
  match w.phase with
  | .read => workRead c g s key w
  | .createPair handle =>
    let (s, left, right) := s.channelCreate
    { s with pc := .work key { w with phase := .notify handle left right } }
  | .notify handle left right =>
    s.orDie (s.write handle [1] [left]) fun s =>
      { s with pc := .work key { w with phase := .reply 1 [right] [right, left] } }
  | .createClone =>
    match s.lastKey with
    | none => { s with pc := .dead }
    | some last =>
      let id := last + 1
      let (s, left, right) := s.channelCreate
      -- `assert!(chans.insert(id, left).is_none())`
      if (s.lookup id).isSome then { s with pc := .dead }
      else { s with
        chans := s.chans ++ [(id, left)]
        pc := .work key { w with phase := .armClone id right } }
  | .armClone id right =>
    s.orDie (s.arm w.chan id) fun s =>
      { s with pc := .work key { w with phase := .reply 1 [right] [right] } }
  | .reply byte handles drops =>
    s.orDie (s.write w.chan [byte] handles) fun s =>
      { s with pc := .work key { w with phase := .drop drops } }
  | .drop [] => { s with pc := .work key { w with phase := .read } }
  | .drop (id :: rest) =>
    s.orDie (s.delete id) fun s =>
      { s with pc := .work key { w with phase := .drop rest } }

/-- The next system call of the service; `none` when it is blocked in `port_wait` or dead. -/
def initStep (c : Codec Name) (g : Growth) (s : InitWorld Name) : Option (InitWorld Name) :=
  match s.pc with
  | .starting [] _ => some { s with pc := .portWait }
  | .starting (id :: todo) i =>
    some (s.orDie (s.arm id (BitVec.ofNat 64 (i + 10))) fun s =>
      { s with
        chans := s.chans ++ [(BitVec.ofNat 64 (i + 10), id)]
        pc := .starting todo (i + 1) })
  | .portWait =>
    match s.net.port with
    | [] => none
    | notif :: rest =>
      let s := { s with net := { s.net with port := rest } }
      match notif.ty, s.lookup notif.key with
      | .signalOne _ _, some id => some { s with pc := .work notif.key (s.startWork id) }
      | _, _ => some { s with pc := .dead }
  | .work key w => some (workStep c g s key w)
  | .rearm key w => some (s.orDie (s.arm w.chan key) fun s => { s with pc := .portWait })
  | .remove key =>
    match s.lookup key with
    | none => some { s with pc := .portWait }
    | some id =>
      let t := { s with chans := s.chans.filter (fun kr => kr.1 != key), pc := .portWait }
      match s.refs.value id with
      | none => some { s with pc := .dead }
      | some (.channel e) => some { t with refs := t.refs.remove id, net := t.net.close e }
      | some _ => some { t with refs := t.refs.remove id }
  | .dead => none

/-! ## The system -/

inductive Action where
  | init
  /-- Another process sends on an endpoint it has a handle to. -/
  | send (e : Nat) (msg : ChannelMessage)
  | read (e : Nat) (maxBytes maxHandles : Nat)
  /-- The last handle to an endpoint goes away. -/
  | drop (e : Nat)
  | create

def step (c : Codec Name) (g : Growth) (s : InitWorld Name) : Action → Option (InitWorld Name)
  | .init => s.initStep c g
  | .send e msg =>
    if s.net.alive e = true ∧ ¬ s.Owned e then some { s with net := s.net.send e msg } else none
  | .read e maxBytes maxHandles =>
    if s.net.alive e = true ∧ ¬ s.Owned e then
      some { s with
        net := s.net.finishRead e ((s.net.channel e).sysRead ⟨maxBytes, maxHandles⟩) }
    else none
  | .drop e =>
    if s.net.alive e = true ∧ ¬ s.Owned e then some { s with net := s.net.close e } else none
  | .create => some { s with net := s.net.create }

end InitWorld

end Fioxa
