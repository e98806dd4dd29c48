import Fioxa.Kernel.Channel
import Fioxa.Lib.Traced

/-! # System calls and the memory of their callers

`syscall_handler` and its handlers (`syscall/mod.rs`), as far as they go through pointers that the
caller has passed: in an argument, or in a struct that an argument points to. A handler is a
computation whose trace are these accesses, each with the number of spinlocks that are held. A lock
guard lives to the end of its scope, which is `locked` here.

What the handlers find is a parameter, `Caller`: the objects and references of the process, whether
allocations succeed, and what its memory holds. Other threads may write to that memory and so does
the handler, so `memory n` is what it holds when the handler has made `n` writes. Handlers that take
no pointer make no access; what they return is left open. A struct is `repr(C)`, so its
fields are at fixed offsets, and a field that is read twice in a row is one access. -/

namespace Fioxa.Syscall

open Traced

/-- How a handler ends without a value. -/
inductive Stop where
  /-- `Err(SyscallError::Error)`: the task is killed. -/
  | error
  /-- The thread does not come back: it is killed, or it waits for ever. -/
  | noReturn
  /-- An allocation fails and the kernel panics. -/
  | panic
deriving DecidableEq

inductive Kind where
  | read
  | write
deriving DecidableEq

/-- `length` bytes from `address` on, with `depth` spinlocks held. -/
structure Access where
  kind : Kind
  address : Nat
  length : Nat
  depth : Nat
deriving DecidableEq

/-- What a call finds. -/
structure Caller where
  killed : Bool
  /-- `args.len()` of the process. -/
  args : Nat
  references : Nat → Option KernelValue
  nextId : Nat
  /-- `data.len()` of a `KMessage`. -/
  message : Nat → Nat
  channel : Nat → KChannelInner
  /-- Whether `send` reaches a peer that takes the message. -/
  sends : Nat → Bool
  /-- Whether `wait` on a port returns. -/
  notified : Nat → Bool
  /-- Whether so many bytes can be allocated. -/
  heap : Nat → Bool
  memory : Nat → Nat → Nat
  /-- The results of the calls and of the operations on references that take no pointer. -/
  others : Nat → Except Stop Nat
  referenceOperation : Nat → Except Stop Nat

abbrev Handler := Traced Stop Access

namespace Caller

variable (c : Caller)

/-- Reads a field after `n` writes of the handler. -/
def load (n address : Nat) : Handler Nat := event ⟨.read, address, 8, 0⟩ (c.memory n address)

end Caller

def readBytes (address length : Nat) : Handler Unit := event ⟨.read, address, length, 0⟩ ()

def writeBytes (address length : Nat) : Handler Unit := event ⟨.write, address, length, 0⟩ ()

/-- The scope of a lock guard. -/
def locked {α : Type} (m : Handler α) : Handler α :=
  m.mapTrace fun a => { a with depth := a.depth + 1 }

/-- The condition of a `kassert!`, or of an allocation. -/
def check (stop : Stop) (b : Bool) : Handler Unit := require stop (if b then some () else none)

def asMessage : KernelValue → Option Nat
  | .message id => some id
  | _ => none

def asChannel : KernelValue → Option Nat
  | .channel id => some id
  | _ => none

def asPort : KernelValue → Option Nat
  | .port id => some id
  | _ => none

/-- The objects that have signals. -/
def asSignalable : KernelValue → Option Nat
  | .channel id => some id
  | .process id => some id
  | _ => none

namespace Caller

variable (c : Caller)

/-- `get_value` and `kenum_cast!`. -/
def getAs (kind : KernelValue → Option Nat) (id : Nat) : Option Nat := (c.references id).bind kind

/-! ## The handlers -/

def readArgsHandler (arg1 : Nat) : Handler Nat :=
  if arg1 = 0 then pure c.args
  else do
    writeBytes arg1 c.args
    pure arg1

/-- `SyscallMessageAction::Create`; `MessageCreate` is a union of `(ptr, len)` and the new id. -/
def messageCreate (arg2 : Nat) : Handler Nat := do
  let ptr ← c.load 0 arg2
  let len ← c.load 0 (arg2 + 8)
  check .panic (c.heap len)
  readBytes ptr len
  writeBytes arg2 8
  pure 0

def messageGetSize (arg2 : Nat) : Handler Nat := do
  let before ← c.load 0 arg2
  let _ ← require .error (c.getAs asMessage before)
  writeBytes arg2 8
  pure 0

/-- `MessageRead { id, ptr: (ptr, len) }` -/
def messageRead (arg2 : Nat) : Handler Nat := do
  let ptr ← c.load 0 (arg2 + 8)
  let len ← c.load 0 (arg2 + 16)
  let id ← c.load 0 arg2
  let msg ← require .error (c.getAs asMessage id)
  check .error (c.message msg = len)
  writeBytes ptr len
  pure 0

def messageHandler (arg1 arg2 : Nat) : Handler Nat :=
  match arg1 with
  | 0 => c.messageCreate arg2
  | 1 => c.messageGetSize arg2
  | 2 => c.messageRead arg2
  | _ => fail .error

/-- `ChannelCreate { left, right }` -/
def channelCreate (arg2 : Nat) : Handler Nat := do
  writeBytes arg2 8
  writeBytes (arg2 + 8) 8
  pure 1

/-- The new ids are stored one by one. -/
def storeHandles (handles : Nat) : Nat → Handler Unit
  | 0 => pure ()
  | n + 1 => do
      storeHandles handles n
      writeBytes (handles + 8 * n) 8

/-- `ChannelRead { handle, data, data_len, handles, handles_len }`, and the numbers of
    `ChannelReadResult`. -/
def channelRead (arg2 : Nat) : Handler Nat := do
  let handle ← c.load 0 arg2
  let chan ← require .error (c.getAs asChannel handle)
  let dataLen ← c.load 0 (arg2 + 16)
  let handlesLen ← c.load 0 (arg2 + 32)
  match ((c.channel chan).read dataLen handlesLen).1 with
  | .ok msg => do
      writeBytes (arg2 + 16) 8
      let data ← c.load 1 (arg2 + 8)
      writeBytes data msg.data.length
      writeBytes (arg2 + 32) 8
      match msg.handles with
      | some hs => do
          let handles ← c.load 3 (arg2 + 24)
          storeHandles handles hs.length
          pure 0
      | none => pure 0
  | .error .empty => pure 1
  | .error (.size _ _) => do
      writeBytes (arg2 + 16) 8
      writeBytes (arg2 + 32) 8
      pure 2
  | .error .closed => pure 3

/-- The handles of a message are looked up one by one; zero is `None`. -/
def loadHandles : Nat → Nat → Handler Unit
  | _, 0 => pure ()
  | handles, n + 1 => do
      let h ← c.load 0 handles
      let _ ← require .error (if h = 0 then none else c.references h)
      loadHandles (handles + 8) n

/-- `if !write.handles.is_null() && write.handles_len > 0`, with the references locked inside. -/
def writtenHandles (arg2 : Nat) : Handler Unit := do
  let handles ← c.load 0 (arg2 + 24)
  if handles = 0 then pure ()
  else do
    let handlesLen ← c.load 0 (arg2 + 32)
    if handlesLen = 0 then pure ()
    else do
      check .panic (c.heap (16 * handlesLen))
      locked (c.loadHandles handles handlesLen)

/-- `ChannelWrite { handle, data, data_len, handles, handles_len }` -/
def channelWrite (arg2 : Nat) : Handler Nat := do
  let handle ← c.load 0 arg2
  let chan ← require .error (c.getAs asChannel handle)
  let data ← c.load 0 (arg2 + 8)
  let dataLen ← c.load 0 (arg2 + 16)
  c.writtenHandles arg2
  check .panic (c.heap dataLen)
  readBytes data dataLen
  pure (if c.sends chan then 1 else 0)

def sysChannelHandler (syscall arg2 : Nat) : Handler Nat :=
  match syscall with
  | 0 => channelCreate arg2
  | 1 => c.channelRead arg2
  | 2 => c.channelWrite arg2
  | _ => fail .error

/-- A `PortNotification` is a key and a tagged union of 16 bytes. -/
def portNotificationSize : Nat := 32

/-- `KernelReferenceID::from_usize`, `get_value` and `kenum_cast!`. -/
def getHandle (kind : KernelValue → Option Nat) (arg : Nat) : Option Nat :=
  if arg = 0 then none else c.getAs kind arg

def portWait (arg1 arg2 : Nat) : Handler Nat := do
  let port ← require .error (c.getHandle asPort arg1)
  check .noReturn (c.notified port)
  writeBytes arg2 portNotificationSize
  pure 0

def portPush (arg1 arg2 : Nat) : Handler Nat := do
  let _ ← require .error (c.getHandle asPort arg1)
  readBytes arg2 portNotificationSize
  pure 0

def sysPortHandler (syscall arg1 arg2 : Nat) : Handler Nat :=
  match syscall with
  | 0 => pure c.nextId
  | 1 => c.portWait arg1 arg2
  | 2 => c.portPush arg1 arg2
  | _ => fail .error

/-- `ReferenceOperation::WaitPort`, inside the lock of the references. The closure that reads
    `wait.key` runs with the signals of the object locked as well. -/
def waitPort (id arg3 : Nat) : Handler Nat := do
  let val ← require .error (c.references id)
  let portHandle ← c.load 0 arg3
  let _ ← require .error (c.getAs asPort portHandle)
  let _ ← c.load 0 (arg3 + 8)
  let _ ← require .error (asSignalable val)
  let _ ← locked (c.load 0 (arg3 + 16))
  pure 0

/-- Only `WaitPort` (4) takes a pointer. -/
def sysReferenceHandler (arg1 arg2 arg3 : Nat) : Handler Nat :=
  if 4 < arg1 ∨ arg2 = 0 then fail .error
  else locked (if arg1 = 4 then c.waitPort arg2 arg3 else ⟨c.referenceOperation arg1, []⟩)

end Caller

/-! ## The dispatch -/

namespace Number

def readArgs : Nat := 7
def message : Nat := 11
def port : Nat := 12
def channel : Nat := 14
def object : Nat := 15

end Number

/-- The calls that take no pointer: `ECHO`, `YIELD_NOW`, `SPAWN_THREAD`, `SLEEP`, `EXIT_THREAD`,
    `MMAP_PAGE`, `GET_PID`, `UNMMAP_PAGE`, `MMAP_PAGE32`, `INTERRUPT` and `PROCESS`, and numbers
    that are no call. -/
def syscallHandler (c : Caller) (number arg1 arg2 arg3 : Nat) : Handler Nat :=
  if c.killed then fail .noReturn
  else if number = Number.readArgs then c.readArgsHandler arg1
  else if number = Number.message then c.messageHandler arg1 arg2
  else if number = Number.object then c.sysReferenceHandler arg1 arg2 arg3
  else if number = Number.channel then c.sysChannelHandler arg1 arg2
  else if number = Number.port then c.sysPortHandler arg1 arg2 arg3
  else ⟨c.others number, []⟩

end Fioxa.Syscall
