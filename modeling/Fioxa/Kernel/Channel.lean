import Fioxa.Kernel.Signal

/-! # Channel endpoints

One endpoint of a channel (`kernel/src/channel.rs`), as its spinlock protects it. Every function of
`KChannelHandle` is cut at its lock sections: `send` and the second half of `close` lock the *peer*,
`read` and the first half of `close` lock the endpoint itself. A section is a pure function of the
locked `KChannelInner`; where it calls `set_signal`, the call's effect is part of the result,
because it notifies threads and ports outside the channel. How the sections of different agents
interleave is the business of `Kernel/Ipc.lean`. -/

namespace Fioxa

open KObjectSignal

/-- `KernelValue`: a reference to a kernel object of one of the five kinds. -/
inductive KernelValue where
  | message (id : Nat)
  | process (id : Nat)
  | channel (id : Nat)
  | port (id : Nat)
  | interrupt (id : Nat)
  deriving DecidableEq

structure ChannelMessage where
  data : List UInt8
  handles : Option (List KernelValue)
  deriving DecidableEq

/-- The number of handles a message carries; `None` counts as zero. -/
def ChannelMessage.handlesLen (packet : ChannelMessage) : Nat :=
  (packet.handles.map List.length).getD 0

/-- The handles a message carries. -/
def ChannelMessage.values (packet : ChannelMessage) : List KernelValue := packet.handles.getD []

def channelCapacity : Nat := 10000

inductive ReadError where
  | empty
  | closed
  | size (minBytes minHandles : Nat)
  deriving DecidableEq

structure KChannelInner where
  signal : KObjectSignal
  isOpen : Bool
  queue : List ChannelMessage
  deriving DecidableEq

namespace KChannelInner

def new : KChannelInner := ⟨.new, true, []⟩

/-! ## The lock sections -/

/-- First half of `close`, on the closing endpoint itself. -/
def closeSelf (chan : KChannelInner) : KChannelInner × SetSignal :=
  let call := chan.signal.setSignal .channelClosed true
  (⟨call.signal, false, []⟩, call)

/-- Second half of `close`, on the peer: its queue is kept so that it can be drained. -/
def closePeer (chan : KChannelInner) : KChannelInner × SetSignal :=
  let call := chan.signal.setSignal .channelClosed true
  (⟨call.signal, false, chan.queue⟩, call)

/-- `send` once the peer's lock is taken; `none` is the source's `None`. -/
def send (chan : KChannelInner) (msg : ChannelMessage) : Option (KChannelInner × SetSignal) :=
  if !chan.isOpen then none
  else if channelCapacity < chan.queue.length then none
  else
    let call := chan.signal.setSignal .readable true
    some (⟨call.signal, chan.isOpen, chan.queue ++ [msg]⟩, call)

/-- `read`: what it returns, the endpoint afterwards and the `set_signal` call it made, if any. -/
def read (chan : KChannelInner) (maxBytes maxHandles : Nat) :
    Except ReadError ChannelMessage × KChannelInner × Option SetSignal :=
  match chan.queue with
  | [] => (.error (if chan.isOpen then .empty else .closed), chan, none)
  | packet :: rest =>
    -- `packet` has been popped: the queue is `rest` from here on
    if maxBytes < packet.data.length ∨ maxHandles < packet.handlesLen then
      (.error (.size packet.data.length packet.handlesLen),
        { chan with queue := packet :: rest }, none)
    else
      let call := chan.signal.setSignal .readable (!rest.isEmpty)
      (.ok packet, ⟨call.signal, chan.isOpen, rest⟩, some call)

/-! ## What each section can do -/

variable {chan : KChannelInner}

theorem send_eq_some {chan' : KChannelInner} {msg : ChannelMessage} {call : SetSignal}
    (h : chan.send msg = some (chan', call)) :
    chan.isOpen = true ∧ chan.queue.length ≤ channelCapacity ∧
      call = chan.signal.setSignal .readable true ∧
      chan' = ⟨call.signal, chan.isOpen, chan.queue ++ [msg]⟩ := by
  unfold send at h
  split at h
  · cases h
  · next hopen =>
    split at h
    · cases h
    · next hcap =>
      simp only [Option.some.injEq, Prod.mk.injEq] at h
      obtain ⟨rfl, rfl⟩ := h
      exact ⟨by simpa using hopen, Nat.le_of_not_lt hcap, rfl, rfl⟩

/-- A packet fits the reader's limits. -/
def Fits (packet : ChannelMessage) (maxBytes maxHandles : Nat) : Prop :=
  packet.data.length ≤ maxBytes ∧ packet.handlesLen ≤ maxHandles

/-- The three outcomes of `read`: nothing queued, the head does not fit (it is put back), or the
    head is taken. -/
theorem read_cases (chan : KChannelInner) (maxBytes maxHandles : Nat) :
    (chan.queue = [] ∧
      chan.read maxBytes maxHandles
        = (.error (if chan.isOpen then .empty else .closed), chan, none)) ∨
    (∃ packet rest, chan.queue = packet :: rest ∧ ¬ Fits packet maxBytes maxHandles ∧
      chan.read maxBytes maxHandles
        = (.error (.size packet.data.length packet.handlesLen), chan, none)) ∨
    (∃ packet rest, chan.queue = packet :: rest ∧ Fits packet maxBytes maxHandles ∧
      chan.read maxBytes maxHandles = (.ok packet,
            ⟨(chan.signal.setSignal .readable (!rest.isEmpty)).signal, chan.isOpen, rest⟩,
            some (chan.signal.setSignal .readable (!rest.isEmpty)))) := by
  unfold read
  cases hq : chan.queue with
  | nil => exact .inl ⟨rfl, rfl⟩
  | cons packet rest =>
    refine .inr ?_
    by_cases hfit : maxBytes < packet.data.length ∨ maxHandles < packet.handlesLen
    · refine .inl ⟨packet, rest, rfl, ?_, ?_⟩
      · rintro ⟨hd, hh⟩
        omega
      · simp only [if_pos hfit, ← hq]
    · refine .inr ⟨packet, rest, rfl, ⟨by omega, by omega⟩, ?_⟩
      simp only [if_neg hfit]

/-! ## The signals of an endpoint mirror its queue and its open flag -/

/-- `READABLE` is up exactly when something is queued, `CHANNEL_CLOSED` exactly when the endpoint is
    not open. -/
structure Coherent (chan : KChannelInner) : Prop where
  readable : chan.signal.signalStatus.contains .readable = !chan.queue.isEmpty
  closed : chan.signal.signalStatus.contains .channelClosed = !chan.isOpen

theorem coherent_new : new.Coherent := ⟨by decide, by decide⟩

theorem Coherent.send {chan' : KChannelInner} {msg : ChannelMessage} {call : SetSignal}
    (hc : chan.Coherent) (h : chan.send msg = some (chan', call)) : chan'.Coherent := by
  obtain ⟨-, -, rfl, rfl⟩ := send_eq_some h
  refine ⟨?_, ?_⟩
  · simp [setSignal_status, newStatus]
  · simpa [setSignal_status, newStatus] using hc.closed

theorem Coherent.closePeer (hc : chan.Coherent) :
    chan.closePeer.1.Coherent := by
  refine ⟨?_, ?_⟩
  · simpa [KChannelInner.closePeer, setSignal_status, newStatus] using hc.readable
  · simp [KChannelInner.closePeer, setSignal_status, newStatus]

theorem Coherent.take (hc : chan.Coherent) (rest : List ChannelMessage) :
    (KChannelInner.mk (chan.signal.setSignal .readable (!rest.isEmpty)).signal chan.isOpen
      rest).Coherent := by
  refine ⟨?_, ?_⟩
  · cases rest with
    | nil | cons => simp [setSignal_status, newStatus]
  · cases rest with
    | nil | cons =>
      simpa [setSignal_status, newStatus] using hc.closed

end KChannelInner

/-! ## The `Read` system call -/

inductive ChannelReadResult where
  | ok
  | empty
  | size
  | closed
  deriving DecidableEq

/-- The lengths in the `ChannelRead` record: the caller's limits on entry, the lengths of the
    message on return. -/
structure ChannelRead where
  dataLen : Nat
  handlesLen : Nat
  deriving DecidableEq

/-- What the call returns and leaves behind. -/
structure SysRead where
  result : ChannelReadResult
  read : ChannelRead
  packet : Option ChannelMessage
  chan : KChannelInner
  call : Option SetSignal

/-- The `Read` arm of `sys_channel_handler`. -/
def KChannelInner.sysRead (chan : KChannelInner) (read : ChannelRead) : SysRead :=
  match chan.read read.dataLen read.handlesLen with
  | (.ok packet, chan, call) =>
    ⟨.ok, ⟨packet.data.length, packet.handlesLen⟩, some packet, chan, call⟩
  | (.error .empty, chan, call) => ⟨.empty, read, none, chan, call⟩
  | (.error (.size minBytes minHandles), chan, call) =>
    ⟨.size, ⟨minBytes, minHandles⟩, none, chan, call⟩
  | (.error .closed, chan, call) => ⟨.closed, read, none, chan, call⟩

theorem KChannelInner.sysRead_cases (chan : KChannelInner) (read : ChannelRead) :
    (chan.queue = [] ∧
      chan.sysRead read = ⟨if chan.isOpen then .empty else .closed, read, none, chan, none⟩) ∨
    (∃ packet rest, chan.queue = packet :: rest ∧ ¬ Fits packet read.dataLen read.handlesLen ∧
      chan.sysRead read = ⟨.size, ⟨packet.data.length, packet.handlesLen⟩, none, chan, none⟩) ∨
    (∃ packet rest, chan.queue = packet :: rest ∧ Fits packet read.dataLen read.handlesLen ∧
      chan.sysRead read = ⟨.ok, ⟨packet.data.length, packet.handlesLen⟩, some packet,
            ⟨(chan.signal.setSignal .readable (!rest.isEmpty)).signal, chan.isOpen, rest⟩,
            some (chan.signal.setSignal .readable (!rest.isEmpty))⟩) := by
  unfold sysRead
  rcases chan.read_cases read.dataLen read.handlesLen with ⟨hq, hr⟩ | ⟨packet, rest, hq, hf, hr⟩ |
    ⟨packet, rest, hq, hf, hr⟩
  · refine .inl ⟨hq, ?_⟩
    rw [hr]
    cases chan.isOpen <;> rfl
  · exact .inr (.inl ⟨packet, rest, hq, hf, by rw [hr]⟩)
  · exact .inr (.inr ⟨packet, rest, hq, hf, by rw [hr]⟩)

/-- One endpoint: its locked state and the (weak) reference to the other end. -/
structure KChannelHandle where
  channel : KChannelInner
  peer : Nat
  deriving DecidableEq

end Fioxa
