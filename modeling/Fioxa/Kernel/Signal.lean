import Fioxa.Lib.OneShot

/-! # Object signals

The signal half of every waitable kernel object (`kernel/src/object.rs`): a set of flags
(`ObjectSignal`, a `bitflags` type over `u64`) and the list of waiters to notify when a flag of
their mask comes up. Threads, ports, processes and channel endpoints are named by numbers, which
stand for the `Arc` the source keeps.

A kernel object is only touched under its own spinlock, so `wait` and `setSignal` are pure functions
of the object. `setSignal` also returns what it did: the status it computed and the waiters it
extracted, in order. -/

namespace Fioxa

open List

abbrev ThreadRef := Nat
abbrev PortRef := Nat

inductive ThreadState where
  | zombie
  | runnable
  | sleeping
  deriving DecidableEq

inductive ProcessExit where
  | exited
  | notExitedYet
  deriving DecidableEq

/-! ## The flag set -/

/-- `ObjectSignal`: flags over a `u64`. -/
abbrev ObjectSignal := BitVec 64

namespace ObjectSignal

def readable : ObjectSignal := 1#64 <<< 1
def channelClosed : ObjectSignal := 1#64 <<< 20
def processExited : ObjectSignal := 1#64 <<< 20

/-- The union of the declared flags. -/
def all : ObjectSignal := readable ||| channelClosed ||| processExited

def fromBitsTruncate (bits : BitVec 64) : ObjectSignal := bits &&& all

/-- The flag-set complement `!s`, which only keeps declared flags. -/
def complement (s : ObjectSignal) : ObjectSignal := fromBitsTruncate (~~~s)

def intersects (s mask : ObjectSignal) : Bool := s &&& mask != 0#64

/-- All flags of `flag` are set in `s`. -/
def contains (s flag : ObjectSignal) : Bool := s &&& flag == flag

theorem readable_eq : readable = BitVec.twoPow 64 1 := by decide

theorem channelClosed_eq : channelClosed = BitVec.twoPow 64 20 := by decide

variable (s : ObjectSignal)
include s

theorem contains_twoPow (i : Nat) (hi : i < 64) :
    contains s (BitVec.twoPow 64 i) = s.getLsbD i := by
  have hne : (0#64 == BitVec.twoPow 64 i) = false := by
    rw [beq_eq_false_iff_ne]
    intro h
    have hbit := congrArg (fun x => BitVec.getLsbD x i) h
    simp [hi] at hbit
  rw [contains, BitVec.and_twoPow]
  cases s.getLsbD i with
  | true => simp
  | false => simpa using hne

theorem intersects_twoPow (i : Nat) (hi : i < 64) :
    intersects s (BitVec.twoPow 64 i) = s.getLsbD i := by
  have hne : BitVec.twoPow 64 i ≠ 0#64 := by
    intro h
    have hbit := congrArg (fun x => BitVec.getLsbD x i) h
    simp [hi] at hbit
  rw [intersects, BitVec.and_twoPow]
  cases s.getLsbD i with
  | true => simpa using hne
  | false => simp

theorem contains_readable : contains s readable = s.getLsbD 1 := by
  rw [readable_eq, contains_twoPow s 1 (by decide)]

theorem contains_channelClosed : contains s channelClosed = s.getLsbD 20 := by
  rw [channelClosed_eq, contains_twoPow s 20 (by decide)]

theorem intersects_readable : intersects s readable = contains s readable := by
  rw [contains_readable, readable_eq, intersects_twoPow s 1 (by decide)]

/-! Raising and lowering one flag leaves the other alone. -/

@[simp] theorem readable_raise_readable : contains (s ||| readable) readable = true := by
  rw [contains_readable, BitVec.getLsbD_or, readable_eq]
  simp

@[simp] theorem closed_raise_readable :
    contains (s ||| readable) channelClosed = contains s channelClosed := by
  rw [contains_channelClosed, contains_channelClosed, BitVec.getLsbD_or, readable_eq]
  simp

@[simp] theorem readable_raise_closed :
    contains (s ||| channelClosed) readable = contains s readable := by
  rw [contains_readable, contains_readable, BitVec.getLsbD_or, channelClosed_eq]
  simp

@[simp] theorem closed_raise_closed : contains (s ||| channelClosed) channelClosed = true := by
  rw [contains_channelClosed, BitVec.getLsbD_or, channelClosed_eq]
  simp

@[simp] theorem readable_lower_readable :
    contains (s &&& complement readable) readable = false := by
  rw [contains_readable, BitVec.getLsbD_and]
  have hbit : (complement readable).getLsbD 1 = false := by decide
  rw [hbit, Bool.and_false]

@[simp] theorem closed_lower_readable :
    contains (s &&& complement readable) channelClosed = contains s channelClosed := by
  rw [contains_channelClosed, contains_channelClosed, BitVec.getLsbD_and]
  have hbit : (complement readable).getLsbD 20 = true := by decide
  rw [hbit, Bool.and_true]

end ObjectSignal

/-! ## Waiters -/

/-- Who is notified: a sleeping thread, or a port under a key. -/
inductive SignalWaiterType where
  | one (thread : ThreadRef)
  | port (port : PortRef) (key : BitVec 64)
  deriving DecidableEq

structure SignalWaiter where
  ty : SignalWaiterType
  mask : ObjectSignal
  /-- Ghost: the number of this registration. No kernel code reads it; it tells two registrations
      of the same thread and mask apart. -/
  registration : Nat
  deriving DecidableEq

structure KObjectSignal where
  signalStatus : ObjectSignal
  signalWaiters : List SignalWaiter
  deriving DecidableEq

namespace KObjectSignal

def new : KObjectSignal := ⟨0#64, []⟩

/-- Append a waiter; the caller has checked that it is not already satisfied. -/
def wait (s : KObjectSignal) (waiter : SignalWaiter) : KObjectSignal :=
  { s with signalWaiters := s.signalWaiters ++ [waiter] }

/-- A waiter is woken by the status `new`. -/
def hits (new : ObjectSignal) (w : SignalWaiter) : Bool := new.intersects w.mask

end KObjectSignal

/-- What one call of `set_signal` did: the object afterwards, the status it computed and the
    waiters it extracted. -/
structure SetSignal where
  signal : KObjectSignal
  new : ObjectSignal
  fired : List SignalWaiter
  deriving DecidableEq

namespace KObjectSignal

/-- The status `set_signal` computes. -/
def newStatus (s : KObjectSignal) (signal : ObjectSignal) (status : Bool) : ObjectSignal :=
  if status then s.signalStatus ||| signal else s.signalStatus &&& signal.complement

def setSignal (s : KObjectSignal) (signal : ObjectSignal) (status : Bool) : SetSignal :=
  let new := s.newStatus signal status
  if new = s.signalStatus then
    -- early return: the waiters are not looked at
    ⟨s, new, []⟩
  else
    ⟨⟨new, s.signalWaiters.filter (fun w => !hits new w)⟩, new, s.signalWaiters.filter (hits new)⟩

/-- No stored waiter is already satisfied. -/
def Quiet (s : KObjectSignal) : Prop :=
  ∀ w ∈ s.signalWaiters, hits s.signalStatus w = false

theorem quiet_new : new.Quiet := fun w hw => absurd hw (by simp [new])

variable {s : KObjectSignal}

theorem Quiet.wait {w : SignalWaiter} (hs : s.Quiet)
    (hw : s.signalStatus.intersects w.mask = false) : (s.wait w).Quiet := by
  intro v hv
  simp only [KObjectSignal.wait, mem_append, mem_singleton] at hv
  rcases hv with hv | rfl
  · exact hs v hv
  · exact hw

theorem setSignal_new (s : KObjectSignal) (signal : ObjectSignal) (status : Bool) :
    (s.setSignal signal status).new = s.newStatus signal status := by
  unfold setSignal
  dsimp only
  split <;> rfl

theorem setSignal_status (s : KObjectSignal) (signal : ObjectSignal) (status : Bool) :
    (s.setSignal signal status).signal.signalStatus = s.newStatus signal status := by
  unfold setSignal
  dsimp only
  split
  · next heq => exact heq.symm
  · rfl

/-- The early return changes nothing about who fires: on a quiet object `set_signal` fires
    exactly the stored waiters the new status hits, and keeps the others. -/
theorem Quiet.setSignal_fired (hs : s.Quiet) (signal : ObjectSignal) (status : Bool) :
    (s.setSignal signal status).fired = s.signalWaiters.filter (hits (s.newStatus signal status)) ∧
      (s.setSignal signal status).signal.signalWaiters
        = s.signalWaiters.filter (fun w => !hits (s.newStatus signal status) w) := by
  unfold setSignal
  dsimp only
  split
  · next heq =>
    rw [heq]
    refine ⟨(filter_eq_nil_iff.2 fun w hw => ?_).symm, (filter_eq_self.2 fun w hw => ?_).symm⟩
    · rw [hs w hw]; simp
    · rw [hs w hw]; rfl
  · exact ⟨rfl, rfl⟩

theorem Quiet.setSignal (hs : s.Quiet) (signal : ObjectSignal) (status : Bool) :
    (s.setSignal signal status).signal.Quiet := by
  intro w hw
  rw [(hs.setSignal_fired signal status).2, mem_filter] at hw
  rw [setSignal_status]
  simpa using hw.2

end KObjectSignal

end Fioxa
