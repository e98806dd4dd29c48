import Fioxa.Kernel.Ipc

/-! # Interrupt handles and notices

`KInterruptHandle` (`interrupts/mod.rs`) passes the interrupts of one source on to a thread that
waits for them or to a port. Every section under its lock is a pure function of the handle, which
also returns whom it tells: a `Notice` is a call of `Thread::wake` or of `KPort::notify` that the
section makes. The waiters that `set_signal` extracts are told in the same way. -/

namespace Fioxa

open List Function

inductive Notice where
  | wake (t : ThreadRef)
  | notify (p : PortRef) (notif : PortNotification)
  deriving DecidableEq

/-- The ports after a notice, and the threads it wakes. -/
def Notice.deliver (ports : PortRef → KPort) : Notice → (PortRef → KPort) × List ThreadRef
  | .wake t => (ports, [t])
  | .notify p notif =>
    let (port, waiter) := (ports p).notify notif
    (update ports p port, waiter.toList)

/-- The ports after several notices, and the threads they wake, in order. -/
def deliverAll (ports : PortRef → KPort) : List Notice → (PortRef → KPort) × List ThreadRef
  | [] => (ports, [])
  | notice :: rest =>
    let (ports, woken) := notice.deliver ports
    let (ports, others) := deliverAll ports rest
    (ports, woken ++ others)

/-- The notices of one call of `set_signal`. -/
def SetSignal.notices (call : SetSignal) : List Notice :=
  call.fired.map fun waiter =>
    match waiter.ty with
    | .one t => .wake t
    | .port p key => .notify p ⟨key, .signalOne waiter.mask call.new⟩

variable {ports : PortRef → KPort} {t : ThreadRef}

theorem Notice.waiters_deliver {notice : Notice} {p : PortRef}
    (h : t ∈ ((notice.deliver ports).1 p).waiters) : t ∈ (ports p).waiters := by
  cases notice with
  | wake => exact h
  | notify q =>
    unfold Notice.deliver KPort.notify at h
    by_cases hq : p = q
    · subst hq
      cases hw : (ports p).waiters with
      | nil => simp [hw] at h
      | cons u =>
        simp only [hw, update_self] at h
        exact .tail u h
    · cases hw : (ports q).waiters with
      | nil => simpa [hw, hq] using h
      | cons => simpa [hw, hq] using h

theorem Notice.woken_deliver {notice : Notice} (h : t ∈ (notice.deliver ports).2) :
    notice = .wake t ∨ ∃ p notif, notice = .notify p notif ∧ t ∈ (ports p).waiters := by
  cases notice with
  | wake u =>
    rw [show t = u from mem_singleton.1 h]
    exact .inl rfl
  | notify q notif =>
    refine .inr ⟨q, notif, rfl, ?_⟩
    unfold Notice.deliver KPort.notify at h
    cases hw : (ports q).waiters with
    | nil => simp [hw] at h
    | cons =>
      simp only [hw, Option.toList_some, mem_singleton] at h
      simp [h]

theorem woken_deliverAll {notices : List Notice} (h : t ∈ (deliverAll ports notices).2) :
    .wake t ∈ notices ∨ ∃ p notif, .notify p notif ∈ notices ∧ t ∈ (ports p).waiters := by
  induction notices generalizing ports with
  | nil => exact absurd h (by simp [deliverAll])
  | cons notice rest ih =>
    rw [deliverAll, mem_append] at h
    rcases h with h | h
    · rcases Notice.woken_deliver h with rfl | ⟨p, notif, rfl, ht⟩
      · exact .inl mem_cons_self
      · exact .inr ⟨p, notif, mem_cons_self, ht⟩
    · rcases ih h with hw | ⟨p, notif, hn, ht⟩
      · exact .inl (.tail _ hw)
      · exact .inr ⟨p, notif, .tail _ hn, Notice.waiters_deliver ht⟩

/-! ## The handle -/

inductive InterruptWaiter where
  | none
  | thread (t : ThreadRef)
  | port (p : PortRef) (key : BitVec 64)
  deriving DecidableEq

structure KInterruptHandle where
  /-- The last trigger has not been acknowledged. -/
  waitingAck : Bool
  /-- An event waits to be delivered. -/
  pending : Bool
  waiter : InterruptWaiter
  deriving DecidableEq

/-- How a turn of the loop in `KInterruptHandle::wait` ends. -/
inductive InterruptWait where
  /-- The `kassert!` fails: someone else waits. -/
  | failed
  | returned
  /-- The thread is registered and goes to sleep. -/
  | registered
  deriving DecidableEq

namespace KInterruptHandle

def new : KInterruptHandle := ⟨false, false, .none⟩

variable (this : KInterruptHandle)

/-- `trigger`; `now` is the uptime it reads. -/
def trigger (now : BitVec 64) : KInterruptHandle × List Notice :=
  if this.pending ∨ this.waitingAck then ({ this with pending := true }, [])
  else
    match this.waiter with
    | .none => ({ this with pending := true }, [])
    | .thread t => ({ this with pending := true, waiter := .none }, [.wake t])
    | .port p key => (this, [.notify p ⟨key, .interrupt now⟩])

/-- One turn of the loop in `wait`, for thread `t`. -/
def wait (t : ThreadRef) : InterruptWait × KInterruptHandle :=
  if this.waiter ≠ .none then (.failed, this)
  else if this.pending then (.returned, { this with waitingAck := false, pending := false })
  else (.registered, { this with waitingAck := false, waiter := .thread t })

def setPort (p : PortRef) (key now : BitVec 64) : KInterruptHandle × List Notice :=
  if this.pending ∧ ¬ this.waitingAck then
    ({ this with waitingAck := true, waiter := .port p key }, [.notify p ⟨key, .interrupt now⟩])
  else ({ this with waiter := .port p key }, [])

def ack (now : BitVec 64) : KInterruptHandle × List Notice :=
  if this.pending then
    match this.waiter with
    | .none => ({ this with waitingAck := true }, [])
    | .thread t => ({ this with waitingAck := true, waiter := .none }, [.wake t])
    | .port p key => ({ this with waitingAck := true }, [.notify p ⟨key, .interrupt now⟩])
  else ({ this with waitingAck := false }, [])

end KInterruptHandle

end Fioxa
