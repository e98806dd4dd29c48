import Fioxa.Lib.IntrusiveQueue

/-! # The run queue

`GlobalSchedData` has the two ends of the queue of runnable threads; the flags and the links are in
the `ThreadSchedGlobalData` of the threads. It behaves as a list without repetitions that threads
are appended to and taken from the front of. -/

namespace Fioxa.Sched

/-- `GlobalSchedData`, together with the `ThreadSchedGlobalData` of every thread. -/
abbrev GlobalSchedData (T : Type) := Intrusive.Queue T

inductive QueueCall (T : Type) where
  | popThread
  | queueThread (thread : T)

variable {T S : Type} [DecidableEq T]

/-- A call with what it returns; `none` if an assertion fails. -/
def queueCall (q : GlobalSchedData T) : QueueCall T → Option (Option T × GlobalSchedData T)
  | .popThread =>
    match q.pop with
    | none => some (none, q)
    | some (thread, q) => some (some thread, q)
  | .queueThread thread => (q.push thread).map fun q => (none, q)

/-- The same call on a list. -/
def fifoCall (l : List T) : QueueCall T → Option (Option T × List T)
  | .popThread => some (l.head?, l.tail)
  | .queueThread thread => some (none, if thread ∈ l then l else l ++ [thread])

/-- Calls one after the other, with what they return. -/
def runCalls (call : S → QueueCall T → Option (Option T × S)) :
    List (QueueCall T) → S → Option (List (Option T) × S)
  | [], s => some ([], s)
  | c :: cs, s => do
    let (result, s) ← call s c
    let (results, s) ← runCalls call cs s
    return (result :: results, s)

variable {q : GlobalSchedData T} {l : List T}

theorem queueCall_fifoCall (h : q.Represents l) (c : QueueCall T) :
    ∃ result q' l', queueCall q c = some (result, q') ∧ fifoCall l c = some (result, l') ∧
      q'.Represents l' := by
  cases c with
  | popThread =>
    cases l with
    | nil => exact ⟨none, q, [], by rw [queueCall, h.pop_nil], rfl, h⟩
    | cons x l =>
      obtain ⟨q', hpop, hq'⟩ := h.pop_cons
      exact ⟨some x, q', l, by rw [queueCall, hpop], rfl, hq'⟩
  | queueThread x =>
    by_cases hx : x ∈ l
    · have hpush : q.push x = some q := if_pos ((h.queued x).2 hx)
      exact ⟨none, q, l, by rw [queueCall, hpush]; rfl, by rw [fifoCall, if_pos hx], h⟩
    · obtain ⟨q', hpush, hq'⟩ := h.push_new hx
      exact ⟨none, q', l ++ [x], by rw [queueCall, hpush]; rfl, by rw [fifoCall, if_neg hx], hq'⟩

theorem runCalls_represents (h : q.Represents l) (cs : List (QueueCall T)) :
    ∃ results q' l', runCalls queueCall cs q = some (results, q') ∧
      runCalls fifoCall cs l = some (results, l') ∧ q'.Represents l' := by
  induction cs generalizing q l with
  | nil => exact ⟨[], q, l, rfl, rfl, h⟩
  | cons c cs ih =>
    obtain ⟨result, q1, l1, hq1, hl1, h1⟩ := queueCall_fifoCall h c
    obtain ⟨results, q', l', hq', hl', h'⟩ := ih h1
    refine ⟨result :: results, q', l', ?_, ?_, h'⟩
    · simp [runCalls, hq1, hq']
    · simp [runCalls, hl1, hl']

/-- After any calls on an empty queue no assertion has failed, the calls have returned what those on
    a list return, and the flags and the links are those of the list. -/
theorem run_queue_is_fifo (cs : List (QueueCall T)) :
    ∃ results q l, runCalls queueCall cs .empty = some (results, q) ∧
      runCalls fifoCall cs [] = some (results, l) ∧ q.Represents l :=
  runCalls_represents .empty cs

end Fioxa.Sched
