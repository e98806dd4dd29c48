import Mathlib.Data.Finset.Card
import Fioxa.Kernel.Ipc

/-! # Ports

A port (`kernel/src/port.rs`) is a queue of notifications and a queue of threads that wait for one.
`notify` pushes, takes the first waiter off and wakes it; the woken thread has been given nothing,
it goes back to the top of the loop in `wait` and locks the port again, at any later time. A thread
that arrives in between may find the notification and take it, and the woken one then registers
again.

The atomic steps are the sections under the port's lock. `pushed` and `returned` are ghost: what
`notify` pushed and what `wait` returned, per port and in order. A thread outside of `wait` may
sleep and be woken in other calls, or exit. -/

namespace Fioxa

open List Option
open Function (update update_self)

/-- One turn of the loop in `KPort::wait`, under the lock: the notification it returns, or the port
    with the thread registered. -/
def KPort.wait (port : KPort) (t : ThreadRef) : Option PortNotification × KPort :=
  match port.queue with
  | notif :: rest => (some notif, { port with queue := rest })
  | [] => (none, { port with waiters := port.waiters ++ [t] })

/-- Where a thread stands in `KPort::wait`. -/
inductive WaitCall where
  | away
  /-- Before the first turn of the loop. -/
  | entered (p : PortRef)
  /-- Inside `enter_sched`, until it has locked the port again. -/
  | asleep (p : PortRef)
  deriving DecidableEq

structure PortSystem where
  listeners : Listeners
  call : ThreadRef → WaitCall
  pushed : PortRef → List PortNotification
  returned : PortRef → List PortNotification

namespace PortSystem

def boot : PortSystem where
  listeners := ⟨fun _ => ⟨[], []⟩, fun _ => .runnable⟩
  call := fun _ => .away
  pushed := fun _ => []
  returned := fun _ => []

variable (s : PortSystem)

def port (p : PortRef) : KPort := s.listeners.port p

def thread (t : ThreadRef) : ThreadState := s.listeners.thread t

def setPort (p : PortRef) (port : KPort) : PortSystem :=
  { s with listeners := { s.listeners with port := update s.listeners.port p port } }

def setThread (t : ThreadRef) (state : ThreadState) : PortSystem :=
  { s with listeners := { s.listeners with thread := update s.listeners.thread t state } }

def setCall (t : ThreadRef) (call : WaitCall) : PortSystem :=
  { s with call := update s.call t call }

/-- A turn of thread `t` in `wait` on `p`. -/
def turn (t : ThreadRef) (p : PortRef) : PortSystem :=
  match (s.port p).wait t with
  | (some notif, port) =>
    { (s.setPort p port).setCall t .away with
      returned := update s.returned p (s.returned p ++ [notif]) }
  | (none, port) => ((s.setPort p port).setThread t .sleeping).setCall t (.asleep p)

inductive Action where
  | notify (p : PortRef) (notif : PortNotification)
  | wait (t : ThreadRef) (p : PortRef)
  /-- Thread `t`, inside `wait`, gets the lock of its port. -/
  | lock (t : ThreadRef)
  /-- Thread `t` goes to sleep in some other call. -/
  | block (t : ThreadRef)
  /-- Thread `t` is woken from some other call. -/
  | unblock (t : ThreadRef)
  | exit (t : ThreadRef)

def step (s : PortSystem) : Action → Option PortSystem
  | .notify p notif =>
    some { s with
      listeners := s.listeners.notify p notif
      pushed := update s.pushed p (s.pushed p ++ [notif]) }
  | .wait t p =>
    if s.call t = .away ∧ s.thread t = .runnable then some (s.setCall t (.entered p)) else none
  | .lock t =>
    match s.call t with
    | .away => none
    | .entered p => some (s.turn t p)
    | .asleep p => if s.thread t = .runnable then some (s.turn t p) else none
  | .block t =>
    if s.call t = .away ∧ s.thread t = .runnable then some (s.setThread t .sleeping) else none
  | .unblock t =>
    if s.call t = .away then some { s with listeners := s.listeners.wake t } else none
  | .exit t =>
    if s.call t = .away ∧ s.thread t = .runnable then some (s.setThread t .zombie) else none

/-- Thread `t` sleeps in `wait` on `p`. -/
def Sleeps (s : PortSystem) (p : PortRef) (t : ThreadRef) : Prop :=
  s.call t = .asleep p ∧ s.thread t = .sleeping

/-- Thread `t` was woken from `wait` on `p` and has not locked `p` again yet. -/
def OnItsWay (s : PortSystem) (p : PortRef) (t : ThreadRef) : Prop :=
  s.call t = .asleep p ∧ s.thread t = .runnable

/-! ## What a step does -/

/-- Thread `t` may take a turn in `wait` on `p`. -/
def AtPort (s : PortSystem) (p : PortRef) (t : ThreadRef) : Prop :=
  s.call t = .entered p ∨ s.OnItsWay p t

inductive Move (s : PortSystem) : PortSystem → Prop where
  | push (p notif) (hport : (s.port p).waiters = []) :
      Move s { s.setPort p ⟨(s.port p).queue ++ [notif], []⟩ with
        pushed := update s.pushed p (s.pushed p ++ [notif]) }
  | pushWake (p notif t rest) (hport : (s.port p).waiters = t :: rest) :
      Move s { s with
        listeners := (s.setPort p ⟨(s.port p).queue ++ [notif], rest⟩).listeners.wake t
        pushed := update s.pushed p (s.pushed p ++ [notif]) }
  | enter (t p) (hcall : s.call t = .away) :
      Move s (s.setCall t (.entered p))
  | pop (t p notif rest) (hcall : s.AtPort p t) (hqueue : (s.port p).queue = notif :: rest) :
      Move s { (s.setPort p { s.port p with queue := rest }).setCall t .away with
        returned := update s.returned p (s.returned p ++ [notif]) }
  | register (t p) (hcall : s.AtPort p t) (hqueue : (s.port p).queue = []) :
      Move s (((s.setPort p { s.port p with
        waiters := (s.port p).waiters ++ [t] }).setThread t .sleeping).setCall t (.asleep p))
  | elsewhere (t state) (hcall : s.call t = .away) :
      Move s (s.setThread t state)

variable {s : PortSystem} {t : ThreadRef} {p : PortRef}

theorem move_turn (h : s.AtPort p t) : s.Move (s.turn t p) := by
  cases hqueue : (s.port p).queue with
  | nil =>
    have hturn := Move.register t p h hqueue
    simpa only [turn, KPort.wait, hqueue] using hturn
  | cons notif rest =>
    have hturn := Move.pop t p notif rest h hqueue
    simpa only [turn, KPort.wait, hqueue] using hturn

theorem move_notify (s : PortSystem) (p : PortRef) (notif : PortNotification) :
    s.Move { s with
      listeners := s.listeners.notify p notif
      pushed := update s.pushed p (s.pushed p ++ [notif]) } := by
  cases hport : (s.port p).waiters with
  | nil =>
    have hnotify : s.listeners.notify p notif
        = (s.setPort p ⟨(s.port p).queue ++ [notif], []⟩).listeners := by
      have hport' : (s.listeners.port p).waiters = [] := hport
      simp only [Listeners.notify, KPort.notify, hport']
      rfl
    exact hnotify ▸ Move.push p notif hport
  | cons t rest =>
    have hnotify : s.listeners.notify p notif
        = (s.setPort p ⟨(s.port p).queue ++ [notif], rest⟩).listeners.wake t := by
      simp only [Listeners.notify, KPort.notify,
        show (s.listeners.port p).waiters = t :: rest from hport]
      rfl
    exact hnotify ▸ Move.pushWake p notif t rest hport

theorem move_wake (hcall : s.call t = .away) :
    s.Move { s with listeners := s.listeners.wake t } := by
  have hsame : s.setThread t (s.thread t) = s := by
    simp only [setThread, thread, Function.update_eq_self]
  unfold Listeners.wake
  cases hstate : s.listeners.thread t with
  | zombie | runnable => simpa only [hsame] using Move.elsewhere t (s.thread t) hcall
  | sleeping => exact Move.elsewhere t .runnable hcall

variable {s' : PortSystem}

theorem move_of_step {a : Action} (h : s.step a = some s') : s.Move s' := by
  cases a with
  | notify p notif =>
    rw [step, Option.some.injEq] at h
    exact h ▸ s.move_notify p notif
  | wait t p =>
    rw [step, ite_none_right_eq_some, Option.some.injEq] at h
    exact h.2 ▸ Move.enter t p h.1.1
  | lock =>
    rw [step] at h
    split at h
    · cases h
    · next p hcall =>
      rw [Option.some.injEq] at h
      exact h ▸ move_turn (.inl hcall)
    · next p hcall =>
      rw [ite_none_right_eq_some, Option.some.injEq] at h
      exact h.2 ▸ move_turn (.inr ⟨hcall, h.1⟩)
  | block t =>
    rw [step, ite_none_right_eq_some, Option.some.injEq] at h
    exact h.2 ▸ Move.elsewhere t .sleeping h.1.1
  | unblock =>
    rw [step, ite_none_right_eq_some, Option.some.injEq] at h
    exact h.2 ▸ move_wake h.1
  | exit t =>
    rw [step, ite_none_right_eq_some, Option.some.injEq] at h
    exact h.2 ▸ Move.elsewhere t .zombie h.1.1

/-! ## The invariant

Only a thread that has been taken off the waiter queue is on its way, and it was taken off for a
push. So while threads sleep on the port there are at least as many threads on their way as there
are queued notifications: a thief lowers the queue, a turn of a woken thread lowers both, and a
registration happens with an empty queue. -/

structure Inv (s : PortSystem) (p : PortRef) : Prop where
  logs : s.returned p ++ (s.port p).queue = s.pushed p
  registered : ∀ t, t ∈ (s.port p).waiters ↔ s.Sleeps p t
  nodup : (s.port p).waiters.Nodup
  woken : ∃ woken : Finset ThreadRef, (∀ t, t ∈ woken ↔ s.OnItsWay p t) ∧
    ((s.port p).waiters ≠ [] → (s.port p).queue.length ≤ woken.card)

theorem inv_boot (p : PortRef) : boot.Inv p where
  logs := rfl
  registered := by simp [boot, port, Sleeps]
  nodup := by simp [boot, port]
  woken := ⟨∅, by simp [boot, OnItsWay], by simp [boot, port]⟩

theorem Inv.frame (h : s.Inv p) (hport : s'.port p = s.port p) (hpushed : s'.pushed p = s.pushed p)
    (hreturned : s'.returned p = s.returned p)
    (hthreads : ∀ t, s.call t = .asleep p ∨ s'.call t = .asleep p →
      s'.call t = s.call t ∧ s'.thread t = s.thread t) : s'.Inv p := by
  have hstate : ∀ t state, s'.call t = .asleep p ∧ s'.thread t = state ↔
      s.call t = .asleep p ∧ s.thread t = state := by
    intro t state
    constructor
    · rintro ⟨hcall, hthread⟩
      obtain ⟨hcall', hthread'⟩ := hthreads t (.inr hcall)
      exact ⟨hcall' ▸ hcall, hthread' ▸ hthread⟩
    · rintro ⟨hcall, hthread⟩
      obtain ⟨hcall', hthread'⟩ := hthreads t (.inl hcall)
      exact ⟨hcall'.trans hcall, hthread'.trans hthread⟩
  obtain ⟨woken, hwoken, hcount⟩ := h.woken
  refine ⟨?_, ?_, ?_, woken, ?_, ?_⟩
  · rw [hport, hpushed, hreturned]
    exact h.logs
  · intro t
    rw [hport, h.registered t]
    exact (hstate t .sleeping).symm
  · rw [hport]
    exact h.nodup
  · intro t
    rw [hwoken t]
    exact (hstate t .runnable).symm
  · rw [hport]
    exact hcount

theorem Inv.frame_of_thread (h : s.Inv p) (hport : s'.port p = s.port p)
    (hpushed : s'.pushed p = s.pushed p) (hreturned : s'.returned p = s.returned p)
    (hbefore : s.call t ≠ .asleep p) (hafter : s'.call t ≠ .asleep p)
    (hothers : ∀ u, u ≠ t → s'.call u = s.call u ∧ s'.thread u = s.thread u) : s'.Inv p := by
  apply h.frame hport hpushed hreturned
  intro u hu
  apply hothers u
  rintro rfl
  exact hu.elim hbefore hafter

theorem asleep_ne {q : PortRef} (hq : q ≠ p) : WaitCall.asleep p ≠ .asleep q := by
  intro h
  exact hq (WaitCall.asleep.inj h).symm

theorem AtPort.call_ne {q : PortRef} (h : s.AtPort p t) (hq : q ≠ p) : s.call t ≠ .asleep q := by
  rcases h with h | h
  · simp [h]
  · rw [h.1]
    exact asleep_ne hq

theorem AtPort.not_sleeps (h : s.AtPort p t) : ¬ s.Sleeps p t := by
  rintro ⟨hcall, hthread⟩
  rcases h with h | h
  · exact absurd (h.symm.trans hcall) (by simp)
  · exact absurd (h.2.symm.trans hthread) (by simp)

variable {notif : PortNotification}

section

variable (h : ∀ p, s.Inv p)
include h

theorem Inv.push (hport : (s.port p).waiters = []) (q : PortRef) :
    Inv { s.setPort p ⟨(s.port p).queue ++ [notif], []⟩ with
      pushed := update s.pushed p (s.pushed p ++ [notif]) } q := by
  by_cases hq : q = p
  · subst hq
    obtain ⟨woken, hwoken, -⟩ := (h q).woken
    refine ⟨?_, ?_, ?_, woken, hwoken, ?_⟩
    · have hlogs := (h q).logs
      simp [port, setPort, ← hlogs]
    · intro t
      have hreg := (h q).registered t
      rw [hport] at hreg
      simpa [port, setPort, Sleeps, thread] using hreg
    · simp [port, setPort]
    · simp [port, setPort]
  · exact (h q).frame (by simp [port, setPort, hq]) (by simp [hq]) rfl (fun t _ => ⟨rfl, rfl⟩)

theorem Inv.pushWake {rest : List ThreadRef}
    (hport : (s.port p).waiters = t :: rest) (q : PortRef) :
    Inv { s with
      listeners := (s.setPort p ⟨(s.port p).queue ++ [notif], rest⟩).listeners.wake t
      pushed := update s.pushed p (s.pushed p ++ [notif]) } q := by
  obtain ⟨hcall, hthread⟩ : s.Sleeps p t := ((h p).registered t).1 (by simp [hport])
  have hwake : (s.setPort p ⟨(s.port p).queue ++ [notif], rest⟩).listeners.wake t =
      ((s.setPort p ⟨(s.port p).queue ++ [notif], rest⟩).setThread t .runnable).listeners := by
    unfold Listeners.wake
    rw [show (s.setPort p ⟨(s.port p).queue ++ [notif], rest⟩).listeners.thread t = .sleeping
      from hthread]
    rfl
  rw [hwake]
  by_cases hq : q = p
  · subst hq
    obtain ⟨woken, hwoken, hcount⟩ := (h q).woken
    obtain ⟨hnotin, hrest⟩ := nodup_cons.1 (hport ▸ (h q).nodup)
    have hnew : t ∉ woken := by
      intro hmem
      have hrun := ((hwoken t).1 hmem).2
      rw [hthread] at hrun
      cases hrun
    refine ⟨?_, ?_, ?_, insert t woken, ?_, ?_⟩
    · have hlogs := (h q).logs
      simp [port, setPort, setThread, ← hlogs]
    · intro u
      have hreg := (h q).registered u
      rw [hport, mem_cons] at hreg
      by_cases hu : u = t
      · subst hu
        simp [port, setPort, setThread, Sleeps, thread, hnotin]
      · simpa [port, setPort, setThread, Sleeps, thread, hu] using hreg
    · simpa [port, setPort, setThread] using hrest
    · intro u
      rw [Finset.mem_insert, hwoken u]
      by_cases hu : u = t
      · subst hu
        simp [OnItsWay, thread, setThread, hcall]
      · simp [OnItsWay, thread, setThread, setPort, hu]
    · intro _
      rw [Finset.card_insert_of_notMem hnew]
      have hle := hcount (by simp [hport])
      simpa [port, setPort, setThread] using hle
  · have hne : s.call t ≠ .asleep q := hcall ▸ asleep_ne hq
    refine (h q).frame_of_thread (by simp [port, setPort, setThread, hq]) (by simp [hq]) rfl
      hne hne ?_
    intro u hu
    simp [thread, setThread, setPort, hu]

theorem Inv.pop {rest : List PortNotification} (hat : s.AtPort p t)
    (hqueue : (s.port p).queue = notif :: rest) (q : PortRef) :
    Inv { (s.setPort p { s.port p with queue := rest }).setCall t .away with
      returned := update s.returned p (s.returned p ++ [notif]) } q := by
  by_cases hq : q = p
  · subst hq
    obtain ⟨woken, hwoken, hcount⟩ := (h q).woken
    refine ⟨?_, ?_, ?_, woken.erase t, ?_, ?_⟩
    · have hlogs := (h q).logs
      rw [hqueue] at hlogs
      simp [port, setPort, setCall, ← hlogs]
    · intro u
      have hreg := (h q).registered u
      by_cases hu : u = t
      · subst hu
        rw [iff_false_right hat.not_sleeps] at hreg
        simpa [port, setPort, setCall, Sleeps] using hreg
      · simpa [port, setPort, setCall, Sleeps, thread, hu] using hreg
    · simpa [port, setPort, setCall] using (h q).nodup
    · intro u
      rw [Finset.mem_erase, hwoken u]
      by_cases hu : u = t
      · subst hu
        simp [OnItsWay, setCall]
      · simp [OnItsWay, thread, setCall, setPort, hu]
    · intro hne
      have hle := hcount (by simpa [port, setPort, setCall] using hne)
      have hcard := woken.pred_card_le_card_erase (a := t)
      rw [hqueue, length_cons] at hle
      simp only [port, setPort, setCall, update_self]
      omega
  · refine (h q).frame_of_thread (by simp [port, setPort, setCall, hq]) rfl (by simp [hq])
      (hat.call_ne hq) (by simp [setCall]) ?_
    intro u hu
    simp [thread, setCall, setPort, hu]

theorem Inv.register (hat : s.AtPort p t) (hqueue : (s.port p).queue = []) (q : PortRef) :
    Inv (((s.setPort p { s.port p with
      waiters := (s.port p).waiters ++ [t] }).setThread t .sleeping).setCall t (.asleep p)) q := by
  by_cases hq : q = p
  · subst hq
    obtain ⟨woken, hwoken, -⟩ := (h q).woken
    have hnotin : t ∉ (s.port q).waiters := fun hmem =>
      hat.not_sleeps (((h q).registered t).1 hmem)
    refine ⟨?_, ?_, ?_, woken.erase t, ?_, ?_⟩
    · simpa [port, setPort, setThread, setCall] using (h q).logs
    · intro u
      have hreg := (h q).registered u
      by_cases hu : u = t
      · subst hu
        simp [port, setPort, setThread, setCall, Sleeps, thread]
      · simpa [port, setPort, setThread, setCall, Sleeps, thread, hu] using hreg
    · simpa [port, setPort, setThread, setCall] using (h q).nodup.concat hnotin
    · intro u
      rw [Finset.mem_erase, hwoken u]
      by_cases hu : u = t
      · subst hu
        simp [OnItsWay, setCall, setThread, thread]
      · simp [OnItsWay, thread, setCall, setThread, setPort, hu]
    · intro _
      have hzero : (s.listeners.port q).queue.length = 0 := by
        rw [show (s.listeners.port q).queue = [] from hqueue, length_nil]
      simp [port, setPort, setThread, setCall, hzero]
  · refine (h q).frame_of_thread (by simp [port, setPort, setThread, setCall, hq]) rfl rfl
      (hat.call_ne hq) (by simpa [setCall] using asleep_ne hq) ?_
    intro u hu
    simp [thread, setCall, setThread, setPort, hu]

theorem Inv.move (m : s.Move s') (q : PortRef) : s'.Inv q := by
  cases m with
  | push p notif hport => exact Inv.push h hport q
  | pushWake p notif t rest hport => exact Inv.pushWake h hport q
  | enter t p hcall =>
    refine (h q).frame_of_thread (t := t) rfl rfl rfl (by simp [hcall]) (by simp [setCall]) ?_
    intro u hu
    simp [thread, setCall, hu]
  | pop t p notif rest hat hqueue => exact Inv.pop h hat hqueue q
  | register t p hat hqueue => exact Inv.register h hat hqueue q
  | elsewhere t state hcall =>
    refine (h q).frame_of_thread (t := t) rfl rfl rfl (by simp [hcall])
      (by simp [setThread, hcall]) ?_
    intro u hu
    simp [thread, setThread, hu]

end

/-! ## Whole runs -/

theorem inv_of_reachable (h : Lts.Reachable step boot s) (p : PortRef) : s.Inv p := by
  refine h.invariant (I := fun s => ∀ p, s.Inv p) ?_ inv_boot p
  intro s a s' hs hstep
  exact Inv.move hs (move_of_step hstep)

/-- **Ports deliver.** In every state the system can reach, whatever the interleaving, and for every
    port: what `wait` returned followed by the queue is what `notify` pushed; and when no woken
    thread is on its way back to the lock, nothing is queued while a thread sleeps in the port. -/
theorem port_delivery {s : PortSystem} (h : Lts.Reachable step boot s) (p : PortRef) :
    s.returned p ++ (s.port p).queue = s.pushed p ∧
    ((∀ t, ¬ s.OnItsWay p t) → ¬ ((s.port p).queue ≠ [] ∧ ∃ t, s.Sleeps p t)) := by
  have hinv := inv_of_reachable h p
  refine ⟨hinv.logs, ?_⟩
  rintro hway ⟨hqueue, t, ht⟩
  obtain ⟨woken, hwoken, hcount⟩ := hinv.woken
  have hnone : woken = ∅ := by
    rw [Finset.eq_empty_iff_forall_notMem]
    intro u hu
    exact hway u ((hwoken u).1 hu)
  have hmem : t ∈ (s.port p).waiters := (hinv.registered t).2 ht
  have hle := hcount (ne_nil_of_mem hmem)
  rw [hnone, Finset.card_empty, Nat.le_zero, length_eq_zero_iff] at hle
  exact hqueue hle

/-- Threads 0 and 1 sleep on port 0; a push wakes thread 0, thread 2 comes in and takes the
    notification, and thread 0 finds the queue empty and registers again behind thread 1. -/
def stolenRun : List Action :=
  [.wait 0 0, .lock 0, .wait 1 0, .lock 1, .notify 0 ⟨7, .user 1⟩, .wait 2 0, .lock 2, .lock 0]

theorem port_delivery_stolen :
    ∃ s ∈ Lts.run step boot stolenRun,
      ((s.port 0).waiters = [1, 0] ∧ s.returned 0 = [⟨7, .user 1⟩]) ∧
      s.returned 0 ++ (s.port 0).queue = s.pushed 0 := by
  have hrun : ∃ s ∈ Lts.run step boot stolenRun,
      (s.port 0).waiters = [1, 0] ∧ s.returned 0 = [⟨7, .user 1⟩] := by decide
  obtain ⟨s, hs, hstate⟩ := hrun
  exact ⟨s, hs, hstate, (port_delivery ⟨stolenRun, hs⟩ 0).1⟩

end PortSystem

end Fioxa
