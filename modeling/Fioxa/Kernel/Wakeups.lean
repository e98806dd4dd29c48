import Fioxa.Kernel.Delivery

/-! # Signals and their waiters

Three facts about every object of the system, in every state it can reach. The signals of a live
endpoint mirror its queue and its open flag. No stored waiter is already satisfied, although
`set_signal` returns early when the status does not change and the `Wait` system calls check the
status before they register. And a waiter fires at the first update after its registration that
satisfies it, never at another one: this is the law of one-shot watchers (`Lib/OneShot.lean`), read
off the history each object keeps. -/

namespace Fioxa

open List OneShot KObjectSignal Function

/-! ## Whom a `set_signal` call reaches -/

namespace Listeners

/-- What firing `w` puts into the queue of port `p`. -/
def notification (new : ObjectSignal) (p : PortRef) (w : SignalWaiter) : Option PortNotification :=
  match w.ty with
  | .one _ => none
  | .port port key => if port = p then some ⟨key, .signalOne w.mask new⟩ else none

@[simp] theorem wake_port (l : Listeners) (t : ThreadRef) : (l.wake t).port = l.port := by
  unfold wake
  split <;> rfl

theorem wake_awake (l : Listeners) (t : ThreadRef) : (l.wake t).thread t ≠ .sleeping := by
  unfold wake
  split
  · next h => simp [h]
  · next h => simp [h]
  · simp

variable {x : ThreadRef}

theorem wake_mono (l : Listeners) (t : ThreadRef) (hx : l.thread x ≠ .sleeping) :
    (l.wake t).thread x ≠ .sleeping := by
  unfold wake
  split
  · exact hx
  · exact hx
  · by_cases hxt : x = t
    · subst hxt; simp
    · simpa [hxt] using hx

theorem notify_queue (l : Listeners) (p p' : PortRef) (notif : PortNotification) :
    ((l.notify p notif).port p').queue = (l.port p').queue ++ (if p = p' then [notif] else []) := by
  have hqueue : ((l.port p).notify notif).1.queue = (l.port p).queue ++ [notif] := by
    unfold KPort.notify
    split <;> rfl
  have hport : (l.notify p notif).port = update l.port p ((l.port p).notify notif).1 := by
    unfold notify
    dsimp only
    split
    · rfl
    · rw [wake_port]
  rw [hport]
  by_cases hp : p = p'
  · subst hp
    simp [hqueue]
  · simp [update_of_ne (Ne.symm hp), hp]

theorem foldl_fireOne_mono (new : ObjectSignal) (ws : List SignalWaiter) (l : Listeners)
    (hx : l.thread x ≠ .sleeping) :
    (ws.foldl (fireOne new) l).thread x ≠ .sleeping := by
  induction ws generalizing l with
  | nil => exact hx
  | cons w ws ih =>
    refine ih _ ?_
    unfold fireOne
    split
    · exact wake_mono _ _ hx
    · unfold notify
      dsimp only
      split
      · exact hx
      · exact wake_mono _ _ hx

theorem fire_awake (l : Listeners) {call : SetSignal} {w : SignalWaiter} {t : ThreadRef}
    (hw : w ∈ call.fired) (ht : w.ty = .one t) : (l.fire call).thread t ≠ .sleeping := by
  unfold fire
  obtain ⟨before, after, hsplit⟩ := append_of_mem hw
  rw [hsplit, foldl_append, foldl_cons]
  apply foldl_fireOne_mono
  simp only [fireOne, ht]
  exact wake_awake _ _

/-- A port receives one notification for each of its waiters that fires, in order, and nothing
    else. -/
theorem fire_queue (l : Listeners) (call : SetSignal) (p : PortRef) :
    ((l.fire call).port p).queue
      = (l.port p).queue ++ call.fired.filterMap (notification call.new p) := by
  unfold fire
  generalize call.fired = ws
  induction ws generalizing l with
  | nil => simp
  | cons w ws ih =>
    rw [foldl_cons, ih, filterMap_cons]
    unfold fireOne
    cases hty : w.ty with
    | one => simp [notification, hty]
    | port q =>
      by_cases hq : q = p
      · simp [notify_queue, notification, hty, hq]
      · simp [notify_queue, notification, hty, hq]

end Listeners

/-! ## The invariant -/

namespace Kernel

variable {n : Nat}

/-- The signals of `o` and the history they have. -/
structure Watched (k : Kernel n) (o : SignalObject) : Prop where
  quiet : (k.signals o).Quiet
  sound : OneShot.Sound hits (k.history o)
  pending : OneShot.pending hits (k.history o) = (k.signals o).signalWaiters
  /-- Registrations are numbered in order, so no two waiters of an object are the same. -/
  numbered : ∀ w ∈ OneShot.registrations (k.history o), w.registration < k.registrations
  nodup : (OneShot.registrations (k.history o)).Nodup

theorem watched_boot (n : Nat) (o : SignalObject) : (boot n).Watched o := by
  have hsig : (boot n).signals o = .new := by cases o <;> rfl
  refine ⟨?_, trivial, ?_, ?_, nodup_nil⟩
  · rw [hsig]; exact quiet_new
  · rw [hsig]; rfl
  · intro w hw
    exact absurd hw (by simp [boot, OneShot.registrations])

variable {k : Kernel n}

theorem Watched.move {k' : Kernel n} {o : SignalObject} (hw : k.Watched o) (m : SignalMove k k' o) :
    k'.Watched o := by
  cases m with
  | same hregs hsig hhist =>
    refine ⟨hsig ▸ hw.quiet, hhist ▸ hw.sound, by rw [hhist, hsig, hw.pending], ?_,
      hhist ▸ hw.nodup⟩
    intro w hmem
    rw [hhist] at hmem
    exact Nat.lt_of_lt_of_le (hw.numbered w hmem) hregs
  | registered _ ty mask hquiet hregs hsig hhist =>
    refine ⟨?_, ?_, ?_, ?_, ?_⟩
    · rw [hsig]
      exact hw.quiet.wait hquiet
    · rw [hhist]
      exact hw.sound
    · rw [hhist, hsig, OneShot.pending, hw.pending]
      rfl
    · intro w hmem
      rw [hhist, OneShot.registrations, mem_cons] at hmem
      rw [hregs]
      rcases hmem with rfl | hmem
      · exact Nat.lt_succ_self _
      · exact Nat.lt_succ_of_lt (hw.numbered w hmem)
    · rw [hhist, OneShot.registrations, nodup_cons]
      -- the new waiter carries a number no earlier one has
      exact ⟨fun hmem => Nat.lt_irrefl _ (hw.numbered _ hmem), hw.nodup⟩
  | updated _ flag status hregs hsig hhist =>
    obtain ⟨hfired, hkept⟩ := hw.quiet.setSignal_fired flag status
    refine ⟨?_, ?_, ?_, ?_, ?_⟩
    · rw [hsig]
      exact hw.quiet.setSignal flag status
    · rw [hhist]
      refine ⟨?_, hw.sound⟩
      rw [hfired, hw.pending, setSignal_new]
    · rw [hhist, hsig, OneShot.pending, hw.pending, hkept, setSignal_new]
    · intro w hmem
      rw [hhist] at hmem
      rw [hregs]
      exact hw.numbered w hmem
    · rw [hhist]
      exact hw.nodup

theorem Coherent.move {k' : Kernel n} (hk : k.Wf) (m : Move k k') {e : Nat}
    (hc : k.Alive e → (k.channel e).Coherent) (halive : k'.Alive e) : (k'.channel e).Coherent := by
  have hbefore : (k.channel e).Coherent := by
    by_cases he : e < k.next
    · exact hc (alive_before m he halive)
    · rw [(hk.fresh e (Nat.le_of_not_lt he)).1]
      exact KChannelInner.coherent_new
  cases channelMove hk m e with
  | same hchan => exact hchan ▸ hbefore
  | waiter _ w hchan => exact hchan ▸ ⟨hbefore.readable, hbefore.closed⟩
  | send _ msg call hsender hsend => exact hbefore.send hsend
  | read _ packet rest hqueue hchan => exact hchan ▸ hbefore.take rest
  | closeSelf hlt hdead => exact absurd halive (dead_of_move m hlt hdead)
  | closePeer _ hchan => exact hchan ▸ hbefore.closePeer

/-- What holds of the signals in every reachable state. -/
structure SignalsOk (k : Kernel n) : Prop where
  wf : k.Wf
  coherent : ∀ e, k.Alive e → (k.channel e).Coherent
  watched : ∀ o, k.Watched o

theorem signalsOk_of_reachable (h : Lts.Reachable step (boot n) k) :
    k.SignalsOk := by
  refine h.invariant ?_ ⟨wf_boot n, fun _ _ => KChannelInner.coherent_new, watched_boot n⟩
  intro k a k' hk hstep
  have m := move_of_step hstep
  exact ⟨hk.wf.move m, fun e => Coherent.move hk.wf m (hk.coherent e),
    fun o => (hk.watched o).move (signalMove hk.wf m o)⟩

/-- Thread `a` waits on endpoint 1 for `READABLE`, port 7 waits on it for a close; thread `b` sends
    to it and then drops the sending end. -/
def wakeupRun (a b : Fin 2) : List (Action 2) :=
  [.create, .waitPort b (.channel 1) 7 ObjectSignal.channelClosed 42,
    .resume b, .resume b, .resume b,
    .wait a (.channel 1) ObjectSignal.readable, .resume a,
    .send b 0 ⟨[5], none⟩, .resume b, .resume b, .resume b, .resume b, .resume b,
    .drop b 0, .resume b, .resume b, .resume b, .resume b]

end Kernel

end Fioxa
