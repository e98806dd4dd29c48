import Fioxa.Kernel.Ipc

/-! # What a step of the IPC system can do

`Kernel.step` has some twenty-five branches. `Move` lists what they amount to — the branches that
only advance a thread's `Task` are one case — and `move_of_step` is the only place where the step
function is taken apart. Everything else in this directory argues by cases on `Move`.

`Wf` collects the bookkeeping facts about references: what is referenced is allocated, peers are
mutual, and an endpoint whose destructor runs has no strong reference left. -/

namespace Fioxa.Kernel

open List Option Function

variable {n : Nat}

/-! ## Frame lemmas of the elementary updates -/

section Frame

variable (k : Kernel n) (a : Fin n) (t : Task) (e : Nat) (msg : ChannelMessage) (o : SignalObject)
  (chan : KChannelInner) (call : Option SetSignal)

@[simp] theorem setTask_channel : (k.setTask a t).channel e = k.channel e := rfl

@[simp] theorem setTask_signals : (k.setTask a t).signals o = k.signals o := by cases o <;> rfl

@[simp] theorem setTask_peer : (k.setTask a t).peer = k.peer := rfl

@[simp] theorem logSent_channel : (k.logSent e msg).channel = k.channel := rfl

@[simp] theorem logSent_peer : (k.logSent e msg).peer = k.peer := rfl

@[simp] theorem logSent_signals : (k.logSent e msg).signals o = k.signals o := by cases o <;> rfl

@[simp] theorem logReceived_channel : (k.logReceived e msg).channel = k.channel := rfl

@[simp] theorem logReceived_peer : (k.logReceived e msg).peer = k.peer := rfl

@[simp] theorem logReceived_signals : (k.logReceived e msg).signals o = k.signals o := by
  cases o <;> rfl

@[simp] theorem putChannel_next : (k.putChannel e chan call).next = k.next := by cases call <;> rfl

@[simp] theorem putChannel_held : (k.putChannel e chan call).held = k.held := by cases call <;> rfl

@[simp] theorem putChannel_task : (k.putChannel e chan call).task = k.task := by cases call <;> rfl

@[simp] theorem putChannel_sent : (k.putChannel e chan call).sent = k.sent := by cases call <;> rfl

@[simp] theorem putChannel_received : (k.putChannel e chan call).received = k.received := by
  cases call <;> rfl

@[simp] theorem putChannel_process : (k.putChannel e chan call).process = k.process := by
  cases call <;> rfl

@[simp] theorem putChannel_registrations :
    (k.putChannel e chan call).registrations = k.registrations := by cases call <;> rfl

theorem putChannel_handle :
    (k.putChannel e chan call).handle = update k.handle e ⟨chan, k.peer e⟩ := by
  cases call <;> rfl

@[simp] theorem putChannel_peer : (k.putChannel e chan call).peer = k.peer := by
  funext x
  simp only [peer, putChannel_handle]
  by_cases hx : x = e
  · subst hx; simp
  · simp [hx]

@[simp] theorem putChannel_channel_self : (k.putChannel e chan call).channel e = chan := by
  simp [channel, putChannel_handle]

end Frame

variable {e : Nat}

theorem putChannel_channel_ne (k : Kernel n) {x : Nat} (chan : KChannelInner)
    (call : Option SetSignal) (hx : x ≠ e) :
    (k.putChannel e chan call).channel x = k.channel x := by
  simp [channel, putChannel_handle, hx]

theorem putChannel_self (k : Kernel n) (e : Nat) : k.putChannel e (k.channel e) none = k := by
  have hself : update k.handle e ⟨k.channel e, k.peer e⟩ = k.handle :=
    Function.update_eq_self e k.handle
  simp only [putChannel, hself]

variable {k : Kernel n} {a : Fin n}

theorem alive_of_arc (h : e ∈ (k.task a).arcs) : k.Alive e :=
  .inr ⟨a, h⟩

theorem alive_of_task {t : Task} (htask : k.task a = t) (h : e ∈ t.arcs) : k.Alive e :=
  alive_of_arc (htask ▸ h)

theorem alive_of_held (h : 0 < k.held e) : k.Alive e := .inl h

variable {o : SignalObject}

section Register

variable (k : Kernel n) (o : SignalObject) (ty : SignalWaiterType) (mask : ObjectSignal)

@[simp] theorem register_next : (k.register o ty mask).next = k.next := by cases o <;> rfl

@[simp] theorem register_held : (k.register o ty mask).held = k.held := by cases o <;> rfl

@[simp] theorem register_task : (k.register o ty mask).task = k.task := by cases o <;> rfl

@[simp] theorem register_sent : (k.register o ty mask).sent = k.sent := by cases o <;> rfl

@[simp] theorem register_received : (k.register o ty mask).received = k.received := by
  cases o <;> rfl

@[simp] theorem register_peer : (k.register o ty mask).peer = k.peer := by
  funext x
  cases o with
  | process => rfl
  | channel e =>
    by_cases hx : x = e
    · subst hx; simp [peer, register, putSignals]
    · simp [peer, register, putSignals, hx]

end Register

theorem register_channel_ne (k : Kernel n) (ty : SignalWaiterType) (mask : ObjectSignal)
    (ho : o ≠ .channel e) :
    (k.register o ty mask).channel e = k.channel e := by
  cases o with
  | process => rfl
  | channel x =>
    have hx : e ≠ x := fun h => ho (by rw [h])
    simp [channel, register, putSignals, hx]

/-! ## The moves -/

/-- What a step does, as the state it leads to. -/
inductive Move (k : Kernel n) : Kernel n → Prop where
  | create : Move k k.channelCreate
  | clone (e : _) (hheld : 0 < k.held e) :
      Move k { k with held := update k.held e (k.held e + 1) }
  /-- A thread goes on without touching a kernel object; it only keeps or takes references to
      endpoints that are alive. -/
  | advance (a t : _) (harcs : ∀ e ∈ t.arcs, k.Alive e)
      (hsend : ∀ e p msg, t = .sendLock e p msg → p = k.peer e)
      (hclose : ∀ e rest, t ≠ .closeSelf e rest) : Move k (k.setTask a t)
  | drop (a e : _) (hheld : 0 < k.held e) :
      Move k ({ k with held := update k.held e (k.held e - 1) }.setTask a (.release [e]))
  /-- The last strong reference to `e` goes away. -/
  | destroy (a e rest : _) (htask : k.task a = .release (e :: rest))
      (hdead : ¬ (k.setTask a (.release rest)).Alive e) :
      Move k ((k.setTask a (.release rest)).setTask a (.closeSelf e rest))
  | send (a e p msg chan call : _) (htask : k.task a = .sendLock e p msg)
      (hsend : (k.channel p).send msg = some (chan, call)) :
      Move k (((k.putChannel p chan (some call)).logSent p msg).setTask a (.release [p, e]))
  | read (a e maxBytes maxHandles packet rest : _)
      (htask : k.task a = .readLock e maxBytes maxHandles)
      (hqueue : (k.channel e).queue = packet :: rest) :
      Move k (((k.putChannel e
          ⟨((k.channel e).signal.setSignal .readable (!rest.isEmpty)).signal, (k.channel e).isOpen,
            rest⟩
          (some ((k.channel e).signal.setSignal .readable (!rest.isEmpty)))).logReceived e
            packet).setTask a (.release [e]))
  /-- A waiter is stored on an object whose status does not satisfy it. -/
  | register (a o ty mask l t : _) (harcs : (k.task a).arcs = o.arcs) (ht : t.arcs = o.arcs)
      (hsend : ∀ e p msg, t ≠ .sendLock e p msg) (hclose : ∀ e rest, t ≠ .closeSelf e rest)
      (hquiet : (k.signals o).signalStatus.intersects mask = false) :
      Move k ({ k.register o ty mask with listeners := l }.setTask a t)
  /-- `WaitPort` on an object that already satisfies it: only a port is notified. -/
  | notify (a l arcs : _) (harcs : (k.task a).arcs = arcs) :
      Move k ({ k with listeners := l }.setTask a (.release arcs))
  | closeSelf (a e rest : _) (htask : k.task a = .closeSelf e rest) :
      Move k ((k.putChannel e (k.channel e).closeSelf.1 (some (k.channel e).closeSelf.2)).setTask a
        (.closeUpgrade e rest))
  | closePeer (a p rest : _) (htask : k.task a = .closePeer p rest) :
      Move k ((k.putChannel p (k.channel p).closePeer.1 (some (k.channel p).closePeer.2)).setTask a
        (.release (p :: rest)))
  /-- The two sections of a process exit that do not touch its signals. -/
  | process (a p status listed t : _) (harcs : t.arcs = [])
      (hclose : ∀ e rest, t ≠ .closeSelf e rest)
      (hsend : ∀ e p msg, t ≠ .sendLock e p msg) :
      Move k ((k.putProcess p ⟨status, (k.process p).signals, listed⟩).setTask a t)
  | exitSignal (a p : _) :
      Move k ({ k.putProcess p { k.process p with
          signals := ((k.process p).signals.setSignal .processExited true).signal } with
        listeners := k.listeners.fire ((k.process p).signals.setSignal .processExited true)
        history := update k.history (.process p)
          (.updated ((k.process p).signals.setSignal .processExited true).new
            ((k.process p).signals.setSignal .processExited true).fired
            :: k.history (.process p)) }.setTask a (.exitRemove p))

variable {k' : Kernel n}

theorem Move.of_resume (h : k.resume a = some k') : Move k k' := by
  unfold resume at h
  split at h
  case h_1 => cases h
  case h_2 e msg htask =>
    have he : k.Alive e := alive_of_task htask (.head _)
    dsimp only at h
    split at h
    · next hp =>
      cases h
      refine .advance a _ ?_ ?_ (by simp)
      · intro x hx
        simp only [Task.arcs, mem_cons, not_mem_nil, or_false] at hx
        rcases hx with rfl | rfl
        · exact hp
        · exact he
      · rintro e' p' msg' heq
        cases heq
        rfl
    · cases h
      exact .advance a _ (by simpa [Task.arcs] using he) (by simp) (by simp)
  case h_3 e p msg htask =>
    split at h
    · cases h
      exact .advance a _ (fun x hx => alive_of_task htask hx) (by simp) (by simp)
    · next chan call hsend =>
      cases h
      exact .send a e p msg chan call htask hsend
  case h_4 e maxBytes maxHandles htask =>
    rcases (k.channel e).read_cases maxBytes maxHandles with ⟨-, hr⟩ | ⟨packet, rest, -, -, hr⟩ |
      ⟨packet, rest, hq, -, hr⟩
    · rw [hr] at h
      cases h
      rw [putChannel_self]
      exact .advance a _ (fun x hx => alive_of_task htask hx) (by simp) (by simp)
    · rw [hr] at h
      cases h
      rw [putChannel_self]
      exact .advance a _ (fun x hx => alive_of_task htask hx) (by simp) (by simp)
    · rw [hr] at h
      cases h
      exact .read a e maxBytes maxHandles packet rest htask hq
  case h_5 o mask htask =>
    have ho : (k.task a).arcs = o.arcs := by rw [htask]; rfl
    split at h
    · cases h
      exact .advance a _ (fun x hx => alive_of_task htask hx) (by simp) (by simp)
    · next hstat =>
      cases h
      exact .register a o _ mask _ _ ho rfl (by simp) (by simp) (by simpa using hstat)
  case h_6 o htask =>
    have ho : (k.task a).arcs = o.arcs := by rw [htask]; rfl
    split at h
    · cases h
      exact .advance a _ (fun x hx => alive_of_task htask hx) (by simp) (by simp)
    · cases h
  case h_7 o port mask key htask =>
    have ho : (k.task a).arcs = o.arcs := by rw [htask]; rfl
    split at h
    · cases h
      exact .notify a _ _ ho
    · next hstat =>
      cases h
      exact .register a o _ mask _ _ ho rfl (by simp) (by simp) (by simpa using hstat)
  case h_8 htask =>
    cases h
    exact .advance a _ (by simp [Task.arcs]) (by simp) (by simp)
  case h_9 e rest htask =>
    dsimp only at h
    split at h
    · cases h
      exact .advance a _ (fun x hx => alive_of_task htask (.tail e hx)) (by simp) (by simp)
    · next hdead =>
      cases h
      exact .destroy a e rest htask hdead
  case h_10 e rest htask =>
    cases h
    exact .closeSelf a e rest htask
  case h_11 e rest htask =>
    have hrest : ∀ x ∈ rest, k.Alive x := fun x hx => alive_of_task htask hx
    dsimp only at h
    split at h
    · next hp =>
      cases h
      refine .advance a _ ?_ (by simp) (by simp)
      intro x hx
      rcases mem_cons.1 hx with rfl | hx
      · exact hp
      · exact hrest x hx
    · cases h
      exact .advance a _ hrest (by simp) (by simp)
  case h_12 p rest htask =>
    cases h
    exact .closePeer a p rest htask
  case h_13 p htask =>
    cases h
    exact .process a p _ _ _ rfl (by simp) (by simp)
  case h_14 p htask =>
    cases h
    exact .exitSignal a p
  case h_15 p htask =>
    cases h
    exact .process a p _ _ _ rfl (by simp) (by simp)

theorem alive_of_hasHandle (ho : k.HasHandle o) : ∀ e ∈ o.arcs, k.Alive e := by
  cases o with
  | channel =>
    intro x hx
    simp only [SignalObject.arcs, mem_singleton] at hx
    exact hx ▸ .inl ho
  | process => intro x hx; exact absurd hx (by simp [SignalObject.arcs])

theorem move_of_step {act : Action n} (h : k.step act = some k') : Move k k' := by
  cases act with
  | create =>
    cases h
    exact .create
  | clone e =>
    simp only [step, ite_none_right_eq_some, Option.some.injEq] at h
    obtain ⟨hheld, rfl⟩ := h
    exact .clone e hheld
  | send a | read a =>
    simp only [step, ite_none_right_eq_some, Option.some.injEq] at h
    obtain ⟨⟨-, hheld⟩, rfl⟩ := h
    exact .advance a _ (by simpa [Task.arcs] using alive_of_held hheld) (by simp) (by simp)
  | drop a e =>
    simp only [step, ite_none_right_eq_some, Option.some.injEq] at h
    obtain ⟨⟨-, hheld⟩, rfl⟩ := h
    exact .drop a e hheld
  | wait a | waitPort a =>
    simp only [step, ite_none_right_eq_some, Option.some.injEq] at h
    obtain ⟨⟨-, ho⟩, rfl⟩ := h
    exact .advance a _ (alive_of_hasHandle ho) (by simp) (by simp)
  | exit a =>
    simp only [step, ite_none_right_eq_some, Option.some.injEq] at h
    obtain ⟨-, rfl⟩ := h
    exact .advance a _ (by simp [Task.arcs]) (by simp) (by simp)
  | resume => exact Move.of_resume h

/-- A step of thread `a` to the task `t`: it keeps or takes only references to live endpoints. -/
structure ThreadMove (k k' : Kernel n) (a : Fin n) (t : Task) : Prop where
  next : k'.next = k.next
  peer : k'.peer = k.peer
  held : ∀ e, 0 < k'.held e → k.Alive e
  task : k'.task = update k.task a t
  arcs : ∀ e ∈ t.arcs, k.Alive e
  send : ∀ e p msg, t = .sendLock e p msg → p = k.peer e
  close : ∀ e rest, t = .closeSelf e rest → k.Alive e ∧ ¬ k'.Alive e

theorem ThreadMove.of_arcs {t : Task} (hnext : k'.next = k.next) (hpeer : k'.peer = k.peer)
    (hheld : k'.held = k.held) (htask : k'.task = update k.task a t)
    (harcs : ∀ e ∈ t.arcs, k.Alive e) (hsend : ∀ e p msg, t ≠ .sendLock e p msg)
    (hclose : ∀ e rest, t ≠ .closeSelf e rest) : ThreadMove k k' a t where
  next := hnext
  peer := hpeer
  held _ he := alive_of_held (hheld ▸ he)
  task := htask
  arcs := harcs
  send _ _ _ ht := absurd ht (hsend _ _ _)
  close _ _ ht := absurd ht (hclose _ _)

theorem Move.threadMove (m : Move k k') :
    k' = k.channelCreate ∨
    (∃ e, 0 < k.held e ∧ k' = { k with held := update k.held e (k.held e + 1) }) ∨
    ∃ a t, ThreadMove k k' a t := by
  have hheld : ∀ e, 0 < k.held e → k.Alive e := fun _ => .inl
  cases m with
  | create => exact .inl rfl
  | clone e h => exact .inr (.inl ⟨e, h, rfl⟩)
  | advance a t harcs hsend hclose =>
    exact .inr (.inr ⟨a, t, rfl, rfl, hheld, rfl, harcs, hsend,
      fun e rest ht => absurd ht (hclose e rest)⟩)
  | drop a e h =>
    refine .inr (.inr ⟨a, .release [e], rfl, rfl, fun x hx => ?_, rfl, ?_, by simp, by simp⟩)
    · by_cases hxe : x = e
      · exact hxe ▸ alive_of_held h
      · simp only [setTask, update_of_ne hxe] at hx
        exact alive_of_held hx
    · simpa [Task.arcs] using alive_of_held h
  | destroy a e rest htask hdead =>
    refine .inr (.inr ⟨a, .closeSelf e rest, rfl, rfl, hheld, by simp [setTask],
      fun x hx => alive_of_task htask (.tail e hx), by simp, ?_⟩)
    -- `release rest` and `closeSelf e rest` keep the same references
    rintro e' rest' heq
    cases heq
    refine ⟨alive_of_task htask (.head _), fun halive => hdead (halive.imp id ?_)⟩
    rintro ⟨b, hb⟩
    refine ⟨b, ?_⟩
    by_cases hab : b = a
    · subst hab
      simpa [setTask, Task.arcs] using hb
    · simpa [setTask, hab] using hb
  | send a _ _ _ _ _ htask | read a _ _ _ _ _ htask | closeSelf a _ _ htask
  | closePeer a _ _ htask =>
    exact .inr (.inr ⟨a, _, .of_arcs rfl (by simp) rfl rfl
      (fun x hx => alive_of_task htask hx) (by simp) (by simp)⟩)
  | register a o ty mask l t harcs ht hsend hclose =>
    refine .inr (.inr ⟨a, t, .of_arcs (register_next k o ty mask) (register_peer k o ty mask)
      (register_held k o ty mask) (by simp [setTask]) (fun x hx => ?_) hsend hclose⟩)
    exact alive_of_arc (a := a) (by rw [harcs, ← ht]; exact hx)
  | notify a l arcs harcs =>
    exact .inr (.inr ⟨a, _, .of_arcs rfl rfl rfl rfl
      (fun x hx => alive_of_arc (a := a) (by rw [harcs]; exact hx)) (by simp) (by simp)⟩)
  | process a p status listed t harcs hclose hsend =>
    exact .inr (.inr ⟨a, t, .of_arcs rfl rfl rfl rfl (by simp [harcs]) hsend hclose⟩)
  | exitSignal a p =>
    exact .inr (.inr ⟨a, _, .of_arcs rfl rfl rfl rfl (by simp [Task.arcs]) (by simp) (by simp)⟩)

theorem ThreadMove.alive {t : Task} (m : ThreadMove k k' a t) (he : k'.Alive e) : k.Alive e := by
  rcases he with he | ⟨b, hb⟩
  · exact m.held e he
  · rw [m.task] at hb
    by_cases hab : b = a
    · subst hab
      rw [update_self] at hb
      exact m.arcs e hb
    · rw [update_of_ne hab] at hb
      exact alive_of_arc hb

/-! ## Well-formed states -/

structure Wf (k : Kernel n) : Prop where
  held_lt : ∀ e, 0 < k.held e → e < k.next
  arcs_lt : ∀ a e, e ∈ (k.task a).arcs → e < k.next
  peer_lt : ∀ e, e < k.next → k.peer e < k.next
  peer_peer : ∀ e, e < k.next → k.peer (k.peer e) = e
  send_peer : ∀ a e p msg, k.task a = .sendLock e p msg → p = k.peer e
  closing : ∀ a e rest, k.task a = .closeSelf e rest → e < k.next ∧ ¬ k.Alive e
  fresh : ∀ e, k.next ≤ e → k.channel e = .new ∧ k.sent e = [] ∧ k.received e = [] ∧
    k.history (.channel e) = []

theorem wf_boot (n : Nat) : (boot n).Wf where
  held_lt := fun _ he => absurd he (Nat.lt_irrefl 0)
  arcs_lt := fun _ _ he => absurd he (not_mem_nil)
  peer_lt := fun _ he => absurd he (Nat.not_lt_zero _)
  peer_peer := fun _ he => absurd he (Nat.not_lt_zero _)
  send_peer := fun _ _ _ _ he => nomatch he
  closing := fun _ _ _ he => nomatch he
  fresh := fun _ _ => ⟨rfl, rfl, rfl, rfl⟩

theorem Wf.alive_lt (hk : k.Wf) (he : k.Alive e) : e < k.next := by
  rcases he with he | ⟨a, he⟩
  · exact hk.held_lt e he
  · exact hk.arcs_lt a e he

theorem channelCreate_alive (he : e < k.next) : k.channelCreate.Alive e ↔ k.Alive e := by
  have hl : e ≠ k.next := Nat.ne_of_lt he
  have hr : e ≠ k.next + 1 := by omega
  have hheld : k.channelCreate.held e = k.held e := by
    simp [channelCreate, hl, hr]
  simp only [Alive, hheld]
  rfl

theorem channelCreate_channel (hk : k.Wf) (e : Nat) : k.channelCreate.channel e = k.channel e := by
  by_cases hr : e = k.next + 1
  · subst hr
    rw [(hk.fresh (k.next + 1) (by omega)).1]
    simp [channel, channelCreate]
  · by_cases hl : e = k.next
    · subst hl
      rw [(hk.fresh k.next le_rfl).1]
      simp [channel, channelCreate]
    · simp [channel, channelCreate, hr, hl]

theorem channelCreate_peer (he : e < k.next) : k.channelCreate.peer e = k.peer e := by
  have hl : e ≠ k.next := Nat.ne_of_lt he
  have hr : e ≠ k.next + 1 := by omega
  simp [peer, channelCreate, hl, hr]

theorem Wf.channelCreate (hk : k.Wf) : k.channelCreate.Wf where
  held_lt := by
    intro e he
    show e < k.next + 2
    by_cases hr : e = k.next + 1
    · omega
    · by_cases hl : e = k.next
      · omega
      · have := hk.held_lt e (by simpa [Kernel.channelCreate, hr, hl] using he)
        omega
  arcs_lt := fun a e he => by
    have := hk.arcs_lt a e he
    show e < k.next + 2
    omega
  peer_lt := by
    intro e he
    change e < k.next + 2 at he
    show k.channelCreate.peer e < k.next + 2
    rcases (by omega : e = k.next ∨ e = k.next + 1 ∨ e < k.next) with rfl | rfl | hlt
    · simp [peer, Kernel.channelCreate]
    · simp [peer, Kernel.channelCreate]
    · rw [channelCreate_peer hlt]
      exact Nat.lt_add_right 2 (hk.peer_lt e hlt)
  peer_peer := by
    intro e he
    change e < k.next + 2 at he
    rcases (by omega : e = k.next ∨ e = k.next + 1 ∨ e < k.next) with rfl | rfl | hlt
    · simp [peer, Kernel.channelCreate]
    · simp [peer, Kernel.channelCreate]
    · rw [channelCreate_peer hlt, channelCreate_peer (hk.peer_lt e hlt), hk.peer_peer e hlt]
  send_peer := by
    intro a e p msg ha
    change k.task a = _ at ha
    have hlt : e < k.next := hk.alive_lt (alive_of_task ha (.tail _ (.head _)))
    rw [hk.send_peer a e p msg ha, channelCreate_peer hlt]
  closing := by
    intro a e rest ha
    obtain ⟨hlt, hdead⟩ := hk.closing a e rest ha
    refine ⟨Nat.lt_of_lt_of_le hlt (by show k.next ≤ k.next + 2; omega), ?_⟩
    rwa [channelCreate_alive hlt]
  fresh := by
    intro e he
    change k.next + 2 ≤ e at he
    rw [channelCreate_channel hk]
    exact hk.fresh e (by omega)

/-! ## What a step does to one endpoint -/

/-- The effect of a step on endpoint `e` and its ghost logs. -/
inductive ChannelMove (k k' : Kernel n) (e : Nat) : Prop where
  | same (hchan : k'.channel e = k.channel e) (hsent : k'.sent e = k.sent e)
      (hreceived : k'.received e = k.received e)
  | waiter (halive : k.Alive e) (w)
      (hchan : k'.channel e = { k.channel e with signal := (k.channel e).signal.wait w })
      (hsent : k'.sent e = k.sent e) (hreceived : k'.received e = k.received e)
  | send (halive : k.Alive e) (msg call) (hsender : k.Alive (k.peer e))
      (hsend : (k.channel e).send msg = some (k'.channel e, call))
      (hsent : k'.sent e = k.sent e ++ [msg]) (hreceived : k'.received e = k.received e)
  | read (halive : k.Alive e) (packet rest) (hqueue : (k.channel e).queue = packet :: rest)
      (hchan : k'.channel e
        = ⟨((k.channel e).signal.setSignal .readable (!rest.isEmpty)).signal, (k.channel e).isOpen,
            rest⟩)
      (hsent : k'.sent e = k.sent e) (hreceived : k'.received e = k.received e ++ [packet])
  | closeSelf (hlt : e < k.next) (hdead : ¬ k.Alive e)
      (hchan : k'.channel e = (k.channel e).closeSelf.1)
  | closePeer (halive : k.Alive e) (hchan : k'.channel e = (k.channel e).closePeer.1)
      (hsent : k'.sent e = k.sent e) (hreceived : k'.received e = k.received e)

theorem channelMove (hk : k.Wf) (m : Move k k') (e : Nat) : ChannelMove k k' e := by
  cases m with
  | create => exact .same (channelCreate_channel hk e) rfl rfl
  | clone | advance | drop | destroy | notify | process | exitSignal => exact .same rfl rfl rfl
  | send a x p msg chan call htask hsend =>
    by_cases hep : e = p
    · subst hep
      -- both ends are pinned by the sending thread
      have hx : k.Alive x := alive_of_task htask (.tail _ (.head _))
      have hpeer : k.peer e = x := by
        rw [hk.send_peer a x e msg htask, hk.peer_peer x (hk.alive_lt hx)]
      exact .send (alive_of_task htask (.head _)) msg call (hpeer ▸ hx) (by simp [hsend])
        (by simp [logSent]) (by simp [logSent])
    · exact .same (by simp [putChannel_channel_ne k chan _ hep]) (by simp [logSent, hep])
        (by simp [logSent])
  | read a x maxBytes maxHandles packet rest htask hqueue =>
    by_cases hex : e = x
    · subst hex
      exact .read (alive_of_task htask (.head _)) packet rest hqueue (by simp)
        (by simp [logReceived]) (by simp [logReceived])
    · exact .same (by simp [putChannel_channel_ne k _ _ hex]) (by simp [logReceived])
        (by simp [logReceived, hex])
  | register a o ty mask l t harcs =>
    by_cases ho : o = .channel e
    · subst ho
      have he : k.Alive e := alive_of_arc (a := a) (by rw [harcs]; simp [SignalObject.arcs])
      exact .waiter he ⟨ty, mask, k.registrations⟩
        (by simp [channel, register, putSignals, signals, setTask]) (by simp) (by simp)
    · exact .same (register_channel_ne k ty mask ho) (by simp) (by simp)
  | closeSelf a x rest htask =>
    by_cases hex : e = x
    · subst hex
      exact .closeSelf (hk.closing a e rest htask).1 (hk.closing a e rest htask).2 (by simp)
    · exact .same (by simp [putChannel_channel_ne k _ _ hex]) (by simp) (by simp)
  | closePeer a p rest htask =>
    by_cases hep : e = p
    · subst hep
      exact .closePeer (alive_of_task htask (.head _)) (by simp) (by simp) (by simp)
    · exact .same (by simp [putChannel_channel_ne k _ _ hep]) (by simp) (by simp)

/-! ## What a step does to one object's signals -/

/-- The object is a process or an endpoint that has been created. -/
def Known (k : Kernel n) : SignalObject → Prop
  | .channel e => e < k.next
  | .process _ => True

/-- The effect of a step on the signals of `o` and on their history. -/
inductive SignalMove (k k' : Kernel n) (o : SignalObject) : Prop where
  | same (hregs : k.registrations ≤ k'.registrations) (hsig : k'.signals o = k.signals o)
      (hhist : k'.history o = k.history o)
  | registered (hknown : k.Known o) (ty mask)
      (hquiet : (k.signals o).signalStatus.intersects mask = false)
      (hregs : k'.registrations = k.registrations + 1)
      (hsig : k'.signals o = (k.signals o).wait ⟨ty, mask, k.registrations⟩)
      (hhist : k'.history o = .registered ⟨ty, mask, k.registrations⟩ :: k.history o)
  | updated (hknown : k.Known o) (flag status) (hregs : k'.registrations = k.registrations)
      (hsig : k'.signals o = ((k.signals o).setSignal flag status).signal)
      (hhist : k'.history o = .updated ((k.signals o).setSignal flag status).new
        ((k.signals o).setSignal flag status).fired :: k.history o)

theorem putChannel_signals_ne (k : Kernel n) (chan : KChannelInner) (call : Option SetSignal)
    (ho : o ≠ .channel e) :
    (k.putChannel e chan call).signals o = k.signals o := by
  cases o with
  | process => simp [signals]
  | channel x =>
    have hx : x ≠ e := fun h => ho (by rw [h])
    simp [signals, putChannel_channel_ne k chan call hx]

@[simp] theorem putChannel_history_self (k : Kernel n) (e : Nat) (chan : KChannelInner)
    (call : SetSignal) :
    (k.putChannel e chan (some call)).history (.channel e)
      = .updated call.new call.fired :: k.history (.channel e) := by
  simp [putChannel]

theorem SignalMove.of_putChannel {chan : KChannelInner} {flag : ObjectSignal} {status : Bool}
    (he : e < k.next) (hchan : chan.signal = ((k.channel e).signal.setSignal flag status).signal)
    (hregs : k'.registrations = k.registrations) (hsig : k'.signals o
      = (k.putChannel e chan (some ((k.channel e).signal.setSignal flag status))).signals o)
    (hhist : k'.history o
      = (k.putChannel e chan (some ((k.channel e).signal.setSignal flag status))).history o) :
    SignalMove k k' o := by
  by_cases ho : o = .channel e
  · subst ho
    refine .updated he flag status hregs ?_ ?_
    · rw [hsig]
      simp [signals, hchan]
    · rw [hhist]
      simp [signals]
  · refine .same (Nat.le_of_eq hregs.symm) ?_ ?_
    · rw [hsig, putChannel_signals_ne k chan _ ho]
    · rw [hhist]
      exact update_of_ne ho _ _

theorem signalMove (hk : k.Wf) (m : Move k k') (o : SignalObject) : SignalMove k k' o := by
  have hpin : ∀ {a x} {t : Task}, k.task a = t → x ∈ t.arcs → x < k.next := fun htask h =>
    hk.alive_lt (alive_of_task htask h)
  cases m with
  | create =>
    refine .same le_rfl ?_ rfl
    cases o with
    | process => rfl
    | channel => simp only [signals, channelCreate_channel hk]
  | clone | advance | drop | destroy | notify =>
    exact .same le_rfl (by cases o <;> rfl) rfl
  | send a x p msg chan call htask hsend =>
    obtain ⟨-, -, rfl, rfl⟩ := KChannelInner.send_eq_some hsend
    exact .of_putChannel (e := p) (hpin htask (.head _)) rfl (by simp) (by simp; rfl) (by simp)
  | read a x maxBytes maxHandles packet rest htask =>
    exact .of_putChannel (e := x) (hpin htask (.head _)) rfl (by simp) (by simp; rfl) (by simp)
  | register a o' ty mask l t harcs ht hsend hclose hquiet =>
    by_cases ho : o = o'
    · subst ho
      have hknown : k.Known o := by
        cases o with
        | process => trivial
        | channel => exact hk.arcs_lt a _ (harcs ▸ .head _)
      refine .registered hknown ty mask hquiet ?_ ?_ ?_
      · cases o <;> rfl
      · cases o <;> simp [setTask, register, putSignals, putProcess, signals, channel]
      · cases o <;> simp [setTask, register, putSignals, putProcess, signals]
    · refine .same ?_ ?_ (by cases o' <;> exact update_of_ne ho _ _)
      · cases o' <;> exact Nat.le_succ _
      · cases o with
        | channel =>
          exact congrArg KChannelInner.signal (register_channel_ne k ty mask (Ne.symm ho))
        | process p =>
          cases o' with
          | channel => rfl
          | process p' =>
            have hp : p ≠ p' := fun h => ho (by rw [h])
            simp [setTask, register, putSignals, putProcess, signals, hp]
  | closeSelf a x rest htask =>
    exact .of_putChannel (e := x) (hk.closing a x rest htask).1 rfl (by simp) (by simp; rfl)
      (by simp; rfl)
  | closePeer a p rest htask =>
    exact .of_putChannel (e := p) (hpin htask (.head _)) rfl (by simp) (by simp; rfl) (by simp; rfl)
  | process a p =>
    refine .same le_rfl ?_ rfl
    cases o with
    | channel => rfl
    | process x =>
      by_cases hx : x = p
      · subst hx; simp [setTask, putProcess, signals]
      · simp [setTask, putProcess, signals, hx]
  | exitSignal a p =>
    by_cases ho : o = .process p
    · subst ho
      exact .updated trivial .processExited true rfl
        (by simp [setTask, putProcess, signals]) (by simp [setTask, signals])
    · refine .same le_rfl ?_ (update_of_ne ho _ _)
      cases o with
      | channel => rfl
      | process x =>
        have hx : x ≠ p := fun h => ho (by rw [h])
        simp [setTask, putProcess, signals, hx]

/-! ## Well-formedness is kept -/

theorem Wf.threadMove (hk : k.Wf) {t : Task} (m : ThreadMove k k' a t)
    (hfresh : ∀ e, k.next ≤ e → k'.channel e = .new ∧ k'.sent e = [] ∧ k'.received e = [] ∧
      k'.history (.channel e) = []) : k'.Wf where
  held_lt := fun e he => m.next ▸ hk.alive_lt (m.held e he)
  arcs_lt := fun b e he => m.next ▸ hk.alive_lt (m.alive (alive_of_arc he))
  peer_lt := by rw [m.next, m.peer]; exact hk.peer_lt
  peer_peer := by rw [m.next, m.peer]; exact hk.peer_peer
  send_peer := by
    intro b e p msg hb
    rw [m.task] at hb
    rw [m.peer]
    by_cases hab : b = a
    · subst hab
      rw [update_self] at hb
      exact m.send e p msg hb
    · rw [update_of_ne hab] at hb
      exact hk.send_peer b e p msg hb
  closing := by
    intro b e rest hb
    rw [m.task] at hb
    rw [m.next]
    by_cases hab : b = a
    · subst hab
      rw [update_self] at hb
      exact ⟨hk.alive_lt (m.close e rest hb).1, (m.close e rest hb).2⟩
    · rw [update_of_ne hab] at hb
      obtain ⟨hlt, hdead⟩ := hk.closing b e rest hb
      exact ⟨hlt, fun he => hdead (m.alive he)⟩
  fresh := fun e he => hfresh e (m.next ▸ he)

theorem Wf.move (hk : k.Wf) (m : Move k k') : k'.Wf := by
  -- an endpoint that does not exist yet is not touched by a thread
  have hfresh : ∀ e, k.next ≤ e → k'.channel e = .new ∧ k'.sent e = [] ∧ k'.received e = [] ∧
      k'.history (.channel e) = [] := by
    intro e he
    obtain ⟨hc, hs, hr, hh⟩ := hk.fresh e he
    have hnot : ¬ k.Alive e := fun h => absurd (hk.alive_lt h) (by omega)
    have hhist : k'.history (.channel e) = [] := by
      cases signalMove hk m (.channel e) with
      | same _ _ hhist => rw [hhist, hh]
      | registered hknown | updated hknown => exact absurd hknown (Nat.not_lt.2 he)
    cases channelMove hk m e with
    | same hchan hsent hreceived => exact ⟨hchan ▸ hc, hsent ▸ hs, hreceived ▸ hr, hhist⟩
    | waiter halive | send halive | read halive | closePeer halive => exact absurd halive hnot
    | closeSelf => omega
  rcases m.threadMove with rfl | ⟨e, hheld, rfl⟩ | ⟨a, t, ht⟩
  · exact hk.channelCreate
  · -- one more handle to a live endpoint: nothing dies, nothing new is referenced
    have hmono : ∀ x, 0 < update k.held e (k.held e + 1) x → 0 < k.held x := by
      intro x hx
      by_cases hxe : x = e
      · subst hxe; exact hheld
      · rwa [update_of_ne hxe] at hx
    refine ⟨fun x hx => hk.held_lt x (hmono x hx), hk.arcs_lt, hk.peer_lt, hk.peer_peer,
      hk.send_peer, fun a x rest hx => ?_, hk.fresh⟩
    obtain ⟨hlt, hdead⟩ := hk.closing a x rest hx
    exact ⟨hlt, fun halive => hdead (halive.imp (hmono x) id)⟩
  · exact hk.threadMove ht hfresh

theorem dead_of_move (m : Move k k') (he : e < k.next) (hdead : ¬ k.Alive e) : ¬ k'.Alive e := by
  intro halive
  apply hdead
  rcases m.threadMove with rfl | ⟨x, hheld, rfl⟩ | ⟨a, t, ht⟩
  · rwa [channelCreate_alive he] at halive
  · rcases halive with h | h
    · by_cases hex : e = x
      · exact hex ▸ alive_of_held hheld
      · simp only [update_of_ne hex] at h
        exact alive_of_held h
    · exact .inr h
  · exact ht.alive halive

theorem next_le_of_move (m : Move k k') : k.next ≤ k'.next := by
  rcases m.threadMove with rfl | ⟨x, hheld, rfl⟩ | ⟨a, t, ht⟩
  · exact Nat.le_add_right _ _
  · exact le_rfl
  · exact Nat.le_of_eq ht.next.symm

theorem peer_of_move (m : Move k k') (he : e < k.next) : k'.peer e = k.peer e := by
  rcases m.threadMove with rfl | ⟨x, hheld, rfl⟩ | ⟨a, t, ht⟩
  · exact channelCreate_peer he
  · rfl
  · rw [ht.peer]

end Fioxa.Kernel
