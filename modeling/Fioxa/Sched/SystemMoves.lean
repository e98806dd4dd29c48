import Fioxa.Sched.System

/-! # What a step of the system can do

First, what the steps of the machine do to the thread lists and to the threads that sleep; then
`Move s a s'`, which lists the ways in which an action can take the system from `s` to `s'`. -/

namespace Fioxa.Sched

open List Option Objects Function

namespace Machine

variable {n w : Nat} {s s' : Machine n w} {act : Action n w}

/-! ## The thread lists of the machine -/

/-- The lists are the same in both machines. -/
structure SameLists (s s' : Machine n w) : Prop where
  next : s'.next = s.next
  listed : ∀ t, (s'.thread t).listed = (s.thread t).listed

variable {t : Nat} {th : Thread n}

theorem SameLists.of_update (hnext : s'.next = s.next) (hthread : s'.thread = update s.thread t th)
    (hlisted : th.listed = (s.thread t).listed) : SameLists s s' := by
  refine ⟨hnext, fun u => ?_⟩
  rw [hthread]
  by_cases hu : u = t
  · subst hu
    rw [update_self, hlisted]
  · rw [update_of_ne hu]

theorem Move.sameLists (hm : Move s act s') (hcreate : ∀ a, act ≠ .create a)
    (hleaving : ∀ i, act = .sched i → System.leaving s i = none) : SameLists s s' := by
  cases hm with
  | exit hpc hsys hkilled =>
    have h := hleaving _ rfl
    simp [System.leaving, hpc, hsys, hkilled] at h
  | unbalanced hpc hdepth =>
    have h := hleaving _ rfl
    simp [System.leaving, hpc, hdepth] at h
  | create => exact absurd rfl (hcreate _)
  | lock | run | requeue
  | putAside | release | stay | enter
  | mark | block | wedge | wake | kill =>
    exact .of_update rfl rfl rfl
  | _ => exact ⟨rfl, fun _ => rfl⟩

theorem Move.next_eq (hm : Move s act s') (hcreate : ∀ a, act ≠ .create a) : s'.next = s.next := by
  cases hm with
  | create => exact absurd rfl (hcreate _)
  | _ => rfl

theorem step_leaves {i : Fin n} (hstep : s.step (.sched i) = some s')
    (hleaving : System.leaving s i = some t) :
    s'.next = s.next ∧ (s'.thread t).listed = false ∧
      ∀ u, u ≠ t → (s'.thread u).listed = (s.thread u).listed := by
  have hexit : ∃ l c, s' = (s.exitThreadInner t l).setCore i c := by
    rw [step, schedStep] at hstep
    unfold System.leaving at hleaving
    split at hleaving
    · next u hpc =>
      split_ifs at hleaving with hkilled
      cases hleaving
      simp only [hpc, runThread, if_pos hkilled, Option.some.injEq] at hstep
      exact ⟨none, _, hstep.symm⟩
    · next u hpc =>
      split_ifs at hleaving with hdepth
      cases hleaving
      simp only [hpc, settleThread, if_pos hdepth, Option.some.injEq] at hstep
      exact ⟨_, _, hstep.symm⟩
    · cases hleaving
  obtain ⟨l, c, rfl⟩ := hexit
  refine ⟨rfl, ?_, fun u hu => ?_⟩
  · simp [exitThreadInner, setCore, setThread]
  · simp [exitThreadInner, setCore, setThread, hu]

theorem step_create {a : Fin w} (hstep : s.step (.create a) = some s') :
    s'.next = s.next + 1 ∧ s'.thread = update s.thread s.next (.new n) := by
  simp only [step, createStep, ite_none_right_eq_some, Option.some.injEq] at hstep
  obtain ⟨-, rfl⟩ := hstep
  exact ⟨rfl, rfl⟩

/-! ## Threads that sleep -/

/-- Thread `t` has been put aside by the loop: it sleeps and nobody holds its lock. -/
def Aside (s : Machine n w) (t : Nat) : Prop :=
  (s.thread t).sched.state = .sleeping ∧ (s.thread t).lock = none

instance (s : Machine n w) (t : Nat) : Decidable (s.Aside t) :=
  inferInstanceAs (Decidable (_ ∧ _))

theorem Aside.of_update {u : Nat} (h : s.Aside t)
    (hthread : s'.thread = update s.thread u th) (hu : t ≠ u) : s'.Aside t := by
  rw [Aside, hthread, update_of_ne hu]
  exact h

theorem Aside.of_same {u : Nat} (h : s.Aside t) (hthread : s'.thread = update s.thread u th)
    (hstate : th.sched.state = (s.thread u).sched.state) (hlock : th.lock = (s.thread u).lock) :
    s'.Aside t := by
  by_cases hu : t = u
  · subst hu
    rw [Aside, hthread, update_self, hstate, hlock]
    exact h
  · exact h.of_update hthread hu

theorem Aside.move {l : List Nat} (h : s.Aside t) (hknown : t < s.next) (hp : s.Placed l)
    (hm : Move s act s') (hwake : ∀ a, act ≠ .wake a t) : s'.Aside t := by
  have hpcne : ∀ {i u pc}, (s.core i).pc = pc → pc.tid = some u → t ≠ u := by
    rintro i u pc rfl htid rfl
    exact hp.free_of_sleeping h.2 h.1 (.core i) htid
  cases hm with
  | lock hpc | exit hpc | run hpc | unbalanced hpc
  | requeue hpc | putAside hpc | release hpc
  | enter hpc | mark hpc | block hpc | wedge hpc =>
    exact h.of_update rfl (hpcne hpc rfl)
  | stay | kill => exact h.of_same rfl rfl rfl
  | wake =>
    refine h.of_update rfl ?_
    rintro rfl
    exact hwake _ rfl
  | create => exact h.of_update rfl (Nat.ne_of_lt hknown)
  | _ => exact h

end Machine

namespace System

variable {n w k : Nat} {s s' : System n w k}

/-! ## Waiting and events -/

/-- What a thread can be registered with. -/
inductive WaitObject where
  | signal (o : SignalObject)
  | port (p : PortRef)
  | interrupt (h : Nat)
  /-- Its place in `SLEPT_PROCESSES`. -/
  | deadline (wakeup : Nat)

/-- Thread `t` is registered with `x`. -/
def Registered (x : Objects) (t : ThreadRef) : WaitObject → Prop
  | .signal o => ∃ waiter ∈ (x.signals o).signalWaiters, waiter.ty = .one t
  | .port p => t ∈ (x.port p).waiters
  | .interrupt h => (x.interrupt h).waiter = .thread t
  | .deadline wakeup => (wakeup, t) ∈ x.slept

/-- The notices that an action delivers. -/
def notices (s : System n w k) : Action n w k → List Notice
  | .event v => v.notices s.objects
  | .call _ (.waitPort o p bits key) =>
    if (s.objects.signals o).signalStatus.intersects (.fromBitsTruncate bits) then
      [.notify p ⟨key, .signalOne (.fromBitsTruncate bits) (s.objects.signals o).signalStatus⟩]
    else []
  | .exit e _ =>
    match s.exiting e with
    | some (p, .signal) => (s.exitSignal p).notices
    | _ => []
  | _ => []

/-- Action `a` is an event on the object: its signals are set, a notification is pushed, an
    interrupt is triggered or acknowledged, or the deadline has passed when `check_sleep` runs. -/
def IsEvent (s : System n w k) (a : Action n w k) : WaitObject → Prop
  | .signal (.channel e) => ∃ signal status, a = .event (.setSignal e signal status)
  | .signal (.process p) => ∃ e b, a = .exit e b ∧ s.exiting e = some (p, .signal)
  | .port p => ∃ notif, .notify p notif ∈ s.notices a
  | .interrupt h => ∃ now, a = .event (.trigger h now) ∨ a = .event (.ack h now)
  | .deadline wakeup => ∃ now, a = .event (.checkSleep now) ∧ wakeup ≤ now

theorem registered_of_notices {x : Objects} {o : SignalObject} {signal : ObjectSignal}
    {status : Bool} {t : ThreadRef}
    (h : .wake t ∈ ((x.signals o).setSignal signal status).notices) :
    Registered x t (.signal o) := by
  rw [SetSignal.notices, List.mem_map] at h
  obtain ⟨waiter, hmem, hwake⟩ := h
  have hone : waiter.ty = .one t := by
    cases hty : waiter.ty with
    | one =>
      rw [hty] at hwake
      rw [Notice.wake.inj hwake]
    | port =>
      rw [hty] at hwake
      cases hwake
  refine ⟨waiter, ?_, hone⟩
  unfold KObjectSignal.setSignal at hmem
  dsimp only at hmem
  split at hmem
  · cases hmem
  · exact mem_of_mem_filter hmem

theorem registered_of_event {v : Event} {t : ThreadRef}
    (h : t ∈ (deliverAll (v.objects s.objects).port (v.notices s.objects)).2) :
    ∃ y, Registered s.objects t y ∧ s.IsEvent (.event v) y := by
  have hport : (v.objects s.objects).port = s.objects.port := by cases v <;> rfl
  rw [hport] at h
  rcases woken_deliverAll h with hwake | ⟨p, notif, hnotify, hmem⟩
  · cases v with
    | setSignal e signal status =>
      exact ⟨.signal (.channel e), registered_of_notices hwake, signal, status, rfl⟩
    | notify => exact absurd hwake (by simp [Event.notices])
    | trigger i now =>
      refine ⟨.interrupt i, ?_, now, .inl rfl⟩
      simp only [Event.notices, KInterruptHandle.trigger] at hwake
      show (s.objects.interrupt i).waiter = .thread t
      split at hwake
      · exact absurd hwake (by simp)
      · split at hwake <;> simp_all
    | setPort =>
      simp only [Event.notices, KInterruptHandle.setPort] at hwake
      split at hwake
      · exact absurd hwake (by simp)
      · exact absurd hwake (by simp)
    | ack i now =>
      refine ⟨.interrupt i, ?_, now, .inr rfl⟩
      simp only [Event.notices, KInterruptHandle.ack] at hwake
      show (s.objects.interrupt i).waiter = .thread t
      split at hwake
      · split at hwake <;> simp_all
      · exact absurd hwake (by simp)
    | checkSleep now =>
      simp only [Event.notices, List.mem_map, mem_filter, Notice.wake.injEq] at hwake
      obtain ⟨⟨wakeup, u⟩, ⟨hmem, hle⟩, rfl⟩ := hwake
      exact ⟨.deadline wakeup, hmem, now, rfl, of_decide_eq_true hle⟩
  · exact ⟨.port p, hmem, notif, hnotify⟩

/-! ## Moves -/

/-- The steps of the machine that create, kill and wake no thread and take none out of a list. -/
inductive Plain (s : System n w k) : Machine.Action n w → Prop where
  | sched {i} (hcore : s.exiting (.core i) = none) (hleaving : leaving s.machine i = none) :
      Plain s (.sched i)
  | thread (i op) : Plain s (.thread i op)
  | irq (i) : Plain s (.irq i)
  | enqueue {a t} (hagent : s.machine.agent a = some t)
      (hentered : (s.process (s.owner t)).entered = true) : Plain s (.enqueue a)

/-- No thread is registered with the signals of a process, and none that are set are missed. -/
def SignalsKept (x x' : Objects) : Prop :=
  ∀ p, x'.signals (.process p) = x.signals (.process p) ∨
    ∃ waiter, (∀ t, waiter.ty ≠ .one t) ∧
      (x.signals (.process p)).signalStatus.intersects waiter.mask = false ∧
      x'.signals (.process p) = (x.signals (.process p)).wait waiter

inductive Move (s : System n w k) (a : Action n w k) : System n w k → Prop where
  | same : Move s a s
  | machine {act m} (hplain : Plain s act) (hstep : s.machine.step act = some m)
      : Move s a (s.withMachine m)
  -- the thread lists
  | leave {i t m} (hcore : s.exiting (.core i) = none) (hlock : ¬ s.Locked (s.owner t))
      (hleaving : leaving s.machine i = some t) (hstep : s.machine.step (.sched i) = some m) :
      Move s a ((s.withMachine m).checkEmpty (.core i) (s.owner t))
  | spawn {i t b m} (hcaller : s.caller i = some t) (hlock : ¬ s.Locked (s.owner t))
      (hstatus : (s.process (s.owner t)).exitStatus ≠ .exited)
      (hstep : s.machine.step (.create b) = some m) :
      Move s a { s.withMachine m with owner := update s.owner s.machine.next (s.owner t) }
  | load {p b m} (hgiven : (s.process p).given = false)
      (hstatus : (s.process p).exitStatus ≠ .exited) (hstep : s.machine.step (.create b) = some m) :
      Move s a ({ s.withMachine m with
        owner := update s.owner s.machine.next p }.setProcess p
          { s.process p with given := true })
  | insert {p} (hentered : (s.process p).entered = false) :
      Move s a (s.setProcess p { s.process p with listed := true, entered := true })
  -- sleeping and waking
  | objectWait {i t o mask m} (hquiet : (s.objects.signals o).signalStatus.intersects mask = false)
      (hstep : s.machine.step (.thread i .mark) = some m) :
      Move s a { s.withMachine m with
        objects := s.objects.setSignals o ((s.objects.signals o).wait ⟨.one t, mask, 0⟩)
        waiting := update s.waiting t (some (o, mask)) }
  | block {i x m} (hsignals : x.signals = s.objects.signals)
      (hstep : s.machine.step (.thread i .mark) = some m) :
      Move s a { s.withMachine m with objects := x }
  | tell {x notices} (hkept : SignalsKept s.objects x)
      (hwoken : ∀ t ∈ (deliverAll x.port notices).2, ∃ y, Registered s.objects t y ∧ s.IsEvent a y)
      :
      Move s a (s.tell x notices)
  | wake {b t m} (hdue : t ∈ s.due) (hstep : s.machine.step (.wake b t) = some m) :
      Move s a { s.withMachine m with
        due := s.due.erase t
        waiting := update s.waiting t none }
  -- killing and exiting
  | kill {j p} (hidle : s.killer j = .idle) (hgiven : (s.process p).given = true)
      (hentered : (s.process p).entered = true) (hlock : ¬ s.Locked p) :
      Move s a (s.setKiller j (.marking p (s.threads p)))
  | mark {j p t rest m} (hpc : s.killer j = .marking p (t :: rest))
      (hstep : s.machine.step (.kill t) = some m) :
      Move s a ((s.withMachine m).setKiller j (.marking p rest))
  | finish {j p} (hpc : s.killer j = .marking p []) :
      Move s a ((s.setKiller j (.released p)).checkEmpty (.killer j) p)
  | status {e p} (hexit : s.exiting e = some (p, .status)) :
      Move s a ((s.setProcess p { s.process p with exitStatus := .exited }).setExiting e
        (some (p, .signal)))
  | signal {e p x} (hexit : s.exiting e = some (p, .signal))
      (hx : x = s.objects.setSignals (.process p) (s.exitSignal p).signal)
      (hwoken : ∀ t ∈ (deliverAll x.port (s.exitSignal p).notices).2,
        ∃ y, Registered s.objects t y ∧ s.IsEvent a y)
      :
      Move s a ({ s with objects :=
          { x with port := (deliverAll x.port (s.exitSignal p).notices).1 } }.setExiting e
        (some (p, .waking (deliverAll x.port (s.exitSignal p).notices).2)))
  | wakeNext {e p t rest b m} (hexit : s.exiting e = some (p, .waking (t :: rest)))
      (hstep : s.machine.step (.wake b t) = some m) :
      Move s a ({ s.withMachine m with waiting := update s.waiting t none }.setExiting e
        (some (p, .waking rest)))
  | awake {e p} (hexit : s.exiting e = some (p, .waking [])) :
      Move s a (s.setExiting e (some (p, .remove)))
  | remove {e p} (hexit : s.exiting e = some (p, .remove)) :
      Move s a ((s.setProcess p { s.process p with listed := false }).setExiting e none)

variable {i : Fin n} {a : Action n w k}

/-- A step that goes on from one of the machine. -/
theorem Move.of_map {act : Machine.Action n w} {f : Machine n w → System n w k}
    (h : (s.machine.step act).map f = some s')
    (hmove : ∀ {m}, s.machine.step act = some m → Move s a (f m)) : Move s a s' := by
  obtain ⟨m, hstep, rfl⟩ := map_eq_some_iff.1 h
  exact hmove hstep

theorem schedStep_move (h : s.schedStep i = some s') : Move s a s' := by
  unfold schedStep at h
  split_ifs at h with hcore
  cases hleaving : leaving s.machine i with
  | none =>
    simp only [hleaving] at h
    exact .of_map h (.machine (.sched hcore hleaving))
  | some =>
    simp only [hleaving, ite_none_left_eq_some] at h
    exact .of_map h.2 (.leave hcore h.1 hleaving)

variable {t : Nat}

theorem callStep_move {c : Call w} (hcaller : s.caller i = some t)
    (h : s.callStep i t c = some s') : Move s (.call i c) s' := by
  cases c with
  | spawn =>
    rw [callStep, spawn, ite_none_left_eq_some] at h
    obtain ⟨hlock, h⟩ := h
    unfold newThread at h
    split_ifs at h with hstatus
    · exact .of_map h (.machine (.thread i .panic))
    · exact .of_map h (.spawn hcaller hlock hstatus)
  | objectWait =>
    rw [callStep, objectWait] at h
    split_ifs at h with hset
    · cases h
      exact .same
    · rw [fallAsleep, Option.map_map] at h
      exact .of_map h (.objectWait (Bool.eq_false_iff.2 hset))
  | waitPort o p bits key =>
    rw [callStep, Option.some.injEq, waitPort] at h
    split_ifs at h with hset
    · subst h
      refine .tell (fun q => .inl rfl) fun u hu => ?_
      rcases woken_deliverAll hu with hwake | ⟨q, notif, hnotify, hmem⟩
      · exact absurd hwake (by simp)
      · refine ⟨.port q, hmem, notif, ?_⟩
        rw [notices, if_pos hset]
        exact hnotify
    · subst h
      refine .tell (fun q => ?_) fun u hu => absurd hu (by simp [deliverAll])
      by_cases hq : .process q = o
      · subst hq
        refine .inr ⟨⟨.port p key, .fromBitsTruncate bits, 0⟩, fun u => by simp,
          Bool.eq_false_iff.2 hset, ?_⟩
        simp [setSignals]
      · exact .inl (by simp [setSignals, hq])
  | portWait =>
    rw [callStep, portWait] at h
    split at h
    · cases h
      exact .tell (fun q => .inl rfl) fun u hu => absurd hu (by simp [deliverAll])
    · exact .of_map h (.block rfl)
  | interruptWait =>
    rw [callStep, interruptWait] at h
    split at h
    · cases h
      exact .same
    · cases h
      exact .tell (fun q => .inl rfl) fun u hu => absurd hu (by simp [deliverAll])
    · exact .of_map h (.block rfl)
  | sleep => exact .of_map h (.block rfl)

theorem exitStep_move {e : Exiter n k} {b : Fin w} (h : s.exitStep e b = some s') :
    Move s (.exit e b) s' := by
  unfold exitStep at h
  split at h
  · cases h
  · next p hexit =>
    cases h
    exact .status hexit
  · next p hexit =>
    cases h
    refine .signal hexit rfl fun t ht => ?_
    rcases woken_deliverAll ht with hwake | ⟨q, notif, hnotify, hmem⟩
    · exact ⟨.signal (.process p), registered_of_notices hwake, e, b, rfl, hexit⟩
    · refine ⟨.port q, hmem, notif, ?_⟩
      simpa only [notices, hexit] using hnotify
  · next p hexit =>
    cases h
    exact .awake hexit
  · next p t rest hexit => exact .of_map h (.wakeNext hexit)
  · next p hexit =>
    cases h
    exact .remove hexit

theorem step_move (h : s.step a = some s') : Move s a s' := by
  cases a with
  | sched => exact schedStep_move h
  | thread i op =>
    rw [step, ite_none_left_eq_some] at h
    exact .of_map h.2 (.machine (.thread i op))
  | irq i => exact .of_map h (.machine (.irq i))
  | call =>
    rw [step, bind_eq_some_iff] at h
    obtain ⟨t, hcaller, h⟩ := h
    exact callStep_move hcaller h
  | event v =>
    rw [step, Option.some.injEq] at h
    subst h
    refine .tell (fun p => .inl ?_) fun t ht => registered_of_event ht
    cases v <;> simp [Event.objects, setSignals, setInterrupt, setSlept]
  | wake =>
    rw [step, ite_none_right_eq_some] at h
    exact .of_map h.2 (.wake h.1)
  | load =>
    rw [step, load, ite_none_left_eq_some] at h
    obtain ⟨hgiven, h⟩ := h
    unfold newThread at h
    split_ifs at h with hstatus
    simp only [addThread, Option.map_map] at h
    exact .of_map h (.load (Bool.eq_false_iff.2 hgiven) hstatus)
  | insert =>
    simp only [step, insert, ite_none_left_eq_some, Option.some.injEq] at h
    obtain ⟨hentered, rfl⟩ := h
    exact .insert (Bool.eq_false_iff.2 hentered)
  | enqueue =>
    rw [step, enqueue] at h
    split at h
    · cases h
    · next t hagent =>
      rw [ite_none_right_eq_some] at h
      exact .of_map h.2 (.machine (.enqueue hagent h.1))
  | kill =>
    simp only [step, kill, ite_none_right_eq_some, Option.some.injEq] at h
    obtain ⟨⟨hidle, hgiven, hentered, hlock⟩, rfl⟩ := h
    exact .kill hidle hgiven hentered hlock
  | killStep =>
    rw [step, killStep] at h
    split at h
    · next p t rest hpc => exact .of_map h (.mark hpc)
    · next p hpc =>
      cases h
      exact .finish hpc
    · cases h
  | exit => exact exitStep_move h

/-! ## The machine inside -/

@[simp] theorem checkEmpty_machine (s : System n w k) (e : Exiter n k) (p : Nat) :
    (s.checkEmpty e p).machine = s.machine := by
  unfold checkEmpty
  split <;> rfl

theorem Move.machine_step (hm : Move s a s') :
    s'.machine = s.machine ∨ ∃ act, s.machine.step act = some s'.machine := by
  cases hm with
  | machine hplain hstep | spawn hcaller hlock hstatus hstep | load hgiven hstatus hstep
  | objectWait hquiet hstep | block hsignals hstep | wake hdue hstep | mark hpc hstep
  | wakeNext hexit hstep => exact .inr ⟨_, hstep⟩
  | leave hcore hlock hleaving hstep =>
    refine .inr ⟨_, hstep.trans ?_⟩
    rw [checkEmpty_machine]
    rfl
  | finish => exact .inl (checkEmpty_machine ..)
  | _ => exact .inl rfl

variable {p : Nat}

/-- What a process has reached stays reached. -/
structure Onward (x y : ProcessState) : Prop where
  given : x.given = true → y.given = true
  entered : x.entered = true → y.entered = true
  exited : x.exitStatus = .exited → y.exitStatus = .exited

theorem Onward.setProcess {q : Nat} {proc : ProcessState} (h : Onward (s.process q) proc) :
    Onward (s.process p) ((s.setProcess q proc).process p) := by
  by_cases hpq : p = q
  · subst hpq
    simpa [System.setProcess] using h
  · simpa [System.setProcess, hpq] using ⟨id, id, id⟩

theorem Move.onward (hm : Move s a s') (p : Nat) : Onward (s.process p) (s'.process p) := by
  cases hm with
  | leave | finish =>
    unfold checkEmpty
    split <;> exact ⟨id, id, id⟩
  | load => exact Onward.setProcess ⟨fun _ => rfl, id, id⟩
  | insert => exact Onward.setProcess ⟨id, fun _ => rfl, id⟩
  | status => exact Onward.setProcess ⟨id, id, fun _ => rfl⟩
  | remove => exact Onward.setProcess ⟨id, id, id⟩
  | _ => exact ⟨id, id, id⟩

/-! ## The thread lists -/

theorem mem_threads :
    t ∈ s.threads p ↔ t < s.machine.next ∧ s.owner t = p ∧ (s.machine.thread t).listed = true := by
  simp [threads, mem_filter]

theorem threads_congr (howner : s'.owner = s.owner) (h : s.machine.SameLists s'.machine)
    (p : Nat) : s'.threads p = s.threads p := by
  unfold threads
  rw [h.next, howner]
  apply filter_congr
  intro t _
  rw [h.listed t]

theorem mem_threads_leave {u : Nat} {m : Machine n w} (hstep : s.machine.step (.sched i) = some m)
    (hleaving : leaving s.machine i = some t) :
    u ∈ (s.withMachine m).threads p ↔ u ∈ s.threads p ∧ u ≠ t := by
  obtain ⟨hnext, hself, hothers⟩ := Machine.step_leaves hstep hleaving
  rw [mem_threads, mem_threads]
  show u < m.next ∧ s.owner u = p ∧ (m.thread u).listed = true ↔ _
  rw [hnext]
  by_cases hu : u = t
  · subst hu
    simp [hself]
  · simp [hothers u hu, hu]

theorem mem_threads_create {a : Fin w} {u q : Nat} {m : Machine n w}
    (hstep : s.machine.step (.create a) = some m) (proc : Nat → ProcessState) :
    u ∈ ({ s.withMachine m with
      owner := update s.owner s.machine.next p, process := proc } :
        System n w k).threads q ↔ u ∈ s.threads q ∨ u = s.machine.next ∧ p = q := by
  obtain ⟨hnext, hthread⟩ := Machine.step_create hstep
  rw [mem_threads, mem_threads]
  show u < m.next ∧ update s.owner s.machine.next p u = q ∧ (m.thread u).listed = true ↔ _
  rw [hnext, hthread]
  by_cases hu : u = s.machine.next
  · subst hu
    simp [Thread.new]
  · simp only [update_of_ne hu, hu, false_and, or_false]
    constructor
    · rintro ⟨hlt, h⟩
      exact ⟨by omega, h⟩
    · rintro ⟨hlt, h⟩
      exact ⟨by omega, h⟩

/-- What a step does to the thread lists. -/
inductive ListMove (s s' : System n w k) : Prop where
  | same (h : ∀ p, s'.threads p = s.threads p)
  | left {i t : _} (hleaving : leaving s.machine i = some t)
      (h : ∀ p u, u ∈ s'.threads p ↔ u ∈ s.threads p ∧ u ≠ t)
  | added {q : _} (hq : (s.process q).given = false ∨ ∃ i t, s.caller i = some t ∧ s.owner t = q)
      (h : ∀ p u, u ∈ s'.threads p ↔ u ∈ s.threads p ∨ u = s.machine.next ∧ q = p)

theorem threads_checkEmpty (s : System n w k) (e : Exiter n k) (q p : Nat) :
    (s.checkEmpty e q).threads p = s.threads p := by
  unfold checkEmpty
  split <;> rfl

theorem ListMove.of_step {act : Machine.Action n w} (hstep : s.machine.step act = some s'.machine)
    (hcreate : ∀ b, act ≠ .create b) (hleaving : ∀ i, act = .sched i → leaving s.machine i = none)
    (howner : s'.owner = s.owner) : ListMove s s' :=
  .same (threads_congr howner ((Machine.step_move hstep).sameLists hcreate hleaving))

theorem Move.lists (hm : Move s a s') : ListMove s s' := by
  cases hm with
  | machine hplain hstep =>
    refine .of_step hstep ?_ ?_ rfl
    · rintro b rfl
      cases hplain
    · rintro i rfl
      cases hplain with
      | sched hcore hleaving => exact hleaving
  | leave hcore hlock hleaving hstep =>
    refine .left hleaving fun p u => ?_
    rw [threads_checkEmpty]
    exact mem_threads_leave hstep hleaving
  | @spawn i t b m hcaller hlock hstatus hstep =>
    exact .added (.inr ⟨i, t, hcaller, rfl⟩) fun p u => mem_threads_create hstep s.process
  | load hgiven hstatus hstep =>
    exact .added (.inl hgiven) fun p u => mem_threads_create hstep _
  | objectWait hquiet hstep | block hsignals hstep | wake hdue hstep | mark hpc hstep
  | wakeNext hexit hstep => exact .of_step hstep (by simp) (by simp) rfl
  | finish => exact .same fun p => threads_checkEmpty ..
  | _ => exact .same fun _ => rfl

end System

end Fioxa.Sched
