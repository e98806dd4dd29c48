import Fioxa.Sched.Machine

/-! # What a step of the scheduler can do

`Move s a s'` lists the ways in which action `a` can take the machine from `s` to `s'`, each with
the guards it passed. Every invariant of the machine is proved by cases on it. The many things
thread code can do fall into two groups: what leaves the thread on its core (`Stay` says what
happens to the core), and what takes it back to the scheduler loop with its `sched` lock (`Entry`
says what happens to the core before that lock is taken). -/

namespace Fioxa.Sched

open Option

/-- Thread code goes on without touching its `sched` lock. -/
inductive Stay (t : Nat) (c : Core) : Core → Prop where
  | iret {m} (hpc : c.pc = .running t (.active (.handler m))) (hheld : c.held = 0) :
      Stay t c { c.lit with pc := .running t (.active m) }
  | sysEnter (hpc : c.pc = .running t (.active .user)) (hdepth : c.ints.depth = 0) :
      Stay t c { c.lit.hold.unhold with pc := .running t (.active .kernel) }
  | sysLeave {m} (hpc : c.pc = .running t (.active .kernel)) :
      Stay t c { c.hold.unhold with pc := .running t (.active m) }
  | panic {m} (hpc : c.pc = .running t (.active m)) :
      Stay t c { c with pc := .running t (.active .doomed) }
  | exception {m} (hpc : c.pc = .running t (.active m)) :
      Stay t c { c.excepted with pc := .running t (.active .doomed) }
  | acquire {ph} (hpc : c.pc = .running t ph) (hph : ph.mayLock) :
      Stay t c { c.hold with pc := .running t ph, held := c.held + 1 }
  | unlock {ph} (hpc : c.pc = .running t ph) (hph : ph.mayLock) (hheld : 0 < c.held) :
      Stay t c { c.unhold with pc := .running t ph, held := c.held - 1 }

/-- The core of a thread that is about to take its `sched` lock and enter the scheduler. -/
inductive Entry (c : Core) : Core → Prop where
  | plain : Entry c c
  | syscall (hdepth : c.ints.depth = 0) : Entry c c.lit
  | tick (henabled : c.ints.enabled = true) : Entry c c.interrupted

namespace Machine

variable {n w : Nat}

inductive Move (s : Machine n w) : Action n w → Machine n w → Prop where
  -- the scheduler loop
  | halt {i} (hpc : (s.core i).pc = .loop) (hq : s.queue.pop = none) :
      Move s (.sched i) (s.setCore i { (s.core i).hold.unhold with pc := .halted })
  | pop {i t q} (hpc : (s.core i).pc = .loop) (hq : s.queue.pop = some (t, q)) :
      Move s (.sched i)
        { s.setCore i { (s.core i).hold.unhold with pc := .popped t } with queue := q }
  | lock {i t} (hpc : (s.core i).pc = .popped t) (hfree : (s.thread t).lock = none) :
      Move s (.sched i) ((s.setThread t { s.thread t with lock := some i }).setCore i
        { (s.core i).hold with pc := .locked t })
  | exit {i t} (hpc : (s.core i).pc = .locked t) (hsys : (s.thread t).sched.inSyscall = false)
      (hkilled : (s.thread t).sched.killed = true) :
      Move s (.sched i)
        ((s.exitThreadInner t none).setCore i { (s.core i).unhold with pc := .loop })
  | run {i t sv} (hpc : (s.core i).pc = .locked t) (hstate : (s.thread t).sched.state = .runnable)
      (hsv : (s.thread t).sched.taskState = some sv) :
      Move s (.sched i) ((s.setThread t { s.thread t with
            sched := { (s.thread t).sched with taskState := none } }).setCore i
          { s.core i with
            pc := .running t (.resuming sv.resume)
            flags := (s.core i).ints.enabled
            ints := { (s.core i).ints with enabled := sv.enabled (s.core i).ints.enabled }
            held := 0 })
  | assertFailed {i t} (hpc : (s.core i).pc = .locked t)
      (hbad : (s.thread t).sched.state ≠ .runnable ∨ (s.thread t).sched.taskState = none) :
      Move s (.sched i) (s.panic i)
  | unbalanced {i t} (hpc : (s.core i).pc = .returned t) (hdepth : (s.core i).ints.depth ≠ 1) :
      Move s (.sched i) ((s.exitThreadInner t (s.thread t).lock).setCore i
          { s.core i with pc := .panicked, ints := { (s.core i).ints with depth := 0 } })
  | badState {i t} (hpc : (s.core i).pc = .returned t) (hstate : (s.thread t).sched.state = .zombie)
      :
      Move s (.sched i) (s.panic i)
  | requeue {i t} (hpc : (s.core i).pc = .returned t) (hdepth : (s.core i).ints.depth = 1)
      (hstate : (s.thread t).sched.state = .runnable) :
      Move s (.sched i) (s.unlockThread i t (.requeue t))
  | putAside {i t} (hpc : (s.core i).pc = .returned t) (hdepth : (s.core i).ints.depth = 1)
      (hstate : (s.thread t).sched.state = .sleeping) :
      Move s (.sched i) (s.unlockThread i t .loop)
  | queue {i t q} (hpc : (s.core i).pc = .requeue t) (hq : s.queue.push t = some q) :
      Move s (.sched i) { s.setCore i { (s.core i).hold.unhold with pc := .loop } with queue := q }
  | queueFailed {i t} (hpc : (s.core i).pc = .requeue t) (hq : s.queue.push t = none) :
      Move s (.sched i) (s.panic i)
  -- thread code
  | release {i op t r} (hpc : (s.core i).pc = .running t (.resuming r)) :
      Move s (.thread i op) (s.unlockThread i t (.running t (.active r.mode)))
  | stay {i op t c} (b) (hstay : Stay t (s.core i) c) :
      Move s (.thread i op) ((s.setThread t { s.thread t with
          sched := { (s.thread t).sched with inSyscall := b } }).setCore i c)
  | enter {i op t m r sched c} (hpc : (s.core i).pc = .running t (.active m))
      (hentry : Entry (s.core i) c) (hstate : sched.state = (s.thread t).sched.state) :
      Move s (.thread i op) (s.enterSched i t r sched c.hold)
  | mark {i op t} (hpc : (s.core i).pc = .running t (.active .kernel)) :
      Move s (.thread i op) ((s.setThread t { s.thread t with
            sched := { (s.thread t).sched with state := .sleeping }
            lock := some i }).goOn i t .marked (s.core i).hold)
  | block {i op t} (hpc : (s.core i).pc = .running t .marked) (hheld : (s.core i).held = 0) :
      Move s (.thread i op) (s.enterSched i t .syscall (s.thread t).sched (s.core i))
  | wedge {i op t} (hpc : (s.core i).pc = .running t (.active .user))
      (hdepth : (s.core i).ints.depth = 0) :
      Move s (.thread i op)
        ((s.setThread t { s.thread t with lock := some i }).goOn i t .wedged
          (s.core i).lit.hold.hold)
  | wedgeMarked {i op t c} (hpc : (s.core i).pc = .running t .marked)
      (hc : c = s.core i ∨ c = (s.core i).excepted) :
      Move s (.thread i op) (s.goOn i t .wedged c.hold)
  -- everything else
  | irq {i} (henabled : (s.core i).ints.enabled = true) :
      Move s (.irq i) (s.setCore i { s.core i with
        pc := if (s.core i).pc = .halted then .loop else (s.core i).pc
        ints := { (s.core i).ints with initial := false } })
  | wake {a t} (hagent : s.agent a = none) (hknown : t < s.next) (hfree : (s.thread t).lock = none)
      (hstate : (s.thread t).sched.state = .sleeping) :
      Move s (.wake a t) ((s.setThread t { s.thread t with
        sched := { (s.thread t).sched with state := .runnable } }).setAgent a (some t))
  | wakeNone {a t} (hstate : (s.thread t).sched.state ≠ .sleeping) :
      Move s (.wake a t) s
  | create {a} (hagent : s.agent a = none) :
      Move s (.create a)
        { (s.setThread s.next (Thread.new n)).setAgent a (some s.next) with next := s.next + 1 }
  | enqueue {a t q} (hagent : s.agent a = some t) (hq : s.queue.push t = some q) :
      Move s (.enqueue a) { s.setAgent a none with queue := q }
  | kill {t} (hfree : (s.thread t).lock = none) :
      Move s (.kill t) (s.setThread t (s.thread t).kill)

variable {s s' : Machine n w} {i : Fin n} {t : Nat}

/-! ## The scheduler loop -/

theorem runThread_move (hpc : (s.core i).pc = .locked t) : Move s (.sched i) (s.runThread i t) := by
  unfold runThread
  split_ifs with hexit hstate
  · exact .exit hpc hexit.1 hexit.2
  · unfold schedRunTick
    cases hsv : (s.thread t).sched.taskState with
    | none => exact .assertFailed hpc (.inr hsv)
    | some => exact .run hpc hstate hsv
  · exact .assertFailed hpc (.inl hstate)

theorem settleThread_move (hpc : (s.core i).pc = .returned t) :
    Move s (.sched i) (s.settleThread i t) := by
  unfold settleThread
  split_ifs with hdepth
  · exact .unbalanced hpc hdepth
  · have hdepth : (s.core i).ints.depth = 1 := not_ne_iff.1 hdepth
    cases hstate : (s.thread t).sched.state with
    | zombie => exact .badState hpc hstate
    | runnable => exact .requeue hpc hdepth hstate
    | sleeping => exact .putAside hpc hdepth hstate

theorem schedStep_move (h : s.schedStep i = some s') : Move s (.sched i) s' := by
  unfold schedStep at h
  cases hpc : (s.core i).pc with
  | loop =>
    simp only [hpc, Option.some.injEq] at h
    subst h
    unfold popThread
    cases hq : s.queue.pop with
    | none => exact .halt hpc hq
    | some => exact .pop hpc hq
  | popped =>
    simp only [hpc, lockThread, ite_none_right_eq_some, Option.some.injEq] at h
    obtain ⟨hfree, rfl⟩ := h
    exact .lock hpc hfree
  | locked =>
    simp only [hpc, Option.some.injEq] at h
    exact h ▸ runThread_move hpc
  | returned =>
    simp only [hpc, Option.some.injEq] at h
    exact h ▸ settleThread_move hpc
  | requeue t =>
    simp only [hpc, Option.some.injEq] at h
    subst h
    unfold queueThread
    cases hq : s.queue.push t with
    | none => exact .queueFailed hpc hq
    | some => exact .queue hpc hq
  | halted => simp [hpc] at h
  | running => simp [hpc] at h
  | panicked => simp [hpc] at h

/-! ## Thread code -/

variable {ph : Phase} {op : Op}

@[simp] theorem setThread_self (s : Machine n w) (t : Nat) : s.setThread t (s.thread t) = s := by
  simp [setThread]

theorem Move.stayed {c : Core} (hstay : Stay t (s.core i) c) :
    Move s (.thread i op) (s.setCore i c) := by
  have h : Move s (.thread i op) ((s.setThread t (s.thread t)).setCore i c) :=
    .stay (s.thread t).sched.inSyscall hstay
  rwa [setThread_self] at h

theorem sysEnter_move (hpc : (s.core i).pc = .running t ph) (h : s.sysEnter i t ph = some s') :
    Move s (.thread i op) s' := by
  unfold sysEnter at h
  split at h
  · split_ifs at h with hdepth hfree hsys hkilled
    · cases h
      exact .stayed (.panic hpc)
    · cases h
      exact .wedge hpc (not_ne_iff.1 hdepth)
    · cases h
      exact .enter hpc (.syscall (not_ne_iff.1 hdepth)) rfl
    · cases h
      exact .stay true (.sysEnter hpc (not_ne_iff.1 hdepth))
  · cases h

theorem sysLeave_move {m : Mode} (hpc : (s.core i).pc = .running t ph)
    (h : s.sysLeave i t m ph = some s') : Move s (.thread i op) s' := by
  unfold sysLeave at h
  split at h
  · split_ifs at h
    cases h
    exact .stay false (.sysLeave hpc)
  · cases h

theorem fail_move {c : Core} (hc : c = s.core i ∨ c = (s.core i).excepted)
    (hpc : (s.core i).pc = .running t ph) (h : s.fail i t c ph = some s') :
    Move s (.thread i op) s' := by
  unfold fail at h
  split at h
  · cases h
    rcases hc with rfl | rfl
    · exact .stayed (.panic hpc)
    · exact .stayed (.exception hpc)
  · cases h
    exact .wedgeMarked hpc hc
  · cases h

theorem runningStep_move (hpc : (s.core i).pc = .running t ph)
    (h : s.runningStep i t ph op = some s') : Move s (.thread i op) s' := by
  cases op with
  | release =>
    rw [runningStep] at h
    unfold release at h
    split at h
    · cases h
      exact .release hpc
    · cases h
  | iret =>
    rw [runningStep] at h
    unfold iret at h
    split at h
    · split_ifs at h with hheld
      cases h
      exact .stayed (.iret hpc hheld)
    · cases h
  | sysEnter => exact sysEnter_move hpc h
  | sysReturn | sysFail => exact sysLeave_move hpc h
  | yieldNow =>
    rw [runningStep] at h
    unfold yieldNow at h
    split at h
    · split_ifs at h
      cases h
      exact .enter hpc .plain rfl
    · cases h
  | exitThread =>
    rw [runningStep] at h
    unfold exitThread at h
    split at h
    · split_ifs at h
      cases h
      exact .enter hpc .plain rfl
    · cases h
  | mark =>
    rw [runningStep] at h
    unfold mark at h
    split at h
    · split_ifs at h
      cases h
      exact .mark hpc
    · cases h
  | block =>
    rw [runningStep] at h
    unfold block at h
    split at h
    · split_ifs at h with hheld
      cases h
      exact .block hpc hheld
    · cases h
  | acquire =>
    rw [runningStep] at h
    unfold acquire at h
    split_ifs at h with hph
    cases h
    exact .stayed (.acquire hpc hph)
  | unlock =>
    rw [runningStep] at h
    unfold unlock at h
    split_ifs at h with hph
    cases h
    exact .stayed (.unlock hpc hph.1 hph.2)
  | tick =>
    rw [runningStep] at h
    unfold tick at h
    split at h
    · split_ifs at h with henabled
      cases h
      exact .enter hpc (.tick henabled.1) rfl
    · cases h
  | exception => exact fail_move (.inr rfl) hpc h
  | panic => exact fail_move (.inl rfl) hpc h
  | killBadTask =>
    rw [runningStep] at h
    unfold killBadTask at h
    split at h
    · split_ifs at h
      cases h
      exact .enter hpc .plain rfl
    · cases h

theorem threadStep_move (h : s.threadStep i op = some s') : Move s (.thread i op) s' := by
  unfold threadStep at h
  split at h
  · exact runningStep_move ‹_› h
  · cases h

/-! ## All actions -/

theorem step_move {a : Action n w} (h : s.step a = some s') : Move s a s' := by
  cases a with
  | sched => exact schedStep_move h
  | thread => exact threadStep_move h
  | irq =>
    simp only [step, irqStep, ite_none_right_eq_some, Option.some.injEq] at h
    obtain ⟨henabled, rfl⟩ := h
    exact .irq henabled
  | wake =>
    rw [step, wakeStep] at h
    split_ifs at h with hready hstate
    · cases h
      exact .wake hready.1 hready.2.1 hready.2.2 hstate
    · cases h
      exact .wakeNone hstate
  | create =>
    simp only [step, createStep, ite_none_right_eq_some, Option.some.injEq] at h
    obtain ⟨hagent, rfl⟩ := h
    exact .create hagent
  | enqueue a =>
    rw [step, enqueueStep] at h
    cases hagent : s.agent a with
    | none => simp [hagent] at h
    | some t =>
      cases hq : s.queue.push t with
      | none => simp [hagent, hq] at h
      | some =>
        simp only [hagent, hq, Option.some.injEq] at h
        exact h ▸ .enqueue hagent hq
  | kill =>
    simp only [step, killStep, ite_none_right_eq_some, Option.some.injEq] at h
    obtain ⟨hready, rfl⟩ := h
    exact .kill hready.2

end Machine

end Fioxa.Sched
