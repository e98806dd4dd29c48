import Fioxa.Sched.Moves

/-! # Interrupts and the idle core

`hold_interrupts_depth` counts the spinlocks held on a core, and `hold_interrupts_initial` remembers
whether interrupts were on when the first of them was taken; the last release puts that back.
`Interrupts.Holds d b` states what the two mean together: `d` locks deep, in code that runs with
interrupts `b` when it holds none.

The remembered value belongs to the core and not to the thread or the guard. A thread that comes
back to the scheduler loop hands its `sched` lock over with it, so the loop goes on with interrupts
as they were when *the thread* took that lock: off, if the thread was interrupted by the timer tick.
Whether a core runs its loop with interrupts on is `dark = false`. -/

namespace Fioxa.Sched

open Function Interrupts Option

/-! ## Nested sections -/

/-- The bookkeeping `d` locks deep, in code that runs with interrupts `b` when it holds none. -/
def Interrupts.Holds (k : Interrupts) (d : Nat) (b : Bool) : Prop :=
  k.depth = d ∧ if d = 0 then k.enabled = b else k.enabled = false ∧ k.initial = b

namespace Interrupts.Holds

variable {k : Interrupts} {d : Nat} {b : Bool}

theorem inc (h : k.Holds d b) : k.incHold.Holds (d + 1) b := by
  obtain ⟨rfl, hflags⟩ := h
  unfold incHold
  split_ifs with hd
  · rw [if_pos hd] at hflags
    exact ⟨by rw [hd], by simpa using hflags⟩
  · rw [if_neg hd] at hflags
    exact ⟨rfl, by simpa using hflags⟩

theorem dec (h : k.Holds (d + 1) b) : k.decHold.Holds d b := by
  obtain ⟨hdepth, henabled, hinitial⟩ := h
  unfold decHold
  rw [hdepth, Nat.add_sub_cancel]
  split_ifs with hd
  · exact ⟨rfl, by simp [hd, henabled, hinitial]⟩
  · exact ⟨rfl, by simp [hd, henabled, hinitial]⟩

theorem enabled_eq_false (h : k.Holds (d + 1) b) : k.enabled = false := h.2.1

theorem depth_eq (h : k.Holds d b) : k.depth = d := h.1

theorem enabled_eq (h : k.Holds 0 b) : k.enabled = b := h.2

theorem depth_eq_zero (h : k.Holds d b) (henabled : k.enabled = true) : d = 0 := by
  cases d with
  | zero => rfl
  | succ => exact absurd henabled (by rw [h.enabled_eq_false]; decide)

theorem disable (h : k.Holds (d + 1) b) {x : Bool} (hx : x = false) :
    { k with enabled := x }.Holds (d + 1) b :=
  ⟨h.1, hx, h.2.2⟩

theorem set (h : k.depth = 0) (x : Bool) : { k with enabled := x }.Holds 0 x :=
  ⟨h, rfl⟩

theorem forget (h : k.Holds d b) (henabled : k.enabled = true) (x : Bool) :
    { k with initial := x }.Holds d b := by
  obtain rfl := h.depth_eq_zero henabled
  exact ⟨h.1, h.2⟩

end Interrupts.Holds

/-! ## What a core holds -/

/-- How many spinlocks are held or, by a wedged thread, waited for on a core whose thread, if it
    runs one, holds `held` of them besides its `sched` lock. -/
def Pc.depth (held : Nat) : Pc → Nat
  | .locked _ => 1
  | .running _ (.active _) => held
  | .running _ .wedged => held + 2
  | .running _ _ => held + 1
  | .returned _ => held + 1
  | _ => 0

/-- The bookkeeping of a core that has not panicked is right, and its loop is under a lock while a
    thread runs. -/
structure Core.Balanced (c : Core) : Prop where
  holds : c.pc ≠ .panicked → c.ints.Holds (c.pc.depth c.held) (!c.dark)
  flags : ∀ t ph, c.pc = .running t ph → c.flags = false

variable {c : Core}

theorem Core.Balanced.at {pc : Pc} (h : c.Balanced) (hpc : c.pc = pc) (hne : pc ≠ .panicked) :
    c.ints.Holds (pc.depth c.held) (!c.dark) := by
  subst hpc
  exact h.holds hne

/-- An exception switches interrupts off in code that holds no lock, and changes nothing in code
    that holds one. -/
theorem Interrupts.Holds.excepted {d : Nat} (h : c.ints.Holds d (!c.dark)) :
    c.excepted.ints.Holds d (!c.excepted.dark) := by
  cases d with
  | zero =>
    have hdark : c.excepted.dark = true := if_pos h.1
    rw [hdark]
    exact .set h.1 false
  | succ d =>
    have hdark : c.excepted.dark = c.dark := if_neg (by rw [h.1]; exact Nat.succ_ne_zero d)
    rw [hdark]
    exact h.disable rfl

variable {t : Nat}

theorem Pc.depth_succ {held : Nat} {ph : Phase} :
    (Pc.running t ph).depth (held + 1) = (Pc.running t ph).depth held + 1 := by
  cases ph <;> rfl

theorem Stay.balanced {c' : Core} (h : Stay t c c') (hb : c.Balanced) :
    c'.Balanced := by
  cases h with
  | @iret m hpc hheld =>
    have hk : c.ints.Holds c.held (!c.dark) := hb.at hpc nofun
    refine ⟨fun _ => ?_, fun _ _ _ => hb.flags _ _ hpc⟩
    have hset := Holds.set (hk.1.trans hheld) true
    rwa [← hheld] at hset
  | sysEnter hpc hdepth =>
    have hk : c.ints.Holds c.held (!c.dark) := hb.at hpc nofun
    have hheld : c.held = 0 := hk.1.symm.trans hdepth
    refine ⟨fun _ => ?_, fun _ _ _ => hb.flags _ _ hpc⟩
    have hset := (Holds.set hdepth true).inc.dec
    rwa [← hheld] at hset
  | @sysLeave m hpc =>
    have hk : c.ints.Holds c.held (!c.dark) := hb.at hpc nofun
    exact ⟨fun _ => hk.inc.dec, fun _ _ _ => hb.flags _ _ hpc⟩
  | @panic m hpc =>
    have hk : c.ints.Holds c.held (!c.dark) := hb.at hpc nofun
    exact ⟨fun _ => hk, fun _ _ _ => hb.flags _ _ hpc⟩
  | @exception m hpc =>
    have hk : c.ints.Holds c.held (!c.dark) := hb.at hpc nofun
    refine ⟨fun _ => ?_, fun _ _ _ => hb.flags _ _ hpc⟩
    exact hk.excepted
  | @acquire ph hpc =>
    have hk : c.ints.Holds ((Pc.running t ph).depth c.held) (!c.dark) := hb.at hpc nofun
    refine ⟨fun _ => ?_, fun _ _ _ => hb.flags _ _ hpc⟩
    have hinc := hk.inc
    rwa [← Pc.depth_succ] at hinc
  | @unlock ph hpc hph hheld =>
    have hk : c.ints.Holds ((Pc.running t ph).depth c.held) (!c.dark) := hb.at hpc nofun
    refine ⟨fun _ => ?_, fun _ _ _ => hb.flags _ _ hpc⟩
    rw [← Nat.sub_add_cancel hheld, Pc.depth_succ] at hk
    exact hk.dec

theorem Entry.holds {m : Mode} {c' : Core} (h : Entry c c') (hb : c.Balanced)
    (hpc : c.pc = .running t (.active m)) :
    c'.ints.Holds c'.held (!c'.dark) ∧ c'.flags = false := by
  have hk : c.ints.Holds c.held (!c.dark) := hb.at hpc nofun
  have hflags : c.flags = false := hb.flags _ _ hpc
  cases h with
  | plain => exact ⟨hk, hflags⟩
  | syscall hdepth =>
    have hheld : c.held = 0 := hk.1.symm.trans hdepth
    have hset := Holds.set hdepth true
    rw [← hheld] at hset
    exact ⟨hset, hflags⟩
  | tick henabled =>
    -- the tick was not masked, so no lock is held
    have hheld : c.held = 0 := hk.depth_eq_zero henabled
    have hset := Holds.set (hk.1.trans hheld) false
    rw [← hheld] at hset
    exact ⟨hset, hflags⟩

/-! ## The invariant -/

namespace Machine

variable {n w : Nat} {s s' : Machine n w} {i : Fin n}

/-- The bookkeeping of every core is right, and every thread that can be resumed was saved under its
    `sched` lock. -/
structure Balanced (s : Machine n w) : Prop where
  core : ∀ i, (s.core i).Balanced
  saved : ∀ t sv, (s.thread t).sched.taskState = some sv → sv.flags = false

theorem Balanced.boot (n w : Nat) : (boot n w).Balanced where
  core i := ⟨fun _ => ⟨rfl, rfl⟩, nofun⟩
  saved t sv h := by
    exact some.inj h ▸ rfl

variable {c : Core} {t : Nat}

section

variable (hb : s.Balanced)
include hb

theorem Balanced.saved_update {th : Thread n} (hthread : s'.thread = Function.update s.thread t th)
    (hsaved : ∀ sv, th.sched.taskState = some sv → sv.flags = false) :
    ∀ u sv, (s'.thread u).sched.taskState = some sv → sv.flags = false := by
  intro u sv hsv
  rcases eq_or_ne u t with rfl | hu
  · rw [hthread, update_self] at hsv
    exact hsaved sv hsv
  · rw [hthread, update_of_ne hu] at hsv
    exact hb.saved u sv hsv

theorem Balanced.update {th : Thread n} (hcore : s'.core = Function.update s.core i c)
    (hthread : s'.thread = Function.update s.thread t th) (hc : c.Balanced)
    (hsaved : ∀ sv, th.sched.taskState = some sv → sv.flags = false) : s'.Balanced := by
  refine ⟨fun j => ?_, hb.saved_update hthread hsaved⟩
  rcases eq_or_ne j i with rfl | hj
  · rw [hcore, update_self]
    exact hc
  · rw [hcore, update_of_ne hj]
    exact hb.core j

theorem Balanced.updateCore (hcore : s'.core = Function.update s.core i c)
    (hthread : s'.thread = s.thread) (hc : c.Balanced) : s'.Balanced :=
  hb.update (t := 0) hcore (hthread.trans (update_eq_self 0 s.thread).symm) hc (hb.saved 0)

theorem Balanced.updateThread {th : Thread n} (hcore : s'.core = s.core)
    (hthread : s'.thread = Function.update s.thread t th)
    (hsaved : ∀ sv, th.sched.taskState = some sv → sv.flags = false) : s'.Balanced :=
  ⟨by rw [hcore]; exact hb.core, hb.saved_update hthread hsaved⟩

theorem Balanced.enterSched {r : Resume} {sched : ThreadSched}
    (hk : c.ints.Holds (c.held + 1) (!c.dark)) (hflags : c.flags = false) :
    (s.enterSched i t r sched c).Balanced := by
  refine hb.update rfl rfl ⟨fun _ => hk.disable hflags, nofun⟩ fun sv hsv => ?_
  rw [← some.inj hsv]
  exact hk.enabled_eq_false

theorem Balanced.holds_one (hpc : (s.core i).pc = .returned t)
    (hdepth : (s.core i).ints.depth = 1) : (s.core i).ints.Holds 1 (!(s.core i).dark) := by
  have hk : (s.core i).ints.Holds ((s.core i).held + 1) (!(s.core i).dark) :=
    (hb.core i).at hpc nofun
  rwa [← hk.depth_eq, hdepth] at hk

/-- **Every step of the machine keeps the interrupt bookkeeping right.** -/
theorem Balanced.move {act : Action n w} (hm : Move s act s') : s'.Balanced := by
  cases hm with
  | @halt i hpc | @pop i t q hpc | @queue i t q hpc =>
    have hk : (s.core i).ints.Holds 0 (!(s.core i).dark) := (hb.core i).at hpc nofun
    exact hb.updateCore rfl rfl ⟨fun _ => hk.inc.dec, nofun⟩
  | @lock i t hpc =>
    have hk : (s.core i).ints.Holds 0 (!(s.core i).dark) := (hb.core i).at hpc nofun
    exact hb.update rfl rfl ⟨fun _ => hk.inc, nofun⟩ (hb.saved t)
  | @exit i t hpc =>
    have hk : (s.core i).ints.Holds 1 (!(s.core i).dark) := (hb.core i).at hpc nofun
    exact hb.update rfl rfl ⟨fun _ => hk.dec, nofun⟩ (hb.saved t)
  | @run i t sv hpc hstate hsv =>
    have hk : (s.core i).ints.Holds 1 (!(s.core i).dark) := (hb.core i).at hpc nofun
    -- the thread was saved under its lock, so resuming it leaves interrupts off
    have hflags : sv.enabled (s.core i).ints.enabled = false := by
      unfold SavedTaskState.enabled
      split
      · exact hk.enabled_eq_false
      · exact hb.saved t sv hsv
    exact hb.update rfl rfl ⟨fun _ => hk.disable hflags, fun _ _ _ => hk.enabled_eq_false⟩ nofun
  | assertFailed | badState | queueFailed =>
    exact hb.updateCore rfl rfl ⟨fun h => absurd rfl h, nofun⟩
  | @unbalanced i t =>
    exact hb.update rfl rfl ⟨fun h => absurd rfl h, nofun⟩ (hb.saved t)
  | @requeue i t hpc hdepth | @putAside i t hpc hdepth =>
    exact hb.update rfl rfl ⟨fun _ => (hb.holds_one hpc hdepth).dec, nofun⟩ (hb.saved t)
  | @release i op t r hpc =>
    have hk : (s.core i).ints.Holds ((s.core i).held + 1) (!(s.core i).dark) :=
      (hb.core i).at hpc nofun
    exact hb.update rfl rfl ⟨fun _ => hk.dec, fun _ _ _ => (hb.core i).flags _ _ hpc⟩ (hb.saved t)
  | @stay i op t c b hstay =>
    exact hb.update rfl rfl (hstay.balanced (hb.core i)) (hb.saved t)
  | @enter i op t m r sched c hpc hentry =>
    obtain ⟨hk, hflags⟩ := hentry.holds (hb.core i) hpc
    exact hb.enterSched hk.inc hflags
  | @mark i op t hpc =>
    have hk : (s.core i).ints.Holds (s.core i).held (!(s.core i).dark) :=
      (hb.core i).at hpc nofun
    exact hb.update rfl rfl ⟨fun _ => hk.inc, fun _ _ _ => (hb.core i).flags _ _ hpc⟩ (hb.saved t)
  | @block i op t hpc =>
    exact hb.enterSched ((hb.core i).at hpc nofun) ((hb.core i).flags _ _ hpc)
  | @wedge i op t hpc hdepth =>
    obtain ⟨hk, hflags⟩ := (Entry.syscall hdepth).holds (hb.core i) hpc
    exact hb.update rfl rfl ⟨fun _ => hk.inc.inc, fun _ _ _ => hflags⟩ (hb.saved t)
  | @wedgeMarked i op t c hpc hc =>
    have hk : (s.core i).ints.Holds ((s.core i).held + 1) (!(s.core i).dark) :=
      (hb.core i).at hpc nofun
    have hflags : (s.core i).flags = false := (hb.core i).flags _ _ hpc
    rcases hc with rfl | rfl
    · exact hb.updateCore rfl rfl ⟨fun _ => hk.inc, fun _ _ _ => hflags⟩
    · exact hb.updateCore rfl rfl ⟨fun _ => hk.excepted.inc, fun _ _ _ => hflags⟩
  | @irq i henabled =>
    by_cases hpc : (s.core i).pc = .halted
    · have hk : (s.core i).ints.Holds 0 (!(s.core i).dark) := (hb.core i).at hpc nofun
      rw [if_pos hpc]
      exact hb.updateCore rfl rfl ⟨fun _ => hk.forget henabled false, nofun⟩
    · rw [if_neg hpc]
      exact hb.updateCore rfl rfl
        ⟨fun hne => ((hb.core i).holds hne).forget henabled false, (hb.core i).flags⟩
  | @wake a t | @kill t =>
    exact hb.updateThread rfl rfl (hb.saved t)
  | wakeNone => exact hb
  | create =>
    exact hb.updateThread rfl rfl fun sv hsv => some.inj hsv ▸ rfl
  | enqueue => exact ⟨hb.core, hb.saved⟩

end

theorem balanced_of_reachable (hr : Lts.Reachable step (Machine.boot n w) s) : s.Balanced :=
  hr.invariant (fun _ _ _ hb hstep => Balanced.move hb (step_move hstep)) (Balanced.boot n w)

/-- **Interrupts are off under a lock.** A core that has not panicked has interrupts on only where
    no spinlock is held and `hold_interrupts_depth` is 0. -/
theorem interrupts_off_under_lock (as : List (Action n w)) :
    Lts.Always step (fun s => ∀ i, (s.core i).pc ≠ .panicked → (s.core i).ints.enabled = true →
      (s.core i).pc.depth (s.core i).held = 0 ∧ (s.core i).ints.depth = 0) (boot n w) as := by
  refine Lts.always_of_step (I := Balanced) (fun s hb i hpc henabled => ?_)
    (fun _ _ _ hb hstep => hb.move (step_move hstep)) (.boot n w)
  have hk := (hb.core i).holds hpc
  have hzero := hk.depth_eq_zero henabled
  exact ⟨hzero, hk.depth_eq.trans hzero⟩

/-! ## Idle cores -/

/-- Every core at its `hlt` can be woken: its interrupts are on. -/
def IdleWakeable (s : Machine n w) : Prop :=
  ∀ i, (s.core i).pc = .halted → (s.core i).ints.enabled = true

/-- A core whose loop is about to find the run queue empty has not been left by a thread that the
    timer tick or an exception interrupted. -/
def IdlesLit (s : Machine n w) (act : Action n w) : Prop :=
  ∀ i, act = .sched i → (s.core i).pc = .loop → s.queue.pop = none → (s.core i).dark = false

theorem Balanced.enabled_of_halted (hb : s.Balanced) (hpc : (s.core i).pc = .halted) :
    (s.core i).ints.enabled = !(s.core i).dark :=
  Holds.enabled_eq ((hb.core i).at hpc nofun)

theorem schedStep_of_empty (hpc : (s.core i).pc = .loop) (hq : s.queue.pop = none) :
    s.step (.sched i) = some (s.setCore i { (s.core i).hold.unhold with pc := .halted }) := by
  rw [step, schedStep, hpc, popThread, hq]

theorem core_eq_of_update {j : Fin n} (hcore : s'.core = Function.update s.core j c)
    (hc : c.pc ≠ .halted) (hpc : (s'.core i).pc = .halted) : s'.core i = s.core i := by
  rcases eq_or_ne i j with rfl | hij
  · rw [hcore, update_self] at hpc
    exact absurd hpc hc
  · rw [hcore, update_of_ne hij]

theorem Move.halted {act : Action n w} (hm : Move s act s') (hpc : (s'.core i).pc = .halted) :
    s'.core i = s.core i ∨ act = .sched i ∧ (s.core i).pc = .loop ∧ s.queue.pop = none := by
  cases hm with
  | @halt j hloop hq =>
    rcases eq_or_ne i j with rfl | hij
    · exact .inr ⟨rfl, hloop, hq⟩
    · exact .inl (update_of_ne hij ..)
  | stay b hstay =>
    refine .inl (core_eq_of_update rfl ?_ hpc)
    cases hstay <;> nofun
  | @irq j =>
    refine .inl (core_eq_of_update rfl ?_ hpc)
    intro hj
    by_cases hhalted : (s.core j).pc = .halted
    · simp [hhalted] at hj
    · simp [hhalted] at hj
  | wake => exact .inl rfl
  | wakeNone => exact .inl rfl
  | create => exact .inl rfl
  | enqueue => exact .inl rfl
  | kill => exact .inl rfl
  | _ => exact .inl (core_eq_of_update rfl nofun hpc)

/-- **When an idle core can be woken.** In a run of the machine no core ever reaches its `hlt` with
    interrupts disabled if and only if each time the loop of a core finds the run queue empty, the
    timer tick or an exception was not the last thing that happened to thread code on that core. -/
theorem idle_wakeable_iff (as : List (Action n w)) :
    Lts.Always step IdleWakeable (boot n w) as ↔ Lts.Guarded step IdlesLit (boot n w) as := by
  have hboot : (boot n w).IdleWakeable := by
    intro i hpc
    cases (hpc : Pc.loop = .halted)
  refine Lts.always_iff_guarded (I := fun s : Machine n w => s.Balanced ∧ s.IdleWakeable)
    (fun s h => h.2) ?_ ?_ ⟨Balanced.boot n w, hboot⟩
  · rintro s act s' ⟨hb, hidle⟩ hlit hstep
    have hm := step_move hstep
    have hb' : s'.Balanced := hb.move hm
    refine ⟨hb', fun i hpc => ?_⟩
    rcases hm.halted hpc with hsame | ⟨rfl, hloop, hq⟩
    · rw [hsame] at hpc ⊢
      exact hidle i hpc
    · rw [schedStep_of_empty hloop hq, some.injEq] at hstep
      have hdark : (s'.core i).dark = false := by
        rw [← hstep]
        simpa [setCore, Core.hold, Core.unhold] using hlit i rfl hloop hq
      rw [hb'.enabled_of_halted hpc, hdark]
      rfl
  · rintro s act s' ⟨hb, -⟩ hstep hidle i rfl hloop hq
    have hb' : s'.Balanced := hb.move (step_move hstep)
    rw [schedStep_of_empty hloop hq, some.injEq] at hstep
    have hpc : (s'.core i).pc = .halted := by rw [← hstep]; simp [setCore]
    have hdark : (s'.core i).dark = (s.core i).dark := by
      rw [← hstep]
      simp [setCore, Core.hold, Core.unhold]
    have henabled : (s'.core i).ints.enabled = true := hidle i hpc
    rw [hb'.enabled_of_halted hpc, hdark] at henabled
    simpa using henabled

/-- The timer tick takes core `i` out of the only thread; core `j` pops it before the loop of core
    `i` comes to its next iteration. -/
def stolenRun (i j : Fin n) (a : Fin w) : List (Action n w) :=
  [.create a, .enqueue a, .sched i, .sched i, .sched i, .thread i .release, .thread i .iret,
    .thread i .tick, .sched i, .sched i, .sched j, .sched i]

/-- After a tick a core can find the run queue empty and execute `hlt` with interrupts disabled. -/
theorem halted_with_interrupts_off :
    (∃ s : Machine 2 1, Lts.run step (boot 2 1) (stolenRun 0 1 0) = some s ∧
      (s.core 0).pc = .halted ∧ (s.core 0).ints.enabled = false) ∧
      ¬ Lts.Always step IdleWakeable (boot 2 1) (stolenRun 0 1 0) := by
  refine ⟨⟨_, rfl, rfl, rfl⟩, fun h => ?_⟩
  have hlast : IdleWakeable _ := h.last rfl
  exact absurd (hlast 0 rfl) (by decide)

end Machine

end Fioxa.Sched
