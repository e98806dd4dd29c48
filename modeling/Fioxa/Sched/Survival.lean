import Fioxa.Sched.ProcessExit

/-! # What killing a thread does to the kernel

`exit_thread_inner` holds the `sched` lock of its thread and takes the lock of the thread list;
`kill_threads` holds the latter and takes the former. So the loop gets on with a killed thread only
while no `kill_threads` has the list, and if one is about to kill just this thread, both wait for
ever. A thread that comes back with a spinlock besides its own takes the core down. -/

namespace Fioxa.Sched.System

open List Machine Function Lts Option

variable {n w k : Nat} {s s' : System n w k} {a : Action n w k} {i : Fin n} {t : Nat}

/-- A core in the middle of `exit_thread_inner` has let go of its thread. -/
def Departed (s : System n w k) : Prop :=
  ∀ i, s.exiting (.core i) ≠ none → (s.machine.core i).pc.tid = none

theorem tid_of_step_leaving {m : Machine n w} (hleaving : leaving s.machine i = some t)
    (hstep : s.machine.step (.sched i) = some m) : (m.core i).pc.tid = none := by
  rw [Machine.step, Machine.schedStep] at hstep
  unfold leaving at hleaving
  split at hleaving
  · next u hpc =>
    split_ifs at hleaving with hkilled
    simp only [hpc, runThread, if_pos hkilled, Option.some.injEq] at hstep
    rw [← hstep]
    simp [setCore, Pc.tid]
  · next u hpc =>
    split_ifs at hleaving with hdepth
    simp only [hpc, settleThread, if_pos hdepth, Option.some.injEq] at hstep
    rw [← hstep]
    simp [setCore, Pc.tid]
  · cases hleaving

theorem Departed.step {act : Machine.Action n w} (h : s.Departed)
    (hstep : s.machine.step act = some s'.machine)
    (hexit : ∀ i, s'.exiting (.core i) ≠ none → s.exiting (.core i) ≠ none ∧ act ≠ .sched i) :
    s'.Departed := by
  intro i hi
  obtain ⟨hold, hact⟩ := hexit i hi
  exact (Machine.step_move hstep).tid_none hact (h i hold)

theorem exiting_of_set {e : Exiter n k} {x : Option (Nat × ExitPc)} (he : s.exiting e ≠ none)
    (hi : update s.exiting e x (.core i) ≠ none) : s.exiting (.core i) ≠ none := by
  by_cases hie : .core i = e
  · exact hie ▸ he
  · rwa [update_of_ne hie] at hi

theorem Departed.move (h : s.Departed) (hm : Move s a s') : s'.Departed := by
  cases hm with
  | machine hplain hstep =>
    refine h.step hstep fun i hi => ⟨hi, ?_⟩
    rintro rfl
    cases hplain with
    | sched hcore => exact hi hcore
  | @leave j t m hcore hlock hleaving hstep =>
    intro i hi
    rw [checkEmpty_machine]
    by_cases hij : i = j
    · subst hij
      exact tid_of_step_leaving hleaving hstep
    · refine (Machine.step_move hstep).tid_none (by simpa using Ne.symm hij) (h i fun hnone => ?_)
      unfold checkEmpty at hi
      split at hi
      · exact hi (by simpa [setExiting, withMachine, hij] using hnone)
      · exact hi hnone
  | spawn hcaller hlock hstatus hstep | load hgiven hstatus hstep | objectWait hquiet hstep
  | block hsignals hstep | wake hdue hstep | mark hpc hstep =>
    exact h.step hstep fun i hi => ⟨hi, by simp⟩
  | wakeNext hexit hstep =>
    exact h.step hstep fun i hi => ⟨exiting_of_set (by rw [hexit]; simp) hi, by simp⟩
  | finish =>
    intro i hi
    rw [checkEmpty_machine]
    refine h i fun hnone => ?_
    unfold checkEmpty at hi
    split at hi
    · exact hi (by simpa [setExiting, setKiller] using hnone)
    · exact hi hnone
  | status hexit | signal hexit | awake hexit | remove hexit =>
    exact fun i hi => h i (exiting_of_set (by rw [hexit]; simp) hi)
  | _ => exact h

theorem departed_of_reachable (hr : Reachable step (boot n w k) s) : s.Departed :=
  hr.invariant (fun _ _ _ h hstep => h.move (step_move hstep)) fun _ hi => absurd rfl hi

/-! ## Coming back to the loop -/

/-- The loop of core `i` comes to its next iteration. -/
def LoopsOn (s : System n w k) (i : Fin n) : Prop :=
  ∃ l s', run step s (replicate l (.sched i)) = some s' ∧ (s'.machine.core i).pc = .loop

theorem step_sched (hexit : s.exiting (.core i) = none) (hleaving : leaving s.machine i = none) :
    s.step (.sched i) = (s.machine.step (.sched i)).map s.withMachine := by
  rw [step, schedStep, if_pos hexit, hleaving]

theorem step_sched_leaving (hexit : s.exiting (.core i) = none)
    (hleaving : leaving s.machine i = some t) :
    s.step (.sched i) = if s.Locked (s.owner t) then none
      else (s.machine.step (.sched i)).map fun m =>
        (s.withMachine m).checkEmpty (.core i) (s.owner t) := by
  rw [step, schedStep, if_pos hexit, hleaving]

theorem loopsOn_of_settles {m : Machine n w} (hexit : s.exiting (.core i) = none)
    (hleaving : leaving s.machine i = none) (hstep : s.machine.step (.sched i) = some m)
    (hm : (m.core i).pc = .loop ∨ (m.core i).pc = .requeue t ∧
      ∃ m', m.step (.sched i) = some m' ∧ (m'.core i).pc = .loop) : s.LoopsOn i := by
  have hfirst : s.step (.sched i) = some (s.withMachine m) := by
    rw [step_sched hexit hleaving, hstep]
    rfl
  rcases hm with hloop | ⟨hpc, m', hstep', hloop⟩
  · exact ⟨1, _, run_cons_eq_some.2 ⟨_, hfirst, rfl⟩, hloop⟩
  · have hsecond : (s.withMachine m).step (.sched i) = some ((s.withMachine m).withMachine m') := by
      rw [step_sched (s := s.withMachine m) hexit (by simp [leaving, withMachine, hpc])]
      show (m.step (.sched i)).map _ = _
      rw [hstep']
      rfl
    exact ⟨2, _, run_cons_eq_some.2 ⟨_, hfirst, run_cons_eq_some.2 ⟨_, hsecond, rfl⟩⟩, hloop⟩

theorem step_eq_none_of_panicked (hpc : (s.machine.core i).pc = .panicked) :
    s.step (.sched i) = none := by
  rw [step, schedStep]
  split_ifs
  · simp [leaving, Machine.step, Machine.schedStep, hpc]
  · rfl

theorem not_loopsOn (hpc : (s.machine.core i).pc = .returned t)
    (hdepth : (s.machine.core i).ints.depth ≠ 1) : ¬ s.LoopsOn i := by
  rintro ⟨l, s', hrun, hloop⟩
  obtain ⟨m, hm, hdead, -⟩ := Machine.step_panics hpc hdepth
  have hnext : ∀ u, s.step (.sched i) = some u → (u.machine.core i).pc = .panicked := by
    intro u hu
    have hleaving : leaving s.machine i = some t := by simp [leaving, hpc, hdepth]
    by_cases hexit : s.exiting (.core i) = none
    · rw [step_sched_leaving hexit hleaving, ite_none_left_eq_some, hm] at hu
      rw [← some.inj hu.2, checkEmpty_machine]
      exact hdead
    · rw [step, schedStep, if_neg hexit] at hu
      cases hu
  cases l with
  | zero =>
    rw [replicate_zero, run_nil, some.injEq] at hrun
    rw [← hrun, hpc] at hloop
    cases hloop
  | succ l =>
    obtain ⟨u, hu, hrest⟩ := run_cons_eq_some.1 hrun
    cases l with
    | zero =>
      rw [replicate_zero, run_nil, some.injEq] at hrest
      rw [← hrest, hnext u hu] at hloop
      cases hloop
    | succ l =>
      obtain ⟨v, hv, -⟩ := run_cons_eq_some.1 hrest
      rw [step_eq_none_of_panicked (hnext u hu)] at hv
      cases hv

/-- Process 3 is loaded and its only thread runs on core `i` up to the body of a system call. -/
def inSyscallRun (i : Fin n) (b : Fin w) : List (Action n w k) :=
  [.load b 3, .insert 3, .enqueue b, .sched i, .sched i, .sched i, .thread i .release,
    .thread i .iret, .thread i .sysEnter]

/-- The system call fails and its thread is killed. -/
def failedSyscallRun (i : Fin n) (b : Fin w) : List (Action n w k) :=
  inSyscallRun i b ++ [.thread i .sysFail, .thread i .killBadTask]

/-- The system call panics under a spinlock and its thread is killed. -/
def panicRun (i : Fin n) (b : Fin w) : List (Action n w k) :=
  inSyscallRun i b ++ [.thread i .acquire, .thread i .panic, .thread i .killBadTask]

/-- The system call is `EXIT_THREAD`; the thread comes back and is popped once more. -/
def exitRun (i : Fin n) (b : Fin w) : List (Action n w k) :=
  inSyscallRun i b ++ [.thread i .exitThread, .sched i, .sched i, .sched i, .sched i]

end Fioxa.Sched.System
