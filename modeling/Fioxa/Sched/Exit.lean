import Fioxa.Sched.Places
import Fioxa.Sched.Interrupts

/-! # Killed threads

A thread that is killed outside of a system call is taken out of its process's list by the loop that
pops it next. `exit_thread_inner` is also called for a thread that comes back while more than its
own `sched` lock is held, and the loop then panics on the state it has just set: the recovery from a
panic under a spinlock takes the core down. -/

namespace Fioxa.Sched.Machine

open List Function Lts Option

variable {n w : Nat} {s s' : Machine n w} {l : List Nat} {i : Fin n} {t : Nat}

/-! ## The thread lists -/

/-- A thread is in its process's list until `exit_thread_inner` takes it out, which makes it a
    zombie. -/
structure Listed (s : Machine n w) : Prop where
  nodup : s.removed.Nodup
  exited : ∀ t ∈ s.removed, t < s.next ∧ (s.thread t).sched.state = .zombie
  listed : ∀ t, t < s.next → ((s.thread t).listed = true ↔ t ∉ s.removed)

theorem Listed.boot (n w : Nat) : (boot n w).Listed where
  nodup := nodup_nil
  exited _ ht := absurd ht not_mem_nil
  listed t ht := absurd ht (Nat.not_lt_zero t)

section

variable (hl : s.Listed)
include hl

theorem Listed.update {th : Thread n} (hthread : s'.thread = Function.update s.thread t th)
    (hlisted : th.listed = (s.thread t).listed)
    (hzombie : (s.thread t).sched.state = .zombie → th.sched.state = .zombie)
    (hremoved : s'.removed = s.removed) (hnext : s'.next = s.next) : s'.Listed := by
  refine ⟨hremoved ▸ hl.nodup, fun u hu => ?_, fun u hu => ?_⟩
  · rw [hremoved] at hu
    obtain ⟨hknown, hstate⟩ := hl.exited u hu
    refine ⟨hnext ▸ hknown, ?_⟩
    rcases eq_or_ne u t with rfl | hne
    · rw [hthread, update_self]
      exact hzombie hstate
    · rw [hthread, update_of_ne hne]
      exact hstate
  · rw [hnext] at hu
    rw [hremoved, ← hl.listed u hu]
    rcases eq_or_ne u t with rfl | hne
    · rw [hthread, update_self, hlisted]
    · rw [hthread, update_of_ne hne]

theorem Listed.not_removed (hstate : (s.thread t).sched.state ≠ .zombie) : t ∉ s.removed :=
  fun hmem => hstate (hl.exited t hmem).2

theorem Listed.removed_exit (hknown : t < s.next)
    (hstate : (s.thread t).sched.state ≠ .zombie) (lock : Option (Fin n)) :
    (s.exitThreadInner t lock).removed = s.removed ++ [t] :=
  if_pos ((hl.listed t hknown).2 (hl.not_removed hstate))

theorem Listed.exit (hknown : t < s.next)
    (hstate : (s.thread t).sched.state ≠ .zombie) (lock : Option (Fin n)) (c : Core) :
    ((s.exitThreadInner t lock).setCore i c).Listed := by
  have hnot : t ∉ s.removed := hl.not_removed hstate
  have hremoved : ((s.exitThreadInner t lock).setCore i c).removed = s.removed ++ [t] :=
    hl.removed_exit hknown hstate lock
  have hthread : ∀ u, u ≠ t → ((s.exitThreadInner t lock).setCore i c).thread u = s.thread u :=
    fun u hne => update_of_ne hne ..
  have hself : ((s.exitThreadInner t lock).setCore i c).thread t =
      { s.thread t with
        sched := { (s.thread t).sched with state := .zombie }, lock := lock, listed := false } :=
    update_self ..
  refine ⟨?_, fun u hu => ?_, fun u hu => ?_⟩
  · rw [hremoved]
    exact hl.nodup.append (nodup_singleton t) (disjoint_singleton.2 hnot)
  · rw [hremoved, mem_append, mem_singleton] at hu
    rcases eq_or_ne u t with rfl | hne
    · exact ⟨hknown, by rw [hself]⟩
    · rw [hthread u hne]
      exact hl.exited u (hu.resolve_right hne)
  · rw [hremoved, mem_append, mem_singleton]
    rcases eq_or_ne u t with rfl | hne
    · simp [hself]
    · rw [hthread u hne, or_iff_left hne]
      exact hl.listed u hu

theorem Listed.create (agent : Fin w → Option Nat) :
    ({ s.setThread s.next (Thread.new n) with agent := agent, next := s.next + 1 } :
      Machine n w).Listed := by
  have hold : ∀ u, u < s.next → (s.setThread s.next (Thread.new n)).thread u = s.thread u :=
    fun u hu => update_of_ne (Nat.ne_of_lt hu) ..
  refine ⟨hl.nodup, fun u hu => ?_, fun u hu => ?_⟩
  · obtain ⟨hlt, hzombie⟩ := hl.exited u hu
    rw [← hold u hlt] at hzombie
    exact ⟨Nat.lt_succ_of_lt hlt, hzombie⟩
  · rcases Nat.lt_succ_iff_lt_or_eq.1 hu with hlt | rfl
    · have hiff := hl.listed u hlt
      rw [← hold u hlt] at hiff
      exact hiff
    · have hfresh : s.next ∉ s.removed := fun hmem => Nat.lt_irrefl _ (hl.exited _ hmem).1
      simpa [setThread, Thread.new] using hfresh

theorem Listed.move (hp : s.Placed l) {act : Action n w} (hm : Move s act s') :
    s'.Listed := by
  have hknown : ∀ {i t}, (s.core i).pc.tid = some t → t < s.next :=
    fun {i t} h => hp.known t (.core i) h
  cases hm with
  | exit hpc =>
    exact hl.exit (hknown (by rw [hpc]; rfl)) ((hp.ok hpc rfl).not_zombie rfl) none _
  | unbalanced hpc =>
    exact hl.exit (hknown (by rw [hpc]; rfl)) ((hp.ok hpc rfl).not_zombie rfl) _ _
  | lock | run | requeue
  | putAside | release | stay | block
  | wedge | kill => exact hl.update rfl rfl id rfl rfl
  | enter hpc hentry hstate => exact hl.update rfl rfl hstate.trans rfl rfl
  | mark hpc =>
    exact hl.update rfl rfl (fun h => absurd h ((hp.ok hpc rfl).not_zombie rfl)) rfl rfl
  | wake hagent hlt hfree hstate =>
    refine hl.update rfl rfl (fun h => ?_) rfl rfl
    rw [h] at hstate
    cases hstate
  | create => exact hl.create _
  | _ => exact ⟨hl.nodup, hl.exited, hl.listed⟩

end

theorem sound_of_reachable (hr : Lts.Reachable step (Machine.boot n w) s) :
    (∃ l, s.Placed l) ∧ s.Balanced ∧ s.Listed := by
  refine ⟨placed_of_reachable hr, balanced_of_reachable hr, ?_⟩
  refine (hr.invariant (I := fun s : Machine n w => (∃ l, s.Placed l) ∧ s.Listed) ?_
    ⟨⟨[], .boot n w⟩, .boot n w⟩).2
  rintro s a s' ⟨⟨l, hp⟩, hl⟩ hstep
  have hm := step_move hstep
  exact ⟨hp.move hm, hl.move hp hm⟩

/-! ## Coming back to the loop -/

theorem Balanced.depth_returned (hb : s.Balanced) (hpc : (s.core i).pc = .returned t) :
    (s.core i).ints.depth = (s.core i).held + 1 :=
  Interrupts.Holds.depth_eq ((hb.core i).at hpc nofun)

/-- The loop leaves a thread that comes back with nothing but its `sched` lock, or queues it. -/
theorem Placed.settles (hp : s.Placed l) (hpc : (s.core i).pc = .returned t)
    (hdepth : (s.core i).ints.depth = 1) :
    ∃ m, s.step (.sched i) = some m ∧ ((m.core i).pc = .loop ∨ (m.core i).pc = .requeue t ∧
      ∃ m', m.step (.sched i) = some m' ∧ (m'.core i).pc = .loop) := by
  have hstep : s.step (.sched i) = some (s.settleThread i t) := by rw [step, schedStep, hpc]
  refine ⟨_, hstep, ?_⟩
  cases hstate : (s.thread t).sched.state with
  | zombie => exact absurd hstate ((hp.ok hpc rfl).not_zombie rfl)
  | sleeping => exact .inl (by simp [settleThread, hdepth, hstate, unlockThread, setCore])
  | runnable =>
    have hsettle : s.settleThread i t = s.unlockThread i t (.requeue t) := by
      simp [settleThread, hdepth, hstate]
    obtain ⟨l', hp'⟩ := hp.move (step_move hstep)
    rw [hsettle] at hp' ⊢
    have hpc' : ((s.unlockThread i t (.requeue t)).core i).pc = .requeue t := by
      simp [unlockThread, setCore]
    have hhas : (s.unlockThread i t (.requeue t)).Has l' (.core i) t := by
      rw [Has, hpc']
      rfl
    obtain ⟨q, hq, -⟩ := hp'.push hhas (by simp)
    refine .inr ⟨hpc', (s.unlockThread i t (.requeue t)).queueThread i t, ?_, ?_⟩
    · rw [step, schedStep, hpc']
    · simp [queueThread, hq, setCore]

/-- After `exit_thread_inner` has made the thread a zombie, the loop looks at its state. -/
theorem step_panics (hpc : (s.core i).pc = .returned t) (hdepth : (s.core i).ints.depth ≠ 1) :
    ∃ m, s.step (.sched i) = some m ∧ (m.core i).pc = .panicked ∧ m.step (.sched i) = none := by
  have hdead : ((s.settleThread i t).core i).pc = .panicked := by
    simp [settleThread, hdepth, setCore]
  refine ⟨s.settleThread i t, ?_, hdead, ?_⟩
  · rw [step, schedStep, hpc]
  · rw [step, schedStep, hdead]

theorem Placed.exits (hp : s.Placed l) (hl : s.Listed) (hpc : (s.core i).pc = .locked t)
    (hkilled : (s.thread t).sched.killed = true) (hsys : (s.thread t).sched.inSyscall = false) :
    ∃ m, s.step (.sched i) = some m ∧ (m.core i).pc = .loop ∧ m.removed = s.removed ++ [t] := by
  have hknown : t < s.next := hp.known t (.core i) (by rw [Has, hpc]; rfl)
  have hstate : (s.thread t).sched.state ≠ .zombie := (hp.ok hpc rfl).not_zombie rfl
  refine ⟨s.runThread i t, ?_, ?_, ?_⟩
  · rw [step, schedStep, hpc]
  · simp [runThread, hsys, hkilled, setCore]
  · rw [runThread, if_pos ⟨hsys, hkilled⟩]
    exact hl.removed_exit hknown hstate none

/-! ## Cores without a thread -/

theorem tid_of_update {j : Fin n} {c : Core} (hcore : s'.core = update s.core j c)
    (hself : j = i → c.pc.tid = none) (h : (s.core i).pc.tid = none) :
    (s'.core i).pc.tid = none := by
  rw [hcore]
  rcases eq_or_ne i j with rfl | hij
  · rw [update_self]
    exact hself rfl
  · rw [update_of_ne hij]
    exact h

theorem tid_of_stay {c c' : Core} (h : Stay t c c') : c.pc.tid = some t := by
  cases h with
  | iret hpc | sysEnter hpc | sysLeave hpc | panic hpc | exception hpc | acquire hpc | unlock hpc =>
    rw [hpc]
    rfl

/-- A core only gets a thread by a step of its loop. -/
theorem Move.tid_none {act : Action n w} (hm : Move s act s') (hact : act ≠ .sched i)
    (h : (s.core i).pc.tid = none) : (s'.core i).pc.tid = none := by
  cases hm with
  | halt | pop | lock | exit | run | assertFailed | unbalanced | badState | requeue | putAside
  | queue | queueFailed => exact tid_of_update rfl (fun hji => absurd (hji ▸ rfl) hact) h
  | release hpc | enter hpc | mark hpc | block hpc | wedge hpc | wedgeMarked hpc =>
    refine tid_of_update rfl (fun hji => ?_) h
    subst hji
    rw [hpc] at h
    cases h
  | stay b hstay =>
    refine tid_of_update rfl (fun hji => ?_) h
    subst hji
    rw [tid_of_stay hstay] at h
    cases h
  | irq =>
    refine tid_of_update rfl (fun hji => ?_) h
    subst hji
    split
    · rfl
    · exact h
  | _ => exact h

end Fioxa.Sched.Machine
