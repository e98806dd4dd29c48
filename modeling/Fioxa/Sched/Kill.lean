import Mathlib.Logic.Function.Basic
import Fioxa.Lib.Lts
import Fioxa.Kernel.Signal

/-! # Killing a process

One process, its threads, and any number of calls of `Process::kill_threads` on it
(`scheduling/process.rs`). `kill_threads` goes through the thread list under the list's lock and
sets the `killed` flag of each thread it finds. The flag is looked at when a thread enters a system
call (`syscall_handler`) and when the scheduler pops it; `new_thread` looks only at `exit_status`.

An action is a section under a lock: the list's lock (`new_thread`, the removal in
`exit_thread_inner`), which a call of `kill_threads` keeps over several actions, or the `sched` lock
of one thread. -/

namespace Fioxa.Sched

open List Function

/-- Where a thread of the process is. -/
inductive Point where
  /-- Outside of system calls, or not started yet. -/
  | user
  /-- In the body of a system call. -/
  | call
  /-- In `SPAWN_THREAD`, up to the list's lock that `new_thread` takes. -/
  | spawning
  /-- Back in the scheduler for good. -/
  | stopped
  /-- Not in the list: not created yet, or taken out by `exit_thread_inner`. -/
  | gone
deriving DecidableEq

/-- Where the entry of a system call takes a thread; `spawn` is set if the call is
    `SPAWN_THREAD`. -/
def Point.entered (spawn : Bool) : Point :=
  if spawn then .spawning else .call

/-- A thread of the process: the two flags of its `ThreadSched` that matter here. -/
structure Member where
  killed : Bool
  inSyscall : Bool
  point : Point

/-- What `kill_bad_task` and `EXIT_THREAD` leave. -/
def Member.dead : Member where
  killed := true
  inSyscall := false
  point := .stopped

/-- What `new_thread` creates. -/
def Member.new : Member where
  killed := false
  inSyscall := false
  point := .user

/-- Where a call of `kill_threads` is. -/
inductive KillPc where
  | idle
  /-- Holding the list's lock; the flags of the threads in `rest` are still to be set. -/
  | marking (rest : List Nat)
  /-- Released the lock of an empty list, about to set `exit_status`. -/
  | emptied
  | returned
deriving DecidableEq

/-- A process and `k` calls of `kill_threads`. -/
structure Proc (k : Nat) where
  member : Nat → Member
  /-- `thread_next_id` -/
  nextId : Nat
  /-- The keys of `threads`. -/
  threads : List Nat
  /-- The call of `kill_threads` that holds the lock of `threads`. -/
  lock : Option (Fin k)
  exitStatus : ProcessExit
  /-- An `exit_thread_inner` has left the list empty and is about to set `exit_status`. -/
  closing : Bool
  killer : Fin k → KillPc

namespace Proc

variable {k : Nat}

/-- The process with its first thread. -/
def start (k : Nat) : Proc k where
  member t := if t = 0 then .new else { Member.new with point := .gone }
  nextId := 1
  threads := [0]
  lock := none
  exitStatus := .notExitedYet
  closing := false
  killer _ := .idle

variable (s : Proc k)

def setMember (t : Nat) (m : Member) : Proc k :=
  { s with member := Function.update s.member t m }

def setKiller (j : Fin k) (pc : KillPc) : Proc k :=
  { s with killer := Function.update s.killer j pc }

/-- The entry of a system call: the first lock section of `syscall_handler`. -/
def enter (t : Nat) (spawn : Bool) : Option (Proc k) :=
  if (s.member t).point = .user then
    if (s.member t).killed then some (s.setMember t { s.member t with point := .stopped })
    else some (s.setMember t { s.member t with inSyscall := true, point := .entered spawn })
  else none

/-- `new_thread`, called by thread `t`. In a process that has exited it returns `None`, and
    `spawn_thread` panics. -/
def newThread (t : Nat) : Option (Proc k) :=
  if (s.member t).point = .spawning ∧ s.lock = none then
    if s.exitStatus = .exited then some (s.setMember t .dead)
    else
      some { (s.setMember t { s.member t with point := .call }).setMember s.nextId .new with
        nextId := s.nextId + 1
        threads := s.threads ++ [s.nextId] }
  else none

/-- A system call returns. -/
def leave (t : Nat) : Option (Proc k) :=
  if (s.member t).point = .call then
    some (s.setMember t { s.member t with inSyscall := false, point := .user })
  else none

/-- `EXIT_THREAD`, or `kill_bad_task` after a failed system call, a panic or an exception. -/
def die (t : Nat) : Option (Proc k) :=
  if (s.member t).point = .call ∨ (s.member t).point = .user then
    some (s.setMember t .dead)
  else none

/-- The scheduler pops a killed thread that is not in a system call: `exit_thread_inner`. -/
def reap (t : Nat) : Option (Proc k) :=
  if t ∈ s.threads ∧ (s.member t).inSyscall = false ∧ (s.member t).killed = true ∧
      s.lock = none then
    some { s.setMember t { s.member t with point := .gone } with
      threads := s.threads.filter (· ≠ t)
      closing := s.closing || (s.threads.filter (· ≠ t)).isEmpty }
  else none

/-- The rest of an `exit_thread_inner` that left the list empty. -/
def close : Option (Proc k) :=
  if s.closing then some { s with exitStatus := .exited } else none

/-- `kill_threads` takes the list's lock. -/
def kill (j : Fin k) : Option (Proc k) :=
  if s.killer j = .idle ∧ s.lock = none then
    some { s.setKiller j (.marking s.threads) with lock := some j }
  else none

/-- One iteration of its loop. -/
def mark (j : Fin k) : Option (Proc k) :=
  match s.killer j with
  | .marking (t :: rest) =>
    some ((s.setMember t { s.member t with killed := true }).setKiller j (.marking rest))
  | _ => none

/-- The end of the loop. The lock is dropped: with the return, unless the list is empty. -/
def finish (j : Fin k) : Option (Proc k) :=
  match s.killer j with
  | .marking [] =>
    some { s.setKiller j (if s.threads = [] then .emptied else .returned) with lock := none }
  | _ => none

/-- For an empty list, `exit_status` is set before the return. -/
def setExited (j : Fin k) : Option (Proc k) :=
  if s.killer j = .emptied then some { s.setKiller j .returned with exitStatus := .exited }
  else none

inductive Action (k : Nat) where
  | enter (t : Nat) (spawn : Bool)
  | newThread (t : Nat)
  | leave (t : Nat)
  | die (t : Nat)
  | reap (t : Nat)
  | close
  | kill (j : Fin k)
  | mark (j : Fin k)
  | finish (j : Fin k)
  | setExited (j : Fin k)
deriving DecidableEq

def step (s : Proc k) : Action k → Option (Proc k)
  | .enter t spawn => s.enter t spawn
  | .newThread t => s.newThread t
  | .leave t => s.leave t
  | .die t => s.die t
  | .reap t => s.reap t
  | .close => s.close
  | .kill j => s.kill j
  | .mark j => s.mark j
  | .finish j => s.finish j
  | .setExited j => s.setExited j

@[simp] theorem setMember_self (s : Proc k) (t : Nat) (m : Member) :
    (s.setMember t m).member t = m :=
  update_self ..

theorem setMember_of_ne (s : Proc k) {t u : Nat} (m : Member) (h : u ≠ t) :
    (s.setMember t m).member u = s.member u :=
  update_of_ne h ..

/-! ## What a step can do -/

inductive Move (s : Proc k) : Action k → Proc k → Prop where
  | refused {t spawn} (hpoint : (s.member t).point = .user) :
      Move s (.enter t spawn) (s.setMember t { s.member t with point := .stopped })
  | enter {t spawn} (hpoint : (s.member t).point = .user) (hkilled : (s.member t).killed = false) :
      Move s (.enter t spawn)
        (s.setMember t { s.member t with inSyscall := true, point := .entered spawn })
  | spawnFailed {t} (hpoint : (s.member t).point = .spawning) :
      Move s (.newThread t) (s.setMember t .dead)
  | newThread {t} (hpoint : (s.member t).point = .spawning) (hlock : s.lock = none) :
      Move s (.newThread t)
        { (s.setMember t { s.member t with point := .call }).setMember s.nextId .new with
          nextId := s.nextId + 1
          threads := s.threads ++ [s.nextId] }
  | leave {t} (hpoint : (s.member t).point = .call) :
      Move s (.leave t) (s.setMember t { s.member t with inSyscall := false, point := .user })
  | die {t} (hpoint : (s.member t).point = .call ∨ (s.member t).point = .user) :
      Move s (.die t) (s.setMember t .dead)
  | reap {t} (hlock : s.lock = none) :
      Move s (.reap t)
        { s.setMember t { s.member t with point := .gone } with
          threads := s.threads.filter (· ≠ t)
          closing := s.closing || (s.threads.filter (· ≠ t)).isEmpty }
  | close (hclosing : s.closing = true) : Move s .close { s with exitStatus := .exited }
  | kill {j} (hlock : s.lock = none) :
      Move s (.kill j) { s.setKiller j (.marking s.threads) with lock := some j }
  | mark {j t rest} (hpc : s.killer j = .marking (t :: rest)) :
      Move s (.mark j)
        ((s.setMember t { s.member t with killed := true }).setKiller j (.marking rest))
  | finish {j} (hpc : s.killer j = .marking []) :
      Move s (.finish j)
        { s.setKiller j (if s.threads = [] then .emptied else .returned) with lock := none }
  | setExited {j} (hpc : s.killer j = .emptied) :
      Move s (.setExited j) { s.setKiller j .returned with exitStatus := .exited }

variable {s s' : Proc k} {j : Fin k} {t : Nat}

variable {a : Action k}

theorem step_move (h : s.step a = some s') : Move s a s' := by
  cases a with
  | enter =>
    rw [step, enter] at h
    split_ifs at h with hpoint hkilled
    · cases h
      exact .refused hpoint
    · cases h
      exact .enter hpoint (Bool.eq_false_iff.2 hkilled)
  | newThread =>
    rw [step, newThread] at h
    split_ifs at h with hready hexited
    · cases h
      exact .spawnFailed hready.1
    · cases h
      exact .newThread hready.1 hready.2
  | leave =>
    rw [step, leave] at h
    split_ifs at h with hpoint
    cases h
    exact .leave hpoint
  | die =>
    rw [step, die] at h
    split_ifs at h with hpoint
    cases h
    exact .die hpoint
  | reap =>
    rw [step, reap] at h
    split_ifs at h with hready
    cases h
    exact .reap hready.2.2.2
  | close =>
    rw [step, close] at h
    split_ifs at h with hclosing
    cases h
    exact .close hclosing
  | kill =>
    rw [step, kill] at h
    split_ifs at h with hready
    cases h
    exact .kill hready.2
  | mark =>
    rw [step, mark] at h
    split at h
    · cases h
      exact .mark ‹_›
    · cases h
  | finish =>
    rw [step, finish] at h
    split at h
    · cases h
      exact .finish ‹_›
    · cases h
  | setExited =>
    rw [step, setExited] at h
    split_ifs at h with hpc
    cases h
    exact .setExited hpc

/-! ## The invariant -/

structure Inv (s : Proc k) : Prop where
  /-- Every thread that is somewhere is in the list. -/
  listed : ∀ t, (s.member t).point ≠ .gone → t ∈ s.threads
  /-- The process is only declared exited when its list is empty. -/
  ended : (s.exitStatus = .exited ∨ s.closing = true ∨ ∃ j, s.killer j = .emptied) → s.threads = []
  holder : ∀ j rest, s.killer j = .marking rest → s.lock = some j
  /-- A call of `kill_threads` has set the flags of all threads but those it has yet to visit. -/
  marked : ∀ j rest, s.killer j = .marking rest →
    ∀ t ∈ s.threads, (s.member t).killed = true ∨ t ∈ rest

theorem Inv.start (k : Nat) : (start k).Inv where
  listed t ht := by
    rcases eq_or_ne t 0 with rfl | hne
    · exact mem_singleton_self 0
    · simp [Proc.start, hne] at ht
  ended h := by simp [Proc.start] at h
  holder j rest h := by cases h
  marked j rest h := by cases h

section

variable (hi : s.Inv)
include hi

theorem Inv.setMember {m : Member} (hkilled : (s.member t).killed = true → m.killed = true)
    (hpoint : (s.member t).point ≠ .gone) : (s.setMember t m).Inv := by
  refine ⟨fun u hu => ?_, hi.ended, hi.holder, fun j rest hpc u hu => ?_⟩
  · rcases eq_or_ne u t with rfl | hne
    · exact hi.listed u hpoint
    · rw [setMember_of_ne s m hne] at hu
      exact hi.listed u hu
  · rcases eq_or_ne u t with rfl | hne
    · rw [setMember_self]
      exact (hi.marked j rest hpc u hu).imp_left hkilled
    · rw [setMember_of_ne s m hne]
      exact hi.marked j rest hpc u hu

theorem Inv.not_marking (hlock : s.lock = none) (j : Fin k) (rest : List Nat) :
    s.killer j ≠ .marking rest := by
  intro hpc
  have := hi.holder j rest hpc
  rw [hlock] at this
  cases this

theorem Inv.not_ended (hpoint : (s.member t).point ≠ .gone) :
    ¬ (s.exitStatus = .exited ∨ s.closing = true ∨ ∃ j, s.killer j = .emptied) := by
  intro h
  have hmem := hi.listed t hpoint
  rw [hi.ended h] at hmem
  exact not_mem_nil hmem

theorem Inv.newThread (hpoint : (s.member t).point = .spawning) (hlock : s.lock = none) :
    ({ (s.setMember t { s.member t with point := .call }).setMember s.nextId .new with
        nextId := s.nextId + 1
        threads := s.threads ++ [s.nextId] } : Proc k).Inv := by
  have hgone : (s.member t).point ≠ .gone := by rw [hpoint]; decide
  refine ⟨fun u hu => ?_, fun h => absurd h (hi.not_ended hgone), fun j rest hpc => ?_,
    fun j rest hpc => ?_⟩
  · rw [mem_append, mem_singleton]
    rcases eq_or_ne u s.nextId with rfl | hnew
    · exact .inr rfl
    · rcases eq_or_ne u t with rfl | hne
      · exact .inl (hi.listed u hgone)
      · exact .inl (hi.listed u (by simpa [Proc.setMember, hnew, hne] using hu))
  · exact absurd hpc (hi.not_marking hlock j rest)
  · exact absurd hpc (hi.not_marking hlock j rest)

theorem Inv.reap (hlock : s.lock = none) (t : Nat) :
    ({ s.setMember t { s.member t with point := .gone } with
        threads := s.threads.filter (· ≠ t)
        closing := s.closing || (s.threads.filter (· ≠ t)).isEmpty } : Proc k).Inv := by
  refine ⟨fun u hu => ?_, fun h => ?_, fun j rest hpc => ?_, fun j rest hpc => ?_⟩
  · rcases eq_or_ne u t with rfl | hne
    · simp [Proc.setMember] at hu
    · have hmem := hi.listed u (by simpa [Proc.setMember, hne] using hu)
      simpa using ⟨hmem, hne⟩
  · rw [Bool.or_eq_true, or_assoc] at h
    rcases h with h | h | h | h
    · simp [hi.ended (.inl h)]
    · simp [hi.ended (.inr (.inl h))]
    · exact List.isEmpty_iff.1 h
    · simp [hi.ended (.inr (.inr h))]
  · exact absurd hpc (hi.not_marking hlock j rest)
  · exact absurd hpc (hi.not_marking hlock j rest)

theorem Inv.setKiller {pc : KillPc} {lock : Option (Fin k)}
    {exit : ProcessExit} {member : Nat → Member}
    (hpoint : ∀ t, (member t).point = (s.member t).point)
    (hended : exit = .exited ∨ pc = .emptied → s.exitStatus = .exited ∨ s.threads = [])
    (hself : ∀ rest, pc = .marking rest → lock = some j ∧
      ∀ t ∈ s.threads, (member t).killed = true ∨ t ∈ rest)
    (hother : ∀ j' rest, j' ≠ j → s.killer j' = .marking rest → lock = some j' ∧
      ∀ t ∈ s.threads, (member t).killed = true ∨ t ∈ rest) :
    ({ s.setKiller j pc with
        lock := lock, exitStatus := exit, member := member } : Proc k).Inv := by
  have hmark : ∀ j' rest, Function.update s.killer j pc j' = .marking rest → lock = some j' ∧
      ∀ t ∈ s.threads, (member t).killed = true ∨ t ∈ rest := by
    intro j' rest hpc
    rcases eq_or_ne j' j with rfl | hne
    · rw [update_self] at hpc
      exact hself rest hpc
    · rw [update_of_ne hne] at hpc
      exact hother j' rest hne hpc
  refine ⟨fun t ht => hi.listed t (by rwa [hpoint t] at ht), fun h => ?_,
    fun j' rest hpc => (hmark j' rest hpc).1, fun j' rest hpc => (hmark j' rest hpc).2⟩
  have hempty : s.exitStatus = .exited ∨ s.threads = [] → s.threads = [] :=
    fun h => h.elim (fun h => hi.ended (.inl h)) id
  rcases h with h | h | ⟨j', h⟩
  · exact hempty (hended (.inl h))
  · exact hi.ended (.inr (.inl h))
  · rcases eq_or_ne j' j with rfl | hne
    · exact hempty (hended (.inr (by simpa [Proc.setKiller] using h)))
    · exact hi.ended (.inr (.inr ⟨j', by simpa [Proc.setKiller, hne] using h⟩))

theorem Inv.sole_marking {rest : List Nat} (hpc : s.killer j = .marking rest)
    {j' : Fin k} {rest' : List Nat} (hne : j' ≠ j) : s.killer j' ≠ .marking rest' := by
  intro hpc'
  have hlock := (hi.holder j rest hpc).symm.trans (hi.holder j' rest' hpc')
  exact hne (Option.some.inj hlock).symm

end

theorem point_kill (s : Proc k) (t u : Nat) :
    ((s.setMember t { s.member t with killed := true }).member u).point = (s.member u).point := by
  rcases eq_or_ne u t with rfl | hne
  · rw [setMember_self]
  · rw [setMember_of_ne s _ hne]

theorem Inv.mark (hi : s.Inv) {rest : List Nat} (hpc : s.killer j = .marking (t :: rest)) :
    ((s.setMember t { s.member t with killed := true }).setKiller j (.marking rest)).Inv := by
  refine hi.setKiller (point_kill s t) (fun h => h.elim .inl nofun) (fun rest' hrest => ?_)
    (fun j' rest' hne h => absurd h (hi.sole_marking hpc hne))
  obtain rfl := KillPc.marking.inj hrest
  refine ⟨hi.holder j _ hpc, fun u hu => ?_⟩
  rcases eq_or_ne u t with rfl | hne
  · exact .inl (by rw [setMember_self])
  · rw [setMember_of_ne s _ hne]
    exact (hi.marked j _ hpc u hu).imp_right fun h => (mem_cons.1 h).resolve_left hne

theorem Inv.finish (hi : s.Inv) (hpc : s.killer j = .marking []) :
    ({ s.setKiller j (if s.threads = [] then .emptied else .returned) with lock := none } :
      Proc k).Inv := by
  refine hi.setKiller (fun _ => rfl) (fun h => ?_) (fun rest hrest => ?_)
    (fun j' rest hne h => absurd h (hi.sole_marking hpc hne))
  · rcases h with h | h
    · exact .inl h
    · by_cases hempty : s.threads = []
      · exact .inr hempty
      · rw [if_neg hempty] at h
        cases h
  · split_ifs at hrest

theorem Inv.move (hi : s.Inv) (hm : Move s a s') : s'.Inv := by
  cases hm with
  | refused hpoint | enter hpoint | leave hpoint =>
    exact hi.setMember id (by rw [hpoint]; decide)
  | spawnFailed hpoint => exact hi.setMember (fun _ => rfl) (by rw [hpoint]; decide)
  | newThread hpoint hlock => exact hi.newThread hpoint hlock
  | die hpoint =>
    refine hi.setMember (fun _ => rfl) ?_
    rcases hpoint with hpoint | hpoint
    · rw [hpoint]; decide
    · rw [hpoint]; decide
  | reap hlock => exact hi.reap hlock _
  | close hclosing =>
    exact ⟨hi.listed, fun _ => hi.ended (.inr (.inl hclosing)), hi.holder, hi.marked⟩
  | kill hlock =>
    refine hi.setKiller (fun _ => rfl) (fun h => h.elim .inl nofun) (fun rest hrest => ?_)
      (fun j' rest _ h => absurd h (hi.not_marking hlock j' rest))
    exact ⟨rfl, fun t ht => .inr (KillPc.marking.inj hrest ▸ ht)⟩
  | mark hpc => exact hi.mark hpc
  | finish hpc => exact hi.finish hpc
  | setExited hpc =>
    have hempty : s.threads = [] := hi.ended (.inr (.inr ⟨_, hpc⟩))
    exact hi.setKiller (fun _ => rfl) (fun _ => .inr hempty) nofun
      (fun j' rest _ h => ⟨hi.holder j' rest h, hi.marked j' rest h⟩)

theorem inv_of_reachable (hr : Lts.Reachable step (Proc.start k) s) : s.Inv :=
  hr.invariant (fun _ _ _ hi hstep => Inv.move hi (step_move hstep)) (Inv.start k)

/-! ## After the kill -/

/-- Every thread in the list has its `killed` flag set. -/
def AllKilled (s : Proc k) : Prop :=
  ∀ t ∈ s.threads, (s.member t).killed = true

/-- No thread is in `SPAWN_THREAD` between the check of its `killed` flag and `new_thread`. -/
def NoSpawn (s : Proc k) : Prop :=
  ∀ t, (s.member t).point ≠ .spawning

theorem sealed_setMember (hk : s.AllKilled) (hn : s.NoSpawn) {m : Member}
    (hkilled : (s.member t).killed = true → m.killed = true) (hpoint : m.point ≠ .spawning) :
    (s.setMember t m).AllKilled ∧ (s.setMember t m).NoSpawn := by
  refine ⟨fun u hu => ?_, fun u => ?_⟩
  · rcases eq_or_ne u t with rfl | hne
    · rw [setMember_self]
      exact hkilled (hk u hu)
    · rw [setMember_of_ne s m hne]
      exact hk u hu
  · rcases eq_or_ne u t with rfl | hne
    · rw [setMember_self]
      exact hpoint
    · rw [setMember_of_ne s m hne]
      exact hn u

/-- Once all threads are killed and none is about to create another, this stays so: a thread that
    enters a system call is refused. -/
theorem Inv.sealed_move (hi : s.Inv) (hk : s.AllKilled) (hn : s.NoSpawn) (hm : Move s a s') :
    s'.AllKilled ∧ s'.NoSpawn := by
  cases hm with
  | refused | leave => exact sealed_setMember hk hn id nofun
  | @enter t spawn hpoint hkilled =>
    -- the entry of the system call looks at the flag, which is set
    have hmem : t ∈ s.threads := hi.listed t (by rw [hpoint]; decide)
    rw [hk t hmem] at hkilled
    cases hkilled
  | spawnFailed hpoint | newThread hpoint => exact absurd hpoint (hn _)
  | die => exact sealed_setMember hk hn (fun _ => rfl) nofun
  | @reap t =>
    have hs : (s.setMember t { s.member t with point := .gone }).AllKilled ∧ _ :=
      sealed_setMember hk hn id nofun
    exact ⟨fun u hu => hs.1 u (mem_filter.1 hu).1, hs.2⟩
  | close => exact ⟨hk, hn⟩
  | kill => exact ⟨hk, hn⟩
  | @mark j t =>
    have hs : (s.setMember t { s.member t with killed := true }).AllKilled ∧ _ :=
      sealed_setMember hk hn (fun _ => rfl) (hn t)
    exact hs
  | finish => exact ⟨hk, hn⟩
  | setExited => exact ⟨hk, hn⟩

theorem Inv.allKilled_of_finish (hi : s.Inv) (hfin : s.step (.finish j) = some s') :
    s'.AllKilled := by
  cases step_move hfin with
  | finish hpc =>
    intro t ht
    exact (hi.marked j [] hpc t ht).resolve_right not_mem_nil

/-- A `SPAWN_THREAD` that is under way while the lock of the list is free creates a thread that is
    not killed. -/
theorem Inv.newThread_escapes (hi : s.Inv) (hlock : s.lock = none)
    (hpoint : (s.member t).point = .spawning) :
    ∃ s', s.step (.newThread t) = some s' ∧ ¬ s'.AllKilled := by
  have hgone : (s.member t).point ≠ .gone := by rw [hpoint]; decide
  -- the spawning thread is itself in the list, so the check of `exit_status` does not help
  have hexited : s.exitStatus ≠ .exited := fun h => hi.not_ended hgone (.inl h)
  rw [step, Proc.newThread, if_pos ⟨hpoint, hlock⟩, if_neg hexited]
  refine ⟨_, rfl, fun hk => ?_⟩
  have hnew : (((s.setMember t { s.member t with point := .call }).setMember s.nextId
      .new).member s.nextId).killed = true :=
    hk s.nextId (mem_append_right _ (mem_singleton_self _))
  rw [setMember_self] at hnew
  cases hnew

/-- **When a kill is complete.** After a call of `kill_threads` has gone through the list, every
    thread in the list is killed in all states from then on if and only if no thread of the process
    was in `SPAWN_THREAD` then, past the check of its own `killed` flag. -/
theorem kill_complete_iff {s₀ : Proc k} (hr : Lts.Reachable step (start k) s₀)
    (hfin : s₀.step (.finish j) = some s) :
    (∀ s', Lts.Reachable step s s' → s'.AllKilled) ↔ s.NoSpawn := by
  have hi0 : s₀.Inv := inv_of_reachable hr
  have hi : s.Inv := hi0.move (step_move hfin)
  constructor
  · intro hall t hpoint
    have hlock : s.lock = none := by
      cases step_move hfin with
      | finish => rfl
    obtain ⟨s', hstep, hescaped⟩ := hi.newThread_escapes hlock hpoint
    exact hescaped (hall s' (.single hstep))
  · intro hn s' hreach
    have hsealed := hreach.invariant (I := fun s : Proc k => s.Inv ∧ s.AllKilled ∧ s.NoSpawn)
      (fun s a s' h hstep => ⟨h.1.move (step_move hstep),
        h.1.sealed_move h.2.1 h.2.2 (step_move hstep)⟩)
      ⟨hi, hi0.allKilled_of_finish hfin, hn⟩
    exact hsealed.2.1

/-- The first thread creates another, and `kill_threads` goes through the list. -/
def killRun (j : Fin k) : List (Action k) :=
  [.enter 0 true, .newThread 0, .kill j, .mark j, .mark j]

theorem kill_complete_two :
    ∃ s₀ s : Proc 1, Lts.run step (start 1) (killRun 0) = some s₀ ∧
      s₀.step (.finish 0) = some s ∧ s.killer 0 = .returned ∧ s.threads = [0, 1] ∧
      ∀ s', Lts.Reachable step s s' → s'.AllKilled := by
  refine ⟨_, _, rfl, rfl, rfl, rfl, ?_⟩
  refine (kill_complete_iff (k := 1) (j := 0) ⟨killRun 0, rfl⟩ rfl).2 fun t => ?_
  rcases eq_or_ne t 0 with rfl | hne
  · decide
  · rcases eq_or_ne t 1 with rfl | hne'
    · decide
    · simp [setKiller, setMember, start, Member.new, hne, hne']

/-- The only thread enters `SPAWN_THREAD`; the process is killed; the thread creates another. -/
def escapeRun (j : Fin k) : List (Action k) :=
  [.enter 0 true, .kill j, .mark j, .finish j, .newThread 0]

/-- A thread that is created by a `SPAWN_THREAD` under way escapes the kill. -/
theorem thread_escapes_kill :
    ∃ s : Proc 1, Lts.run step (start 1) (escapeRun 0) = some s ∧ s.killer 0 = .returned ∧
      1 ∈ s.threads ∧ (s.member 1).killed = false ∧ (s.member 1).point = .user :=
  ⟨_, rfl, rfl, by decide, rfl, rfl⟩

end Proc

end Fioxa.Sched
