import Fioxa.Sched.ProcessExit

/-! # Killing a process that sleeps

`kill_threads` sets the `killed` flag of every thread of a process, and nothing else: it wakes none
of them. The flag is looked at when a thread enters a system call and when the scheduler pops it. A
thread that sleeps in a blocking call does neither, so it takes an event on the object it waits on
to let the kill reach it, and until then the process neither runs nor exits. -/

namespace Fioxa.Sched.System

open List Lts

variable {n w k : Nat} {s s' : System n w k} {a : Action n w k} {p : Nat}

/-- Thread `t` sleeps in a blocking call, and nobody is about to wake it. -/
structure Asleep (s : System n w k) (t : Nat) : Prop where
  aside : s.machine.Aside t
  due : t ∉ s.due
  waking : ∀ e q ts, s.exiting e = some (q, .waking ts) → t ∉ ts

def AllAsleep (s : System n w k) (p : Nat) : Prop := ∀ t ∈ s.threads p, s.Asleep t

/-- Action `a` is no event on an object that a thread of `p` is registered with. -/
def Undisturbed (p : Nat) (s : System n w k) (a : Action n w k) : Prop :=
  ∀ t ∈ s.threads p, ∀ x, Registered s.objects t x → ¬ s.IsEvent a x

/-- Call `j` of `kill_threads`, on process `p`, has returned. -/
def KillReturned (s : System n w k) (j : Fin k) (p : Nat) : Prop :=
  s.killer j = .released p ∧ s.exiting (.killer j) = none

/-- The process has not exited, and none of its threads runs, is runnable or is queued. -/
def Stuck (s : System n w k) (p : Nat) : Prop :=
  ¬ s.Exited p ∧ ∀ t ∈ s.threads p, s.machine.Aside t

/-! ## Nothing but an event wakes a thread -/

variable {t : Nat}

theorem Orderly.not_aside (h : s.Orderly) {i : Fin n} (htid : (s.machine.core i).pc.tid = some t) :
    ¬ s.machine.Aside t := by
  intro haside
  obtain ⟨l, hp⟩ := Machine.placed_of_reachable h.machine
  exact hp.free_of_sleeping haside.2 haside.1 (.core i) htid

/-- The threads of a process whose threads all sleep are those it had: none of them can leave or
    create another, and its loader is done. -/
theorem AllAsleep.threads_move (hasleep : s.AllAsleep p) (h : s.Orderly)
    (hgiven : (s.process p).given = true) (hm : Move s a s') (t : Nat) :
    t ∈ s'.threads p ↔ t ∈ s.threads p := by
  cases hm.lists with
  | same hsame => rw [hsame p]
  | left hleaving hleft =>
    rw [hleft p t, and_iff_left_iff_imp]
    rintro hmem rfl
    exact h.not_aside (tid_of_leaving hleaving) (hasleep t hmem).aside
  | added hq hadded =>
    rw [hadded p t, or_iff_left]
    rintro ⟨-, rfl⟩
    rcases hq with hnew | ⟨i, u, hcaller, rfl⟩
    · rw [hgiven] at hnew
      cases hnew
    · have hpc := pc_of_caller hcaller
      have hmem := (h.owned.on_core h.machine hpc rfl).1
      exact h.not_aside (by rw [hpc]; rfl) (hasleep u hmem).aside

theorem Asleep.setExiting (ht : s.Asleep t) {e : Exiter n k} {x : Option (Nat × ExitPc)}
    (hx : ∀ q ts, x = some (q, .waking ts) → t ∉ ts) :
    (s.setExiting e x).Asleep t := by
  refine ⟨ht.aside, ht.due, fun e' q ts he' => ?_⟩
  by_cases hee : e' = e
  · subst hee
    exact hx q ts (by simpa [System.setExiting] using he')
  · exact ht.waking e' q ts (by simpa [System.setExiting, hee] using he')

theorem Asleep.checkEmpty (ht : s.Asleep t) (e : Exiter n k) (q : Nat) :
    (s.checkEmpty e q).Asleep t := by
  unfold System.checkEmpty
  split
  · exact ht.setExiting (by simp)
  · exact ht

theorem Asleep.move (ht : s.Asleep t) (h : s.Orderly) (hknown : t < s.machine.next)
    (hm : Move s a s') (hevent : ∀ x, Registered s.objects t x → ¬ s.IsEvent a x) :
    s'.Asleep t := by
  obtain ⟨l, hp⟩ := Machine.placed_of_reachable h.machine
  have haside : ∀ {act m}, s.machine.step act = some m → (∀ b, act ≠ .wake b t) → m.Aside t :=
    fun hstep hwake => ht.aside.move hknown hp (Machine.step_move hstep) hwake
  have hnot : ∀ {u b}, u ≠ t → ∀ c, (.wake b u : Machine.Action n w) ≠ .wake c t := by
    rintro u b hne c heq
    cases heq
    exact hne rfl
  cases hm with
  | same => exact ht
  | machine hplain hstep =>
    refine ⟨haside hstep ?_, ht.due, ht.waking⟩
    rintro b rfl
    cases hplain
  | @leave i u m hcore hlock hleaving hstep =>
    have hasleep : (s.withMachine m).Asleep t := ⟨haside hstep (by simp), ht.due, ht.waking⟩
    exact hasleep.checkEmpty _ _
  | spawn hcaller hlock hstatus hstep | load hgiven hstatus hstep | objectWait hquiet hstep
  | block hsignals hstep | mark hpc hstep => exact ⟨haside hstep (by simp), ht.due, ht.waking⟩
  | tell hkept hwoken =>
    refine ⟨ht.aside, fun hmem => ?_, ht.waking⟩
    rcases mem_append.1 hmem with hmem | hmem
    · exact ht.due hmem
    · obtain ⟨x, hreg, hx⟩ := hwoken t hmem
      exact hevent x hreg hx
  | @wake b u m hdue hstep =>
    have hne : u ≠ t := by
      rintro rfl
      exact ht.due hdue
    exact ⟨haside hstep (hnot hne), fun hmem => ht.due (mem_of_mem_erase hmem), ht.waking⟩
  | @finish j q =>
    have hasleep : (s.setKiller j (.released q)).Asleep t := ⟨ht.aside, ht.due, ht.waking⟩
    exact hasleep.checkEmpty _ _
  | @status e q =>
    have hasleep : (s.setProcess q { s.process q with exitStatus := .exited }).Asleep t :=
      ⟨ht.aside, ht.due, ht.waking⟩
    exact hasleep.setExiting (by simp)
  | @signal e q x hexit hx hwoken =>
    refine Asleep.setExiting ?_ ?_
    · exact ⟨ht.aside, ht.due, ht.waking⟩
    · rintro r ts heq hmem
      cases heq
      obtain ⟨y, hreg, hy⟩ := hwoken t hmem
      exact hevent y hreg hy
  | @wakeNext e q u rest b m hexit hstep =>
    have hnotin : t ∉ u :: rest := ht.waking e q _ hexit
    have hne : u ≠ t := by
      rintro rfl
      exact hnotin mem_cons_self
    refine Asleep.setExiting ?_ ?_
    · exact ⟨haside hstep (hnot hne), ht.due, ht.waking⟩
    · rintro r ts heq hmem
      cases heq
      exact hnotin (.tail _ hmem)
  | awake => exact ht.setExiting (by simp)
  | @remove e q =>
    have hasleep : (s.setProcess q { s.process q with listed := false }).Asleep t :=
      ⟨ht.aside, ht.due, ht.waking⟩
    exact hasleep.setExiting (by simp)
  | _ => exact ⟨ht.aside, ht.due, ht.waking⟩

/-! ## Whole runs -/

theorem AllAsleep.move (hasleep : s.AllAsleep p) (h : s.Orderly)
    (hgiven : (s.process p).given = true) (hm : Move s a s') (hquiet : Undisturbed p s a) :
    s'.AllAsleep p := by
  intro t ht
  have hmem : t ∈ s.threads p := (hasleep.threads_move h hgiven hm t).1 ht
  exact (hasleep t hmem).move h (mem_threads.1 hmem).1 hm (hquiet t hmem)

theorem AllAsleep.run {as : List (Action n w k)} (h : s.Orderly)
    (hgiven : (s.process p).given = true) (hasleep : s.AllAsleep p) (ht : t ∈ s.threads p)
    (hquiet : Lts.Guarded step (Undisturbed p) s as) (hrun : run step s as = some s') :
    s'.Stuck p := by
  induction as generalizing s with
  | nil =>
    rw [run_nil, Option.some.injEq] at hrun
    subst hrun
    exact ⟨((h.ending p).alive (not_ended_of_mem ht)).status, fun u hu => (hasleep u hu).aside⟩
  | cons a as ih =>
    obtain ⟨u, hu, hrest⟩ := run_cons_eq_some.1 hrun
    obtain ⟨hcalm, hguard⟩ := hquiet u hu
    have hm := step_move hu
    exact ih (h.step hu) ((hm.onward p).given hgiven) (hasleep.move h hgiven hm hcalm)
      ((hasleep.threads_move h hgiven hm t).2 ht) hguard hrest

/-- A process without threads, and a call of `kill_threads` on it: by the time the call has released
    the list's lock and done the rest, the process has exited. -/
structure KilledEmpty (s : System n w k) (j : Fin k) (p : Nat) : Prop where
  given : (s.process p).given = true
  empty : s.threads p = []
  killed : s.killer j = .released p → s.Exited p ∨ s.exiting (.killer j) ≠ none

theorem KilledEmpty.move {j : Fin k} (hk : s.KilledEmpty j p) (h : s.Orderly) (hm : Move s a s') :
    s'.KilledEmpty j p := by
  have hasleep : s.AllAsleep p := by simp [AllAsleep, hk.empty]
  have hempty : s'.threads p = [] :=
    (eq_nil_congr (hasleep.threads_move h hk.given hm)).2 hk.empty
  refine ⟨(hm.onward p).given hk.given, hempty, fun hreleased => ?_⟩
  have hon := hm.onward p
  have hsame : s.killer j = .released p → s'.exiting (.killer j) = s.exiting (.killer j) →
      s'.Exited p ∨ s'.exiting (.killer j) ≠ none := by
    intro hbefore hexiting
    rw [hexiting]
    exact (hk.killed hbefore).imp (hm.onward p).exited id
  have hadvance : ∀ e y, s'.exiting = Function.update s.exiting e (some y) →
      s.killer j = .released p → s'.Exited p ∨ s'.exiting (.killer j) ≠ none := by
    intro e y hexiting hbefore
    by_cases he : .killer j = e
    · subst he
      exact .inr (by simp [hexiting])
    · exact hsame hbefore (by simp [hexiting, he])
  cases hm with
  | @leave =>
    unfold checkEmpty at hreleased hsame ⊢
    split_ifs at hreleased hsame ⊢
    · exact hsame hreleased (by simp [System.setExiting, withMachine])
    · exact hsame hreleased rfl
  | @kill i =>
    by_cases hij : j = i
    · subst hij
      simp [System.setKiller] at hreleased
    · exact hsame (by simpa [System.setKiller, hij] using hreleased) rfl
  | @mark i =>
    by_cases hij : j = i
    · subst hij
      simp [System.setKiller] at hreleased
    · exact hsame (by simpa [System.setKiller, withMachine, hij] using hreleased) rfl
  | @finish i q =>
    unfold checkEmpty at hreleased hsame ⊢
    by_cases hij : j = i
    · subst hij
      have hq : q = p := by
        split_ifs at hreleased
        · simpa [System.setExiting, System.setKiller] using hreleased
        · simpa [System.setKiller] using hreleased
      subst hq
      rw [if_pos (show (s.setKiller j (.released q)).threads q = [] from hk.empty)]
      exact .inr (by simp [System.setExiting])
    · split_ifs at hreleased hsame ⊢
      · exact hsame (by simpa [System.setExiting, System.setKiller, hij] using hreleased)
          (by simp [System.setExiting, System.setKiller, hij])
      · exact hsame (by simpa [System.setKiller, hij] using hreleased) rfl
  | status | signal | wakeNext | awake =>
    exact hadvance _ _ rfl hreleased
  | @remove e q hexit =>
    by_cases he : .killer j = e
    · subst he
      have hq := h.killers.exits j q _ hexit
      rw [show s.killer j = .released p from hreleased] at hq
      cases hq
      have hexited : s.Exited p := (h.ending p).past_status .remove ⟨_, hexit⟩ (by simp)
      exact .inl (hon.exited hexited)
    · exact hsame hreleased (by simp [System.setExiting, System.setProcess, he])
  | _ => exact hsame hreleased rfl

theorem KilledEmpty.run {j : Fin k} (h : s.Orderly) (hk : s.KilledEmpty j p)
    (hreach : Lts.Reachable step s s') : s'.KilledEmpty j p := by
  have hinv : s'.Orderly ∧ s'.KilledEmpty j p := by
    refine hreach.invariant (I := fun u => u.Orderly ∧ u.KilledEmpty j p) ?_ ⟨h, hk⟩
    rintro u a u' ⟨hu, hku⟩ hstep
    exact ⟨hu.step hstep, hku.move hu (step_move hstep)⟩
  exact hinv.2

/-- **A kill does not reach a thread that sleeps.** From every reachable state in which all threads
    of process `p` sleep in blocking calls, along every run in which nothing happens to the objects
    they wait on: when a call of `kill_threads` on `p`, begun after that state, has returned, the
    process is not stuck exactly if it had no thread to begin with. -/
theorem kill_reaches_iff {as : List (Action n w k)} {j : Fin k}
    (hr : Lts.Reachable step (System.boot n w k) s) (hgiven : (s.process p).given = true)
    (hasleep : s.AllAsleep p) (hidle : s.killer j = .idle)
    (hrun : run step s as = some s') (hquiet : Lts.Guarded step (Undisturbed p) s as)
    (hkill : s'.KillReturned j p) : ¬ s'.Stuck p ↔ s.threads p = [] := by
  have h := orderly_of_reachable hr
  constructor
  · intro hstuck
    rw [eq_nil_iff_forall_not_mem]
    intro t ht
    exact hstuck (hasleep.run h hgiven ht hquiet hrun)
  · rintro hempty ⟨hexited, -⟩
    have hk : s.KilledEmpty j p := ⟨hgiven, hempty, by simp [hidle]⟩
    rcases (hk.run h ⟨as, hrun⟩).killed hkill.1 with hdone | hexiting
    · exact hexited hdone
    · exact hexiting hkill.2

/-- Process 3 is loaded; its thread runs on core `i`, calls `PORT`/`Wait` on port 5 and is put
    aside. -/
def portWaitRun (i : Fin n) (b : Fin w) : List (Action n w k) :=
  [.load b 3, .insert 3, .enqueue b, .sched i, .sched i, .sched i, .thread i .release,
    .thread i .iret, .thread i .sysEnter, .call i (.portWait 5), .thread i .block, .sched i]

/-- A whole call of `kill_threads` on process 3, which has one thread. -/
def killRun (j : Fin k) : List (Action n w k) := [.kill j 3, .killStep j, .killStep j]

theorem killRun_portWait :
    ∃ s ∈ run step (System.boot 1 1 1) (portWaitRun 0 0),
      ((s.threads 3 = [0] ∧ s.machine.Aside 0 ∧ s.due = []) ∧
        (∀ i, s.exiting (.core i) = none) ∧ (∀ j, s.exiting (.killer j) = none) ∧
        (s.process 3).given = true ∧ s.killer 0 = .idle) ∧
      ∃ s' ∈ run step s (killRun 0),
        (s'.killer 0 = .released 3 ∧ s'.exiting (.killer 0) = none) ∧
        (s'.process 3).exitStatus = .notExitedYet ∧ s'.threads 3 = [0] ∧ s'.machine.Aside 0 := by
  decide

theorem allAsleep_of_single (hthreads : s.threads p = [t]) (haside : s.machine.Aside t)
    (hdue : s.due = []) (hcore : ∀ i, s.exiting (.core i) = none)
    (hkiller : ∀ j, s.exiting (.killer j) = none) : s.AllAsleep p := by
  intro u hu
  rw [hthreads, mem_singleton] at hu
  subst hu
  refine ⟨haside, by simp [hdue], fun e q ts he => ?_⟩
  cases e with
  | core => simp [hcore] at he
  | killer => simp [hkiller] at he

theorem killed_process_left_asleep :
    ∃ s ∈ run step (System.boot 1 1 1) (portWaitRun 0 0), s.AllAsleep 3 ∧
      ∃ s' ∈ run step s (killRun 0), s'.KillReturned 0 3 ∧ s'.Stuck 3 ∧ s'.threads 3 = [0] := by
  obtain ⟨s, hs, ⟨⟨hthreads, haside, hdue⟩, hcore, hkiller, -, -⟩, s', hs', hreturned, hstatus,
    hthreads', haside'⟩ := killRun_portWait
  refine ⟨s, hs, allAsleep_of_single hthreads haside hdue hcore hkiller, s', hs', hreturned,
    ⟨?_, ?_⟩, hthreads'⟩
  · simp [Exited, hstatus]
  · simpa [hthreads'] using haside'

theorem undisturbed_kill (s : System n w k) (p : Nat) {a : Action n w k}
    (ha : (∃ j q, a = .kill j q) ∨ ∃ j, a = .killStep j) : Undisturbed p s a := by
  rintro t - x - hx
  rcases ha with ⟨j, q, rfl⟩ | ⟨j, rfl⟩
  · cases x with
    | signal o => cases o <;> simp [IsEvent] at hx
    | _ => simp [IsEvent, notices] at hx
  · cases x with
    | signal o => cases o <;> simp [IsEvent] at hx
    | _ => simp [IsEvent, notices] at hx

theorem kill_reaches_iff_port_wait :
    ∃ s ∈ run step (System.boot 1 1 1) (portWaitRun 0 0), ∃ s' ∈ run step s (killRun 0),
      s'.KillReturned 0 3 ∧ (¬ s'.Stuck 3 ↔ s.threads 3 = []) := by
  obtain ⟨s, hs, ⟨⟨hthreads, haside, hdue⟩, hcore, hkiller, hgiven, hidle⟩, s', hs', hreturned,
    -⟩ := killRun_portWait
  have hquiet : Lts.Guarded step (Undisturbed 3) s (killRun 0) := by
    refine fun u _ => ⟨undisturbed_kill s 3 (.inl ⟨0, 3, rfl⟩), fun v _ => ?_⟩
    exact ⟨undisturbed_kill u 3 (.inr ⟨0, rfl⟩), fun w _ =>
      ⟨undisturbed_kill v 3 (.inr ⟨0, rfl⟩), trivial⟩⟩
  exact ⟨s, hs, s', hs', hreturned, kill_reaches_iff ⟨portWaitRun 0 0, hs⟩ hgiven
    (allAsleep_of_single hthreads haside hdue hcore hkiller) hidle hs' hquiet hreturned⟩

end Fioxa.Sched.System
