import Fioxa.Sched.Moves

/-! # Where a thread is

A thread that exists is in exactly one place: with the scheduler loop of one core, in the run queue,
with an agent that is about to queue it, or at rest. The invariant is stated thread by thread
(`Settled`): who has the thread is unique, and the holder finds the thread in the condition its next
step relies on (`Good`). A step concerns one thread; for all others nothing changes (`Same`). -/

namespace Fioxa.Sched

open List Function Option

/-- The thread a core is dealing with. -/
def Pc.tid : Pc → Option Nat
  | .popped t => some t
  | .locked t => some t
  | .running t _ => some t
  | .returned t => some t
  | .requeue t => some t
  | .loop => none
  | .halted => none
  | .panicked => none

/-- Who can have a thread. -/
inductive Holder (n w : Nat) where
  | core (i : Fin n)
  | agent (a : Fin w)
  | queue

variable {n w : Nat}

/-- The scheduler loop can run the thread. -/
structure Thread.Ready (th : Thread n) : Prop where
  runnable : th.sched.state = .runnable
  saved : th.sched.taskState.isSome

/-- Nobody has the thread: it sleeps, or has exited. -/
def Thread.AtRest (th : Thread n) : Prop :=
  th.sched.state = .zombie ∨
    th.sched.state = .sleeping ∧ th.sched.taskState.isSome ∧ th.lock = none

/-- The condition of the thread that core `i` runs. -/
def Phase.Ok (i : Fin n) (th : Thread n) : Phase → Prop
  | .resuming _ => th.sched.state = .runnable ∧ th.lock = some i
  | .active _ => th.sched.state = .runnable
  | .marked => th.sched.state = .sleeping ∧ th.lock = some i
  | .wedged => th.sched.state ≠ .zombie ∧ th.lock = some i

/-- The condition in which core `i` has the thread it is dealing with. -/
def Pc.Ok (i : Fin n) (th : Thread n) : Pc → Prop
  | .popped _ => th.Ready
  | .locked _ => th.Ready ∧ th.lock = some i
  | .running _ ph => ph.Ok i th
  | .returned _ => th.sched.taskState.isSome ∧ th.sched.state ≠ .zombie ∧ th.lock = some i
  | .requeue _ => th.Ready
  | .loop => True
  | .halted => True
  | .panicked => True

variable {th : Thread n}

theorem Thread.Ready.not_sleeping (h : th.Ready) : th.sched.state ≠ .sleeping := by
  rw [h.runnable]
  decide

variable {i : Fin n} {pc : Pc}

theorem Pc.Ok.lock_of_sleeping {t : Nat} (hok : pc.Ok i th) (ht : pc.tid = some t)
    (hstate : th.sched.state = .sleeping) :
    th.lock = some i := by
  cases pc with
  | popped | requeue => exact absurd hstate hok.not_sleeping
  | locked => exact hok.2
  | running u ph =>
    cases ph with
    | resuming => exact hok.2
    | active => exact absurd (hstate.symm.trans hok) (by decide)
    | marked => exact hok.2
    | wedged => exact hok.2
  | returned => exact hok.2.2
  | loop => cases ht
  | halted => cases ht
  | panicked => cases ht

theorem Pc.Ok.not_zombie {t : Nat} (hok : pc.Ok i th) (ht : pc.tid = some t) :
    th.sched.state ≠ .zombie := by
  have hne : ∀ x : ThreadState, th.sched.state = x → x ≠ .zombie → th.sched.state ≠ .zombie :=
    fun x hx hz => hx ▸ hz
  cases pc with
  | popped | requeue => exact hne _ hok.runnable (by decide)
  | locked => exact hne _ hok.1.runnable (by decide)
  | running u ph =>
    cases ph with
    | resuming | marked => exact hne _ hok.1 (by decide)
    | active => exact hne _ hok (by decide)
    | wedged => exact hok.1
  | returned => exact hok.2.1
  | loop => cases ht
  | halted => cases ht
  | panicked => cases ht

theorem Pc.Ok.kill (hok : pc.Ok i th) : pc.Ok i th.kill := by
  cases pc with
  | popped | requeue => exact ⟨hok.runnable, hok.saved⟩
  | locked => exact ⟨⟨hok.1.runnable, hok.1.saved⟩, hok.2⟩
  | running u ph => cases ph <;> exact hok
  | returned => exact hok
  | loop => trivial
  | halted => trivial
  | panicked => trivial

namespace Machine

/-- Holder `h` has thread `t`, when the run queue is the list `l`. -/
def Has (s : Machine n w) (l : List Nat) : Holder n w → Nat → Prop
  | .core i, t => (s.core i).pc.tid = some t
  | .agent a, t => s.agent a = some t
  | .queue, t => t ∈ l

/-- What a holder can rely on. -/
def Good (s : Machine n w) (t : Nat) : Holder n w → Prop
  | .core i => (s.core i).pc.Ok i (s.thread t)
  | .agent _ => (s.thread t).Ready
  | .queue => (s.thread t).Ready

/-- `h` has thread `t`, and nobody else does. -/
def Sole (s : Machine n w) (l : List Nat) (h : Holder n w) (t : Nat) : Prop :=
  s.Has l h t ∧ ∀ h', s.Has l h' t → h' = h

/-- Thread `t` is with one holder, or at rest. -/
def Settled (s : Machine n w) (l : List Nat) (t : Nat) : Prop :=
  (∃ h, s.Sole l h t ∧ s.Good t h) ∨ (∀ h, ¬ s.Has l h t) ∧ (s.thread t).AtRest

/-- **The scheduler's invariant**, for a run queue that is the list `l`. -/
structure Placed (s : Machine n w) (l : List Nat) : Prop where
  queue : s.queue.Represents l
  known : ∀ t h, s.Has l h t → t < s.next
  settled : ∀ t, t < s.next → s.Settled l t

theorem Placed.boot (n w : Nat) : (boot n w).Placed [] where
  queue := .empty
  known t h hh := by cases h <;> cases hh
  settled t ht := absurd ht (Nat.not_lt_zero t)

variable {s s' : Machine n w} {l l' : List Nat} {t t0 : Nat} {i : Fin n} {a : Fin w}
  {h h' : Holder n w}

/-! ## Reading the invariant -/

theorem Placed.sole (hp : s.Placed l) (hh : s.Has l h t) : s.Sole l h t ∧ s.Good t h := by
  rcases hp.settled t (hp.known t h hh) with ⟨h', hsole, hgood⟩ | ⟨hfree, -⟩
  · obtain rfl := hsole.2 h hh
    exact ⟨hsole, hgood⟩
  · exact absurd hh (hfree h)

theorem Placed.ok (hp : s.Placed l) {pc : Pc} (hpc : (s.core i).pc = pc) (ht : pc.tid = some t) :
    pc.Ok i (s.thread t) := by
  have hhas : s.Has l (.core i) t := by rw [Has, hpc, ht]
  have hgood := (hp.sole hhas).2
  rwa [Good, hpc] at hgood

theorem Placed.free_of_sleeping (hp : s.Placed l) (hfree : (s.thread t).lock = none)
    (hstate : (s.thread t).sched.state = .sleeping) (h : Holder n w) : ¬ s.Has l h t := by
  intro hh
  have hgood := (hp.sole hh).2
  cases h with
  | core i =>
    have hlock : (s.thread t).lock = some i := hgood.lock_of_sleeping hh hstate
    rw [hfree] at hlock
    cases hlock
  | agent | queue => exact hgood.not_sleeping hstate

/-! ## The threads a step does not concern -/

/-- Between the two states nothing changes for thread `t`. -/
structure Same (s : Machine n w) (l : List Nat) (s' : Machine n w) (l' : List Nat) (t : Nat) :
    Prop where
  thread : s'.thread t = s.thread t
  core : ∀ j, (s'.core j).pc = (s.core j).pc ∨
    (s'.core j).pc.tid ≠ some t ∧ (s.core j).pc.tid ≠ some t
  agent : ∀ a, s'.agent a = some t ↔ s.agent a = some t
  queue : t ∈ l' ↔ t ∈ l

theorem Same.has_iff (hs : Same s l s' l' t) (h : Holder n w) : s'.Has l' h t ↔ s.Has l h t := by
  cases h with
  | core j =>
    rcases hs.core j with hpc | ⟨hpc', hpc⟩
    · rw [Has, Has, hpc]
    · exact ⟨fun hh => absurd hh hpc', fun hh => absurd hh hpc⟩
  | agent a => exact hs.agent a
  | queue => exact hs.queue

theorem Same.good (hs : Same s l s' l' t) (hh : s.Has l h t) (hgood : s.Good t h) :
    s'.Good t h := by
  cases h with
  | core j =>
    rcases hs.core j with hpc | ⟨-, hpc⟩
    · rw [Good, hpc, hs.thread]
      exact hgood
    · exact absurd hh hpc
  | agent | queue => rw [Good, hs.thread]; exact hgood

theorem Same.settled (hs : Same s l s' l' t) (h : s.Settled l t) : s'.Settled l' t := by
  rcases h with ⟨h, hsole, hgood⟩ | ⟨hfree, hrest⟩
  · refine .inl ⟨h, ⟨(hs.has_iff h).2 hsole.1, fun h' hh => ?_⟩, hs.good hsole.1 hgood⟩
    exact hsole.2 h' ((hs.has_iff h').1 hh)
  · refine .inr ⟨fun h hh => hfree h ((hs.has_iff h).1 hh), ?_⟩
    rw [hs.thread]
    exact hrest

/-- The invariant after a step that concerns one thread: nothing changes for the others, and that
    one is settled. -/
theorem Placed.transfer (hp : s.Placed l) (t0 : Nat) (hq : s'.queue.Represents l')
    (hnext : s.next ≤ s'.next) (hnew : ∀ t, t < s'.next → t = t0 ∨ t < s.next)
    (ht0 : t0 < s'.next) (hothers : ∀ t, t ≠ t0 → Same s l s' l' t)
    (hsettled : s'.Settled l' t0) : s'.Placed l' := by
  refine ⟨hq, fun t h hh => ?_, fun t ht => ?_⟩
  · rcases eq_or_ne t t0 with rfl | hne
    · exact ht0
    · exact Nat.lt_of_lt_of_le (hp.known t h (((hothers t hne).has_iff h).1 hh)) hnext
  · rcases eq_or_ne t t0 with rfl | hne
    · exact hsettled
    · exact (hothers t hne).settled (hp.settled t ((hnew t ht).resolve_left hne))

theorem ne_some_of_ne {x : Option Nat} (hne : t ≠ t0) (hx : x = none ∨ x = some t0) :
    x ≠ some t := by
  rintro rfl
  rcases hx with hx | hx
  · cases hx
  · exact hne (some.inj hx)

/-! ## The steps of a core -/

variable {th : Thread n} {c : Core}

theorem Same.of_core (hne : t ≠ t0) (hpc : (s.core i).pc.tid = none ∨ (s.core i).pc.tid = some t0)
    (hpc' : c.pc.tid = none ∨ c.pc.tid = some t0)
    (hthread : s'.thread = update s.thread t0 th)
    (hcore : s'.core = update s.core i c) (hagent : s'.agent = s.agent)
    (hqueue : t ∈ l' ↔ t ∈ l) : Same s l s' l' t := by
  refine ⟨?_, fun j => ?_, fun a => ?_, hqueue⟩
  · rw [hthread, update_of_ne hne]
  · rcases eq_or_ne j i with rfl | hj
    · rw [hcore, update_self]
      exact .inr ⟨ne_some_of_ne hne hpc', ne_some_of_ne hne hpc⟩
    · rw [hcore, update_of_ne hj]
      exact .inl rfl
  · rw [hagent]

theorem has_of_update_core {j : Fin n} (l : List Nat) (hcore : s'.core = update s.core i c)
    (hh : s'.Has l' (.core j) t) :
    j = i ∧ c.pc.tid = some t ∨ j ≠ i ∧ s.Has l (.core j) t := by
  rw [Has, hcore] at hh
  rcases eq_or_ne j i with rfl | hj
  · rw [update_self] at hh
    exact .inl ⟨rfl, hh⟩
  · rw [update_of_ne hj] at hh
    exact .inr ⟨hj, hh⟩

theorem Placed.keep (hp : s.Placed l) (hpc : (s.core i).pc.tid = some t0)
    (hpc' : c.pc.tid = some t0) (hok : c.pc.Ok i th) :
    ((s.setThread t0 th).setCore i c).Placed l := by
  have hhas : s.Has l (.core i) t0 := hpc
  have hsole := (hp.sole hhas).1
  refine hp.transfer t0 hp.queue (Nat.le_refl _) (fun t ht => .inr ht) (hp.known t0 _ hhas)
    (fun t hne => .of_core hne (.inr hpc) (.inr hpc') rfl rfl rfl Iff.rfl) ?_
  refine .inl ⟨.core i, ⟨?_, fun h hh => ?_⟩, ?_⟩
  · simpa [Has, setCore] using hpc'
  · cases h with
    | core =>
      rcases has_of_update_core l rfl hh with ⟨rfl, -⟩ | ⟨-, hh⟩
      · rfl
      · exact hsole.2 _ hh
    | agent a => exact hsole.2 (.agent a) hh
    | queue => exact hsole.2 .queue hh
  · simpa [Good, setCore, setThread] using hok

theorem Placed.drop (hp : s.Placed l) {removed : List Nat} (hpc : (s.core i).pc.tid = some t0)
    (hpc' : c.pc.tid = none) (hrest : th.AtRest) :
    ({ (s.setThread t0 th).setCore i c with removed := removed } : Machine n w).Placed l := by
  have hhas : s.Has l (.core i) t0 := hpc
  have hsole := (hp.sole hhas).1
  refine hp.transfer t0 hp.queue (Nat.le_refl _) (fun t ht => .inr ht) (hp.known t0 _ hhas)
    (fun t hne => .of_core hne (.inr hpc) (.inl hpc') rfl rfl rfl Iff.rfl) ?_
  refine .inr ⟨fun h hh => ?_, by simpa [setCore, setThread] using hrest⟩
  cases h with
  | core =>
    rcases has_of_update_core l rfl hh with ⟨-, hh⟩ | ⟨hj, hh⟩
    · rw [hpc'] at hh
      cases hh
    · exact hj (Holder.core.inj (hsole.2 _ hh))
  | agent a => cases hsole.2 (.agent a) hh
  | queue => cases hsole.2 .queue hh

theorem Placed.idle (hp : s.Placed l)
    (hpc : c.pc = (s.core i).pc ∨ c.pc.tid = none ∧ (s.core i).pc.tid = none) :
    (s.setCore i c).Placed l := by
  have hsame : ∀ t, Same s l (s.setCore i c) l t := by
    intro t
    refine ⟨rfl, fun j => ?_, fun a => Iff.rfl, Iff.rfl⟩
    rcases eq_or_ne j i with rfl | hj
    · rcases hpc with hpc | ⟨hpc', hpc⟩
      · exact .inl (by simpa [setCore] using hpc)
      · exact .inr ⟨by simp [setCore, hpc'], by simp [hpc]⟩
    · exact .inl (by simp [setCore, hj])
  exact ⟨hp.queue, fun t h hh => hp.known t h (((hsame t).has_iff h).1 hh),
    fun t ht => (hsame t).settled (hp.settled t ht)⟩

variable {q : Intrusive.Queue Nat}

theorem Placed.pop (hp : s.Placed l) (hpc : (s.core i).pc = .loop) (hq : s.queue.pop = some (t0, q))
    (hpc' : c.pc = .popped t0) :
    ∃ l', ({ s.setCore i c with queue := q } : Machine n w).Placed l' := by
  obtain ⟨l', rfl, hrep⟩ := hp.queue.of_pop hq
  have hhas : s.Has (t0 :: l') .queue t0 := .head _
  obtain ⟨hsole, hgood⟩ := hp.sole hhas
  refine ⟨l', hp.transfer t0 hrep (Nat.le_refl _) (fun t ht => .inr ht) (hp.known t0 _ hhas)
    (fun t hne => ?_) ?_⟩
  · refine .of_core hne (.inl (by rw [hpc]; rfl)) (.inr (by rw [hpc']; rfl))
      (update_eq_self t0 s.thread).symm rfl rfl ?_
    rw [mem_cons, or_iff_right hne]
  · refine .inl ⟨.core i, ⟨by simp [Has, setCore, hpc', Pc.tid], fun h hh => ?_⟩, ?_⟩
    · cases h with
      | core =>
        rcases has_of_update_core (t0 :: l') rfl hh with ⟨rfl, -⟩ | ⟨-, hh⟩
        · rfl
        · cases hsole.2 _ hh
      | agent a => cases hsole.2 (.agent a) hh
      | queue => exact absurd hh (nodup_cons.1 hp.queue.nodup).1
    · simpa [Good, setCore, hpc', Pc.Ok] using hgood

theorem mem_snoc_of_ne (hne : t ≠ t0) : t ∈ l ++ [t0] ↔ t ∈ l := by
  rw [mem_append, mem_singleton, or_iff_left hne]

theorem Placed.queued (hp : s.Placed l) (hpc : (s.core i).pc = .requeue t0)
    (hq : q.Represents (l ++ [t0])) (hpc' : c.pc = .loop) :
    ({ s.setCore i c with queue := q } : Machine n w).Placed (l ++ [t0]) := by
  have htid : (s.core i).pc.tid = some t0 := by rw [hpc]; rfl
  have hhas : s.Has l (.core i) t0 := htid
  have hsole := (hp.sole hhas).1
  refine hp.transfer t0 hq (Nat.le_refl _) (fun t ht => .inr ht) (hp.known t0 _ hhas)
    (fun t hne => .of_core hne (.inr htid) (.inl (by rw [hpc']; rfl))
      (update_eq_self t0 s.thread).symm rfl rfl (mem_snoc_of_ne hne)) ?_
  refine .inl ⟨.queue, ⟨mem_append_right _ (mem_singleton_self t0), fun h hh => ?_⟩, hp.ok hpc rfl⟩
  cases h with
  | core =>
    rcases has_of_update_core l rfl hh with ⟨-, hh⟩ | ⟨hj, hh⟩
    · rw [hpc'] at hh
      cases hh
    · exact absurd (Holder.core.inj (hsole.2 _ hh)) hj
  | agent a => cases hsole.2 (.agent a) hh
  | queue => rfl

/-! ## The steps of an agent -/

theorem Same.of_agent {x : Option Nat} (hne : t ≠ t0) (ha : s.agent a = none ∨ s.agent a = some t0)
    (ha' : x = none ∨ x = some t0) (hthread : s'.thread = update s.thread t0 th)
    (hcore : s'.core = s.core) (hagent : s'.agent = update s.agent a x)
    (hqueue : t ∈ l' ↔ t ∈ l) :
    Same s l s' l' t := by
  refine ⟨?_, fun j => .inl (by rw [hcore]), fun b => ?_, hqueue⟩
  · rw [hthread, update_of_ne hne]
  · rcases eq_or_ne b a with rfl | hb
    · rw [hagent, update_self]
      exact ⟨fun h => absurd h (ne_some_of_ne hne ha'), fun h => absurd h (ne_some_of_ne hne ha)⟩
    · rw [hagent, update_of_ne hb]

section

variable (hp : s.Placed l)
include hp

theorem Placed.enqueued (ha : s.agent a = some t0) (hq : q.Represents (l ++ [t0])) :
    ({ s.setAgent a none with queue := q } : Machine n w).Placed (l ++ [t0]) := by
  have hhas : s.Has l (.agent a) t0 := ha
  obtain ⟨hsole, hgood⟩ := hp.sole hhas
  refine hp.transfer t0 hq (Nat.le_refl _) (fun t ht => .inr ht) (hp.known t0 _ hhas)
    (fun t hne => .of_agent hne (.inr ha) (.inl rfl)
      (update_eq_self t0 s.thread).symm rfl rfl (mem_snoc_of_ne hne)) ?_
  refine .inl ⟨.queue, ⟨mem_append_right _ (mem_singleton_self t0), fun h hh => ?_⟩, hgood⟩
  cases h with
  | core j => cases hsole.2 (.core j) hh
  | agent b =>
    rcases eq_or_ne b a with rfl | hb
    · simp [Has, setAgent] at hh
    · have hh : s.Has l (.agent b) t0 := by simpa [Has, setAgent, hb] using hh
      exact absurd (Holder.agent.inj (hsole.2 _ hh)) hb
  | queue => rfl

theorem Placed.taken {m : Nat} (ha : s.agent a = none)
    (hfree : ∀ h, ¬ s.Has l h t0) (hready : th.Ready) (hnext : s.next ≤ m)
    (hnew : ∀ t, t < m → t = t0 ∨ t < s.next) (ht0 : t0 < m) :
    ({ (s.setThread t0 th).setAgent a (some t0) with next := m } : Machine n w).Placed l := by
  refine hp.transfer t0 hp.queue hnext hnew ht0
    (fun t hne => .of_agent hne (.inl ha) (.inr rfl) rfl rfl rfl Iff.rfl) ?_
  refine .inl ⟨.agent a, ⟨by simp [Has, setAgent], fun h hh => ?_⟩, ?_⟩
  · cases h with
    | core j => exact absurd hh (hfree (.core j))
    | agent b =>
      rcases eq_or_ne b a with rfl | hb
      · rfl
      · have hh : s.Has l (.agent b) t0 := by simpa [Has, setAgent, setThread, hb] using hh
        exact absurd hh (hfree _)
    | queue => exact absurd hh (hfree .queue)
  · simpa [Good, setAgent, setThread] using hready

/-! ## The kill flag -/

theorem Placed.killed (t0 : Nat) : (s.setThread t0 (s.thread t0).kill).Placed l := by
  have hself : (s.setThread t0 (s.thread t0).kill).thread t0 = (s.thread t0).kill :=
    update_self ..
  refine ⟨hp.queue, hp.known, fun t ht => ?_⟩
  rcases eq_or_ne t t0 with rfl | hne
  · rcases hp.settled t ht with ⟨h, hsole, hgood⟩ | ⟨hfree, hrest⟩
    · refine .inl ⟨h, hsole, ?_⟩
      cases h with
      | core =>
        rw [Good, hself]
        exact Pc.Ok.kill hgood
      | agent | queue =>
        rw [Good, hself]
        exact ⟨hgood.runnable, hgood.saved⟩
    · refine .inr ⟨hfree, ?_⟩
      rw [hself]
      exact hrest
  · have hsame : Same s l (s.setThread t0 (s.thread t0).kill) l t :=
      ⟨update_of_ne hne .., fun j => .inl rfl, fun b => Iff.rfl, Iff.rfl⟩
    exact hsame.settled (hp.settled t ht)

/-! ## All steps -/

theorem Placed.push (hhas : s.Has l h t0) (hne : h ≠ .queue) :
    ∃ q, s.queue.push t0 = some q ∧ q.Represents (l ++ [t0]) :=
  hp.queue.push_new fun hmem => hne ((hp.sole hhas).1.2 .queue hmem).symm

theorem Placed.stay (b : Bool) (hstay : Stay t (s.core i) c) : ((s.setThread t { s.thread t with
      sched := { (s.thread t).sched with inSyscall := b } }).setCore i c).Placed l := by
  have hkeep : ∀ {ph ph' : Phase}, (s.core i).pc = .running t ph → c.pc = .running t ph' →
      (ph.Ok i (s.thread t) → ph'.Ok i { s.thread t with
        sched := { (s.thread t).sched with inSyscall := b } }) →
      ((s.setThread t { s.thread t with
        sched := { (s.thread t).sched with inSyscall := b } }).setCore i c).Placed l := by
    intro ph ph' hpc hpc' hok
    refine hp.keep (by rw [hpc]; rfl) (by rw [hpc']; rfl) ?_
    rw [hpc']
    exact hok (hp.ok hpc rfl)
  cases hstay with
  | iret hpc => exact hkeep hpc rfl id
  | sysEnter hpc => exact hkeep hpc rfl id
  | sysLeave hpc => exact hkeep hpc rfl id
  | panic hpc => exact hkeep hpc rfl id
  | exception hpc => exact hkeep hpc rfl id
  | @acquire ph hpc | @unlock ph hpc => exact hkeep hpc rfl (by cases ph <;> exact id)

/-- **Every step of the machine keeps every thread in its place.** -/
theorem Placed.move {act : Action n w} (hm : Move s act s') : ∃ l', s'.Placed l' := by
  cases hm with
  | halt hpc => exact ⟨l, hp.idle (.inr ⟨rfl, by rw [hpc]; rfl⟩)⟩
  | pop hpc hq => exact hp.pop hpc hq rfl
  | lock hpc =>
    have hready : (s.thread _).Ready := hp.ok hpc rfl
    exact ⟨l, hp.keep (by rw [hpc]; rfl) rfl ⟨⟨hready.runnable, hready.saved⟩, rfl⟩⟩
  | exit hpc | unbalanced hpc =>
    exact ⟨l, hp.drop (by rw [hpc]; rfl) rfl (.inl rfl)⟩
  | run hpc =>
    have hok : Pc.Ok _ (s.thread _) (.locked _) := hp.ok hpc rfl
    exact ⟨l, hp.keep (by rw [hpc]; rfl) rfl ⟨hok.1.runnable, hok.2⟩⟩
  | assertFailed hpc hbad =>
    -- a popped thread came from the queue, so it is ready
    have hok : Pc.Ok _ (s.thread _) (.locked _) := hp.ok hpc rfl
    rcases hbad with hstate | hsaved
    · exact absurd hok.1.runnable hstate
    · have := hok.1.saved
      rw [hsaved] at this
      cases this
  | badState hpc hstate => exact absurd hstate ((hp.ok hpc rfl).not_zombie rfl)
  | requeue hpc hdepth hstate =>
    have hok : Pc.Ok _ (s.thread _) (.returned _) := hp.ok hpc rfl
    exact ⟨l, hp.keep (by rw [hpc]; rfl) rfl ⟨hstate, hok.1⟩⟩
  | putAside hpc hdepth hstate =>
    have hok : Pc.Ok _ (s.thread _) (.returned _) := hp.ok hpc rfl
    exact ⟨l, hp.drop (by rw [hpc]; rfl) rfl (.inr ⟨hstate, hok.1, rfl⟩)⟩
  | @queue i t q hpc hq =>
    have hhas : s.Has l (.core i) t := by rw [Has, hpc]; rfl
    obtain ⟨q', hq', hrep⟩ := hp.push hhas nofun
    rw [hq', some.injEq] at hq
    exact ⟨l ++ [t], hp.queued hpc (hq ▸ hrep) rfl⟩
  | @queueFailed i t hpc hq =>
    have hhas : s.Has l (.core i) t := by rw [Has, hpc]; rfl
    obtain ⟨q', hq', -⟩ := hp.push hhas nofun
    rw [hq'] at hq
    cases hq
  | @release i op t r hpc =>
    have hok : Phase.Ok i (s.thread t) (.resuming r) := hp.ok hpc rfl
    exact ⟨l, hp.keep (by rw [hpc]; rfl) rfl hok.1⟩
  | stay b hstay => exact ⟨l, hp.stay b hstay⟩
  | @enter i op t m r sched c hpc hentry hstate =>
    have hok : Phase.Ok i (s.thread t) (.active m) := hp.ok hpc rfl
    refine ⟨l, hp.keep (by rw [hpc]; rfl) rfl ⟨rfl, ?_, rfl⟩⟩
    rw [hstate, hok]
    decide
  | mark hpc => exact ⟨l, hp.keep (by rw [hpc]; rfl) rfl ⟨rfl, rfl⟩⟩
  | @block i op t hpc =>
    have hok : Phase.Ok i (s.thread t) .marked := hp.ok hpc rfl
    refine ⟨l, hp.keep (by rw [hpc]; rfl) rfl ⟨rfl, ?_, rfl⟩⟩
    rw [hok.1]
    decide
  | @wedge i op t hpc =>
    have hok : Phase.Ok i (s.thread t) (.active .user) := hp.ok hpc rfl
    refine ⟨l, hp.keep (by rw [hpc]; rfl) rfl ⟨?_, rfl⟩⟩
    rw [hok]
    decide
  | @wedgeMarked i op t c hpc =>
    have hok : Phase.Ok i (s.thread t) .marked := hp.ok hpc rfl
    have hkeep : ((s.setThread t (s.thread t)).setCore i
        { c.hold with pc := .running t .wedged }).Placed l := by
      refine hp.keep (by rw [hpc]; rfl) rfl ⟨?_, hok.2⟩
      rw [hok.1]
      decide
    rw [setThread_self] at hkeep
    exact ⟨l, hkeep⟩
  | @irq i =>
    refine ⟨l, hp.idle ?_⟩
    by_cases hpc : (s.core i).pc = .halted
    · exact .inr ⟨by simp [hpc, Pc.tid], by rw [hpc]; rfl⟩
    · exact .inl (by simp [hpc])
  | @wake a t hagent hknown hfree hstate =>
    -- the lock is what keeps a wake away from a thread that is still on its way to rest
    have hnone : ∀ h, ¬ s.Has l h t := hp.free_of_sleeping hfree hstate
    rcases hp.settled t hknown with ⟨h, hsole, -⟩ | ⟨-, hrest⟩
    · exact absurd hsole.1 (hnone h)
    · rcases hrest with hzombie | ⟨-, hsaved, -⟩
      · rw [hzombie] at hstate
        cases hstate
      · exact ⟨l, hp.taken hagent hnone ⟨rfl, hsaved⟩ (Nat.le_refl _) (fun t ht => .inr ht) hknown⟩
  | wakeNone => exact ⟨l, hp⟩
  | create hagent =>
    have hnone : ∀ h, ¬ s.Has l h s.next := fun h hh => Nat.lt_irrefl _ (hp.known _ h hh)
    refine ⟨l, hp.taken hagent hnone ⟨rfl, rfl⟩ (Nat.le_succ _) (fun t ht => ?_)
      (Nat.lt_succ_self _)⟩
    exact (Nat.lt_succ_iff_lt_or_eq.1 ht).symm
  | @enqueue a t q hagent hq =>
    have hhas : s.Has l (.agent a) t := hagent
    obtain ⟨q', hq', hrep⟩ := hp.push hhas nofun
    rw [hq', some.injEq] at hq
    exact ⟨l ++ [t], hp.enqueued hagent (hq ▸ hrep)⟩
  | kill => exact ⟨l, hp.killed _⟩

end

theorem placed_of_reachable (hr : Lts.Reachable step (boot n w) s) : ∃ l, s.Placed l := by
  refine hr.invariant (I := fun s : Machine n w => ∃ l, s.Placed l) ?_ ⟨[], Placed.boot n w⟩
  rintro s a s' ⟨l, hp⟩ hstep
  exact hp.move (step_move hstep)

/-! ## Exactly one place -/

/-- The places a thread can be in. -/
inductive Place (n w : Nat) where
  /-- With the scheduler loop of core `i`, from the pop until it settles the thread. -/
  | onCore (i : Fin n)
  | queued
  | asleep
  /-- Core `i` found it `Runnable` and is about to queue it. -/
  | requeuedBy (i : Fin n)
  /-- Agent `a` made it `Runnable` and is about to queue it. -/
  | queuedBy (a : Fin w)

/-- Thread `t` is in the place, when the run queue is the list `l`. -/
def At (s : Machine n w) (l : List Nat) (t : Nat) : Place n w → Prop
  | .onCore i => (s.core i).pc.tid = some t ∧ (s.core i).pc ≠ .requeue t
  | .queued => l.count t = 1 ∧ (s.thread t).sched.state = .runnable
  | .asleep => (s.thread t).sched.state = .sleeping ∧ t ∉ l ∧
      (∀ i, (s.core i).pc.tid ≠ some t) ∧ ∀ a, s.agent a ≠ some t
  | .requeuedBy i => (s.core i).pc = .requeue t ∧ (s.thread t).sched.state = .runnable
  | .queuedBy a => s.agent a = some t ∧ (s.thread t).sched.state = .runnable

/-- The thread exists and has not exited. -/
def Live (s : Machine n w) (t : Nat) : Prop :=
  t < s.next ∧ (s.thread t).sched.state ≠ .zombie

/-- The place of a thread that `h` has. -/
def Holder.place (s : Machine n w) (t : Nat) : Holder n w → Place n w
  | .core i => if (s.core i).pc = .requeue t then .requeuedBy i else .onCore i
  | .agent a => .queuedBy a
  | .queue => .queued

theorem Placed.at_place (hp : s.Placed l) (hh : s.Has l h t) : s.At l t (Holder.place s t h) := by
  have hgood := (hp.sole hh).2
  cases h with
  | core =>
    rw [Holder.place]
    split_ifs with hpc
    · refine ⟨hpc, ?_⟩
      rw [Good, hpc] at hgood
      exact hgood.runnable
    · exact ⟨hh, hpc⟩
  | agent => exact ⟨hh, hgood.runnable⟩
  | queue => exact ⟨count_eq_one_of_mem hp.queue.nodup hh, hgood.runnable⟩

theorem At.cases {p : Place n w} (hat : s.At l t p) :
    (∃ h, s.Has l h t ∧ p = Holder.place s t h) ∨ p = .asleep ∧ ∀ h, ¬ s.Has l h t := by
  cases p with
  | onCore i => exact .inl ⟨.core i, hat.1, (if_neg hat.2).symm⟩
  | queued =>
    have hmem : t ∈ l := count_pos_iff.1 (by rw [hat.1]; decide)
    exact .inl ⟨.queue, hmem, rfl⟩
  | asleep =>
    refine .inr ⟨rfl, fun h hh => ?_⟩
    cases h with
    | core i => exact hat.2.2.1 i hh
    | agent a => exact hat.2.2.2 a hh
    | queue => exact hat.2.1 hh
  | requeuedBy i =>
    refine .inl ⟨.core i, ?_, (if_pos hat.1).symm⟩
    rw [Has, hat.1]
    rfl
  | queuedBy a => exact .inl ⟨.agent a, hat.1, rfl⟩

theorem Placed.exists_unique_place (hp : s.Placed l) (hlive : s.Live t) : ∃! p, s.At l t p := by
  rcases hp.settled t hlive.1 with ⟨h, hsole, -⟩ | ⟨hfree, hrest⟩
  · refine ⟨Holder.place s t h, hp.at_place hsole.1, fun p hat => ?_⟩
    rcases At.cases hat with ⟨h', hh', rfl⟩ | ⟨-, hfree⟩
    · rw [hsole.2 h' hh']
    · exact absurd hsole.1 (hfree h)
  · have hsleep : (s.thread t).sched.state = .sleeping := (hrest.resolve_left hlive.2).1
    refine ⟨.asleep, ⟨hsleep, hfree .queue, fun i => hfree (.core i), fun a => hfree (.agent a)⟩,
      fun p hat => ?_⟩
    rcases At.cases hat with ⟨h, hh, -⟩ | ⟨rfl, -⟩
    · exact absurd hh (hfree h)
    · rfl

/-! ## Runs and wakes -/

theorem Placed.runs (hp : s.Placed l) (hpc : (s.core i).pc = .locked t)
    (hnot : ¬ ((s.thread t).sched.inSyscall = false ∧ (s.thread t).sched.killed = true)) :
    ∃ s' r, s.step (.sched i) = some s' ∧ (s'.core i).pc = .running t (.resuming r) := by
  have hok : (s.thread t).Ready ∧ (s.thread t).lock = some i := hp.ok hpc rfl
  obtain ⟨sv, hsv⟩ := isSome_iff_exists.1 hok.1.saved
  refine ⟨s.runThread i t, sv.resume, ?_, ?_⟩
  · rw [step, schedStep, hpc]
  · simp [runThread, hnot, hok.1.runnable, schedRunTick, hsv, setCore]

/-- Waking a sleeping thread takes effect, unless the core that is putting it to rest still has its
    lock: then the wake waits for it. -/
theorem Placed.wakes (hp : s.Placed l) (hknown : t < s.next)
    (hstate : (s.thread t).sched.state = .sleeping) (ha : s.agent a = none) :
    ((s.thread t).lock = none ∧ ∃ s', s.step (.wake a t) = some s' ∧ s'.agent a = some t) ∨
      ∃ i, (s.core i).pc.tid = some t ∧ (s.thread t).lock = some i := by
  rcases hp.settled t hknown with ⟨h, hsole, hgood⟩ | ⟨-, hrest⟩
  · cases h with
    | core i => exact .inr ⟨i, hsole.1, hgood.lock_of_sleeping hsole.1 hstate⟩
    | agent | queue => exact absurd hstate hgood.not_sleeping
  · rcases hrest with hzombie | ⟨-, -, hfree⟩
    · rw [hzombie] at hstate
      cases hstate
    · refine .inl ⟨hfree, ?_⟩
      rw [step, wakeStep, if_pos ⟨ha, hknown, hfree⟩, if_pos hstate]
      exact ⟨_, rfl, update_self ..⟩

theorem Move.agent_keeps {act : Action n w} (hm : Move s act s') (ha : s.agent a = some t) :
    s'.agent a = some t ∨ act = .enqueue a := by
  have hother : ∀ (b : Fin w) (x : Option Nat), b ≠ a → update s.agent b x a = some t := by
    intro b x hb
    rw [update_of_ne hb.symm, ha]
  cases hm with
  | @wake b u hagent | @create b hagent =>
    exact .inl (hother b _ (by rintro rfl; rw [ha] at hagent; cases hagent))
  | @enqueue b =>
    rcases eq_or_ne b a with rfl | hb
    · exact .inr rfl
    · exact .inl (hother b _ hb)
  | _ => exact .inl ha

/-- **Threads and the run queue stay consistent.** On any number of cores, with any number of wakes
    and creations under way, in every reachable state of the scheduler: every live thread is in
    exactly one place; a thread between its pop and its run is `Runnable` with a saved task state,
    so that it runs unless it is killed; no zombie is queued; a wake of a sleeping thread takes the
    thread, or waits for the core that is putting it to rest; and whoever has made a thread
    `Runnable` keeps it until it is in the queue, which takes it. -/
theorem threads_in_place (hr : Lts.Reachable step (boot n w) s) :
    ∃ l, s.queue.Represents l ∧ (∀ t, s.Live t → ∃! p, s.At l t p) ∧
      (∀ i t, (s.core i).pc = .popped t ∨ (s.core i).pc = .locked t → (s.thread t).Ready) ∧
      (∀ i t, (s.core i).pc = .locked t →
        ¬ ((s.thread t).sched.inSyscall = false ∧ (s.thread t).sched.killed = true) →
        ∃ s' r, s.step (.sched i) = some s' ∧ (s'.core i).pc = .running t (.resuming r)) ∧
      (∀ t ∈ l, (s.thread t).sched.state ≠ .zombie) ∧
      (∀ a t, t < s.next → (s.thread t).sched.state = .sleeping → s.agent a = none →
        ((s.thread t).lock = none ∧ ∃ s', s.step (.wake a t) = some s' ∧ s'.agent a = some t) ∨
          ∃ i, (s.core i).pc.tid = some t ∧ (s.thread t).lock = some i) ∧
      (∀ a t, s.agent a = some t →
        (∃ s', s.step (.enqueue a) = some s' ∧ s'.queue.Represents (l ++ [t])) ∧
        ∀ act s', s.step act = some s' → s'.agent a = some t ∨ act = .enqueue a) := by
  obtain ⟨l, hp⟩ := placed_of_reachable hr
  refine ⟨l, hp.queue, fun t => hp.exists_unique_place, ?_, fun i t => hp.runs, ?_,
    fun a t => hp.wakes, ?_⟩
  · rintro i t (hpc | hpc)
    · exact hp.ok hpc rfl
    · exact (hp.ok hpc rfl : (s.thread t).Ready ∧ _).1
  · intro t ht
    have hgood : (s.thread t).Ready := (hp.sole (h := .queue) ht).2
    rw [hgood.runnable]
    decide
  · intro a t ha
    obtain ⟨q, hq, hrep⟩ := hp.push (h := .agent a) ha nofun
    refine ⟨?_, fun act s' hstep => (step_move hstep).agent_keeps ha⟩
    rw [step, enqueueStep, ha]
    simp only [hq]
    exact ⟨_, rfl, hrep⟩

/-- A thread is created, runs on core `i` and goes to sleep in a system call; then agent `a`
    executes the first half of a wake. -/
def wakingRun (i : Fin n) (a : Fin w) : List (Action n w) :=
  [.create a, .enqueue a, .sched i, .sched i, .sched i, .thread i .release, .thread i .iret,
    .thread i .sysEnter, .thread i .mark, .thread i .block, .sched i, .wake a 0]

theorem threads_in_place_waking :
    ∃ s : Machine 2 1, Lts.run step (boot 2 1) (wakingRun 1 0) = some s ∧ s.agent 0 = some 0 ∧
      s.Live 0 ∧ ∃ l, s.queue.Represents l ∧ ∃! p, s.At l 0 p := by
  refine ⟨_, rfl, rfl, ⟨by decide, by decide⟩, ?_⟩
  obtain ⟨l, hrep, hplace, -⟩ := threads_in_place (n := 2) (w := 1) ⟨wakingRun 1 0, rfl⟩
  exact ⟨l, hrep, hplace 0 ⟨by decide, by decide⟩⟩

end Machine

end Fioxa.Sched
