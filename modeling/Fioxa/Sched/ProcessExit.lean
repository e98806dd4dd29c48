import Fioxa.Sched.SystemMoves

/-! # The end of a process

A process ends in four places, each under its own lock: its thread list, `exit_status`, its
`PROCESS_EXITED` signal and its entry in `PROCESSES`. They are changed one after the other by
whoever finds the list empty. `Ending` says how far they can be apart: whatever lags behind is what
some exit under way is about to change. -/

namespace Fioxa.Sched.System

open List Machine KObjectSignal ObjectSignal Objects Function

variable {n w k : Nat} {s s' : System n w k} {a : Action n w k}

def Exited (s : System n w k) (p : Nat) : Prop := (s.process p).exitStatus = .exited

/-- `PROCESS_EXITED` is set. -/
def Signalled (s : System n w k) (p : Nat) : Prop :=
  (s.objects.signals (.process p)).signalStatus.contains .processExited = true

/-- Some exit of `p` is at `pc`. -/
def ExitAt (s : System n w k) (p : Nat) (pc : ExitPc) : Prop := ∃ e, s.exiting e = some (p, pc)

/-- An exit of `p` is in progress. -/
def ExitInProgress (s : System n w k) (p : Nat) : Prop := ∃ pc, s.ExitAt p pc

/-! ## Threads that are somewhere -/

/-- Every thread belongs to a process that has been given it; as long as its loader has not entered
    the process, the loader has the thread. -/
def Owned (s : System n w k) : Prop :=
  ∀ t < s.machine.next, (s.process (s.owner t)).given = true ∧
    ((s.process (s.owner t)).entered = true ∨ ∃ a, s.machine.agent a = some t)

variable {i : Fin n} {t : Nat}

theorem Owned.on_core (h : s.Owned) (hr : Lts.Reachable Machine.step (Machine.boot n w) s.machine)
    {pc : Pc} (hpc : (s.machine.core i).pc = pc) (ht : pc.tid = some t) :
    t ∈ s.threads (s.owner t) ∧ (s.process (s.owner t)).given = true ∧
      (s.process (s.owner t)).entered = true := by
  obtain ⟨⟨l, hp⟩, -, hl⟩ := sound_of_reachable hr
  have hhas : s.machine.Has l (.core i) t := by
    rw [Has, hpc, ht]
  have hknown : t < s.machine.next := hp.known t _ hhas
  have hlisted : (s.machine.thread t).listed = true :=
    (hl.listed t hknown).2 (hl.not_removed ((hp.ok hpc ht).not_zombie ht))
  obtain ⟨hgiven, hentered⟩ := h t hknown
  refine ⟨mem_threads.2 ⟨hknown, rfl, hlisted⟩, hgiven, ?_⟩
  rcases hentered with hentered | ⟨b, hb⟩
  · exact hentered
  · -- the core has it, so no agent does
    have hsole := (hp.sole hhas).1.2 (.agent b) hb
    cases hsole

theorem Owned.frame (h : s.Owned) (hon : ∀ p, Onward (s.process p) (s'.process p))
    (hnext : s'.machine.next = s.machine.next) (howner : s'.owner = s.owner)
    (hagent : ∀ b t, s.machine.agent b = some t →
      s'.machine.agent b = some t ∨ (s.process (s.owner t)).entered = true) : s'.Owned := by
  intro t ht
  rw [howner]
  obtain ⟨htgiven, htentered⟩ := h t (hnext ▸ ht)
  refine ⟨(hon _).given htgiven, ?_⟩
  rcases htentered with htentered | ⟨b, hb⟩
  · exact .inl ((hon _).entered htentered)
  · rcases hagent b t hb with hb' | htentered
    · exact .inr ⟨b, hb'⟩
    · exact .inl ((hon _).entered htentered)

variable {m : Machine n w}

theorem Owned.step (h : s.Owned) {act : Machine.Action n w} (hstep : s.machine.step act = some m)
    (hcreate : ∀ b, act ≠ .create b)
    (henqueue : ∀ b t, act = .enqueue b → s.machine.agent b = some t →
      (s.process (s.owner t)).entered = true) : (s.withMachine m).Owned := by
  have hm := Machine.step_move hstep
  refine h.frame (fun _ => ⟨id, id, id⟩) (hm.next_eq hcreate) rfl fun b t hb => ?_
  rcases hm.agent_keeps hb with hkeeps | hact
  · exact .inl hkeeps
  · exact .inr (henqueue b t hact hb)

variable {b : Fin w} {p : Nat}

theorem Owned.create (h : s.Owned) (hon : ∀ p, Onward (s.process p) (s'.process p))
    (hstep : s.machine.step (.create b) = some s'.machine)
    (howner : s'.owner = update s.owner s.machine.next p) (hp : (s'.process p).given = true) :
    s'.Owned := by
  intro t ht
  obtain ⟨hnext, -⟩ := step_create hstep
  rw [howner]
  by_cases htn : t = s.machine.next
  · subst htn
    rw [update_self]
    refine ⟨hp, .inr ⟨b, ?_⟩⟩
    simp only [Machine.step, createStep, Option.ite_none_right_eq_some, Option.some.injEq] at hstep
    rw [← hstep.2]
    simp [setAgent, Machine.setThread]
  · rw [update_of_ne htn]
    obtain ⟨htgiven, htentered⟩ := h t (by omega)
    refine ⟨(hon _).given htgiven, ?_⟩
    rcases htentered with htentered | ⟨c, hc⟩
    · exact .inl ((hon _).entered htentered)
    · rcases (Machine.step_move hstep).agent_keeps hc with hkeeps | hact
      · exact .inr ⟨c, hkeeps⟩
      · cases hact

theorem Owned.checkEmpty (h : s.Owned) (e : Exiter n k) (p : Nat) : (s.checkEmpty e p).Owned := by
  unfold System.checkEmpty
  split <;> exact h

theorem pc_of_caller (h : s.caller i = some t) :
    (s.machine.core i).pc = .running t (.active .kernel) := by
  unfold caller at h
  split at h
  · next u hpc =>
    cases h
    exact hpc
  · cases h

theorem Owned.move (h : s.Owned) (hr : Lts.Reachable Machine.step (Machine.boot n w) s.machine)
    (hm : Move s a s') : s'.Owned := by
  have hon := hm.onward
  cases hm with
  | machine hplain hstep =>
    refine h.step hstep ?_ ?_
    · rintro b rfl
      cases hplain
    · rintro b t rfl hb
      cases hplain with
      | enqueue hagent hentered =>
        rw [hb] at hagent
        cases hagent
        exact hentered
  | leave hcore hlock hleaving hstep =>
    exact (h.step hstep (by simp) (by simp)).checkEmpty _ _
  | spawn hcaller hlock hstatus hstep =>
    exact h.create hon hstep rfl (h.on_core hr (pc_of_caller hcaller) rfl).2.1
  | load hgiven hstatus hstep => exact h.create hon hstep rfl (by simp [setProcess])
  | insert | status | remove => exact h.frame hon rfl rfl fun _ _ => .inl
  | objectWait hquiet hstep | block hsignals hstep | wake hdue hstep | mark hpc hstep
  | wakeNext hexit hstep => exact h.step hstep (by simp) (by simp)
  | finish => exact Owned.checkEmpty (s := s.setKiller _ _) h _ _
  | _ => exact h

/-! ## How far the four places are apart -/

/-- What the end of a process is about: its own state, whether it has no thread left, its signals
    and where its exits are. -/
structure EndView where
  process : ProcessState
  empty : Prop
  status : ObjectSignal
  exitAt : ExitPc → Prop

def endView (s : System n w k) (p : Nat) : EndView :=
  ⟨s.process p, s.threads p = [], (s.objects.signals (.process p)).signalStatus, s.ExitAt p⟩

namespace EndView

def Exited (v : EndView) : Prop := v.process.exitStatus = .exited

def Signalled (v : EndView) : Prop := v.status.contains .processExited = true

/-- The process has run and has no thread left. -/
def Ended (v : EndView) : Prop := v.process.given = true ∧ v.process.entered = true ∧ v.empty

structure Trailing (v : EndView) : Prop where
  past_status : ∀ pc, v.exitAt pc → pc ≠ .status → v.Exited
  signalled : v.Signalled → v.Exited
  exited : v.Exited → v.Signalled ∨ v.exitAt .signal
  listed : v.Exited → v.process.listed = true → ∃ pc, v.exitAt pc ∧ pc ≠ .status
  unlisted : v.process.entered = true → v.process.listed = false → v.Exited

structure Ending (v : EndView) : Prop extends Trailing v where
  ended : (∃ pc, v.exitAt pc) ∨ v.Exited → v.Ended
  /-- Whoever takes the last thread out is about to set `exit_status`. -/
  emptied : v.process.given = true → v.empty → v.Exited ∨ v.exitAt .status

/-- Nothing of the end of the process has begun. -/
structure Alive (v : EndView) : Prop where
  status : ¬ v.Exited
  exits : ¬ ∃ pc, v.exitAt pc
  signal : ¬ v.Signalled
  listed : v.process.entered = true → v.process.listed = true

variable {v : EndView}

theorem Ending.alive (h : v.Ending) (hended : ¬ v.Ended) : v.Alive := by
  have hstatus : ¬ v.Exited := fun hexited => hended (h.ended (.inr hexited))
  refine ⟨hstatus, fun hexit => hended (h.ended (.inl hexit)),
    fun hset => hstatus (h.signalled hset), fun hentered => ?_⟩
  by_contra hlisted
  exact hstatus (h.unlisted hentered (Bool.eq_false_iff.2 hlisted))

theorem Alive.trailing (h : v.Alive) : v.Trailing where
  past_status pc hat _ := absurd ⟨pc, hat⟩ h.exits
  signalled hset := absurd hset h.signal
  exited hexited := absurd hexited h.status
  listed hexited _ := absurd hexited h.status
  unlisted hentered hlisted := by
    rw [h.listed hentered] at hlisted
    cases hlisted

theorem Alive.ending (h : v.Alive) (hthreads : v.process.given = true → ¬ v.empty) : v.Ending where
  toTrailing := h.trailing
  ended hend := absurd hend (not_or.2 ⟨h.exits, h.status⟩)
  emptied hgiven hempty := absurd hempty (hthreads hgiven)

end EndView

abbrev Ending (s : System n w k) (p : Nat) : Prop := (s.endView p).Ending

theorem Ending.frame (h : s.Ending p) (hs : s'.endView p = s.endView p) : s'.Ending p := by
  rw [Ending, hs]
  exact h

theorem endView_congr (hprocess : s'.process p = s.process p)
    (hthreads : s'.threads p = [] ↔ s.threads p = [])
    (hstatus : (s'.objects.signals (.process p)).signalStatus
      = (s.objects.signals (.process p)).signalStatus)
    (hat : ∀ pc, s'.ExitAt p pc ↔ s.ExitAt p pc) : s'.endView p = s.endView p := by
  rw [endView, endView, hprocess, hstatus, propext hthreads, funext fun pc => propext (hat pc)]

/-! ### Where the exits are -/

variable {pc : ExitPc} {q : Nat} {e : Exiter n k} {x : Option (Nat × ExitPc)}

theorem exitAt_set (hx : s'.exiting = update s.exiting e (some (p, pc))) : s'.ExitAt p pc :=
  ⟨e, by rw [hx, update_self]⟩

section

variable (hx : s'.exiting = update s.exiting e x)
include hx

theorem ExitAt.keep (h : s.ExitAt q pc) (he : s.exiting e ≠ some (q, pc)) : s'.ExitAt q pc := by
  obtain ⟨e', he'⟩ := h
  have hne : e' ≠ e := by
    rintro rfl
    exact he he'
  exact ⟨e', by rwa [hx, update_of_ne hne]⟩

theorem ExitAt.of_set (h : s'.ExitAt q pc) : x = some (q, pc) ∨ s.ExitAt q pc := by
  obtain ⟨e', he'⟩ := h
  rw [hx] at he'
  by_cases hne : e' = e
  · subst hne
    exact .inl (by simpa using he')
  · exact .inr ⟨e', by simpa [hne] using he'⟩

theorem exitAt_iff_of_ne (hq : q ≠ p) (hold : ∀ y, s.exiting e = some y → y.1 = p)
    (hnew : ∀ y, x = some y → y.1 = p) : s'.ExitAt q pc ↔ s.ExitAt q pc := by
  constructor
  · intro h
    rcases h.of_set hx with hy | h
    · exact absurd (hnew _ hy) hq
    · exact h
  · intro h
    exact h.keep hx fun he => hq (hold _ he)

end

/-! ### One step -/

section

variable (h : ∀ q, s.Ending q)
include h

/-- An exit of `p` goes on, and with that `p` has exited. -/
theorem Ending.exit (hexit : s.exiting e = some (p, pc)) (hx : s'.exiting = update s.exiting e x)
    (hxp : ∀ y, x = some y → y.1 = p) (hthreads : ∀ q, s'.threads q = s.threads q)
    (hon : Onward (s.process p) (s'.process p))
    (hothers : ∀ q, q ≠ p → s'.process q = s.process q ∧
      (s'.objects.signals (.process q)).signalStatus
        = (s.objects.signals (.process q)).signalStatus)
    (hexited : s'.Exited p) (hset : s'.Signalled p ∨ s'.ExitAt p .signal)
    (hlisted : (s'.process p).listed = true → ∃ pc, s'.ExitAt p pc ∧ pc ≠ .status) (q : Nat) :
    s'.Ending q := by
  by_cases hq : q = p
  · subst hq
    obtain ⟨hgiven, hentered, hempty⟩ := (h q).ended (.inl ⟨_, e, hexit⟩)
    have hended : (s'.endView q).Ended :=
      ⟨hon.given hgiven, hon.entered hentered, (hthreads q).trans hempty⟩
    exact ⟨⟨fun _ _ _ => hexited, fun _ => hexited, fun _ => hset, fun _ => hlisted,
      fun _ _ => hexited⟩, fun _ => hended, fun _ _ => .inl hexited⟩
  · refine (h q).frame (endView_congr (hothers q hq).1 (by rw [hthreads]) (hothers q hq).2
      fun pc => exitAt_iff_of_ne hx hq (by simp [hexit]) hxp)

theorem Ending.status (hexit : s.exiting e = some (p, .status)) :
    ∀ q, ((s.setProcess p { s.process p with exitStatus := .exited }).setExiting e
      (some (p, .signal))).Ending q := by
  refine Ending.exit h hexit rfl (by simp) (fun _ => rfl)
    (Onward.setProcess ⟨id, id, fun _ => rfl⟩) (fun q hq => ⟨?_, rfl⟩) ?_
    (.inr (exitAt_set rfl)) (fun _ => ⟨.signal, exitAt_set rfl, by simp⟩)
  · simp [setProcess, setExiting, hq]
  · simp [Exited, setProcess, setExiting]

theorem Ending.signal {x : Objects} (hexit : s.exiting e = some (p, .signal))
    (hx : x.signals = update s.objects.signals (.process p) (s.exitSignal p).signal)
    (ts : List ThreadRef) :
    ∀ q, ({ s with objects := x }.setExiting e (some (p, .waking ts))).Ending q := by
  have hexited : s.Exited p := (h p).past_status .signal ⟨e, hexit⟩ (by simp)
  refine Ending.exit h hexit rfl (by simp) (fun _ => rfl) ⟨id, id, id⟩ (fun q hq => ⟨rfl, ?_⟩)
    hexited (.inl ?_) (fun _ => ⟨.waking ts, exitAt_set rfl, by simp⟩)
  · show (x.signals (.process q)).signalStatus = _
    simp [hx, hq]
  · show ((x.signals (.process p)).signalStatus).contains .processExited = true
    rw [hx, update_self, exitSignal, setSignal_status, newStatus]
    exact closed_raise_closed _

theorem Ending.advance {pc' : ExitPc} (hexit : s.exiting e = some (p, pc))
    (hpc : pc ≠ .status ∧ pc ≠ .signal) (hpc' : pc' ≠ .status) :
    ∀ q, (s.setExiting e (some (p, pc'))).Ending q := by
  have hexited : s.Exited p := (h p).past_status pc ⟨e, hexit⟩ hpc.1
  refine Ending.exit h hexit rfl (by simp) (fun _ => rfl) ⟨id, id, id⟩ (fun q _ => ⟨rfl, rfl⟩)
    hexited (((h p).exited hexited).imp id fun hat => hat.keep rfl ?_)
    (fun _ => ⟨pc', exitAt_set rfl, hpc'⟩)
  rw [hexit]
  simpa using hpc.2

theorem Ending.remove (hexit : s.exiting e = some (p, .remove)) :
    ∀ q, ((s.setProcess p { s.process p with listed := false }).setExiting e none).Ending q := by
  have hexited : s.Exited p := (h p).past_status .remove ⟨e, hexit⟩ (by simp)
  have hon : Onward (s.process p)
      ((s.setProcess p { s.process p with listed := false }).process p) := .setProcess ⟨id, id, id⟩
  refine Ending.exit h hexit rfl (by simp) (fun _ => rfl) hon (fun q hq => ⟨?_, rfl⟩)
    (hon.exited hexited) (((h p).exited hexited).imp id fun hat => ?_) fun hlisted => ?_
  · simp [setProcess, setExiting, hq]
  · exact hat.keep rfl (by simp [setProcess, hexit])
  · simp [setProcess, setExiting] at hlisted

end

theorem not_ended_of_mem (h : t ∈ s.threads p) : ¬ (s.endView p).Ended := by
  rintro ⟨-, -, hempty⟩
  rw [show s.threads p = [] from hempty] at h
  cases h

theorem Ending.begin (h : (s.endView p).Trailing) (hnone : s.exiting e = none)
    (hended : (s.endView p).Ended) : (s.setExiting e (some (p, .status))).Ending p := by
  have hkeep : ∀ {pc}, s.ExitAt p pc → (s.setExiting e (some (p, .status))).ExitAt p pc :=
    fun hat => hat.keep rfl (by simp [hnone])
  refine ⟨⟨fun pc hpc hne => ?_, h.signalled, fun hexited => (h.exited hexited).imp id hkeep,
    fun hexited hlisted => ?_, h.unlisted⟩, fun _ => hended, fun _ _ => .inr (exitAt_set rfl)⟩
  · rcases hpc.of_set rfl with heq | hpc
    · cases heq
      exact absurd rfl hne
    · exact h.past_status pc hpc hne
  · obtain ⟨pc, hpc, hne⟩ := h.listed hexited hlisted
    exact ⟨pc, hkeep hpc, hne⟩

theorem Ending.checkEmpty (hnone : s.exiting e = none) (hgiven : (s.process p).given = true)
    (hentered : (s.process p).entered = true) (h : (s.endView p).Trailing)
    (hself : s.threads p ≠ [] → s.Ending p) (hothers : ∀ q, q ≠ p → s.Ending q) (q : Nat) :
    (s.checkEmpty e p).Ending q := by
  unfold System.checkEmpty
  by_cases hempty : s.threads p = []
  · rw [if_pos hempty]
    by_cases hq : q = p
    · subst hq
      exact Ending.begin h hnone ⟨hgiven, hentered, hempty⟩
    · refine (hothers q hq).frame (endView_congr rfl Iff.rfl rfl fun pc => ?_)
      exact exitAt_iff_of_ne rfl hq (by simp [hnone]) (by simp)
  · rw [if_neg hempty]
    by_cases hq : q = p
    · subst hq
      exact hself hempty
    · exact hothers q hq

theorem tid_of_leaving (h : leaving m i = some t) : (m.core i).pc.tid = some t := by
  unfold leaving at h
  split at h
  · next u hpc =>
    split_ifs at h
    cases h
    rw [hpc]
    rfl
  · next u hpc =>
    split_ifs at h
    cases h
    rw [hpc]
    rfl
  · cases h

theorem eq_nil_congr {l l' : List Nat} (h : ∀ u, u ∈ l ↔ u ∈ l') : l = [] ↔ l' = [] := by
  rw [eq_nil_iff_forall_not_mem, eq_nil_iff_forall_not_mem]
  exact forall_congr' fun u => not_congr (h u)

section

variable (h : ∀ q, s.Ending q)
include h

theorem Ending.leave (ho : s.Owned) (hr : Lts.Reachable Machine.step (Machine.boot n w) s.machine)
    (hcore : s.exiting (.core i) = none) (hleaving : leaving s.machine i = some t)
    (hstep : s.machine.step (.sched i) = some m) (q : Nat) :
    ((s.withMachine m).checkEmpty (.core i) (s.owner t)).Ending q := by
  obtain ⟨hmem, hgiven, hentered⟩ := ho.on_core hr rfl (tid_of_leaving hleaving)
  have hbefore := (h _).alive (not_ended_of_mem hmem)
  have halive : ((s.withMachine m).endView (s.owner t)).Alive :=
    ⟨hbefore.status, hbefore.exits, hbefore.signal, hbefore.listed⟩
  refine Ending.checkEmpty (s := s.withMachine m) hcore hgiven hentered halive.trailing
    (fun hne => halive.ending fun _ => hne) (fun r hne => ?_) q
  refine (h r).frame (endView_congr rfl (eq_nil_congr fun u => ?_) rfl fun _ => Iff.rfl)
  rw [mem_threads_leave hstep hleaving, and_iff_left_iff_imp]
  rintro hu rfl
  exact hne (mem_threads.1 hu).2.1.symm

theorem Ending.create (hstep : s.machine.step (.create b) = some m)
    {proc : Nat → ProcessState} (hothers : ∀ q, q ≠ p → proc q = s.process q)
    (halive : (({ s with process := proc } : System n w k).endView p).Alive) (q : Nat) :
    ({ s.withMachine m with
      owner := update s.owner s.machine.next p, process := proc } : System n w k).Ending q := by
  by_cases hq : q = p
  · subst hq
    refine EndView.Alive.ending ⟨halive.status, halive.exits, halive.signal, halive.listed⟩
      fun _ (hempty : threads _ q = []) => ?_
    have hmem := (mem_threads_create (q := q) hstep proc).2 (.inr ⟨rfl, rfl⟩)
    rw [hempty] at hmem
    cases hmem
  · refine (h q).frame (endView_congr (hothers q hq) (eq_nil_congr fun u => ?_) rfl
      fun _ => Iff.rfl)
    rw [mem_threads_create hstep proc, or_iff_left]
    rintro ⟨-, rfl⟩
    exact hq rfl

theorem Ending.spawn (ho : s.Owned)
    (hr : Lts.Reachable Machine.step (Machine.boot n w) s.machine) (hcaller : s.caller i = some t)
    (hstep : s.machine.step (.create b) = some m) (q : Nat) :
    ({ s.withMachine m with owner := update s.owner s.machine.next (s.owner t) } :
      System n w k).Ending q := by
  obtain ⟨hmem, -⟩ := ho.on_core hr (pc_of_caller hcaller) rfl
  exact Ending.create h hstep (fun _ _ => rfl) ((h _).alive (not_ended_of_mem hmem)) q

theorem Ending.load (hgiven : (s.process p).given = false)
    (hstep : s.machine.step (.create b) = some m) (q : Nat) :
    ({ s.withMachine m with owner := update s.owner s.machine.next p }.setProcess p
      { s.process p with given := true }).Ending q := by
  have halive := (h p).alive fun hended => Bool.false_ne_true (hgiven.symm.trans hended.1)
  apply Ending.create h hstep
  · intro r hne
    simp [hne, withMachine]
  · refine ⟨?_, halive.exits, halive.signal, ?_⟩
    · simpa [EndView.Exited, endView] using halive.status
    · simpa [endView] using halive.listed

theorem Ending.insert (hentered : (s.process p).entered = false) (q : Nat) :
    (s.setProcess p { s.process p with listed := true, entered := true }).Ending q := by
  by_cases hq : q = p
  · subst hq
    have halive := (h q).alive fun hended => Bool.false_ne_true (hentered.symm.trans hended.2.1)
    refine EndView.Alive.ending ⟨?_, halive.exits, halive.signal, ?_⟩ fun hgiven hempty => ?_
    · simpa [EndView.Exited, endView, setProcess] using halive.status
    · simp [endView, setProcess]
    · have hgiven' : (s.process q).given = true := by simpa [endView, setProcess] using hgiven
      rcases (h q).emptied hgiven' hempty with hexited | hat
      · exact halive.status hexited
      · exact halive.exits ⟨_, hat⟩
  · exact (h q).frame (endView_congr (by simp [setProcess, hq]) Iff.rfl rfl fun _ => Iff.rfl)

end

/-- The calls of `kill_threads`: they are made on processes that have been entered, and one exits
    only after its loop. -/
structure Killers (s : System n w k) : Prop where
  marking : ∀ j p rest, s.killer j = .marking p rest →
    (s.process p).given = true ∧ (s.process p).entered = true
  exits : ∀ j p pc, s.exiting (.killer j) = some (p, pc) → s.killer j = .released p

theorem Killers.not_exiting (h : s.Killers) {j : Fin k} (hpc : ∀ p, s.killer j ≠ .released p) :
    s.exiting (.killer j) = none := by
  rw [Option.eq_none_iff_forall_ne_some]
  rintro ⟨p, pc⟩ hexit
  exact hpc p (h.exits j p pc hexit)

theorem Ending.lift (h : s.Ending q) {act : Machine.Action n w}
    (hstep : s.machine.step act = some s'.machine) (hcreate : ∀ b, act ≠ .create b)
    (hleaving : ∀ i, act = .sched i → leaving s.machine i = none) (howner : s'.owner = s.owner)
    (hprocess : s'.process = s.process) (hexiting : s'.exiting = s.exiting)
    (hstatus : (s'.objects.signals (.process q)).signalStatus
      = (s.objects.signals (.process q)).signalStatus) : s'.Ending q := by
  refine h.frame (endView_congr (by rw [hprocess]) ?_ hstatus fun pc => ?_)
  · rw [threads_congr howner ((Machine.step_move hstep).sameLists hcreate hleaving)]
  · rw [ExitAt, ExitAt, hexiting]

theorem Ending.move (h : ∀ q, s.Ending q) (ho : s.Owned) (hk : s.Killers)
    (hr : Lts.Reachable Machine.step (Machine.boot n w) s.machine) (hm : Move s a s') (q : Nat) :
    s'.Ending q := by
  cases hm with
  | same => exact h q
  | machine hplain hstep =>
    refine (h q).lift hstep ?_ ?_ rfl rfl rfl rfl
    · rintro b rfl
      cases hplain
    · rintro i rfl
      cases hplain with
      | sched hcore hleaving => exact hleaving
  | leave hcore hlock hleaving hstep => exact Ending.leave h ho hr hcore hleaving hstep q
  | spawn hcaller hlock hstatus hstep => exact Ending.spawn h ho hr hcaller hstep q
  | load hgiven hstatus hstep => exact Ending.load h hgiven hstep q
  | insert hentered => exact Ending.insert h hentered q
  | @objectWait i t o mask m hquiet hstep =>
    refine (h q).lift hstep (by simp) (by simp) rfl rfl rfl ?_
    by_cases ho : .process q = o
    · subst ho
      simp [setSignals, KObjectSignal.wait]
    · simp [setSignals, ho]
  | block hsignals hstep =>
    exact (h q).lift hstep (by simp) (by simp) rfl rfl rfl (by rw [hsignals])
  | @tell x notices hkept =>
    refine (h q).frame (endView_congr rfl Iff.rfl ?_ fun _ => Iff.rfl)
    show (x.signals (.process q)).signalStatus = _
    rcases hkept q with hsame | ⟨waiter, -, -, hwait⟩
    · rw [hsame]
    · rw [hwait]
      rfl
  | wake hdue hstep | mark hpc hstep => exact (h q).lift hstep (by simp) (by simp) rfl rfl rfl rfl
  | kill => exact (h q).frame rfl
  | @finish j p hpc =>
    obtain ⟨hgiven, hentered⟩ := hk.marking j p [] hpc
    have hnone : s.exiting (.killer j) = none := hk.not_exiting (by simp [hpc])
    have hsame : ∀ r, (s.setKiller j (.released p)).Ending r := fun r => (h r).frame rfl
    exact Ending.checkEmpty (s := s.setKiller j (.released p)) hnone hgiven hentered
      (hsame p).toTrailing (fun _ => hsame p) (fun r _ => hsame r) q
  | status hexit => exact Ending.status h hexit q
  | signal hexit hx => exact Ending.signal h hexit (by rw [hx]; rfl) _ q
  | @wakeNext e p t rest b m hexit hstep =>
    have hlift : ∀ r, ({ s.withMachine m with waiting := update s.waiting t none } :
        System n w k).Ending r := fun r =>
      (h r).lift hstep (by simp) (by simp) rfl rfl rfl rfl
    exact Ending.advance hlift hexit (by simp) (by simp) q
  | awake hexit => exact Ending.advance h hexit (by simp) (by simp) q
  | remove hexit => exact Ending.remove h hexit q

theorem Killers.frame (h : s.Killers) (hon : ∀ p, Onward (s.process p) (s'.process p))
    (hkiller : s'.killer = s.killer)
    (hexits : ∀ j p pc, s'.exiting (.killer j) = some (p, pc) →
      ∃ pc', s.exiting (.killer j) = some (p, pc')) : s'.Killers := by
  refine ⟨fun j p rest hpc => ?_, fun j p pc hexit => ?_⟩
  · rw [hkiller] at hpc
    exact (h.marking j p rest hpc).imp (hon p).given (hon p).entered
  · obtain ⟨pc', hbefore⟩ := hexits j p pc hexit
    rw [hkiller]
    exact h.exits j p pc' hbefore

theorem Killers.advance (h : s.Killers) (hon : ∀ p, Onward (s.process p) (s'.process p))
    (hkiller : s'.killer = s.killer) (hexit : s.exiting e = some (p, pc))
    (hx : s'.exiting = update s.exiting e x) (hxp : ∀ y, x = some y → y.1 = p) : s'.Killers := by
  refine h.frame hon hkiller fun j q pc' hexit' => ?_
  rw [hx] at hexit'
  by_cases hej : .killer j = e
  · subst hej
    rw [update_self] at hexit'
    obtain rfl := hxp _ hexit'
    exact ⟨pc, hexit⟩
  · exact ⟨pc', by simpa [hej] using hexit'⟩

theorem Killers.setKiller (h : s.Killers) {j : Fin k} {call : KillCall}
    (hmarking : ∀ p rest, call = .marking p rest →
      (s.process p).given = true ∧ (s.process p).entered = true)
    (hexits : s.exiting (.killer j) = none) : (s.setKiller j call).Killers := by
  refine ⟨fun i p rest hpc => ?_, fun i p pc hexit => ?_⟩
  · by_cases hij : i = j
    · subst hij
      exact hmarking p rest (by simpa [System.setKiller] using hpc)
    · exact h.marking i p rest (by simpa [System.setKiller, hij] using hpc)
  · have hexit' : s.exiting (.killer i) = some (p, pc) := hexit
    by_cases hij : i = j
    · subst hij
      rw [hexits] at hexit'
      cases hexit'
    · simpa [System.setKiller, hij] using h.exits i p pc hexit'

theorem Killers.move (h : s.Killers) (hm : Move s a s') : s'.Killers := by
  have hon := hm.onward
  cases hm with
  | leave =>
    unfold checkEmpty
    split
    · exact ⟨h.marking, by simpa [System.setExiting, withMachine] using h.exits⟩
    · exact ⟨h.marking, h.exits⟩
  | load | insert => exact h.frame hon rfl fun _ _ pc hexit => ⟨pc, hexit⟩
  | @kill j p hidle hgiven hentered =>
    refine h.setKiller (fun q rest hq => ?_) (h.not_exiting (by simp [hidle]))
    cases hq
    exact ⟨hgiven, hentered⟩
  | @mark j p t rest m hpc =>
    have hm : (s.withMachine m).Killers := ⟨h.marking, h.exits⟩
    refine hm.setKiller (fun q rest' hq => ?_) (h.not_exiting (by simp [hpc]))
    cases hq
    exact h.marking j p _ hpc
  | @finish j p hpc =>
    have hnone : s.exiting (.killer j) = none := h.not_exiting (by simp [hpc])
    have hreleased : (s.setKiller j (.released p)).Killers := h.setKiller (by simp) hnone
    unfold checkEmpty
    split
    · refine ⟨hreleased.marking, fun i q pc hexit => ?_⟩
      by_cases hij : i = j
      · subst hij
        have hq : p = q := by
          simp only [System.setExiting, update_self, Option.some.injEq, Prod.mk.injEq] at hexit
          exact hexit.1
        simp [System.setKiller, System.setExiting, hq]
      · exact hreleased.exits i q pc (by simpa [System.setExiting, hij] using hexit)
    · exact hreleased
  | status hexit | signal hexit | wakeNext hexit | awake hexit | remove hexit =>
    exact h.advance hon rfl hexit rfl (by simp)
  | _ => exact ⟨h.marking, h.exits⟩

/-! ## Those who wait for the end

`blocking_exit_code` looks at `exit_status` and, if the process has not exited, waits for
`PROCESS_EXITED`; the wait looks at the signal again, under its lock. -/

/-- Thread `t` is registered with the signals of `p`. -/
def WaitsFor (s : System n w k) (p : Nat) (t : ThreadRef) (mask : ObjectSignal) : Prop :=
  ∃ waiter ∈ (s.objects.signals (.process p)).signalWaiters, waiter.ty = .one t ∧ waiter.mask = mask

/-- The exit of `p` that has set the signal is about to wake `t`. -/
def WakeDue (s : System n w k) (p : Nat) (t : ThreadRef) : Prop :=
  ∃ ts, s.ExitAt p (.waking ts) ∧ t ∈ ts

structure Heard (s : System n w k) (p : Nat) : Prop where
  quiet : (s.objects.signals (.process p)).Quiet
  heard : ∀ t mask, s.waiting t = some (.process p, mask) →
    s.WaitsFor p t mask ∨ s.WakeDue p t

theorem WakeDue.keep {t : ThreadRef} (h : s.WakeDue p t) (hx : s'.exiting = update s.exiting e x)
    (he : ∀ ts, s.exiting e = some (p, .waking ts) → t ∉ ts) : s'.WakeDue p t := by
  obtain ⟨ts, hat, hmem⟩ := h
  exact ⟨ts, hat.keep hx fun heq => he ts heq hmem, hmem⟩

theorem Heard.frame (h : s.Heard p)
    (hsignals : s'.objects.signals (.process p) = s.objects.signals (.process p))
    (hwaiting : ∀ t mask, s'.waiting t = some (.process p, mask) →
      s.waiting t = some (.process p, mask) ∧ (s.WakeDue p t → s'.WakeDue p t)) :
    s'.Heard p := by
  refine ⟨hsignals ▸ h.quiet, fun t mask ht => ?_⟩
  obtain ⟨hold, hdue⟩ := hwaiting t mask ht
  refine (h.heard t mask hold).imp (fun hreg => ?_) hdue
  rw [WaitsFor, hsignals]
  exact hreg

theorem Heard.exit (h : s.Heard p)
    (hsignals : s'.objects.signals (.process p) = s.objects.signals (.process p))
    (hwaiting : s'.waiting = s.waiting) (hx : s'.exiting = update s.exiting e x)
    (he : ∀ ts, s.exiting e = some (p, .waking ts) → ts = []) : s'.Heard p := by
  refine h.frame hsignals fun u mask hu => ⟨hwaiting ▸ hu, fun hdue => hdue.keep hx ?_⟩
  intro ts hts
  simp [he ts hts]

theorem Heard.register (h : s.Heard p) {v : SignalWaiter}
    (hquiet : (s.objects.signals (.process p)).signalStatus.intersects v.mask = false)
    (hsignals : s'.objects.signals (.process p) = (s.objects.signals (.process p)).wait v)
    (hexiting : s'.exiting = s.exiting)
    (hwaiting : ∀ t mask, s'.waiting t = some (.process p, mask) →
      s.waiting t = some (.process p, mask) ∨ v.ty = .one t ∧ v.mask = mask) :
    s'.Heard p := by
  have hold : ∀ t mask, s.WaitsFor p t mask → s'.WaitsFor p t mask := by
    rintro t mask ⟨u, hu, hty⟩
    refine ⟨u, ?_, hty⟩
    rw [hsignals]
    exact mem_append_left _ hu
  have hdue : ∀ t, s.WakeDue p t → s'.WakeDue p t := by
    intro t ht
    unfold WakeDue ExitAt
    rw [hexiting]
    exact ht
  refine ⟨hsignals ▸ h.quiet.wait hquiet, fun t mask ht => ?_⟩
  rcases hwaiting t mask ht with hbefore | hnew
  · exact (h.heard t mask hbefore).imp (hold t mask) (hdue t)
  · refine .inl ⟨v, ?_, hnew⟩
    rw [hsignals, KObjectSignal.wait]
    simp

theorem woken_of_wake {ports : PortRef → KPort} {notices : List Notice} {t : ThreadRef}
    (h : .wake t ∈ notices) : t ∈ (deliverAll ports notices).2 := by
  induction notices generalizing ports with
  | nil => cases h
  | cons notice rest ih =>
    rw [deliverAll, mem_append]
    rcases mem_cons.1 h with rfl | h
    · exact .inl (mem_singleton_self t)
    · exact .inr (ih h)

theorem Heard.signal (h : ∀ q, s.Heard q) {x : Objects} (hexit : s.exiting e = some (p, .signal))
    (hx : x.signals = update s.objects.signals (.process p) (s.exitSignal p).signal)
    {ts : List ThreadRef} (hts : ∀ t, .wake t ∈ (s.exitSignal p).notices → t ∈ ts) (q : Nat) :
    ({ s with objects := x }.setExiting e (some (p, .waking ts))).Heard q := by
  have hkeep : ∀ {q t}, s.WakeDue q t →
      ({ s with objects := x }.setExiting e (some (p, .waking ts))).WakeDue q t := by
    intro q t ht
    exact ht.keep rfl (by simp [hexit])
  by_cases hq : q = p
  · subst hq
    have hsignals : x.signals (.process q) = (s.exitSignal q).signal := by simp [hx]
    have hfired := (h q).quiet.setSignal_fired .processExited true
    refine ⟨?_, fun t mask ht => ?_⟩
    · show (x.signals (.process q)).Quiet
      rw [hsignals]
      exact (h q).quiet.setSignal _ _
    · rcases (h q).heard t mask ht with ⟨waiter, hmem, hty, hmask⟩ | hdue
      · by_cases hhit : hits
            ((s.objects.signals (.process q)).newStatus .processExited true) waiter = true
        · refine .inr ⟨ts, exitAt_set rfl, hts t ?_⟩
          rw [SetSignal.notices, mem_map]
          refine ⟨waiter, ?_, by simp [hty]⟩
          rw [exitSignal, hfired.1]
          exact mem_filter.2 ⟨hmem, hhit⟩
        · refine .inl ⟨waiter, ?_, hty, hmask⟩
          show waiter ∈ (x.signals (.process q)).signalWaiters
          rw [hsignals, exitSignal, hfired.2]
          exact mem_filter.2 ⟨hmem, by simpa using hhit⟩
      · exact .inr (hkeep hdue)
  · refine (h q).frame ?_ fun t mask ht => ⟨ht, hkeep⟩
    show x.signals (.process q) = _
    simp [hx, hq]

theorem Heard.move (h : ∀ q, s.Heard q) (hk : s.Killers) (hm : Move s a s') (q : Nat) :
    s'.Heard q := by
  cases hm with
  | @leave i t m hcore =>
    unfold checkEmpty
    split
    · exact (h q).exit rfl rfl rfl (by simp [hcore])
    · exact (h q).frame rfl fun u mask hu => ⟨hu, id⟩
  | @objectWait i t o mask m hquiet =>
    by_cases hoq : o = .process q
    · subst hoq
      refine (h q).register (v := ⟨.one t, mask, 0⟩) hquiet (by simp [setSignals]) rfl
        fun u mask' hu => ?_
      by_cases hut : u = t
      · subst hut
        simp only [update_self, Option.some.injEq, Prod.mk.injEq, true_and] at hu
        exact .inr ⟨rfl, hu⟩
      · exact .inl (by simpa [hut, withMachine] using hu)
    · refine (h q).frame (by simp [setSignals, Ne.symm hoq]) fun u mask' hu => ?_
      by_cases hut : u = t
      · subst hut
        simp only [update_self, Option.some.injEq, Prod.mk.injEq] at hu
        exact absurd hu.1 hoq
      · exact ⟨by simpa [hut, withMachine] using hu, id⟩
  | block hsignals => exact (h q).frame (by rw [hsignals]) fun u mask hu => ⟨hu, id⟩
  | @tell x notices hkept =>
    rcases hkept q with hsame | ⟨waiter, hport, hquiet, hwait⟩
    · exact (h q).frame hsame fun u mask hu => ⟨hu, id⟩
    · exact (h q).register hquiet hwait rfl fun u mask hu => .inl hu
  | @wake b t =>
    refine (h q).frame rfl fun u mask hu => ?_
    by_cases hut : u = t
    · subst hut
      simp at hu
    · exact ⟨by simpa [hut, withMachine] using hu, id⟩
  | @finish j p hpc =>
    unfold checkEmpty
    split
    · have hnone : s.exiting (.killer j) = none := hk.not_exiting (by simp [hpc])
      exact (h q).exit rfl rfl rfl (by simp [hnone])
    · exact (h q).frame rfl fun u mask hu => ⟨hu, id⟩
  | status hexit | awake hexit | remove hexit => exact (h q).exit rfl rfl rfl (by simp [hexit])
  | @signal e p x hexit hx =>
    refine Heard.signal h hexit (by rw [hx]; rfl) (fun t ht => ?_) q
    exact woken_of_wake ht
  | @wakeNext e p t rest b m hexit =>
    refine (h q).frame rfl fun u mask hu => ?_
    by_cases hut : u = t
    · subst hut
      simp [System.setExiting] at hu
    · refine ⟨by simpa [hut, withMachine, System.setExiting] using hu, ?_⟩
      rintro ⟨ts, ⟨e', he'⟩, hmem⟩
      by_cases hee : e' = e
      · -- the exit itself: `u` comes after `t` in its list
        subst hee
        rw [hexit] at he'
        cases he'
        refine ⟨rest, exitAt_set rfl, ?_⟩
        exact (mem_cons.1 hmem).resolve_left hut
      · exact ⟨ts, ⟨e', by simpa [System.setExiting, withMachine, hee] using he'⟩, hmem⟩
  | _ => exact (h q).frame rfl fun u mask hu => ⟨hu, id⟩

/-! ## Whole runs -/

/-- The invariants of the end of processes. -/
structure Orderly (s : System n w k) : Prop where
  machine : Lts.Reachable Machine.step (Machine.boot n w) s.machine
  owned : s.Owned
  killers : s.Killers
  ending : ∀ p, s.Ending p
  heard : ∀ p, s.Heard p

theorem alive_boot (n w k p : Nat) : ((boot n w k).endView p).Alive := by
  refine ⟨?_, ?_, ?_, ?_⟩
  · intro h
    cases h
  · rintro ⟨pc, e, he⟩
    cases he
  · intro h
    have hclear : ObjectSignal.contains 0#64 .processExited = false := by decide
    rw [show ObjectSignal.contains 0#64 .processExited = true from h] at hclear
    cases hclear
  · intro h
    cases h

theorem Orderly.boot (n w k : Nat) : (boot n w k).Orderly where
  machine := Lts.Reachable.refl _
  owned := fun t ht => absurd ht (Nat.not_lt_zero t)
  killers := ⟨by simp [System.boot], by simp [System.boot]⟩
  ending := fun p => (alive_boot n w k p).ending fun h => by cases h
  heard := fun p => ⟨quiet_new, by simp [System.boot]⟩

theorem Orderly.step (h : s.Orderly) (hstep : s.step a = some s') : s'.Orderly := by
  have hm := step_move hstep
  refine ⟨?_, h.owned.move h.machine hm, h.killers.move hm,
    Ending.move h.ending h.owned h.killers h.machine hm, Heard.move h.heard h.killers hm⟩
  rcases hm.machine_step with hsame | ⟨act, hact⟩
  · rw [hsame]
    exact h.machine
  · exact h.machine.trans (Lts.Reachable.single hact)

theorem orderly_of_reachable (hr : Lts.Reachable System.step (System.boot n w k) s) : s.Orderly :=
  hr.invariant (fun _ _ _ h hstep => h.step hstep) (.boot n w k)

/-- A thread on a core is in the list of its process, which is in `PROCESSES` and not ending. -/
def Attended (s : System n w k) : Prop :=
  ∀ i t, (s.machine.core i).pc.tid = some t → t ∈ s.threads (s.owner t) ∧
    (s.process (s.owner t)).listed = true ∧ (s.endView (s.owner t)).Alive

/-- **No process ends under a thread on a core.** -/
theorem attended_always (as : List (Action n w k)) : Lts.Always step Attended (boot n w k) as := by
  refine Lts.always_of_step (I := Orderly) (fun s h i t ht => ?_) (fun _ _ _ h => h.step)
    (.boot n w k)
  obtain ⟨hmem, -, hentered⟩ := h.owned.on_core h.machine rfl ht
  have halive := (h.ending _).alive (not_ended_of_mem hmem)
  exact ⟨hmem, halive.listed hentered, halive⟩

theorem Exited.stays (h : s.Exited p) (hr : Lts.Reachable step s s') : s'.Exited p := by
  refine hr.invariant (I := fun s => s.Exited p) ?_ h
  intro s a s' hs hstep
  exact ((step_move hstep).onward p).exited hs

theorem intersects_processExited {status : ObjectSignal}
    (h : status.contains .processExited = true) : status.intersects .processExited = true := by
  have hbit : processExited = BitVec.twoPow 64 20 := by decide
  rw [hbit] at h ⊢
  rw [contains_twoPow status 20 (by decide)] at h
  rw [intersects_twoPow status 20 (by decide), h]

/-- **The four places agree.** In every reachable state, for every process whose first thread has
    been created and whose loader has entered it: when none of its exits is in progress, it has
    exited exactly when its thread list is empty, exactly when `PROCESS_EXITED` is set and exactly
    when its pid is absent from `PROCESSES`. Once it has exited this stays so, and `new_thread`
    returns nothing. A thread that sleeps in a wait for `PROCESS_EXITED` while the signal is set is
    one that the `set_signal` call still under way is about to wake. -/
theorem exit_agreement (hr : Lts.Reachable step (System.boot n w k) s) {p : Nat}
    (hgiven : (s.process p).given = true) (hentered : (s.process p).entered = true) :
    (¬ s.ExitInProgress p →
      (s.Exited p ↔ s.threads p = []) ∧ (s.Exited p ↔ s.Signalled p) ∧
      (s.Exited p ↔ (s.process p).listed = false) ∧
      (s.Signalled p → ∀ t, s.waiting t ≠ some (.process p, .processExited))) ∧
    (s.Exited p → ∀ s', Lts.Reachable step s s' → s'.Exited p ∧ s'.newThread p = none) ∧
    (s.Signalled p → ∀ t, s.waiting t = some (.process p, .processExited) → s.WakeDue p t) := by
  have h := orderly_of_reachable hr
  have hending := h.ending p
  have hheard : s.Signalled p → ∀ t, s.waiting t = some (.process p, .processExited) →
      s.WakeDue p t := by
    intro hset t ht
    rcases (h.heard p).heard t _ ht with ⟨waiter, hmem, -, hmask⟩ | hdue
    · have hquiet := (h.heard p).quiet waiter hmem
      rw [hits, hmask, intersects_processExited hset] at hquiet
      cases hquiet
    · exact hdue
  refine ⟨fun hnone => ⟨⟨?_, ?_⟩, ⟨?_, hending.signalled⟩, ⟨?_, hending.unlisted hentered⟩, ?_⟩,
    ?_, hheard⟩
  · intro hexited
    exact (hending.ended (.inr hexited)).2.2
  · intro hempty
    exact (hending.emptied hgiven hempty).resolve_right fun hat => hnone ⟨_, hat⟩
  · intro hexited
    exact (hending.exited hexited).resolve_right fun hat => hnone ⟨_, hat⟩
  · intro hexited
    rw [Bool.eq_false_iff]
    intro hlisted
    obtain ⟨pc, hat, -⟩ := hending.listed hexited hlisted
    exact hnone ⟨pc, hat⟩
  · intro hset t ht
    obtain ⟨ts, hat, -⟩ := hheard hset t ht
    exact hnone ⟨_, hat⟩
  · intro hexited s' hs'
    have hexited' := hexited.stays hs'
    exact ⟨hexited', if_pos hexited'⟩

/-- Process 3 is loaded and its only thread runs on core `i`, calls `EXIT_THREAD` and is taken out
    of the list; the core then ends the process. -/
def lifeRun (i : Fin n) (b : Fin w) : List (Action n w k) :=
  [.load b 3, .insert 3, .enqueue b, .sched i, .sched i, .sched i, .thread i .release,
    .thread i .iret, .thread i .sysEnter, .thread i .exitThread, .sched i, .sched i, .sched i,
    .sched i, .sched i, .exit (.core i) b, .exit (.core i) b, .exit (.core i) b, .exit (.core i) b]

theorem exit_agreement_life :
    ∃ s ∈ Lts.run step (System.boot 1 1 1) (lifeRun 0 0),
      s.threads 3 = [] ∧ s.Exited 3 ∧ s.Signalled 3 ∧ (s.process 3).listed = false := by
  have hrun : ∃ s ∈ Lts.run step (System.boot 1 1 1) (lifeRun 0 0),
      ((s.process 3).given = true ∧ (s.process 3).entered = true) ∧
      ((∀ i, s.exiting (.core i) = none) ∧ ∀ j, s.exiting (.killer j) = none) ∧
      s.threads 3 = [] := by decide
  obtain ⟨s, hs, ⟨hgiven, hentered⟩, ⟨hcore, hkiller⟩, hempty⟩ := hrun
  have hnone : ¬ s.ExitInProgress 3 := by
    rintro ⟨pc, e, he⟩
    cases e with
    | core => simp [hcore] at he
    | killer => simp [hkiller] at he
  obtain ⟨hthreads, hsignal, hlisted, -⟩ :=
    (exit_agreement ⟨lifeRun 0 0, hs⟩ hgiven hentered).1 hnone
  have hexited : s.Exited 3 := hthreads.2 hempty
  exact ⟨s, hs, hempty, hexited, hsignal.1 hexited, hlisted.1 hexited⟩

/-- A thread of process 4 sleeps in `blocking_exit_code` for process 3, whose exit has just set the
    signal. -/
def sleeperRun (i : Fin n) (b : Fin w) : List (Action n w k) :=
  [.load b 4, .insert 4, .enqueue b, .sched i, .sched i, .sched i, .thread i .release,
    .thread i .iret, .thread i .sysEnter, .call i (.objectWait (.process 3) processExited),
    .thread i .block, .sched i] ++ (lifeRun i b).take 17

/-- Right after the loader's `new_thread` the pid is not in `PROCESSES`, although the process has a
    thread and has not exited. And between the store to `signal_status` and the `wake` that follows
    it in `set_signal`, the signal is set and the caller of `blocking_exit_code` is asleep. -/
theorem unlisted_while_loading :
    (∃ s, Lts.run step (System.boot 1 1 1) [.load 0 3] = some s ∧
      (s.process 3).given = true ∧ ¬ s.ExitInProgress 3 ∧ ¬ s.Exited 3 ∧ s.threads 3 = [0] ∧
      (s.process 3).listed = false) ∧
    ∃ s, Lts.run step (System.boot 1 1 1) (sleeperRun 0 0) = some s ∧ s.Signalled 3 ∧
      s.waiting 0 = some (.process 3, .processExited) ∧
      (s.machine.thread 0).sched.state = .sleeping := by
  refine ⟨⟨_, rfl, rfl, ?_, ?_, by decide, rfl⟩, _, rfl, ?_, by decide, rfl⟩
  · rintro ⟨pc, e, he⟩
    cases he
  · intro h
    cases h
  · unfold Signalled
    decide

end Fioxa.Sched.System
