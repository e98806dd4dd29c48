import Fioxa.Kernel.InterruptDelivery

/-! # Threads that wait for an interrupt

Any number of threads use one interrupt handle. A thread that sleeps in `KInterruptHandle::wait` is
recorded in the field `waiter`, and the next trigger wakes it, because neither `pending` nor
`waiting_ack` is set then. `wait` itself refuses to overwrite the field. `set_port` does not: it
takes the place of the thread, which nobody will wake any more. A thread that has been woken finds
the event at its next turn of the loop, unless another thread's `wait` has taken it before. -/

namespace Fioxa

open Function Lts

/-- Where a thread stands in `KInterruptHandle::wait`. -/
inductive WaitPhase where
  | outside
  | asleep
  /-- About to take another turn of the loop. -/
  | woken
  deriving DecidableEq

structure InterruptThreads where
  handle : KInterruptHandle
  phase : ThreadRef → WaitPhase

namespace InterruptThreads

def boot : InterruptThreads := ⟨.new, fun _ => .outside⟩

/-- The threads after a notice. Whom a port wakes waits elsewhere. -/
def tell (phase : ThreadRef → WaitPhase) : Notice → ThreadRef → WaitPhase
  | .wake t => if phase t = .asleep then Function.update phase t .woken else phase
  | .notify _ _ => phase

inductive Action where
  | call (c : InterruptCall)
  /-- Thread `t` calls `wait`, or takes another turn of its loop. -/
  | wait (t : ThreadRef)
  deriving DecidableEq

def step (s : InterruptThreads) : Action → Option InterruptThreads
  | .call c =>
    let (handle, notices) := s.handle.call c
    some ⟨handle, notices.foldl tell s.phase⟩
  | .wait t =>
    if s.phase t = .asleep then none
    else
      match s.handle.wait t with
      | (.registered, handle) => some ⟨handle, Function.update s.phase t .asleep⟩
      | (_, handle) => some ⟨handle, Function.update s.phase t .outside⟩

/-- The thread is recorded, nothing is pending, and the next trigger wakes it. -/
structure Wakeable (s : InterruptThreads) (t : ThreadRef) : Prop where
  recorded : s.handle.waiter = .thread t
  notPending : s.handle.pending = false
  wakes : ∀ now, ∃ u, s.step (.call (.trigger now)) = some u ∧ u.phase t = .woken

/-- Every thread that sleeps can be woken, and of one that has been woken, `wait` returns at its
    next turn. -/
structure AllWakeable (s : InterruptThreads) : Prop where
  wakeable : ∀ t, s.phase t = .asleep → s.Wakeable t
  returns : ∀ t, s.phase t = .woken → (s.handle.wait t).1 = .returned

/-- No port is bound while a thread is in `wait`, and no thread calls `wait` while another one has
    been woken there. -/
def Yields (s : InterruptThreads) : Action → Prop
  | .call (.setPort _ _ _) => ∀ t, s.phase t = .outside
  | .call _ => True
  | .wait t => ∀ x, x ≠ t → s.phase x ≠ .woken

/-! ## The invariant -/

/-- The thread that sleeps is the one that is recorded, and the event of one that has been woken is
    still there. -/
structure Recorded (s : InterruptThreads) : Prop where
  asleep : ∀ t, s.phase t = .asleep ↔ s.handle.waiter = .thread t
  idle : ∀ t, s.handle.waiter = .thread t →
    s.handle.pending = false ∧ s.handle.waitingAck = false
  woken : ∀ t, s.phase t = .woken → s.handle.waiter = .none ∧ s.handle.pending = true

variable {s u : InterruptThreads} {t : ThreadRef} {a : Action}

theorem Recorded.allWakeable (h : s.Recorded) : s.AllWakeable where
  wakeable t ht := by
    have hwaiter := (h.asleep t).1 ht
    obtain ⟨hpending, hack⟩ := h.idle t hwaiter
    refine ⟨hwaiter, hpending, fun now => ⟨⟨{ s.handle with pending := true, waiter := .none },
      Function.update s.phase t .woken⟩, ?_, update_self ..⟩⟩
    simp [step, KInterruptHandle.call, KInterruptHandle.trigger, hpending, hack, hwaiter, tell, ht]
  returns t ht := by
    obtain ⟨hnone, hpending⟩ := h.woken t ht
    simp [KInterruptHandle.wait, hnone, hpending]

theorem recorded_boot : boot.Recorded where
  asleep t := by simp [boot, KInterruptHandle.new]
  idle t h := by cases h
  woken t h := by cases h

theorem recorded_of_none {handle : KInterruptHandle} {phase : ThreadRef → WaitPhase}
    (hwaiter : ∀ t, handle.waiter ≠ .thread t) (hphase : ∀ t, phase t ≠ .asleep)
    (hwoken : ∀ t, phase t = .woken → handle.waiter = .none ∧ handle.pending = true) :
    Recorded ⟨handle, phase⟩ where
  asleep t := iff_of_false (hphase t) (hwaiter t)
  idle t ht := absurd ht (hwaiter t)
  woken := hwoken

theorem Recorded.awake (h : s.Recorded) (hwaiter : ∀ t, s.handle.waiter ≠ .thread t)
    (t : ThreadRef) : s.phase t ≠ .asleep :=
  fun ht => hwaiter t ((h.asleep t).1 ht)

variable {now : BitVec 64}

theorem Recorded.trigger (h : s.Recorded) (hstep : s.step (.call (.trigger now)) = some u) :
    u.Recorded := by
  simp only [step, KInterruptHandle.call, KInterruptHandle.trigger] at hstep
  split at hstep
  · rename_i hbusy
    cases hstep
    have hnone : ∀ t, s.handle.waiter ≠ .thread t := by
      intro t ht
      obtain ⟨hpending, hack⟩ := h.idle t ht
      simp [hpending, hack] at hbusy
    exact recorded_of_none hnone (h.awake hnone) fun t ht => ⟨(h.woken t ht).1, rfl⟩
  · split at hstep
    · rename_i hwaiter
      cases hstep
      have hnone : ∀ t, s.handle.waiter ≠ .thread t := by simp [hwaiter]
      exact recorded_of_none hnone (h.awake hnone) fun _ _ => ⟨hwaiter, rfl⟩
    · rename_i t ht
      cases hstep
      -- the only thread that sleeps is woken
      refine recorded_of_none (fun _ => InterruptWaiter.noConfusion) (fun x hx => ?_)
        fun _ _ => ⟨rfl, rfl⟩
      have hasleep := (h.asleep t).2 ht
      simp only [List.foldl_cons, List.foldl_nil, tell, if_pos hasleep] at hx
      by_cases hxt : x = t
      · subst hxt
        simp at hx
      · rw [update_of_ne hxt] at hx
        have hwaiter := (h.asleep x).1 hx
        rw [ht, InterruptWaiter.thread.injEq] at hwaiter
        exact hxt hwaiter.symm
    · rename_i p key hport
      cases hstep
      have hnone : ∀ t, s.handle.waiter ≠ .thread t := by simp [hport]
      exact recorded_of_none hnone (h.awake hnone) h.woken

theorem Recorded.ack (h : s.Recorded) (hstep : s.step (.call (.ack now)) = some u) :
    u.Recorded := by
  simp only [step, KInterruptHandle.call, KInterruptHandle.ack] at hstep
  split at hstep
  · rename_i hpending
    have hnone : ∀ t, s.handle.waiter ≠ .thread t := by
      intro t ht
      rw [(h.idle t ht).1] at hpending
      cases hpending
    split at hstep
    · cases hstep
      exact recorded_of_none hnone (h.awake hnone) h.woken
    · rename_i t ht
      exact absurd ht (hnone t)
    · cases hstep
      exact recorded_of_none hnone (h.awake hnone) h.woken
  · cases hstep
    exact ⟨h.asleep, fun t ht => ⟨(h.idle t ht).1, rfl⟩, h.woken⟩

theorem Recorded.setPort {p : PortRef} {key : BitVec 64} (houtside : ∀ t, s.phase t = .outside)
    (hstep : s.step (.call (.setPort p key now)) = some u) : u.Recorded := by
  have hphase : ∀ t, s.phase t ≠ .asleep ∧ s.phase t ≠ .woken := by simp [houtside]
  simp only [step, KInterruptHandle.call, KInterruptHandle.setPort] at hstep
  split at hstep
  · cases hstep
    exact recorded_of_none (fun _ => InterruptWaiter.noConfusion) (fun t => (hphase t).1)
      fun t ht => absurd ht (hphase t).2
  · cases hstep
    exact recorded_of_none (fun _ => InterruptWaiter.noConfusion) (fun t => (hphase t).1)
      fun t ht => absurd ht (hphase t).2

theorem Recorded.leave (h : s.Recorded) (ht : s.phase t ≠ .asleep) :
    Recorded ⟨s.handle, Function.update s.phase t .outside⟩ where
  asleep x := by
    by_cases hxt : x = t
    · subst hxt
      have hwaiter : s.handle.waiter ≠ .thread x := fun hw => ht ((h.asleep x).2 hw)
      simp [hwaiter]
    · show Function.update s.phase t .outside x = .asleep ↔ _
      rw [update_of_ne hxt]
      exact h.asleep x
  idle := h.idle
  woken x hx := by
    by_cases hxt : x = t
    · subst hxt
      simp at hx
    · exact h.woken x (by simpa [hxt] using hx)

theorem wait_cases (this : KInterruptHandle) (t : ThreadRef) :
    (this.waiter ≠ .none ∧ this.wait t = (.failed, this)) ∨
    (this.waiter = .none ∧ this.pending = true ∧
      this.wait t = (.returned, { this with waitingAck := false, pending := false })) ∨
    (this.waiter = .none ∧ this.pending = false ∧
      this.wait t = (.registered, { this with waitingAck := false, waiter := .thread t })) := by
  unfold KInterruptHandle.wait
  by_cases hwaiter : this.waiter = .none
  · cases hpending : this.pending with
    | true => exact .inr (.inl ⟨hwaiter, rfl, by simp [hwaiter]⟩)
    | false => exact .inr (.inr ⟨hwaiter, rfl, by simp [hwaiter]⟩)
  · exact .inl ⟨hwaiter, if_pos hwaiter⟩

theorem Recorded.wait (h : s.Recorded) (hothers : ∀ x, x ≠ t → s.phase x ≠ .woken)
    (hstep : s.step (.wait t) = some u) : u.Recorded := by
  have hwoken : ∀ q ≠ WaitPhase.woken, ∀ x, Function.update s.phase t q x ≠ .woken := by
    intro q hq x
    by_cases hxt : x = t
    · subst hxt
      simpa using hq
    · simpa [hxt] using hothers x hxt
  simp only [step] at hstep
  split at hstep
  · cases hstep
  · rename_i ht
    rcases wait_cases s.handle t with ⟨-, heq⟩ | ⟨hnone, -, heq⟩ | ⟨hnone, hpending, heq⟩
    · rw [heq] at hstep
      cases hstep
      exact h.leave ht
    · rw [heq] at hstep
      cases hstep
      have hthread : ∀ x, s.handle.waiter ≠ .thread x := by simp [hnone]
      exact recorded_of_none hthread ((h.leave ht).awake hthread)
        fun x hx => absurd hx (hwoken _ (by simp) x)
    · rw [heq] at hstep
      cases hstep
      have hthread : ∀ x, s.handle.waiter ≠ .thread x := by simp [hnone]
      refine ⟨fun x => ?_, fun _ _ => ⟨hpending, rfl⟩,
        fun x hx => absurd hx (hwoken _ (by simp) x)⟩
      by_cases hxt : x = t
      · subst hxt
        simp
      · simp [hxt, h.awake hthread x, Ne.symm hxt]

theorem Recorded.step (h : s.Recorded) (ha : s.Yields a) (hstep : s.step a = some u) :
    u.Recorded := by
  cases a with
  | call c =>
    cases c with
    | trigger => exact h.trigger hstep
    | setPort => exact Recorded.setPort ha hstep
    | ack => exact h.ack hstep
  | wait => exact h.wait ha hstep

theorem yields_setPort {p : PortRef} {key : BitVec 64}
    (hstep : s.step (.call (.setPort p key now)) = some u) (hu : u.AllWakeable) (t : ThreadRef) :
    s.phase t = .outside := by
  have hport : u.phase = s.phase ∧ u.handle.waiter = .port p key := by
    simp only [InterruptThreads.step, KInterruptHandle.call, KInterruptHandle.setPort] at hstep
    split at hstep <;> cases hstep <;> exact ⟨rfl, rfl⟩
  cases ht : s.phase t with
  | outside => rfl
  | asleep =>
    have hwaiter := (hu.wakeable t (by rw [hport.1, ht])).recorded
    rw [hport.2] at hwaiter
    cases hwaiter
  | woken =>
    have hreturns := hu.returns t (by rw [hport.1, ht])
    rw [KInterruptHandle.wait, if_pos (by rw [hport.2]; exact InterruptWaiter.noConfusion)]
      at hreturns
    cases hreturns

theorem Recorded.yields (h : s.Recorded) (hstep : s.step a = some u) (hu : u.AllWakeable) :
    s.Yields a := by
  cases a with
  | call c =>
    cases c with
    | trigger => trivial
    | ack => trivial
    | setPort => exact yields_setPort hstep hu
  | wait t =>
    intro x hxt hx
    obtain ⟨hnone, hpending⟩ := h.woken x hx
    simp only [InterruptThreads.step, KInterruptHandle.wait, hnone, hpending] at hstep
    split at hstep
    · cases hstep
    · cases hstep
      -- the other thread has taken the event
      have hreturns := hu.returns x (by simpa [hxt] using hx)
      simp [KInterruptHandle.wait] at hreturns

/-- Every thread that sleeps in `wait` can be woken and returns then, exactly if no port is bound
    while a thread waits and no other thread's `wait` gets in between. -/
theorem sleepers_wakeable_iff (actions : List Action) :
    Lts.Always step AllWakeable boot actions ↔ Lts.Guarded step Yields boot actions :=
  always_iff_guarded (fun _ h => h.allWakeable) (fun _ _ _ h ha hstep => h.step ha hstep)
    (fun _ _ _ h hstep hu => h.yields hstep hu) recorded_boot

/-- A thread waits, and another one binds a port. Or the thread is woken, and another one takes its
    event, so that it goes to sleep again. -/
theorem set_port_strands_waiter :
    (∃ s, run step boot [.wait 1, .call (.setPort 0 7 1)] = some s ∧ s.phase 1 = .asleep ∧
      ¬ s.AllWakeable) ∧
    ∃ s t, run step boot [.wait 1, .call (.trigger 1), .wait 2] = some s ∧ ¬ s.AllWakeable ∧
      s.step (.wait 1) = some t ∧ t.phase 1 = .asleep := by
  constructor
  · have hrun : ∃ s ∈ run step boot [.wait 1, .call (.setPort 0 7 1)],
        s.phase 1 = .asleep ∧ s.handle.waiter = .port 0 7 := by decide
    obtain ⟨s, hs, hasleep, hport⟩ := hrun
    refine ⟨s, hs, hasleep, fun h => ?_⟩
    have hwaiter := (h.wakeable 1 hasleep).recorded
    rw [hport] at hwaiter
    cases hwaiter
  · have hrun : ∃ s ∈ run step boot [.wait 1, .call (.trigger 1), .wait 2],
        s.phase 1 = .woken ∧ (s.handle.wait 1).1 = .registered ∧
          ∃ t ∈ s.step (.wait 1), t.phase 1 = .asleep := by decide
    obtain ⟨s, hs, hwoken, hwait, t, ht, hasleep⟩ := hrun
    refine ⟨s, t, hs, fun h => ?_, ht, hasleep⟩
    rw [h.returns 1 hwoken] at hwait
    cases hwait

end InterruptThreads

end Fioxa
