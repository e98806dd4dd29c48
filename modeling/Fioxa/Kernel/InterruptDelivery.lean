import Fioxa.Kernel.Interrupt
import Fioxa.Lib.Between

/-! # Delivery of interrupts

What a sequence of calls on one interrupt handle does to the ports that are bound to it. Events are
logged, newest first: the calls, and after each call the notifications it has pushed.

`trigger` does not set `waiting_ack` when it notifies the port, so that the next trigger is
delivered although nobody has acknowledged the first one. Nothing but `wait` clears `pending`, so
that an event which has been delivered by `set_port` or `ack` is delivered again by every later
`ack`. And `ack` sets `waiting_ack` when an event is pending and nobody is there to be told; a port
that is bound then hears nothing until the next `ack`.

So it all depends on what has been called before the first `set_port`: only `ack`, then the handle
is `opened` and delivers triggers; or `trigger` as well, then it is `armed` and delivers at each
`ack`. -/

namespace Fioxa

open List KInterruptHandle Lts Between

inductive InterruptCall where
  | trigger (now : BitVec 64)
  | setPort (p : PortRef) (key now : BitVec 64)
  | ack (now : BitVec 64)
  deriving DecidableEq

namespace InterruptCall

@[simp] def isTrigger : InterruptCall → Bool
  | trigger _ => true
  | _ => false

@[simp] def isAck : InterruptCall → Bool
  | ack _ => true
  | _ => false

@[simp] def isSetPort : InterruptCall → Bool
  | setPort _ _ _ => true
  | _ => false

/-- An `ack` has come after the first trigger. -/
def ackedEarly (calls : List InterruptCall) : Bool :=
  (calls.dropWhile fun c => !c.isTrigger).any isAck

end InterruptCall

def KInterruptHandle.call (this : KInterruptHandle) : InterruptCall → KInterruptHandle × List Notice
  | .trigger now => this.trigger now
  | .setPort p key now => this.setPort p key now
  | .ack now => this.ack now

inductive InterruptEvent where
  | called (c : InterruptCall)
  | pushed (p : PortRef) (notif : PortNotification)
  deriving DecidableEq

namespace InterruptEvent

@[simp] def isTrigger : InterruptEvent → Bool
  | called c => c.isTrigger
  | _ => false

@[simp] def isAck : InterruptEvent → Bool
  | called c => c.isAck
  | _ => false

@[simp] def isSetPort : InterruptEvent → Bool
  | called c => c.isSetPort
  | _ => false

@[simp] def isPushed : InterruptEvent → Bool
  | pushed _ _ => true
  | _ => false

/-- The notification that a notice pushes to a port. -/
def ofNotice : Notice → Option InterruptEvent
  | .wake _ => none
  | .notify p notif => some (.pushed p notif)

/-! ## Logs -/

/-- Every notification has been acknowledged since. -/
def AllAcked (log : List InterruptEvent) : Prop := Preceded isPushed isAck log

/-- Between any two notifications there is a call of `ack`. -/
def Acknowledged (log : List InterruptEvent) : Prop := Separated isPushed isAck log

/-- A trigger that came when a port was bound has been followed by a notification. -/
def Served (log : List InterruptEvent) : Prop :=
  ∀ later e earlier, log = later ++ e :: earlier → e.isTrigger = true →
    (∃ b ∈ earlier, b.isSetPort = true) → ∃ n ∈ later, n.isPushed = true

instance (log : List InterruptEvent) : Decidable (AllAcked log) :=
  inferInstanceAs (Decidable (Preceded _ _ _))

instance (log : List InterruptEvent) : Decidable (Acknowledged log) :=
  inferInstanceAs (Decidable (Separated _ _ _))

variable {log : List InterruptEvent} {c : InterruptCall} {p : PortRef} {notif : PortNotification}

theorem allAcked_called : AllAcked (.called c :: log) ↔ c.isAck = true ∨ AllAcked log :=
  preceded_cons.trans (and_iff_right rfl)

theorem not_allAcked_pushed : ¬ AllAcked (.pushed p notif :: log) := by
  intro h
  cases (preceded_cons.1 h).1

theorem acknowledged_called : Acknowledged (.called c :: log) ↔ Acknowledged log :=
  separated_cons.trans (and_iff_right Bool.noConfusion)

theorem acknowledged_pushed :
    Acknowledged (.pushed p notif :: log) ↔ AllAcked log ∧ Acknowledged log :=
  separated_cons.trans (and_congr_left fun _ => forall_prop_of_true rfl)

theorem served_of_unbound (h : ∀ b ∈ log, b.isSetPort = false) : Served log := by
  rintro later x earlier rfl hx ⟨b, hb, hset⟩
  rw [h b (by simp [hb])] at hset
  cases hset

theorem served_pushed : Served (.pushed p notif :: log) := by
  intro later x earlier hlog hx _
  cases later with
  | nil =>
    cases hlog
    cases hx
  | cons =>
    cases hlog
    exact ⟨_, .head _, rfl⟩

theorem served_called : Served (.called c :: log) ↔
    (c.isTrigger = true → ∀ b ∈ log, b.isSetPort = false) ∧ Served log := by
  constructor
  · intro h
    refine ⟨fun hc b hb => ?_, fun later x earlier hlog hx hbound => ?_⟩
    · by_contra hset
      obtain ⟨n, hn, -⟩ := h [] _ log rfl hc ⟨b, hb, Bool.not_eq_false _ ▸ hset⟩
      cases hn
    · obtain ⟨n, hn, hpushed⟩ := h (.called c :: later) x earlier (congrArg _ hlog) hx hbound
      rcases mem_cons.1 hn with rfl | hn
      · cases hpushed
      · exact ⟨n, hn, hpushed⟩
  · rintro ⟨hfirst, h⟩ later x earlier hlog hx ⟨b, hb, hset⟩
    cases later with
    | nil =>
      cases hlog
      rw [hfirst hx b hb] at hset
      cases hset
    | cons y later =>
      cases hlog
      obtain ⟨n, hn, hpushed⟩ := h later x earlier rfl hx ⟨b, hb, hset⟩
      exact ⟨n, .tail _ hn, hpushed⟩

end InterruptEvent

/-- A handle and what has happened to it. -/
structure InterruptLog where
  handle : KInterruptHandle
  log : List InterruptEvent
  deriving DecidableEq

namespace InterruptLog

open InterruptEvent

def new : InterruptLog := ⟨.new, []⟩

def step (s : InterruptLog) (c : InterruptCall) : Option InterruptLog :=
  let (handle, notices) := s.handle.call c
  some ⟨handle, notices.reverse.filterMap ofNotice ++ .called c :: s.log⟩

/-- There are no more notifications than triggers; and once all notifications are acknowledged,
    every trigger that came when a port was bound has been followed by a notification. -/
structure Faithful (s : InterruptLog) : Prop where
  count : s.log.countP isPushed ≤ s.log.countP isTrigger
  served : AllAcked s.log → Served s.log

/-! ## Before and after the first `set_port` -/

variable {s : InterruptLog} {c : InterruptCall} {calls pre post : List InterruptCall}
  {log : List InterruptEvent} {p : PortRef} {key now : BitVec 64} {P : InterruptLog → Prop}

/-- The handle of a port that was bound before the first trigger. -/
def opened (p : PortRef) (key : BitVec 64) : KInterruptHandle := ⟨false, false, .port p key⟩

/-- The handle of a port that was bound after a trigger. -/
def armed (p : PortRef) (key : BitVec 64) : KInterruptHandle := ⟨true, true, .port p key⟩

theorem step_opened_trigger : step ⟨opened p key, log⟩ (.trigger now) = some ⟨opened p key,
    .pushed p ⟨key, .interrupt now⟩ :: .called (.trigger now) :: log⟩ := rfl

theorem step_opened_setPort {q : PortRef} {k : BitVec 64} :
    step ⟨opened p key, log⟩ (.setPort q k now)
      = some ⟨opened q k, .called (.setPort q k now) :: log⟩ := rfl

theorem step_opened_ack : step ⟨opened p key, log⟩ (.ack now)
    = some ⟨opened p key, .called (.ack now) :: log⟩ := rfl

theorem step_armed_trigger : step ⟨armed p key, log⟩ (.trigger now)
    = some ⟨armed p key, .called (.trigger now) :: log⟩ := rfl

theorem step_armed_setPort {q : PortRef} {k : BitVec 64} :
    step ⟨armed p key, log⟩ (.setPort q k now)
      = some ⟨armed q k, .called (.setPort q k now) :: log⟩ := rfl

theorem step_armed_ack : step ⟨armed p key, log⟩ (.ack now) = some ⟨armed p key,
    .pushed p ⟨key, .interrupt now⟩ :: .called (.ack now) :: log⟩ := rfl

/-- The log of calls that tell nobody. -/
def logOf (calls : List InterruptCall) : List InterruptEvent := (calls.map .called).reverse

theorem logOf_cons : logOf (c :: calls) = logOf calls ++ [.called c] := by
  rw [logOf, map_cons, reverse_cons, logOf]

theorem mem_logOf {e : InterruptEvent} : e ∈ logOf calls ↔ ∃ c ∈ calls, .called c = e := by
  rw [logOf, mem_reverse, mem_map]

theorem countP_logOf : (logOf calls).countP isTrigger = calls.countP InterruptCall.isTrigger := by
  rw [logOf, countP_reverse, countP_map]
  rfl

/-- After a trigger without a port, only `ack` changes something. -/
theorem run_pending {w : Bool} (h : ∀ c ∈ pre, c.isSetPort = false) :
    run step ⟨⟨w, true, .none⟩, log⟩ pre
      = some ⟨⟨w || pre.any InterruptCall.isAck, true, .none⟩, logOf pre ++ log⟩ := by
  induction pre generalizing w log with
  | nil => rw [any_nil, Bool.or_false]; rfl
  | cons c pre ih =>
    obtain ⟨hc, hpre⟩ := forall_mem_cons.1 h
    rw [logOf_cons, append_assoc, any_cons, ← Bool.or_assoc]
    cases c with
    | trigger now =>
      rw [show (InterruptCall.trigger now).isAck = false from rfl, Bool.or_false]
      exact ih hpre
    | setPort => cases hc
    | ack now =>
      rw [show (InterruptCall.ack now).isAck = true from rfl, Bool.or_true]
      exact ih hpre

theorem run_unbound (h : ∀ c ∈ pre, c.isSetPort = false) :
    run step ⟨.new, log⟩ pre = some ⟨⟨InterruptCall.ackedEarly pre,
      pre.any InterruptCall.isTrigger, .none⟩, logOf pre ++ log⟩ := by
  induction pre generalizing log with
  | nil => rfl
  | cons c pre ih =>
    obtain ⟨hc, hpre⟩ := forall_mem_cons.1 h
    rw [logOf_cons, append_assoc]
    cases c with
    | trigger => exact run_pending hpre
    | setPort => cases hc
    | ack => exact ih hpre

/-- Nobody has been told, and no port has been bound. -/
def Quiet (s : InterruptLog) : Prop :=
  s.handle.waiter = .none ∧ ∀ e ∈ s.log, e.isPushed = false ∧ e.isSetPort = false

theorem always_unbound (hP : ∀ s, s.Quiet → P s) (h : ∀ c ∈ calls, c.isSetPort = false) :
    Always step P new calls := by
  refine always_of_guarded (C := fun _ c => c.isSetPort = false) hP ?_
    ⟨rfl, by simp [new]⟩ (guarded_of_forall (fun _ => h) new)
  rintro ⟨⟨w, pending, waiter⟩, log⟩ c t ⟨rfl, hlog⟩ hc ht
  have hquiet : ∀ w pending, Quiet ⟨⟨w, pending, .none⟩, .called c :: log⟩ :=
    fun w pending => ⟨rfl, forall_mem_cons.2 ⟨⟨rfl, hc⟩, hlog⟩⟩
  cases c with
  | trigger => cases w <;> cases pending <;> cases ht <;> exact hquiet _ _
  | setPort => cases hc
  | ack => cases pending <;> cases ht <;> exact hquiet _ _

/-- The state after the first `set_port`. -/
def firstBound (pre : List InterruptCall) (p : PortRef) (key now : BitVec 64) : InterruptLog :=
  let log := .called (.setPort p key now) :: logOf pre
  if pre.any InterruptCall.isTrigger then
    if InterruptCall.ackedEarly pre then ⟨armed p key, log⟩
    else ⟨armed p key, .pushed p ⟨key, .interrupt now⟩ :: log⟩
  else ⟨opened p key, log⟩

theorem ackedEarly_of_none (h : pre.any InterruptCall.isTrigger = false) :
    InterruptCall.ackedEarly pre = false := by
  induction pre with
  | nil => rfl
  | cons c pre ih =>
    rw [any_cons, Bool.or_eq_false_iff] at h
    cases c with
    | trigger => cases h.1
    | setPort | ack => exact ih h.2

theorem exists_firstBound (p : PortRef) (key now : BitVec 64)
    (h : ∀ c ∈ pre, c.isSetPort = false) : ∃ s,
    run step new pre = some s ∧ step s (.setPort p key now) = some (firstBound pre p key now) := by
  refine ⟨_, run_unbound h, ?_⟩
  rw [append_nil, firstBound]
  cases htrigger : pre.any InterruptCall.isTrigger with
  | false =>
    rw [ackedEarly_of_none htrigger]
    rfl
  | true => cases InterruptCall.ackedEarly pre <;> rfl

/-- What holds as long as nobody is told holds throughout a sequence of calls exactly if it does so
    from the first `set_port` on. -/
theorem always_iff_firstBound (hP : ∀ s, s.Quiet → P s) : Always step P new calls ↔
    ∀ pre p key now post, calls = pre ++ .setPort p key now :: post →
      (∀ c ∈ pre, c.isSetPort = false) → Always step P (firstBound pre p key now) post := by
  constructor
  · rintro hall pre p key now post rfl hpre
    obtain ⟨s, hs, hbound⟩ := exists_firstBound p key now hpre
    exact ((always_cons_of hbound).1 (hall.drop hs)).2
  · intro hall
    rcases exists_first InterruptCall.isSetPort calls with hnone | ⟨pre, b, post, rfl, hb, hpre⟩
    · exact always_unbound hP hnone
    · cases b with
      | trigger | ack => cases hb
      | setPort p key now =>
        have hbefore := always_unbound hP hpre
        obtain ⟨s, hs, hbound⟩ := exists_firstBound p key now hpre
        refine hbefore.append fun t ht => ?_
        obtain rfl := Option.some.inj (hs.symm.trans ht)
        exact (always_cons_of hbound).2 ⟨hbefore.last ht, hall pre p key now post rfl hpre⟩

theorem Quiet.allAcked (h : s.Quiet) : AllAcked s.log :=
  preceded_of_forall fun e he => (h.2 e he).1

theorem Quiet.acknowledged (h : s.Quiet) : Acknowledged s.log := by
  intro later e between e' earlier hlog he
  rw [(h.2 e (hlog ▸ by simp)).1] at he
  cases he

theorem Quiet.served (h : s.Quiet) : Served s.log := served_of_unbound fun e he => (h.2 e he).2

theorem Quiet.countP_eq_zero (h : s.Quiet) : s.log.countP isPushed = 0 :=
  List.countP_eq_zero.2 fun e he => ne_true_of_eq_false (h.2 e he).1

theorem quiet_logOf (h : ∀ c ∈ pre, c.isSetPort = false) : Quiet ⟨.new, logOf pre⟩ := by
  refine ⟨rfl, fun e he => ?_⟩
  obtain ⟨c, hc, rfl⟩ := mem_logOf.1 he
  exact ⟨rfl, h c hc⟩

/-! ## No delivery before an acknowledgement -/

/-- If the first port is bound before the first trigger, there is an `ack` between any two
    triggers. -/
def Patient (calls : List InterruptCall) : Prop :=
  ∀ pre p key now post, calls = pre ++ .setPort p key now :: post →
    (∀ c ∈ pre, c.isSetPort = false) → pre.any InterruptCall.isTrigger = false →
    Separated InterruptCall.isTrigger InterruptCall.isAck post

theorem always_acknowledged_armed (h : Acknowledged log) :
    Always step (fun s => Acknowledged s.log) ⟨armed p key, log⟩ calls := by
  induction calls generalizing p key log with
  | nil => exact h
  | cons c calls ih =>
    have hcalled : Acknowledged (.called c :: log) := acknowledged_called.2 h
    cases c with
    | trigger => exact (always_cons_of step_armed_trigger).2 ⟨h, ih hcalled⟩
    | setPort => exact (always_cons_of step_armed_setPort).2 ⟨h, ih hcalled⟩
    | ack now =>
      have hacked : AllAcked (.called (.ack now) :: log) := allAcked_called.2 (.inl rfl)
      exact (always_cons_of step_armed_ack).2 ⟨h, ih (acknowledged_pushed.2 ⟨hacked, hcalled⟩)⟩

/-- Where triggers are delivered, an `ack` has to come before the next one. -/
theorem always_acknowledged_opened (h : Acknowledged log) :
    Always step (fun s => Acknowledged s.log) ⟨opened p key, log⟩ calls ↔
      (AllAcked log ∨ Preceded InterruptCall.isTrigger InterruptCall.isAck calls) ∧
        Separated InterruptCall.isTrigger InterruptCall.isAck calls := by
  induction calls generalizing p key log with
  | nil => exact iff_of_true h ⟨.inr (preceded_of_forall (by simp)), separated_nil⟩
  | cons c calls ih =>
    have hcalled : Acknowledged (.called c :: log) := acknowledged_called.2 h
    rw [preceded_cons, separated_cons]
    cases c with
    | trigger now =>
      rw [always_cons_of step_opened_trigger]
      by_cases hacked : AllAcked log
      · have hacked' := allAcked_called (c := .trigger now) |>.2 (.inr hacked)
        rw [ih (acknowledged_pushed.2 ⟨hacked', hcalled⟩)]
        simp [h, hacked, not_allAcked_pushed, InterruptCall.isTrigger]
      · refine iff_of_false ?_ ?_
        · rintro ⟨-, hall⟩
          have hacked' := (acknowledged_pushed.1 hall.head).1
          exact hacked ((allAcked_called.1 hacked').resolve_left Bool.noConfusion)
        · simp [hacked, InterruptCall.isTrigger]
    | setPort =>
      rw [always_cons_of step_opened_setPort, ih hcalled, allAcked_called]
      simp [h, InterruptCall.isTrigger, InterruptCall.isAck]
    | ack =>
      rw [always_cons_of step_opened_ack, ih hcalled, allAcked_called]
      simp [h, InterruptCall.isTrigger, InterruptCall.isAck]

/-- A handle keeps to the rule of its field `pending` exactly if no port is bound before the first
    trigger, or there is an `ack` between any two triggers. -/
theorem acknowledged_between_iff (calls : List InterruptCall) :
    Always step (fun s => Acknowledged s.log) new calls ↔ Patient calls := by
  rw [always_iff_firstBound fun s hs => hs.acknowledged]
  refine forall₅_congr fun pre p key now post => forall₂_congr fun _ hpre => ?_
  have hquiet := quiet_logOf hpre
  have hcalled : Acknowledged (.called (.setPort p key now) :: logOf pre) :=
    acknowledged_called.2 hquiet.acknowledged
  have hacked : AllAcked (.called (.setPort p key now) :: logOf pre) :=
    allAcked_called.2 (.inr hquiet.allAcked)
  rw [firstBound]
  split
  · rename_i htrigger
    refine iff_of_true ?_ (by simp [htrigger])
    split
    · exact always_acknowledged_armed hcalled
    · exact always_acknowledged_armed (acknowledged_pushed.2 ⟨hacked, hcalled⟩)
  · rename_i hnone
    rw [always_acknowledged_opened hcalled, forall_prop_of_true (Bool.not_eq_true _ ▸ hnone)]
    exact and_iff_right (.inl hacked)

/-- Two interrupts in a row are delivered, although the first one has not been acknowledged. -/
theorem second_trigger_delivered :
    ∃ s, run step new [.setPort 0 7 1, .trigger 2, .trigger 3] = some s ∧
      ¬ Acknowledged s.log := by
  have hrun : ∃ s ∈ run step new [.setPort 0 7 1, .trigger 2, .trigger 3],
      ¬ Acknowledged s.log := by decide
  exact hrun

/-! ## No event is invented or lost -/

/-- If the first port is bound after a trigger, then the notifications of `set_port` and of the
    calls of `ack` after it are covered by triggers at all times; and if an `ack` has come between
    the first trigger and `set_port`, there is another one before the next trigger. -/
def Sparing (calls : List InterruptCall) : Prop :=
  ∀ pre p key now post, calls = pre ++ .setPort p key now :: post →
    (∀ c ∈ pre, c.isSetPort = false) → pre.any InterruptCall.isTrigger = true →
    if InterruptCall.ackedEarly pre then
      Preceded InterruptCall.isTrigger InterruptCall.isAck post ∧
        ∀ mid, mid <+: post →
          mid.countP InterruptCall.isAck ≤ (pre ++ mid).countP InterruptCall.isTrigger
    else ∀ mid, mid <+: post →
      mid.countP InterruptCall.isAck + 1 ≤ (pre ++ mid).countP InterruptCall.isTrigger

theorem always_faithful_opened (hcount : log.countP isPushed ≤ log.countP isTrigger)
    (hserved : Served log) : Always step Faithful ⟨opened p key, log⟩ calls := by
  induction calls generalizing p key log with
  | nil => exact ⟨hcount, fun _ => hserved⟩
  | cons c calls ih =>
    have h : Faithful ⟨opened p key, log⟩ := ⟨hcount, fun _ => hserved⟩
    have hserved' : c.isTrigger = false → Served (.called c :: log) :=
      fun hc => served_called.2 ⟨fun h => absurd h (ne_true_of_eq_false hc), hserved⟩
    cases c with
    | trigger =>
      refine (always_cons_of step_opened_trigger).2 ⟨h, ih ?_ served_pushed⟩
      simpa [countP_cons] using hcount
    | setPort =>
      refine (always_cons_of step_opened_setPort).2 ⟨h, ih ?_ (hserved' rfl)⟩
      simpa [countP_cons] using hcount
    | ack =>
      refine (always_cons_of step_opened_ack).2 ⟨h, ih ?_ (hserved' rfl)⟩
      simpa [countP_cons] using hcount

/-- Once somebody has been told, there is always a notification to be acknowledged, and each `ack`
    pushes the next one. -/
theorem always_faithful_told (hcount : log.countP isPushed ≤ log.countP isTrigger)
    (hacked : ¬ AllAcked log) :
    Always step Faithful ⟨armed p key, log⟩ calls ↔ ∀ mid, mid <+: calls →
      log.countP isPushed + mid.countP InterruptCall.isAck
        ≤ log.countP isTrigger + mid.countP InterruptCall.isTrigger := by
  induction calls generalizing p key log with
  | nil =>
    refine iff_of_true ⟨hcount, fun h => absurd h hacked⟩ fun mid hmid => ?_
    rw [prefix_nil.1 hmid]
    exact hcount
  | cons c calls ih =>
    have h : Faithful ⟨armed p key, log⟩ := ⟨hcount, fun h => absurd h hacked⟩
    have hacked' : c.isAck = false → ¬ AllAcked (.called c :: log) := by
      intro hc h
      exact hacked ((allAcked_called.1 h).resolve_left (ne_true_of_eq_false hc))
    rw [forall_prefix_cons]
    cases c with
    | trigger =>
      rw [always_cons_of step_armed_trigger, ih (by simp [countP_cons]; omega) (hacked' rfl)]
      refine and_congr (iff_of_true h hcount) (forall₂_congr fun mid _ => ?_)
      simp [countP_cons]
      omega
    | setPort =>
      rw [always_cons_of step_armed_setPort, ih (by simpa [countP_cons] using hcount) (hacked' rfl)]
      refine and_congr (iff_of_true h hcount) (forall₂_congr fun mid _ => ?_)
      simp
    | ack =>
      rw [always_cons_of step_armed_ack]
      refine and_congr (iff_of_true h hcount) ?_
      by_cases hlt : log.countP isPushed + 1 ≤ log.countP isTrigger
      · rw [ih (by simpa [countP_cons] using hlt) not_allAcked_pushed]
        refine forall₂_congr fun mid _ => ?_
        simp [countP_cons]
        omega
      · refine iff_of_false (fun hall => hlt ?_) fun hall => hlt ?_
        · simpa [countP_cons] using hall.head.count
        · simpa using hall [] nil_prefix

/-- A port that was bound between an `ack` and the next one hears of no trigger before that. -/
theorem always_faithful_silent (hpushed : ∀ e ∈ log, e.isPushed = false) (hserved : Served log)
    (hset : ∃ b ∈ log, b.isSetPort = true) (htrigger : 0 < log.countP isTrigger) :
    Always step Faithful ⟨armed p key, log⟩ calls ↔
      Preceded InterruptCall.isTrigger InterruptCall.isAck calls ∧ ∀ mid, mid <+: calls →
        mid.countP InterruptCall.isAck
          ≤ log.countP isTrigger + mid.countP InterruptCall.isTrigger := by
  induction calls generalizing p key log with
  | nil =>
    refine iff_of_true ⟨?_, fun _ => hserved⟩ ⟨preceded_of_forall (by simp), fun mid hmid => ?_⟩
    · rw [countP_eq_zero.2 fun e he => ne_true_of_eq_false (hpushed e he)]
      exact Nat.zero_le _
    · rw [prefix_nil.1 hmid]
      exact Nat.zero_le _
  | cons c calls ih =>
    have hzero : log.countP isPushed = 0 :=
      countP_eq_zero.2 fun e he => ne_true_of_eq_false (hpushed e he)
    have h : Faithful ⟨armed p key, log⟩ := ⟨by rw [hzero]; exact Nat.zero_le _, fun _ => hserved⟩
    rw [forall_prefix_cons, preceded_cons]
    cases c with
    | trigger now =>
      refine iff_of_false (fun hall => ?_) (by simp)
      have hacked : AllAcked (.called (.trigger now) :: log) :=
        allAcked_called.2 (.inr (preceded_of_forall hpushed))
      obtain ⟨b, hb, hset⟩ := hset
      have hnone := (served_called.1 ((hall.2 _ step_armed_trigger).head.served hacked)).1 rfl
      rw [hnone b hb] at hset
      cases hset
    | setPort =>
      rw [always_cons_of step_armed_setPort, and_iff_right h,
        ih (by simpa using hpushed) (served_called.2 ⟨Bool.noConfusion, hserved⟩) (by simp)
          (by simpa [countP_cons] using htrigger)]
      simp
    | ack =>
      rw [always_cons_of step_armed_ack, and_iff_right h,
        always_faithful_told (by simpa [countP_cons, hzero] using htrigger) not_allAcked_pushed]
      simp [countP_cons, hzero, Nat.add_comm]

/-- In port mode no event is invented or lost exactly if the calls are `Sparing`. -/
theorem events_faithful_iff (calls : List InterruptCall) :
    Always step Faithful new calls ↔ Sparing calls := by
  have hfaithful : ∀ s : InterruptLog, s.Quiet → s.Faithful := fun s hs =>
    ⟨by rw [hs.countP_eq_zero]; exact Nat.zero_le _, fun _ => hs.served⟩
  rw [always_iff_firstBound hfaithful]
  refine forall₅_congr fun pre p key now post => forall₂_congr fun _ hpre => ?_
  have hquiet := quiet_logOf hpre
  have hzero : (logOf pre).countP isPushed = 0 := hquiet.countP_eq_zero
  have hserved : Served (.called (.setPort p key now) :: logOf pre) :=
    served_called.2 ⟨Bool.noConfusion, hquiet.served⟩
  rw [firstBound]
  split
  · rename_i htrigger
    rw [forall_prop_of_true htrigger]
    have hpos : 0 < pre.countP InterruptCall.isTrigger := by
      obtain ⟨c, hc, hct⟩ := any_eq_true.1 htrigger
      exact countP_pos_iff.2 ⟨c, hc, hct⟩
    split
    · rw [always_faithful_silent ?_ hserved ⟨_, .head _, rfl⟩ (by simpa [countP_logOf] using hpos)]
      · simp [countP_logOf]
      · exact forall_mem_cons.2 ⟨rfl, fun e he => (hquiet.2 e he).1⟩
    · rw [always_faithful_told (by simpa [countP_cons, countP_logOf, hzero] using hpos)
        not_allAcked_pushed]
      simp [countP_cons, countP_logOf, hzero, Nat.add_comm]
  · rename_i hnone
    refine iff_of_true (always_faithful_opened ?_ hserved) fun h => absurd h hnone
    simp [hzero]

/-- An event that came before the port was bound is delivered twice. And when an event has been
    acknowledged before the port was bound, the port is not told of the next one. -/
theorem event_repeated_and_lost :
    (∃ s, run step new [.trigger 1, .setPort 0 7 2, .ack 3] = some s ∧ ¬ s.Faithful) ∧
    ∃ s, run step new [.trigger 1, .ack 2, .setPort 0 7 3, .trigger 4] = some s ∧
      ¬ s.Faithful := by
  constructor
  · have hrun : ∃ s ∈ run step new [.trigger 1, .setPort 0 7 2, .ack 3],
        ¬ s.log.countP isPushed ≤ s.log.countP isTrigger := by decide
    obtain ⟨s, hs, hcount⟩ := hrun
    exact ⟨s, hs, fun h => hcount h.count⟩
  · have hrun : ∃ s ∈ run step new [.trigger 1, .ack 2, .setPort 0 7 3, .trigger 4],
        s.log = [.called (.trigger 4), .called (.setPort 0 7 3), .called (.ack 2),
          .called (.trigger 1)] ∧ AllAcked s.log := by decide
    obtain ⟨s, hs, hlog, hacked⟩ := hrun
    refine ⟨s, hs, fun h => ?_⟩
    obtain ⟨n, hn, -⟩ := h.served hacked [] _ _ hlog rfl ⟨.called (.setPort 0 7 3), by simp, rfl⟩
    simp at hn

end InterruptLog

end Fioxa
