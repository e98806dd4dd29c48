import Mathlib.Data.Fintype.Basic
import Fioxa.Lib.Growth
import Fioxa.Kernel.Wakeups

/-! # The blocking read functions of user space

`channel_read_rs`, `channel_read_resize` and `channel_read_val` (`kernel_userspace/src/channel.rs`)
are loops around the `Read` system call: on `Empty` they wait for `READABLE` and try again. Here any
number of threads are inside these loops on one endpoint, while another process writes to the other
endpoint or drops it.

A close raises `CHANNEL_CLOSED` only, which is not in the mask the loops wait with. So a reader that
is asleep, or has seen `Empty` and is about to sleep, when the other end goes away is never woken;
`no_reader_stranded_iff` says that these two schedules are all that can go wrong. -/

namespace Fioxa

open List Function KObjectSignal KChannelInner ObjectSignal

/-- A `Vec` as far as the loops look at it. -/
structure Buffer where
  len : Nat
  cap : Nat
  deriving DecidableEq

inductive ReadFn where
  | rs
  | resize
  /-- `channel_read_val` for a type of `size` bytes. -/
  | val (size : Nat)
  deriving DecidableEq

/-- One call in progress: the function, the record passed to the system call and the caller's
    buffers. -/
structure ReadCall where
  fn : ReadFn
  read : ChannelRead
  data : Buffer
  handles : Buffer
  deriving DecidableEq

/-- The call as the function enters its loop. -/
def ReadFn.start (fn : ReadFn) (data handles : Buffer) : ReadCall :=
  match fn with
  | .rs | .resize => ⟨fn, ⟨data.cap, handles.cap⟩, data, handles⟩
  | .val size => ⟨fn, ⟨size, handles.cap⟩, data, handles⟩

/-- Where a thread stands in one of the read functions. -/
inductive Reader where
  | idle
  /-- About to make the `Read` system call. -/
  | reading (call : ReadCall)
  /-- `Read` said `Empty`; about to call `object_wait(handle, READABLE)`. -/
  | waiting (call : ReadCall)
  /-- Registered on the endpoint, inside `enter_sched`. -/
  | asleep (call : ReadCall)
  | returned (res : ChannelReadResult)
  deriving DecidableEq

/-- `if len > vec.len() { vec.reserve(len - vec.len()) }` -/
def Buffer.growTo (g : Growth) (b : Buffer) (len : Nat) : Buffer :=
  if b.len < len then { b with cap := g.reserve b.len b.cap (len - b.len) } else b

/-- The arms of the three loops after the system call has returned. -/
def ReadCall.next (g : Growth) (call : ReadCall) (res : ChannelReadResult) (out : ChannelRead) :
    Reader :=
  match call.fn, res with
  | .val size, .ok =>
    -- a message of another length is dropped together with its handles
    if out.dataLen = size then .returned .ok else .returned .size
  | _, .ok => .returned .ok
  | _, .empty => .waiting { call with read := out }
  | .resize, .size =>
    .reading (ReadFn.resize.start (call.data.growTo g out.dataLen)
      (call.handles.growTo g out.handlesLen))
  | _, .size => .returned .size
  | _, .closed => .returned .closed

/-! ## The system -/

/-- One endpoint, `n` reading threads, and the process at the other end. -/
structure ReadSystem (n : Nat) where
  chan : KChannelInner
  /-- The other endpoint has not been dropped. -/
  peerAlive : Bool
  listeners : Listeners
  registrations : Nat
  reader : Fin n → Reader

namespace ReadSystem

variable {n : Nat}

/-- A fresh channel; nobody is reading yet. -/
def start (n : Nat) : ReadSystem n where
  chan := .new
  peerAlive := true
  listeners := ⟨fun _ => ⟨[], []⟩, fun _ => .runnable⟩
  registrations := 0
  reader := fun _ => .idle

def setReader (s : ReadSystem n) (i : Fin n) (r : Reader) : ReadSystem n :=
  { s with reader := Function.update s.reader i r }

/-- Store what a lock section left behind and notify those its `set_signal` call fires. -/
def put (s : ReadSystem n) (chan : KChannelInner) : Option SetSignal → ReadSystem n
  | none => { s with chan := chan }
  | some call => { s with chan := chan, listeners := s.listeners.fire call }

/-- The locked section of the `Wait` system call when the status does not meet the mask. -/
def sleepOn (s : ReadSystem n) (i : Fin n) (mask : ObjectSignal) : ReadSystem n :=
  { s with
    chan := { s.chan with signal := s.chan.signal.wait ⟨.one i.val, mask, s.registrations⟩ }
    listeners := { s.listeners with thread := Function.update s.listeners.thread i.val .sleeping }
    registrations := s.registrations + 1 }

inductive Action (n : Nat) where
  /-- Thread `i` calls one of the read functions. -/
  | call (i : Fin n) (fn : ReadFn) (data handles : Buffer)
  | read (i : Fin n)
  | wait (i : Fin n)
  /-- `enter_sched` returns, because the thread has been woken. -/
  | resume (i : Fin n)
  /-- `channel_write_rs` at the other end. -/
  | write (msg : ChannelMessage)
  /-- The last handle to the other end is dropped: the section of `close` on this endpoint. -/
  | close

def step (g : Growth) (s : ReadSystem n) : Action n → Option (ReadSystem n)
  | .call i fn data handles =>
    match s.reader i with
    | .idle | .returned _ => some (s.setReader i (.reading (fn.start data handles)))
    | _ => none
  | .read i =>
    match s.reader i with
    | .reading call =>
      let out := s.chan.sysRead call.read
      some ((s.put out.chan out.call).setReader i (call.next g out.result out.read))
    | _ => none
  | .wait i =>
    match s.reader i with
    | .waiting call =>
      if s.chan.signal.signalStatus.intersects .readable then
        some (s.setReader i (.reading call))
      else some ((s.sleepOn i .readable).setReader i (.asleep call))
    | _ => none
  | .resume i =>
    match s.reader i with
    | .asleep call =>
      if s.listeners.thread i.val = .sleeping then none
      else some (s.setReader i (.reading call))
    | _ => none
  | .write msg =>
    if s.peerAlive then
      match s.chan.send msg with
      | none => some s
      | some (chan, call) => some (s.put chan (some call))
    else none
  | .close =>
    if s.peerAlive then
      let (chan, call) := s.chan.closePeer
      some { s.put chan (some call) with peerAlive := false }
    else none

/-- Thread `i` sleeps inside a read function and has not been woken. -/
def Asleep (s : ReadSystem n) (i : Fin n) : Prop :=
  (∃ call, s.reader i = .asleep call) ∧ s.listeners.thread i.val = .sleeping

/-- The other end has been closed and nothing is left to read. -/
def Drained (s : ReadSystem n) : Prop := s.chan.isOpen = false ∧ s.chan.queue = []

/-- On a closed and drained endpoint no reader is asleep, and one that reads gets `Closed`. -/
def Answered (g : Growth) (s : ReadSystem n) : Prop :=
  s.Drained → ∀ i, ¬ s.Asleep i ∧
    ∀ call, s.reader i = .reading call →
      ∃ t, step g s (.read i) = some t ∧ t.reader i = .returned .closed

/-- The condition on a step: the other end is not closed under a sleeping reader, and no reader goes
    to sleep on an endpoint that is already closed and drained. -/
def Awake (s : ReadSystem n) : Action n → Prop
  | .close => ∀ i, ¬ s.Asleep i
  | .wait _ => ¬ s.Drained
  | _ => True

/-! ## The invariant

A reader that is asleep has a waiter on the endpoint, all waiters ask for `READABLE`, and no stored
waiter is satisfied. Hence nobody is asleep while something is queued. -/

structure Inv (s : ReadSystem n) : Prop where
  coherent : s.chan.Coherent
  quiet : s.chan.signal.Quiet
  masks : ∀ w ∈ s.chan.signal.signalWaiters, w.mask = .readable
  stored : ∀ i, s.Asleep i → ∃ w ∈ s.chan.signal.signalWaiters, w.ty = .one i.val

theorem inv_start (n : Nat) : (start n).Inv where
  coherent := coherent_new
  quiet := quiet_new
  masks := fun w hw => absurd hw (by simp [start, KChannelInner.new, KObjectSignal.new])
  stored := fun i hi => absurd hi.2 (by simp [start])

variable {s : ReadSystem n}

theorem Inv.status (hi : s.Inv) :
    s.chan.signal.signalStatus.intersects .readable = !s.chan.queue.isEmpty := by
  rw [intersects_readable, hi.coherent.readable]

variable {i : Fin n}

theorem Inv.queue_of_asleep (hi : s.Inv) (h : s.Asleep i) : s.chan.queue = [] := by
  obtain ⟨w, hw, -⟩ := hi.stored i h
  have hquiet : s.chan.signal.signalStatus.intersects w.mask = false := hi.quiet w hw
  rw [hi.masks w hw, hi.status] at hquiet
  simpa using hquiet

theorem asleep_of_put {chan : KChannelInner} {call : Option SetSignal}
    (h : (s.put chan call).Asleep i) : s.Asleep i := by
  cases call with
  | none => exact h
  | some call =>
    refine ⟨h.1, Decidable.of_not_not fun hne => ?_⟩
    exact Listeners.foldl_fireOne_mono call.new call.fired s.listeners hne h.2

theorem asleep_of_setReader {j : Fin n} {r : Reader} (hr : ∀ call, r ≠ .asleep call)
    (h : (s.setReader i r).Asleep j) : s.Asleep j := by
  obtain ⟨⟨call, hcall⟩, hthread⟩ := h
  refine ⟨⟨call, ?_⟩, hthread⟩
  by_cases hji : j = i
  · subst hji
    simp only [setReader, update_self] at hcall
    exact absurd hcall (hr call)
  · simpa only [setReader, update_of_ne hji] using hcall

theorem Inv.setReader (hi : s.Inv) (i : Fin n) {r : Reader} (hr : ∀ call, r ≠ .asleep call) :
    (s.setReader i r).Inv where
  coherent := hi.coherent
  quiet := hi.quiet
  masks := hi.masks
  stored := fun j hj => hi.stored j (asleep_of_setReader hr hj)

/-- A section that makes one `set_signal` call keeps the invariant: a sleeper whose waiter fires is
    no longer asleep. -/
theorem Inv.put (hi : s.Inv) {chan : KChannelInner} {flag : ObjectSignal} {status : Bool}
    (hsig : chan.signal = (s.chan.signal.setSignal flag status).signal) (hc : chan.Coherent) :
    (s.put chan (some (s.chan.signal.setSignal flag status))).Inv := by
  obtain ⟨hfired, hkept⟩ := hi.quiet.setSignal_fired flag status
  refine ⟨hc, ?_, ?_, ?_⟩
  · show chan.signal.Quiet
    rw [hsig]
    exact hi.quiet.setSignal flag status
  · intro w hw
    replace hw : w ∈ chan.signal.signalWaiters := hw
    rw [hsig, hkept] at hw
    exact hi.masks w (mem_of_mem_filter hw)
  · intro i h
    obtain ⟨w, hw, hty⟩ := hi.stored i (asleep_of_put h)
    cases hhit : hits (s.chan.signal.newStatus flag status) w with
    | true =>
      have hmem : w ∈ (s.chan.signal.setSignal flag status).fired := by
        rw [hfired]
        exact mem_filter.2 ⟨hw, hhit⟩
      exact absurd h.2 (Listeners.fire_awake s.listeners hmem hty)
    | false =>
      refine ⟨w, ?_, hty⟩
      show w ∈ chan.signal.signalWaiters
      rw [hsig, hkept]
      exact mem_filter.2 ⟨hw, by rw [hhit]; rfl⟩

theorem Inv.sleepOn (hi : s.Inv) (i : Fin n) (call : ReadCall)
    (hq : s.chan.signal.signalStatus.intersects .readable = false) :
    ((s.sleepOn i .readable).setReader i (.asleep call)).Inv where
  coherent := ⟨hi.coherent.readable, hi.coherent.closed⟩
  quiet := hi.quiet.wait hq
  masks := by
    intro w hw
    simp only [ReadSystem.setReader, ReadSystem.sleepOn, KObjectSignal.wait, mem_append,
      mem_singleton] at hw
    rcases hw with hw | rfl
    · exact hi.masks w hw
    · rfl
  stored := by
    rintro j ⟨⟨call', hj⟩, hthread⟩
    simp only [ReadSystem.setReader, ReadSystem.sleepOn, KObjectSignal.wait] at hj hthread ⊢
    by_cases hji : j = i
    · subst hji
      exact ⟨_, mem_append_right _ (mem_singleton_self _), rfl⟩
    · rw [update_of_ne hji] at hj
      rw [update_of_ne (fun h => hji (Fin.ext h))] at hthread
      obtain ⟨w, hw, hty⟩ := hi.stored j ⟨⟨call', hj⟩, hthread⟩
      exact ⟨w, mem_append_left _ hw, hty⟩

/-! ## Steps -/

theorem next_ne_asleep (g : Growth) (call : ReadCall) (res : ChannelReadResult)
    (out : ChannelRead) : ∀ c, call.next g res out ≠ .asleep c := by
  intro c
  unfold ReadCall.next
  split
  · split <;> simp
  all_goals simp

/-- What a step does, with the conditions it is taken under. -/
inductive Change (s : ReadSystem n) : Action n → ReadSystem n → Prop where
  /-- A reader moves on; the endpoint is not touched. -/
  | reader (a i r) (hr : ∀ call, r ≠ .asleep call) :
      Change s a (s.setReader i r)
  | take (i packet rest r) (hq : s.chan.queue = packet :: rest) (hr : ∀ call, r ≠ .asleep call) :
      Change s (.read i) ((s.put
        ⟨(s.chan.signal.setSignal .readable (!rest.isEmpty)).signal, s.chan.isOpen, rest⟩
        (some (s.chan.signal.setSignal .readable (!rest.isEmpty)))).setReader i r)
  | sleep (i call) (hquiet : s.chan.signal.signalStatus.intersects .readable = false) :
      Change s (.wait i) ((s.sleepOn i .readable).setReader i (.asleep call))
  | refused (msg) : Change s (.write msg) s
  | write (msg chan call) (hsend : s.chan.send msg = some (chan, call)) :
      Change s (.write msg) (s.put chan (some call))
  | close : Change s .close
      { s.put s.chan.closePeer.1 (some s.chan.closePeer.2) with peerAlive := false }

variable {t : ReadSystem n} {a : Action n}

theorem change_of_step {g : Growth} (h : step g s a = some t) : Change s a t := by
  cases a with
  | call i =>
    simp only [step] at h
    split at h
    · cases h
      exact .reader _ i _ (by simp)
    · cases h
      exact .reader _ i _ (by simp)
    · cases h
  | read i =>
    simp only [step] at h
    split at h
    · next call hcall =>
      cases h
      rcases s.chan.sysRead_cases call.read with ⟨-, hr⟩ | ⟨_, _, -, -, hr⟩ |
        ⟨packet, rest, hq, -, hr⟩
      · rw [hr]; exact .reader _ i _ (next_ne_asleep g call _ _)
      · rw [hr]; exact .reader _ i _ (next_ne_asleep g call _ _)
      · rw [hr]; exact .take i packet rest _ hq (next_ne_asleep g call _ _)
    · cases h
  | wait i =>
    simp only [step] at h
    split at h
    · next call hcall =>
      split at h
      · cases h
        exact .reader _ i _ (by simp)
      · next hq =>
        cases h
        exact .sleep i call (by simpa using hq)
    · cases h
  | resume i =>
    simp only [step] at h
    split at h
    · split at h
      · cases h
      · cases h
        exact .reader _ i _ (by simp)
    · cases h
  | write msg =>
    simp only [step] at h
    split at h
    · split at h
      · exact Option.some.inj h ▸ .refused msg
      · next chan call hsend =>
        cases h
        exact .write msg chan call hsend
    · cases h
  | close =>
    simp only [step] at h
    split at h
    · cases h
      exact .close
    · cases h

theorem Inv.change (hi : s.Inv) (m : Change s a t) : t.Inv := by
  cases m with
  | reader _ i r hr => exact hi.setReader i hr
  | take i packet rest r hq hr => exact (hi.put rfl (hi.coherent.take rest)).setReader i hr
  | sleep i call hquiet => exact hi.sleepOn i call hquiet
  | refused => exact hi
  | write msg chan call hsend =>
    have hc := hi.coherent.send hsend
    obtain ⟨-, -, rfl, rfl⟩ := send_eq_some hsend
    exact hi.put rfl hc
  | close =>
    have hput : (s.put s.chan.closePeer.1 (some s.chan.closePeer.2)).Inv :=
      hi.put rfl hi.coherent.closePeer
    exact ⟨hput.coherent, hput.quiet, hput.masks, hput.stored⟩

/-! ## Who is left asleep -/

/-- No reader sleeps on a closed and drained endpoint. -/
def NoneStranded (s : ReadSystem n) : Prop := s.Drained → ∀ i, ¬ s.Asleep i

theorem answered_iff (g : Growth) (s : ReadSystem n) : s.Answered g ↔ s.NoneStranded := by
  refine ⟨fun h hd i => (h hd i).1, fun h hd i => ⟨h hd i, fun call hcall => ?_⟩⟩
  have hres : s.chan.sysRead call.read = ⟨.closed, call.read, none, s.chan, none⟩ := by
    rcases s.chan.sysRead_cases call.read with ⟨-, hr⟩ | ⟨_, _, hq, -, -⟩ | ⟨_, _, hq, -, -⟩
    · rw [hr, hd.1]; rfl
    · rw [hd.2] at hq; cases hq
    · rw [hd.2] at hq; cases hq
  refine ⟨(s.put s.chan none).setReader i (.returned .closed), ?_, by simp [setReader]⟩
  have hnext : call.next g .closed call.read = .returned .closed := by
    unfold ReadCall.next
    cases call.fn <;> rfl
  simp only [step, hcall, hres, hnext]

theorem NoneStranded.change (hi : s.Inv) (hn : s.NoneStranded) (hawake : s.Awake a)
    (m : Change s a t) : t.NoneStranded := by
  intro hd j hj
  cases m with
  | reader _ i r hr => exact hn hd j (asleep_of_setReader hr hj)
  | take i packet rest r hq hr =>
    -- while something is queued nobody is asleep
    have hq' := hi.queue_of_asleep (asleep_of_put (asleep_of_setReader hr hj))
    rw [hq] at hq'
    cases hq'
  | sleep => exact hawake hd
  | refused => exact hn hd j hj
  | write msg chan call hsend =>
    obtain ⟨hopen, -, -, rfl⟩ := send_eq_some hsend
    exact absurd (hopen.symm.trans hd.1) (by simp)
  | close =>
    have hput : (s.put s.chan.closePeer.1 (some s.chan.closePeer.2)).Asleep j := hj
    exact hawake j (asleep_of_put hput)

theorem asleep_closePeer (hi : s.Inv) (h : s.Asleep i) :
    (s.put s.chan.closePeer.1 (some s.chan.closePeer.2)).Asleep i := by
  have hfired : s.chan.closePeer.2.fired = [] := by
    show (s.chan.signal.setSignal .channelClosed true).fired = []
    rw [(hi.quiet.setSignal_fired .channelClosed true).1, filter_eq_nil_iff]
    intro w hw
    have hempty : s.chan.signal.signalStatus.contains .readable = false := by
      rw [hi.coherent.readable, hi.queue_of_asleep h]
      rfl
    rw [hits, hi.masks w hw, intersects_readable,
      newStatus, if_pos rfl, readable_raise_closed, hempty]
    simp
  refine ⟨h.1, ?_⟩
  show (s.listeners.fire s.chan.closePeer.2).thread i.val = .sleeping
  rw [Listeners.fire, hfired]
  exact h.2

theorem awake_of_noneStranded {g : Growth} (hi : s.Inv) (h : step g s a = some t)
    (ht : t.NoneStranded) : s.Awake a := by
  cases a with
  | close =>
    intro i hasleep
    simp only [step] at h
    split at h
    · cases h
      exact ht ⟨rfl, hi.queue_of_asleep hasleep⟩ i (asleep_closePeer hi hasleep)
    · cases h
  | wait i =>
    intro hd
    have hquiet : s.chan.signal.signalStatus.intersects .readable = false := by
      rw [hi.status, hd.2]; rfl
    simp only [step, hquiet] at h
    split at h
    · next call hcall =>
      cases h
      exact ht hd i ⟨⟨call, by simp [setReader]⟩, by simp [setReader, sleepOn]⟩
    · cases h
  | call => trivial
  | read => trivial
  | resume => trivial
  | write => trivial

/-- **Exactly which runs strand no reader.** Along a run every closed and drained endpoint finds its
    readers awake and answers them with `Closed` if and only if the other end is never dropped
    under a sleeping reader and no reader goes to sleep after the drop. -/
theorem no_reader_stranded_iff (g : Growth) (n : Nat) (as : List (Action n)) :
    Lts.Always (step g) (Answered g) (start n) as ↔ Lts.Guarded (step g) Awake (start n) as := by
  refine Lts.always_iff_guarded (I := fun s => s.Inv ∧ s.NoneStranded) ?_ ?_ ?_
    ⟨inv_start n, fun hd => absurd hd.1 (by simp [start, KChannelInner.new])⟩
  · rintro s ⟨-, hn⟩
    exact (answered_iff g s).2 hn
  · rintro s a t ⟨hi, hn⟩ hawake hstep
    have m := change_of_step hstep
    exact ⟨hi.change m, hn.change hi hawake m⟩
  · rintro s a t ⟨hi, -⟩ hstep ht
    exact awake_of_noneStranded hi hstep ((answered_iff g t).1 ht)

/-- The reader finds the queue empty and goes to sleep; then the other end is dropped. -/
def strandingRun : List (Action 1) :=
  [.call 0 .rs ⟨0, 16⟩ ⟨0, 1⟩, .read 0, .wait 0, .close]

theorem reader_stranded_by_close :
    ∃ s ∈ Lts.run (step Growth.exact) (start 1) strandingRun,
      s.peerAlive = false ∧ s.chan.isOpen = false ∧ s.chan.queue = [] ∧
      s.listeners.thread 0 = .sleeping ∧
      s.reader 0 = .asleep (ReadFn.rs.start ⟨0, 16⟩ ⟨0, 1⟩) ∧
      ¬ Lts.Always (step Growth.exact) (Answered Growth.exact) (start 1) strandingRun := by
  have hrun : ∃ s ∈ Lts.run (step Growth.exact) (start 1) strandingRun,
      s.peerAlive = false ∧ s.chan.isOpen = false ∧ s.chan.queue = [] ∧
      s.listeners.thread 0 = .sleeping ∧
      s.reader 0 = .asleep (ReadFn.rs.start ⟨0, 16⟩ ⟨0, 1⟩) := by decide
  obtain ⟨s, hs, hpeer, hopen, hqueue, hthread, hreader⟩ := hrun
  refine ⟨s, hs, hpeer, hopen, hqueue, hthread, hreader, fun halways => ?_⟩
  have hlast : s.Answered Growth.exact := halways.last hs
  exact (hlast ⟨hopen, hqueue⟩ 0).1 ⟨⟨_, hreader⟩, hthread⟩

end ReadSystem

end Fioxa
