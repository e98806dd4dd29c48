import Fioxa.Kernel.IpcMoves

/-! # How full a queue gets

`send` refuses a message once the queue holds *more* than `CHANNEL_CAPACITY` messages, so the queue
of an open endpoint grows one message past that number. -/

namespace Fioxa.Kernel

open Lts

variable {n : Nat} {k k' : Kernel n}

/-- No queue holds more than `CHANNEL_CAPACITY` messages, and `send` to an open endpoint fails
    exactly if its queue holds that many. -/
def Bounded (k : Kernel n) : Prop :=
  ∀ e, (k.channel e).queue.length ≤ channelCapacity ∧
    (k.Alive e → (k.channel e).isOpen = true → ∀ msg,
      ((k.channel e).send msg = none ↔ (k.channel e).queue.length = channelCapacity))

/-- No open endpoint has `CHANNEL_CAPACITY` messages. -/
def Spare (k : Kernel n) : Prop :=
  ∀ e, k.Alive e → (k.channel e).isOpen = true → (k.channel e).queue.length ≠ channelCapacity

def Within (k : Kernel n) : Prop := ∀ e, (k.channel e).queue.length ≤ channelCapacity

theorem send_eq_none {chan : KChannelInner} (hopen : chan.isOpen = true) (msg : ChannelMessage) :
    chan.send msg = none ↔ channelCapacity < chan.queue.length := by
  simp [KChannelInner.send, hopen]

theorem Within.bounded_iff (h : k.Within) : k.Bounded ↔ k.Spare := by
  refine forall_congr' fun e => ?_
  rw [and_iff_right (h e)]
  refine imp_congr_right fun _ => imp_congr_right fun hopen => ?_
  have hle := h e
  simp only [send_eq_none hopen]
  refine ⟨fun hfull heq => ?_, fun hne _ => ?_⟩
  · have hlt := (hfull ⟨[], none⟩).2 heq
    omega
  · omega

/-- Only an accepted `send` makes a queue longer. -/
theorem Within.move (hk : k.Wf) (h : k.Within) (hspare : k.Spare) (m : Move k k') : k'.Within := by
  intro e
  have hle := h e
  cases channelMove hk m e with
  | same hchan | waiter _ _ hchan | closePeer _ hchan =>
    rw [hchan]
    exact hle
  | send halive msg call _ hsend =>
    obtain ⟨hopen, -, -, hchan⟩ := KChannelInner.send_eq_some hsend
    have hne := hspare e halive hopen
    rw [hchan, List.length_append, List.length_singleton]
    omega
  | read _ packet rest hqueue hchan =>
    rw [hqueue, List.length_cons] at hle
    rw [hchan]
    exact Nat.le_of_succ_le hle
  | closeSelf _ _ hchan =>
    rw [hchan]
    exact Nat.zero_le _

/-- **The queues stay bounded exactly while no open endpoint has `CHANNEL_CAPACITY` messages.** -/
theorem queues_bounded_iff (n : Nat) (as : List (Action n)) :
    Always step Bounded (boot n) as ↔ Always step Spare (boot n) as := by
  refine always_congr (I := fun k => k.Wf ∧ k.Within) (fun k hk => hk.2.bounded_iff) ?_
    ⟨wf_boot n, fun e => Nat.zero_le _⟩
  intro k act k' hk hspare hstep
  have m := move_of_step hstep
  exact ⟨hk.1.move m, hk.2.move hk.1 hspare m⟩

theorem resume_sendLock {a : Fin n} {e p : Nat} {msg : ChannelMessage} {chan : KChannelInner}
    {call : SetSignal} (htask : k.task a = .sendLock e p msg)
    (hsend : (k.channel p).send msg = some (chan, call)) : k.resume a =
      some (((k.putChannel p chan (some call)).logSent p msg).setTask a (.release [p, e])) := by
  unfold resume
  rw [htask]
  simp only [hsend]

/-- The idle thread holds both ends of a channel, and `m` messages wait at the other one. -/
structure Filled (m : Nat) (k : Kernel 1) : Prop where
  idle : k.task 0 = .idle
  held : 0 < k.held 0
  peer_held : 0 < k.held (k.peer 0)
  isOpen : (k.channel (k.peer 0)).isOpen = true
  queue : (k.channel (k.peer 0)).queue.length = m

theorem Filled.send {m : Nat} {k : Kernel 1} (h : Filled m k) (hm : m ≤ channelCapacity) :
    ∃ k', Reachable step k k' ∧ Filled (m + 1) k' := by
  have hsome : ((k.channel (k.peer 0)).send ⟨[], none⟩).isSome := by
    simp [KChannelInner.send, h.isOpen, h.queue, hm]
  obtain ⟨⟨chan, call⟩, hsend⟩ := Option.isSome_iff_exists.1 hsome
  obtain ⟨hopen, -, -, hchan⟩ := KChannelInner.send_eq_some hsend
  -- each section of the call in turn; the references it drops are not the last ones
  let locked := (k.setTask 0 (.sendUpgrade 0 ⟨[], none⟩)).setTask 0
    (.sendLock 0 (k.peer 0) ⟨[], none⟩)
  have hlock : Reachable step k locked :=
    .trans (.single (a := .send 0 0 ⟨[], none⟩) (if_pos ⟨h.idle, h.held⟩))
      (.single (a := .resume 0) (if_pos (.inl h.peer_held)))
  let sent := (locked.putChannel (k.peer 0) chan (some call)).logSent (k.peer 0) ⟨[], none⟩
  have hsent : Reachable step locked (sent.setTask 0 (.release [k.peer 0, 0])) :=
    .single (a := .resume 0) (resume_sendLock (k := locked) (a := 0) (e := 0) rfl hsend)
  have hidle : Reachable step (sent.setTask 0 (.release [k.peer 0, 0]))
      ((((sent.setTask 0 (.release [k.peer 0, 0])).setTask 0 (.release [0])).setTask 0
        (.release [])).setTask 0 .idle) :=
    .trans (.single (a := .resume 0) (if_pos (.inl h.peer_held)))
      (.trans (.single (a := .resume 0) (if_pos (.inl h.held))) (.single (a := .resume 0) rfl))
  refine ⟨_, hlock.trans (hsent.trans hidle), rfl, h.held, ?_, ?_, ?_⟩
  · simp only [sent, locked, setTask_peer, logSent_peer, putChannel_peer]
    exact h.peer_held
  · simp [sent, locked, hchan, hopen]
  · simp [sent, locked, hchan, h.queue]

theorem exists_filled {m : Nat} (hm : m ≤ channelCapacity + 1) :
    ∃ k, Reachable step (boot 1) k ∧ Filled m k := by
  induction m with
  | zero => exact ⟨_, .single (a := .create) rfl, rfl, by decide, by decide, rfl, rfl⟩
  | succ m ih =>
    obtain ⟨k, hreach, hk⟩ := ih (Nat.le_of_succ_le hm)
    obtain ⟨k', hsend, hk'⟩ := hk.send (Nat.le_of_succ_le_succ hm)
    exact ⟨k', hreach.trans hsend, hk'⟩

theorem queue_exceeds_capacity : ∃ k : Kernel 1, Reachable step (boot 1) k ∧
    (k.channel (k.peer 0)).queue.length = channelCapacity + 1 := by
  obtain ⟨k, hreach, hk⟩ := exists_filled (Nat.le_refl _)
  exact ⟨k, hreach, hk.queue⟩

end Fioxa.Kernel
