import Fioxa.Kernel.IpcMoves

/-! # What is sent is what is received

In each direction of a channel the kernel is a queue between two logs: the messages `send` accepted
for an endpoint, and the messages `read` handed out on it. While the endpoint is alive the first log
is the second followed by the queue. Failing calls do not touch any queue, and once the sender is
gone the queue can only be drained, so a reader sees every remaining message before `Closed`. -/

namespace Fioxa.Kernel

open List

variable {n : Nat}

/-- Every message accepted for `e` has been read from it or is still queued, in order. -/
def Delivered (k : Kernel n) (e : Nat) : Prop :=
  k.sent e = k.received e ++ (k.channel e).queue

def QueuesKept (k k' : Kernel n) : Prop :=
  ∀ e, (k'.channel e).queue = (k.channel e).queue

/-- From `k` to `k'` messages of `e` were only taken off the front of its queue, and all those taken
    were returned by `read`, in order. -/
def Drained (k k' : Kernel n) (e : Nat) : Prop :=
  ∃ taken, k'.received e = k.received e ++ taken ∧
    (k.channel e).queue = taken ++ (k'.channel e).queue

/-- Thread `a` is at the point of `send` where it returns `None`. -/
def SendFails (k : Kernel n) (a : Fin n) : Prop :=
  match k.task a with
  | .sendUpgrade e _ => ¬ k.Alive (k.peer e)
  | .sendLock _ p msg => (k.channel p).send msg = none
  | _ => False

/-- Thread `a` is at the point of `read` where it returns `err`. -/
def ReadFails (k : Kernel n) (a : Fin n) (err : ReadError) : Prop :=
  match k.task a with
  | .readLock e maxBytes maxHandles => ((k.channel e).read maxBytes maxHandles).1 = .error err
  | _ => False

/-! ## One step -/

variable {k k' : Kernel n} {e : Nat}

theorem alive_before (m : Move k k') (he : e < k.next) (halive : k'.Alive e) : k.Alive e :=
  Decidable.of_not_not (fun hdead => dead_of_move m he hdead halive)

theorem Delivered.move (hk : k.Wf) (m : Move k k') (hd : k.Alive e → k.Delivered e)
    (halive : k'.Alive e) : k'.Delivered e := by
  -- an endpoint that comes to life in this step has empty logs and an empty queue
  have hbefore : k.Delivered e := by
    by_cases he : e < k.next
    · exact hd (alive_before m he halive)
    · obtain ⟨hchan, hsent, hreceived, -⟩ := hk.fresh e (Nat.le_of_not_lt he)
      simp [Delivered, hchan, hsent, hreceived, KChannelInner.new]
  unfold Delivered at hbefore ⊢
  cases channelMove hk m e with
  | same hchan hsent hreceived | waiter _ w hchan hsent hreceived =>
    rw [hchan, hsent, hreceived, hbefore]
  | send _ msg call hsender hsend hsent hreceived =>
    obtain ⟨-, -, -, hchan⟩ := KChannelInner.send_eq_some hsend
    rw [hchan, hsent, hreceived, hbefore, append_assoc]
  | read _ packet rest hqueue hchan hsent hreceived =>
    rw [hchan, hsent, hreceived, hbefore, hqueue, append_assoc, singleton_append]
  | closeSelf hlt hdead => exact absurd halive (dead_of_move m hlt hdead)
  | closePeer _ hchan hsent hreceived =>
    rw [hchan, hsent, hreceived, hbefore]
    rfl

theorem Drained.refl (k : Kernel n) (e : Nat) : k.Drained k e := ⟨[], by simp, by simp⟩

theorem Drained.trans {k1 k2 k3 : Kernel n} (h : k1.Drained k2 e) (h' : k2.Drained k3 e) :
    k1.Drained k3 e := by
  obtain ⟨taken, hr, hq⟩ := h
  obtain ⟨taken', hr', hq'⟩ := h'
  refine ⟨taken ++ taken', ?_, ?_⟩
  · rw [hr', hr, append_assoc]
  · rw [hq, hq', append_assoc]

theorem Drained.move (hk : k.Wf) (m : Move k k') (hsender : ¬ k.Alive (k.peer e))
    (halive : k'.Alive e) : k.Drained k' e := by
  cases channelMove hk m e with
  | same hchan _ hreceived | waiter _ w hchan _ hreceived =>
    exact ⟨[], by simp [hreceived], by simp [hchan]⟩
  | send _ msg call hpeer => exact absurd hpeer hsender
  | read _ packet rest hqueue hchan _ hreceived =>
    exact ⟨[packet], hreceived, by rw [hqueue, hchan]; rfl⟩
  | closeSelf hlt hdead => exact absurd halive (dead_of_move m hlt hdead)
  | closePeer _ hchan _ hreceived =>
    exact ⟨[], by simp [hreceived], by rw [hchan]; rfl⟩

theorem queuesKept_of_sendFails {a : Fin n} (hf : k.SendFails a) (h : k.resume a = some k') :
    k.QueuesKept k' := by
  unfold SendFails at hf
  unfold resume at h
  split at hf
  · next e msg htask =>
    rw [htask] at h
    simp only [if_neg hf, Option.some.injEq] at h
    subst h
    exact fun _ => rfl
  · next e p msg htask =>
    rw [htask] at h
    simp only [hf, Option.some.injEq] at h
    subst h
    exact fun _ => rfl
  · exact hf.elim

theorem queuesKept_of_readFails {a : Fin n} {err : ReadError} (hf : k.ReadFails a err)
    (h : k.resume a = some k') : k.QueuesKept k' := by
  unfold ReadFails at hf
  unfold resume at h
  split at hf
  · next e maxBytes maxHandles htask =>
    rw [htask] at h
    dsimp only at h
    rcases (k.channel e).read_cases maxBytes maxHandles with ⟨-, hr⟩ | ⟨_, _, -, -, hr⟩ |
      ⟨_, _, -, -, hr⟩
    · rw [hr] at h
      cases h
      intro x
      rw [putChannel_self]
      rfl
    · rw [hr] at h
      cases h
      intro x
      rw [putChannel_self]
      rfl
    · rw [hr] at hf
      cases hf
  · exact hf.elim

theorem queue_eq_nil_of_closed {chan : KChannelInner} {maxBytes maxHandles : Nat}
    (h : (chan.read maxBytes maxHandles).1 = .error .closed) : chan.queue = [] := by
  rcases chan.read_cases maxBytes maxHandles with ⟨hq, -⟩ | ⟨_, _, -, -, hr⟩ | ⟨_, _, -, -, hr⟩
  · exact hq
  · rw [hr] at h
    cases h
  · rw [hr] at h
    cases h

/-! ## Whole runs -/

theorem delivered_of_reachable (h : Lts.Reachable step (boot n) k) :
    k.Wf ∧ ∀ e, k.Alive e → k.Delivered e := by
  refine h.invariant (I := fun k => k.Wf ∧ ∀ e, k.Alive e → k.Delivered e) ?_ ⟨wf_boot n, ?_⟩
  · rintro k a k' ⟨hk, hd⟩ hstep
    have m := move_of_step hstep
    exact ⟨hk.move m, fun e => Delivered.move hk m (hd e)⟩
  · intro e _
    rfl

theorem drained_of_reachable (hk : k.Wf) (he : k.Alive e) (hsender : ¬ k.Alive (k.peer e))
    (h : Lts.Reachable step k k') (halive : k'.Alive e) :
    k.Drained k' e := by
  have hinv : k'.Wf ∧ e < k'.next ∧ ¬ k'.Alive (k'.peer e) ∧ (k'.Alive e → k.Drained k' e) := by
    refine h.invariant (I := fun u => u.Wf ∧ e < u.next ∧ ¬ u.Alive (u.peer e) ∧
      (u.Alive e → k.Drained u e)) ?_ ⟨hk, hk.alive_lt he, hsender, fun _ => Drained.refl k e⟩
    rintro u a v ⟨hu, hlt, hdead, hdrained⟩ hstep
    have m := move_of_step hstep
    refine ⟨hu.move m, Nat.lt_of_lt_of_le hlt (next_le_of_move m), ?_, fun hv => ?_⟩
    · rw [peer_of_move m hlt]
      exact dead_of_move m (hu.peer_lt e hlt) hdead
    · exact (hdrained (alive_before m hlt hv)).trans (Drained.move hu m hdead hv)
  exact hinv.2.2.2 halive

/-- **Channels deliver.** In every state the system can reach, whatever the interleaving: what was
    accepted for a live endpoint is what was read from it followed by its queue; a failing `read` or
    `send` leaves every queue as it was; and once the sender is gone, what the queue held is
    returned in order and in full before a `read` reports `Closed`. -/
theorem channel_delivery {k : Kernel n} (h : Lts.Reachable step (boot n) k) :
    (∀ e, k.Alive e → k.sent e = k.received e ++ (k.channel e).queue) ∧
    (∀ a err k', k.ReadFails a err → k.resume a = some k' → k.QueuesKept k') ∧
    (∀ a k', k.SendFails a → k.resume a = some k' → k.QueuesKept k') ∧
    (∀ e k', k.Alive e → ¬ k.Alive (k.peer e) → Lts.Reachable step k k' → k'.Alive e →
      ∃ taken, k'.received e = k.received e ++ taken ∧
        (k.channel e).queue = taken ++ (k'.channel e).queue ∧
        ∀ maxBytes maxHandles, ((k'.channel e).read maxBytes maxHandles).1 = .error .closed →
          taken = (k.channel e).queue) := by
  obtain ⟨hk, hd⟩ := delivered_of_reachable h
  refine ⟨hd, fun a err k' hf => queuesKept_of_readFails hf,
    fun a k' hf => queuesKept_of_sendFails hf, ?_⟩
  intro e k' he hsender hreach halive
  obtain ⟨taken, hr, hq⟩ := drained_of_reachable hk he hsender hreach halive
  refine ⟨taken, hr, hq, fun maxBytes maxHandles hclosed => ?_⟩
  rw [hq, queue_eq_nil_of_closed hclosed, append_nil]

/-- Thread 0 sends two messages from endpoint 0 to endpoint 1; thread 1 reads one of them; thread 0
    then drops endpoint 0, whose destructor closes both ends. -/
def deliveryRun : List (Action 2) :=
  [.create, .send 0 0 ⟨[1], none⟩, .resume 0, .resume 0, .resume 0, .resume 0, .resume 0,
    .send 0 0 ⟨[2], none⟩, .resume 0, .resume 0, .resume 0, .resume 0, .resume 0,
    .read 1 1 8 0, .resume 1, .resume 1, .resume 1,
    .drop 0 0, .resume 0, .resume 0, .resume 0, .resume 0, .resume 0, .resume 0]

theorem channel_delivery_run :
    ∃ k ∈ Lts.run step (boot 2) deliveryRun,
      (k.Alive 1 ∧ ¬ k.Alive (k.peer 1) ∧ k.received 1 = [⟨[1], none⟩]) ∧
      k.sent 1 = k.received 1 ++ (k.channel 1).queue := by
  have hrun : ∃ k ∈ Lts.run step (boot 2) deliveryRun,
      k.Alive 1 ∧ ¬ k.Alive (k.peer 1) ∧ k.received 1 = [⟨[1], none⟩] := by decide
  obtain ⟨k, hk, hstate⟩ := hrun
  exact ⟨k, hk, hstate, (channel_delivery ⟨deliveryRun, hk⟩).1 1 hstate.1⟩

end Fioxa.Kernel
