import Mathlib.Data.Set.Finite.Basic
import Mathlib.Order.Interval.Set.Infinite
import Fioxa.Lib.Ownership
import Fioxa.Kernel.HandleReferences

/-! # Endpoints that nobody can reach

A queued message owns the handles in it, so endpoints own endpoints. As long as nobody builds a
cycle, an endpoint that cannot be reached from a table any more has no reference left and has been
closed (`Lib/Ownership.lean`). But a process may send an endpoint to itself: a handle to one end,
written to the other end, goes into the queue of the very endpoint it refers to. When the process
then deletes its handle, the endpoint keeps itself alive, is not closed, and its peer is not told.
-/

namespace Fioxa.HandleWorld

open Endpoints Ownership Lts Bool

variable {s t : HandleWorld} {a : Action}

/-- A message in the queue of `x` carries a handle to `y`. -/
def Owns (n : Endpoints) (x y : Nat) : Prop :=
  .channel y ∈ (n.channel x).queue.flatMap ChannelMessage.values

/-- Between system calls, every endpoint that cannot be reached from a table has been closed, and
    its peer has been told. -/
def UnreachableClosed (s : HandleWorld) : Prop :=
  s.calls = [] → ∀ e, e < s.net.next → ¬ Reach s.InTable (Owns s.net) e →
    s.net.alive e = false ∧ (s.net.alive (s.net.peer e) = true →
      (s.net.channel (s.net.peer e)).signal.signalStatus.contains .channelClosed = true)

/-- No message gets into a queue that can be reached from the endpoints in the message. -/
def NoCycle (s : HandleWorld) : Action → Prop
  | .advance i => ∀ p e msg record, s.calls[i]? = some (.sending p e msg record) →
      s.net.accepts e msg = true → ∀ y, .channel y ∈ msg.values →
        ¬ Relation.ReflTransGen (Owns s.net) y (s.net.peer e)
  | _ => True

/-! ## What an action does to the queues -/

variable {x y : Nat}

theorem Owns.of_shrunk {n n' : Endpoints} (hy : Owns n' x y) (h : Shrunk n n') : Owns n x y := by
  unfold Owns at hy ⊢
  rcases h.queue x with hq | ⟨-, hq⟩
  · rwa [hq] at hy
  · rw [hq] at hy
    cases hy

theorem Move.owns (h : s.Counted) (hm : Move s a t) (hy : Owns t.net x y) :
    Owns s.net x y ∨ ∃ i p e msg record, a = .advance i ∧
      s.calls[i]? = some (.sending p e msg record) ∧ s.net.accepts e msg = true ∧
      x = s.net.peer e ∧ .channel y ∈ msg.values := by
  cases hm with
  | delete | finish => exact .inl (hy.of_shrunk (release_shrunk ..))
  | @load p ids values =>
    have hext := (h.newProcess.tables.addAll (Nat.lt_succ_self s.processes) values).1
    rw [hext.net] at hy
    exact .inl hy
  | channelCreate =>
    replace hy : Owns s.net.create x y := hy
    unfold Owns at hy
    rw [create_channel h.fresh] at hy
    exact .inl hy
  | @send i p e msg record ha hget haccepts =>
    replace hy : Owns (s.net.send e msg) x y := hy.of_shrunk (release_shrunk ..)
    refine ((carries_send haccepts).1 hy).imp_right fun hx => ?_
    exact ⟨i, p, e, msg, record, ha, hget, haccepts, hx⟩
  | take _ hget hpacket => exact .inl ((carries_finishRead hpacket).2 (.inl hy))
  | _ => exact .inl hy

/-! ## The invariant -/

structure Clean (s : HandleWorld) : Prop where
  counted : s.Counted
  acyclic : Acyclic (Owns s.net)

theorem Clean.act (h : s.Clean) (hp : a.process < s.processes) (ha : s.NoCycle a) :
    (s.act a).Clean := by
  have hm := h.counted.tables.act_move hp
  refine ⟨h.counted.move hm, ?_⟩
  by_cases hsend : ∃ i p e msg record, a = .advance i ∧
      s.calls[i]? = some (.sending p e msg record) ∧ s.net.accepts e msg = true
  · obtain ⟨i, p, e, msg, record, rfl, hget, haccepts⟩ := hsend
    refine h.acyclic.insert (s.net.peer e) (fun y => .channel y ∈ msg.values)
      (ha p e msg record hget haccepts) fun x y hy => ?_
    refine (hm.owns h.counted hy).imp_right ?_
    rintro ⟨j, p', e', msg', record', hj, hget', -, hx, hmem⟩
    cases hj
    rw [hget] at hget'
    cases hget'
    exact ⟨hx, hmem⟩
  · refine h.acyclic.mono fun x y hy => (hm.owns h.counted hy).resolve_right ?_
    rintro ⟨i, p, e, msg, record, rfl, hget, haccepts, -⟩
    exact hsend ⟨i, p, e, msg, record, rfl, hget, haccepts⟩

theorem Clean.reach (h : s.Clean) (hcalls : s.calls = []) {e : Nat} (he : s.net.alive e = true) :
    Reach s.InTable (Owns s.net) e := by
  have hfinite : Finite { x // s.net.alive x = true } :=
    ((Set.finite_lt_nat s.net.next).subset fun x hx => h.counted.refs.net.alive_lt x hx).to_subtype
  refine h.acyclic.reach (fun x => s.net.alive x = true) (fun x hx => ?_) he
  rcases (h.counted.alive_iff x).1 hx with (htable | ⟨c, hc, -⟩) | hqueue
  · exact .inl htable
  · rw [hcalls] at hc
    cases hc
  · obtain ⟨y, hy⟩ := (mem_queued h.counted.fresh).1 hqueue
    refine .inr ⟨y, ?_, hy⟩
    rw [← not_eq_false]
    intro hdead
    rw [h.counted.refs.cleared y hdead] at hy
    cases hy

theorem Clean.unreachableClosed (h : s.Clean) : s.UnreachableClosed := by
  intro hcalls e he hreach
  have hdead : s.net.alive e = false :=
    eq_false_iff.2 fun halive => hreach (h.reach hcalls halive)
  refine ⟨hdead, fun hpeer => ?_⟩
  have hopen := (h.counted.refs.told e he hdead hpeer).resolve_right (by simp)
  rw [(h.counted.refs.net.coherent _ hpeer).closed, hopen]
  rfl

theorem clean_boot : boot.Clean where
  counted := counted_boot
  acyclic o hcycle := by
    have hnone : ∀ x y, ¬ Owns boot.net x y := fun x y hy => nomatch hy
    cases hcycle with
    | single h => exact hnone _ _ h
    | tail _ h => exact hnone _ _ h

/-- If no cycle is built, endpoints that cannot be reached have been closed. -/
theorem unreachableClosed_of_noCycle {as : List Action}
    (h : Lts.Guarded step NoCycle boot as) : Lts.Always step UnreachableClosed boot as := by
  refine always_of_guarded (I := Clean) (fun _ hs => hs.unreachableClosed)
    (fun s a t hs ha hst => ?_) clean_boot h
  obtain ⟨-, hp, rfl⟩ := step_eq_some hst
  exact hs.act hp ha

/-! ## Two runs -/

/-- The endpoints in a message have nothing queued, and the message does not go to one of them. -/
def SendsIdle (s : HandleWorld) : Action → Bool
  | .advance i =>
    match s.calls[i]? with
    | some (.sending _ e msg _) => msg.values.all fun v =>
      match v with
      | .channel y => y != s.net.peer e && (s.net.channel y).queue.isEmpty
      | _ => true
    | _ => true
  | _ => true

theorem noCycle_of_sendsIdle (h : s.SendsIdle a = true) : s.NoCycle a := by
  cases a with
  | advance =>
    intro p e msg record hget _ y hy hpath
    simp only [SendsIdle, hget, List.all_eq_true] at h
    have hidle := h _ hy
    simp only [and_eq_true, bne_iff_ne, ne_eq, List.isEmpty_iff] at hidle
    rcases Relation.ReflTransGen.cases_head hpath with heq | ⟨z, hz, -⟩
    · exact hidle.1 heq
    · unfold Owns at hz
      rw [hidle.2] at hz
      cases hz
  | _ => trivial

/-- Process 0 creates a channel; the new identifiers are the next two. -/
def openChannel : List Action := [.channelCreate 0, .advance 0, .advance 0, .advance 0]

/-- One end of the second channel is sent over the first, and both its handle and that of the
    receiving end are deleted. -/
def sendAndForget : List Action :=
  openChannel ++ openChannel ++
    [.write 0 1 [] [some 3], .advance 0, .advance 0, .delete 0 3, .delete 0 2]

theorem unreachableClosed_sendAndForget :
    Lts.Guarded step NoCycle boot sendAndForget ∧
      Lts.Always step UnreachableClosed boot sendAndForget ∧
      ∃ s ∈ run step boot sendAndForget, s.calls = [] ∧
        (List.range 4).map s.net.alive = [true, false, false, true] := by
  have hidle : Lts.Guarded step (fun s a => s.SendsIdle a = true) boot sendAndForget := by
    decide +kernel
  have hguarded := Lts.Guarded.mono (fun _ _ h => noCycle_of_sendsIdle h) hidle
  exact ⟨hguarded, unreachableClosed_of_noCycle hguarded, by decide +kernel⟩

/-- Endpoint 1 is sent to itself: a handle to it is written to its peer. Then the handle is
    deleted. -/
def sendToItself : List Action :=
  openChannel ++ [.write 0 1 [] [some 2], .advance 0, .advance 0, .delete 0 2]

theorem reach_eq_zero (h : s.Counted) (htable : s.tableValues = [.channel 0])
    (hqueue : (s.net.channel 0).queue = []) {e : Nat}
    (he : Reach s.InTable (Owns s.net) e) : e = 0 := by
  induction he with
  | root hroot =>
    have hmem := h.tables.mem_tableValues.2 hroot
    rw [htable, List.mem_singleton] at hmem
    exact KernelValue.channel.inj hmem
  | owned _ howns ih =>
    unfold Owns at howns
    rw [ih, hqueue] at howns
    cases howns

/-- Nobody can reach endpoint 1 any more, but it has not been closed, and its peer does not know. -/
theorem endpoint_keeps_itself_alive :
    ∃ s ∈ run step boot sendToItself, ¬ s.UnreachableClosed ∧ s.net.peer 1 = 0 ∧
      (s.net.channel 0).signal.signalStatus.contains .channelClosed = false := by
  have hrun : ∃ s ∈ run step boot sendToItself, (s.calls = [] ∧ 1 < s.net.next ∧
      s.net.alive 1 = true ∧ s.tableValues = [.channel 0] ∧ (s.net.channel 0).queue = []) ∧
      s.net.peer 1 = 0 ∧
      (s.net.channel 0).signal.signalStatus.contains .channelClosed = false := by
    decide +kernel
  obtain ⟨s, hs, ⟨hcalls, hlt, halive, htable, hqueue⟩, hpeer⟩ := hrun
  have hcounted : s.Counted := run_invariant (I := Counted) (fun u a t hu hst => by
    obtain ⟨-, hp, rfl⟩ := step_eq_some hst
    exact hu.move (hu.tables.act_move hp)) counted_boot hs
  refine ⟨s, hs, fun hclosed => ?_, hpeer⟩
  have hdead := (hclosed hcalls 1 hlt fun hreach =>
    absurd (reach_eq_zero hcounted htable hqueue hreach) (by decide)).1
  rw [halive] at hdead
  cases hdead

end Fioxa.HandleWorld
