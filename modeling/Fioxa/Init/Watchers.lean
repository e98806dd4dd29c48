import Fioxa.Init.Endpoints
import Fioxa.Lib.Tokens

/-! # The waiters of a service

Waiters are one-shot, so a service that waits on a port has to arm each of its objects again and
again. Every operation on channels is, as far as signals and the port are concerned, a sequence of
calls of `set_signal` (`Fires`), and these move the tokens of `Lib/Tokens.lean` from the waiters to
the port. -/

namespace Fioxa

open List Function

/-- The key under which a waiter notifies the service. -/
def serviceKey (w : SignalWaiter) : Option Key :=
  match w.ty with
  | .one _ => none
  | .port p key => if p = initPort then some key else none

/-- The keys under which an object's waiters notify the service. -/
def KObjectSignal.serviceKeys (sig : KObjectSignal) : List Key :=
  sig.signalWaiters.filterMap serviceKey

theorem notification_keys (new : ObjectSignal) (ws : List SignalWaiter) :
    (ws.filterMap (Listeners.notification new initPort)).map PortNotification.key
      = ws.filterMap serviceKey := by
  rw [map_filterMap]
  congr 1
  funext w
  unfold Listeners.notification serviceKey
  cases w.ty with
  | one => rfl
  | port p => by_cases hp : p = initPort <;> simp [hp]

theorem KObjectSignal.setSignal_perm (sig : KObjectSignal) (flag : ObjectSignal) (status : Bool) :
    sig.signalWaiters.Perm ((sig.setSignal flag status).fired
      ++ (sig.setSignal flag status).signal.signalWaiters) := by
  unfold setSignal
  dsimp only
  split
  · exact .refl _
  · exact (filter_append_perm _ _).symm

/-- The signals of some objects, and the notifications in the port of the service. -/
@[ext] structure Board (O : Type) where
  signal : O → KObjectSignal
  port : List PortNotification

namespace Board

variable {O : Type}

/-- The keys the service has armed at an object. -/
def armed (b : Board O) (o : O) : List Key := (b.signal o).serviceKeys

/-- `client` and `busy` are those of `Tokens.Exact`; `ours` is what all waiters are like. -/
structure Watched (b : Board O) (ours : SignalWaiter → Prop) (client : Key → O → Prop)
    (busy : List Key) : Prop where
  tokens : Tokens.Exact client b.armed (b.port.map PortNotification.key) busy
  waiter : ∀ o, ∀ w ∈ (b.signal o).signalWaiters, ours w
  endpoint : ∀ {k o o'}, client k o → client k o' → o = o'

variable [DecidableEq O]

/-- The effect of a call of `set_signal`. -/
def fire (b : Board O) (o : O) (call : SetSignal) : Board O :=
  ⟨update b.signal o call.signal,
    b.port ++ call.fired.filterMap (Listeners.notification call.new initPort)⟩

/-- Store a waiter. -/
def wait (b : Board O) (o : O) (w : SignalWaiter) : Board O :=
  { b with signal := update b.signal o ((b.signal o).wait w) }

/-- `object_wait_port_rs(o, port, READABLE, key)` -/
def arm (b : Board O) (o : O) (key : Key) (registration : Nat) : Board O :=
  if (b.signal o).signalStatus.intersects .readable then
    { b with port := b.port ++ [⟨key, .signalOne .readable (b.signal o).signalStatus⟩] }
  else b.wait o ⟨.port initPort key, .readable, registration⟩

inductive Fires : Board O → Board O → Prop where
  | refl (b : Board O) : Fires b b
  | call (b : Board O) (o : O) (flag : ObjectSignal) (status : Bool) :
      Fires b (b.fire o ((b.signal o).setSignal flag status))
  | trans {b b' b'' : Board O} : Fires b b' → Fires b' b'' → Fires b b''

theorem fire_signal (b : Board O) (o : O) (call : SetSignal) :
    (b.fire o call).signal = update b.signal o call.signal := rfl

theorem wait_signal (b : Board O) (o : O) (w : SignalWaiter) :
    (b.wait o w).signal = update b.signal o ((b.signal o).wait w) := rfl

variable {b b' : Board O} {ours : SignalWaiter → Prop} {client : Key → O → Prop} {key : Key}
  {busy : List Key} {o : O} {w : SignalWaiter}

theorem Fires.mem_waiters (h : b.Fires b') (hw : w ∈ (b'.signal o).signalWaiters) :
    w ∈ (b.signal o).signalWaiters := by
  induction h with
  | refl => exact hw
  | call b x flag status =>
    by_cases hx : o = x
    · subst hx
      rw [fire_signal, update_self] at hw
      exact ((b.signal o).setSignal_perm flag status).mem_iff.2 (mem_append_right _ hw)
    · rwa [fire_signal, update_of_ne hx] at hw
  | trans _ _ ih ih' => exact ih (ih' hw)

theorem Fires.mem_armed (h : b.Fires b') (hkey : key ∈ b'.armed o) : key ∈ b.armed o := by
  obtain ⟨w, hw, hwkey⟩ := mem_filterMap.1 hkey
  exact mem_filterMap.2 ⟨w, h.mem_waiters hw, hwkey⟩

theorem wait_armed (b : Board O) (o : O) (w : SignalWaiter) :
    (b.wait o w).armed = update b.armed o (b.armed o ++ (serviceKey w).toList) := by
  funext x
  by_cases hx : x = o
  · rw [hx, update_self, armed, wait_signal, update_self, armed]
    cases hkey : serviceKey w with
    | none | some => simp [KObjectSignal.serviceKeys, KObjectSignal.wait, hkey]
  · rw [update_of_ne hx, armed, wait_signal, update_of_ne hx, armed]

theorem wait_armed_none (hnone : serviceKey w = none) : (b.wait o w).armed = b.armed := by
  rw [wait_armed, hnone, Option.toList_none, append_nil, Function.update_eq_self]

namespace Watched

theorem fires (h : b.Watched ours client busy) (hf : b.Fires b') : b'.Watched ours client busy := by
  induction hf with
  | refl => exact h
  | call b o flag status =>
    refine ⟨?_, fun x w hw => h.waiter x w (Fires.mem_waiters (.call b o flag status) hw),
      h.endpoint⟩
    have harmed : (b.fire o ((b.signal o).setSignal flag status)).armed = update b.armed o
        ((b.signal o).setSignal flag status).signal.serviceKeys := by
      funext x
      by_cases hx : x = o
      · rw [hx, armed, fire_signal, update_self, update_self]
      · rw [armed, fire_signal, update_of_ne hx, update_of_ne hx, armed]
    rw [harmed, fire, map_append, notification_keys]
    have hperm := ((b.signal o).setSignal_perm flag status).filterMap serviceKey
    rw [filterMap_append] at hperm
    exact h.tokens.fire h.endpoint hperm
  | trans _ _ ih ih' => exact ih' (ih h)

theorem waiter_wait (h : b.Watched ours client busy) (hw : ours w) (o : O) :
    ∀ x, ∀ v ∈ ((b.wait o w).signal x).signalWaiters, ours v := by
  intro x v hv
  by_cases hx : x = o
  · rw [hx, wait_signal, update_self] at hv
    rcases mem_append.1 hv with hv | hv
    · exact h.waiter o v hv
    · exact mem_singleton.1 hv ▸ hw
  · rw [wait_signal, update_of_ne hx] at hv
    exact h.waiter x v hv

/-- Somebody else waits. -/
theorem wait (h : b.Watched ours client busy) (hnone : serviceKey w = none) (hw : ours w) (o : O) :
    (b.wait o w).Watched ours client busy := by
  refine ⟨?_, h.waiter_wait hw o, h.endpoint⟩
  rw [wait_armed_none hnone]
  exact h.tokens

theorem arm (h : b.Watched ours client (key :: busy)) {registration : Nat}
    (hclient : client key o ∨ (b.signal o).signalStatus.intersects .readable = true)
    (hours : ours ⟨.port initPort key, .readable, registration⟩) :
    (b.arm o key registration).Watched ours client busy := by
  unfold Board.arm
  split
  · refine ⟨?_, h.waiter, h.endpoint⟩
    rw [map_append]
    exact h.tokens.requeue
  · next hquiet =>
    refine ⟨?_, h.waiter_wait hours o, h.endpoint⟩
    rw [wait_armed]
    exact h.tokens.arm (hclient.resolve_right hquiet) h.endpoint

omit [DecidableEq O] in
theorem pop (h : b.Watched ours client busy) {ev : PortNotification} {rest : List PortNotification}
    (hport : b.port = ev :: rest) :
    Watched { b with port := rest } ours client (ev.key :: busy) where
  tokens := by
    have htokens := h.tokens
    rw [hport, map_cons] at htokens
    exact htokens.take
  waiter := h.waiter
  endpoint := h.endpoint

end Watched

end Board

namespace Endpoints

variable {n : Endpoints}

def board (n : Endpoints) : Board Nat := ⟨fun e => (n.channel e).signal, n.port⟩

theorem put_board (e : Nat) (chan : KChannelInner) {call : SetSignal}
    (hchan : chan.signal = call.signal) : (n.put e chan call).board = n.board.fire e call := by
  refine Board.ext (funext fun x => ?_) rfl
  by_cases hx : x = e
  · simp [hx, board, hchan, Board.fire]
  · simp [board, put_channel_ne n _ _ hx, Board.fire, hx]

theorem send_fires (n : Endpoints) (e : Nat) (msg : ChannelMessage) :
    n.board.Fires (n.send e msg).board := by
  rcases n.send_cases e msg with h | ⟨chan, call, -, hsend, h⟩
  · rw [h]
    exact .refl _
  · obtain ⟨-, -, rfl, hchan⟩ := KChannelInner.send_eq_some hsend
    rw [h]
    show n.board.Fires (n.put _ _ _).board
    rw [put_board _ chan (by rw [hchan])]
    exact .call ..

theorem finishRead_fires (n : Endpoints) (e : Nat) (read : ChannelRead) :
    n.board.Fires (n.finishRead e ((n.channel e).sysRead read)).board := by
  rcases n.finishRead_cases e read with h | ⟨packet, rest, -, -, h⟩
  · rw [h]
    exact .refl _
  · rw [h]
    show n.board.Fires (n.put _ _ _).board
    rw [put_board _ _ rfl]
    exact .call ..

theorem close_fires (n : Endpoints) (e : Nat) : n.board.Fires (n.close e).board := by
  have hself : n.board.Fires (n.closeSelf e).board := by
    show n.board.Fires (n.put e (n.channel e).closeSelf.1 (n.channel e).closeSelf.2).board
    rw [put_board _ _ rfl]
    exact .call ..
  refine hself.trans ?_
  show (n.closeSelf e).board.Fires ((n.closeSelf e).closePeerOf e).board
  rcases (n.closeSelf e).closePeerOf_cases e with ⟨-, h⟩ | ⟨-, h⟩
  · rw [h]
    exact .refl _
  · rw [h, put_board _ _ rfl]
    exact .call ..

theorem create_fires (hfresh : ∀ e, n.next ≤ e → n.channel e = .new) :
    n.board.Fires n.create.board := by
  have hboard : n.create.board = n.board :=
    Board.ext (funext fun x => congrArg KChannelInner.signal (create_channel hfresh x)) rfl
  rw [hboard]
  exact .refl _

theorem arm_board (n : Endpoints) (e : Nat) (key : Key) :
    (n.arm e initPort key).board = n.board.arm e key n.registrations := by
  rcases n.arm_cases e initPort key with ⟨hready, h⟩ | ⟨hquiet, h⟩
  · rw [h]
    exact (if_pos hready).symm
  · rw [h]
    have hwait : n.board.arm e key n.registrations = n.board.wait e _ :=
      if_neg (ne_true_of_eq_false hquiet)
    rw [hwait]
    refine Board.ext (funext fun x => ?_) rfl
    by_cases hx : x = e
    · simp [hx, board, channel, Board.wait]
    · simp [hx, board, channel, Board.wait]

end Endpoints

end Fioxa
