import Fioxa.Init.Service

/-! # What the channel operations do

One inversion says what an operation does to one endpoint (`EndMove`), and the endpoints are intact
queues whose signals mirror their contents (`Ok`). `Traffic` is what a conversation over an endpoint
is made of: what is queued, and what has been sent and received. -/

namespace Fioxa

open List Option Nat KChannelInner Function

theorem KChannelInner.send_isSome (chan : KChannelInner) (msg : ChannelMessage) :
    (chan.send msg).isSome = (chan.isOpen && decide (chan.queue.length ≤ channelCapacity)) := by
  unfold KChannelInner.send
  cases chan.isOpen with
  | false => rfl
  | true =>
    by_cases hroom : channelCapacity < chan.queue.length
    · simp [hroom]
    · simp [hroom, Nat.le_of_not_lt hroom]

theorem mapM_eq_some {α β : Type} {f : α → Option β} {xs : List α} {ys : List β} :
    xs.mapM f = some ys ↔ xs.map f = ys.map some := by
  induction xs generalizing ys with
  | nil => cases ys <;> simp
  | cons x xs ih =>
    cases hx : f x with
    | none => cases ys <;> simp [mapM_cons, hx]
    | some =>
      cases ys with
      | nil => simp [mapM_cons, hx, bind_eq_some_iff]
      | cons => simp [mapM_cons, hx, ← ih, bind_eq_some_iff, and_comm]

namespace Endpoints

variable {n n' : Endpoints}

/-- The effect of an operation on endpoint `e`. -/
inductive EndMove (n n' : Endpoints) (e : Nat) : Prop where
  | same (hchan : n'.channel e = n.channel e) (hsent : n'.sent e = n.sent e)
      (hreceived : n'.received e = n.received e)
  | waiter (halive : n.alive e = true) (w)
      (hquiet : (n.channel e).signal.signalStatus.intersects w.mask = false)
      (hchan : n'.channel e = { n.channel e with signal := (n.channel e).signal.wait w })
      (hsent : n'.sent e = n.sent e) (hreceived : n'.received e = n.received e)
  | send (halive : n.alive e = true) (msg call)
      (hsend : (n.channel e).send msg = some (n'.channel e, call))
      (hsent : n'.sent e = n.sent e ++ [msg]) (hreceived : n'.received e = n.received e)
  | read (halive : n.alive e = true) (packet rest) (hqueue : (n.channel e).queue = packet :: rest)
      (hchan : n'.channel e
        = ⟨((n.channel e).signal.setSignal .readable (!rest.isEmpty)).signal, (n.channel e).isOpen,
            rest⟩)
      (hsent : n'.sent e = n.sent e) (hreceived : n'.received e = n.received e ++ [packet])
  | closeSelf (halive : n.alive e = true) (hdead : n'.alive e = false)
      (hchan : n'.channel e = (n.channel e).closeSelf.1)
  | closePeer (halive : n.alive e = true) (hchan : n'.channel e = (n.channel e).closePeer.1)
      (hsent : n'.sent e = n.sent e) (hreceived : n'.received e = n.received e)

variable (n) {e : Nat}

@[simp] theorem put_channel_self (e : Nat) (chan : KChannelInner)
    (call : SetSignal) : (n.put e chan call).channel e = chan := by simp [put, channel]

theorem put_channel_ne {x : Nat} (chan : KChannelInner) (call : SetSignal)
    (hx : x ≠ e) : (n.put e chan call).channel x = n.channel x := by simp [put, channel, hx]

@[simp] theorem put_peer (e : Nat) (chan : KChannelInner) (call : SetSignal) :
    (n.put e chan call).peer = n.peer := by
  funext x
  by_cases hx : x = e
  · subst hx; simp [put, peer]
  · simp [put, peer, hx]

theorem send_cases (e : Nat) (msg : ChannelMessage) :
    n.send e msg = n ∨
    ∃ chan call, n.alive (n.peer e) = true ∧
      (n.channel (n.peer e)).send msg = some (chan, call) ∧
      n.send e msg = { n.put (n.peer e) chan call with
        sent := update n.sent (n.peer e) (n.sent (n.peer e) ++ [msg]) } := by
  unfold send
  split
  · next halive =>
    split
    · exact .inl rfl
    · next chan call hsend => exact .inr ⟨chan, call, halive, hsend, rfl⟩
  · exact .inl rfl

theorem send_endMove (e : Nat) (msg : ChannelMessage) (x : Nat) : EndMove n (n.send e msg) x := by
  rcases n.send_cases e msg with h | ⟨chan, call, halive, hsend, h⟩
  · rw [h]; exact .same rfl rfl rfl
  · rw [h]
    by_cases hx : x = n.peer e
    · subst hx
      exact .send halive msg call (hsend.trans (by simp [channel, put])) (by simp) rfl
    · exact .same (by simp [channel, put, hx]) (by simp [hx]) rfl

theorem finishRead_cases (e : Nat) (read : ChannelRead) :
    n.finishRead e ((n.channel e).sysRead read) = n ∨
    ∃ packet rest, (n.channel e).queue = packet :: rest ∧
      KChannelInner.Fits packet read.dataLen read.handlesLen ∧
      n.finishRead e ((n.channel e).sysRead read) = { n.put e
              ⟨((n.channel e).signal.setSignal .readable (!rest.isEmpty)).signal,
                (n.channel e).isOpen, rest⟩
              ((n.channel e).signal.setSignal .readable (!rest.isEmpty)) with
            received := update n.received e (n.received e ++ [packet]) } := by
  rcases (n.channel e).sysRead_cases read with ⟨-, h⟩ | ⟨_, _, -, -, h⟩ | ⟨packet, rest, hq, hf, h⟩
  · rw [h]; exact .inl rfl
  · rw [h]; exact .inl rfl
  · rw [h]; exact .inr ⟨packet, rest, hq, hf, rfl⟩

theorem finishRead_endMove (halive : n.alive e = true) (read : ChannelRead) (x : Nat) :
    EndMove n (n.finishRead e ((n.channel e).sysRead read)) x := by
  rcases n.finishRead_cases e read with h | ⟨packet, rest, hq, -, h⟩
  · rw [h]; exact .same rfl rfl rfl
  · rw [h]
    by_cases hx : x = e
    · subst hx
      exact .read halive packet rest hq (by simp [channel, put]) rfl (by simp)
    · exact .same (by simp [channel, put, hx]) rfl (by simp [hx])

@[simp] theorem finishRead_alive (e : Nat) (out : SysRead) :
    (n.finishRead e out).alive = n.alive := by
  unfold finishRead
  split <;> rfl

@[simp] theorem finishRead_next (e : Nat) (out : SysRead) : (n.finishRead e out).next = n.next := by
  unfold finishRead
  split <;> rfl

@[simp] theorem send_alive (e : Nat) (msg : ChannelMessage) : (n.send e msg).alive = n.alive := by
  rcases n.send_cases e msg with h | ⟨_, _, -, -, h⟩
  · rw [h]
  · rw [h]; rfl

@[simp] theorem send_next (e : Nat) (msg : ChannelMessage) : (n.send e msg).next = n.next := by
  rcases n.send_cases e msg with h | ⟨_, _, -, -, h⟩
  · rw [h]
  · rw [h]; rfl

theorem send_received (e : Nat) (msg : ChannelMessage) : (n.send e msg).received = n.received := by
  rcases n.send_cases e msg with h | ⟨_, _, -, -, h⟩
  · rw [h]
  · rw [h]; rfl

theorem finishRead_sent (e : Nat) (out : SysRead) : (n.finishRead e out).sent = n.sent := by
  unfold finishRead
  split <;> rfl

@[simp] theorem closeSelf_peer (e : Nat) : (n.closeSelf e).peer = n.peer :=
  put_peer n e (n.channel e).closeSelf.1 (n.channel e).closeSelf.2

theorem closeSelf_channel_ne {x : Nat} (hx : x ≠ e) : (n.closeSelf e).channel x = n.channel x :=
  put_channel_ne n (n.channel e).closeSelf.1 (n.channel e).closeSelf.2 hx

theorem closeSelf_channel_self (e : Nat) :
    (n.closeSelf e).channel e = (n.channel e).closeSelf.1 := by
  simp [closeSelf, channel, put]

/-- The second half of `close`. -/
def closePeerOf (n : Endpoints) (e : Nat) : Endpoints :=
  let p := n.peer e
  if n.alive p then n.put p (n.channel p).closePeer.1 (n.channel p).closePeer.2 else n

theorem closePeerOf_cases (e : Nat) :
    n.alive (n.peer e) = false ∧ n.closePeerOf e = n ∨
    n.alive (n.peer e) = true ∧ n.closePeerOf e
      = n.put (n.peer e) (n.channel (n.peer e)).closePeer.1 (n.channel (n.peer e)).closePeer.2 := by
  unfold closePeerOf
  dsimp only
  split
  · next h => exact .inr ⟨h, rfl⟩
  · next h => exact .inl ⟨by simpa using h, rfl⟩

theorem closePeerOf_endMove (e x : Nat) : EndMove n (n.closePeerOf e) x := by
  rcases n.closePeerOf_cases e with ⟨-, h⟩ | ⟨halive, h⟩
  · rw [h]
    exact .same rfl rfl rfl
  · rw [h]
    by_cases hx : x = n.peer e
    · subst hx
      exact .closePeer halive (put_channel_self ..) rfl rfl
    · exact .same (put_channel_ne _ _ _ hx) rfl rfl

theorem closePeerOf_queue (e x : Nat) :
    ((n.closePeerOf e).channel x).queue = (n.channel x).queue := by
  rcases n.closePeerOf_cases e with ⟨-, h⟩ | ⟨-, h⟩
  · rw [h]
  · rw [h]
    by_cases hx : x = n.peer e
    · rw [hx, put_channel_self]
      rfl
    · rw [put_channel_ne _ _ _ hx]

@[simp] theorem closePeerOf_alive (e : Nat) : (n.closePeerOf e).alive = n.alive := by
  rcases n.closePeerOf_cases e with ⟨-, h⟩ | ⟨-, h⟩
  · rw [h]
  · rw [h]
    rfl

/-- Some endpoints have been closed. -/
structure Shrunk (n n' : Endpoints) : Prop where
  next : n'.next = n.next
  peer : n'.peer = n.peer
  sent : n'.sent = n.sent
  received : n'.received = n.received
  alive : ∀ e, n'.alive e = true → n.alive e = true
  queue : ∀ e, (n'.channel e).queue = (n.channel e).queue ∨
    n'.alive e = false ∧ (n'.channel e).queue = []

theorem Shrunk.refl : Shrunk n n :=
  ⟨rfl, rfl, rfl, rfl, fun _ h => h, fun _ => .inl rfl⟩

variable {n} in
theorem Shrunk.trans {n'' : Endpoints} (h : Shrunk n n') (h' : Shrunk n' n'') : Shrunk n n'' where
  next := h'.next.trans h.next
  peer := h'.peer.trans h.peer
  sent := h'.sent.trans h.sent
  received := h'.received.trans h.received
  alive e he := h.alive e (h'.alive e he)
  queue e := by
    rcases h'.queue e with hq | hq
    · rcases h.queue e with hq' | ⟨hdead, hq'⟩
      · exact .inl (hq.trans hq')
      · refine .inr ⟨?_, hq.trans hq'⟩
        rw [Bool.eq_false_iff]
        intro halive
        rw [h'.alive e halive] at hdead
        cases hdead
    · exact .inr hq

variable {n} in
theorem closeSelf_alive_iff {x : Nat} :
    (n.closeSelf e).alive x = true ↔ x ≠ e ∧ n.alive x = true := by
  show update n.alive e false x = true ↔ _
  by_cases hx : x = e
  · simp [hx]
  · simp [hx]

theorem closeSelf_shrunk (e : Nat) : Shrunk n (n.closeSelf e) where
  next := rfl
  peer := closeSelf_peer n e
  sent := rfl
  received := rfl
  alive x hx := (closeSelf_alive_iff.1 hx).2
  queue x := by
    by_cases hxe : x = e
    · subst hxe
      refine .inr ⟨update_self .., ?_⟩
      rw [closeSelf_channel_self]
      rfl
    · rw [closeSelf_channel_ne n hxe]
      exact .inl rfl

theorem closePeerOf_shrunk (e : Nat) : Shrunk n (n.closePeerOf e) := by
  rcases n.closePeerOf_cases e with ⟨-, h⟩ | ⟨-, h⟩
  · rw [h]
    exact .refl n
  · have hqueue := n.closePeerOf_queue e
    rw [h] at hqueue ⊢
    exact ⟨rfl, put_peer .., rfl, rfl, fun _ hx => hx, fun x => .inl (hqueue x)⟩

theorem close_shrunk (e : Nat) : Shrunk n (n.close e) :=
  (n.closeSelf_shrunk e).trans ((n.closeSelf e).closePeerOf_shrunk e)

theorem close_alive (e : Nat) : (n.close e).alive = update n.alive e false :=
  (n.closeSelf e).closePeerOf_alive e

variable {n}

theorem create_alive_iff {x : Nat} :
    n.create.alive x = true ↔ n.alive x = true ∨ x = n.next ∨ x = n.next + 1 := by
  simp only [create, Function.update_apply]
  split
  · next hx => simp [hx]
  · next hx =>
    split
    · next hx' => simp [hx']
    · next hx' => simp [hx, hx']

theorem create_channel (hfresh : ∀ e, n.next ≤ e → n.channel e = .new) (x : Nat) :
    n.create.channel x = n.channel x := by
  by_cases hl : x = n.next
  · subst hl
    rw [hfresh _ le_rfl]
    simp [create, channel]
  · by_cases hr : x = n.next + 1
    · subst hr
      rw [hfresh _ (le_succ _)]
      simp [create, channel]
    · simp [create, channel, hl, hr]

theorem create_endMove (hfresh : ∀ e, n.next ≤ e → n.channel e = .new) (x : Nat) :
    EndMove n n.create x := .same (create_channel hfresh x) rfl rfl

variable (n)

theorem arm_cases (e : Nat) (p : PortRef) (key : Key) :
    ((n.channel e).signal.signalStatus.intersects .readable = true ∧
      n.arm e p key = { n with port := n.port ++
        [⟨key, .signalOne .readable (n.channel e).signal.signalStatus⟩] }) ∨
    ((n.channel e).signal.signalStatus.intersects .readable = false ∧
      n.arm e p key = { n with
        handle := update n.handle e ⟨{ n.channel e with
              signal := (n.channel e).signal.wait ⟨.port p key, .readable, n.registrations⟩ },
            n.peer e⟩
        registrations := n.registrations + 1 }) := by
  unfold arm
  dsimp only
  split
  · next h => exact .inl ⟨h, rfl⟩
  · next h => exact .inr ⟨by simpa using h, rfl⟩

theorem arm_endMove (halive : n.alive e = true) (p : PortRef) (key : Key)
    (x : Nat) : EndMove n (n.arm e p key) x := by
  rcases n.arm_cases e p key with ⟨-, h⟩ | ⟨hquiet, h⟩
  · rw [h]; exact .same rfl rfl rfl
  · rw [h]
    by_cases hx : x = e
    · subst hx
      exact .waiter halive ⟨.port p key, .readable, n.registrations⟩ hquiet (by simp [channel]) rfl
        rfl
    · exact .same (by simp [channel, hx]) rfl rfl

@[simp] theorem arm_alive (e : Nat) (p : PortRef) (key : Key) :
    (n.arm e p key).alive = n.alive := by
  rcases n.arm_cases e p key with ⟨-, h⟩ | ⟨-, h⟩ <;> rw [h]

@[simp] theorem arm_next (e : Nat) (p : PortRef) (key : Key) : (n.arm e p key).next = n.next := by
  rcases n.arm_cases e p key with ⟨-, h⟩ | ⟨-, h⟩ <;> rw [h]

/-! Who is whose peer only changes for endpoints that are new. -/

theorem send_peer (e : Nat) (msg : ChannelMessage) : (n.send e msg).peer = n.peer := by
  rcases n.send_cases e msg with hs | ⟨chan, call, -, -, hs⟩
  · rw [hs]
  · rw [hs]
    exact put_peer n _ chan call

theorem finishRead_peer (e : Nat) (out : SysRead) : (n.finishRead e out).peer = n.peer := by
  unfold finishRead
  split
  · next packet call _ _ => exact put_peer n e out.chan call
  · rfl

theorem create_peer (he : e < n.next) : n.create.peer e = n.peer e := by
  have h1 : e ≠ n.next := by omega
  have h2 : e ≠ n.next + 1 := by omega
  simp [create, peer, h1, h2]

variable {n}

/-- The endpoints, of which those in `owned` are the service's ends of client channels. -/
structure Ok (n : Endpoints) (owned : Nat → Prop) : Prop where
  alive_lt : ∀ e, n.alive e = true → e < n.next
  fresh : ∀ e, n.next ≤ e → n.channel e = .new ∧ n.sent e = [] ∧ n.received e = []
  quiet : ∀ e, (n.channel e).signal.Quiet
  owned_alive : ∀ e, owned e → n.alive e = true
  delivered : ∀ e, owned e → n.sent e = n.received e ++ (n.channel e).queue
  coherent : ∀ e, owned e → (n.channel e).Coherent

theorem Ok.new {owned : Nat → Prop} (hn : n.Ok owned) (e : Nat) (he : n.next ≤ e) :
    n.channel e = .new := (hn.fresh e he).1

/-- An operation that acts on every endpoint in one of the known ways keeps the endpoints in order;
    the service may lose endpoints, and gain new ones. -/
theorem Ok.move {owned owned' : Nat → Prop} (hn : n.Ok owned) (hm : ∀ e, EndMove n n' e)
    (hnext : n.next ≤ n'.next) (hlt : ∀ e, n'.alive e = true → e < n'.next)
    (halive : ∀ e, owned' e → n'.alive e = true)
    (hgain : ∀ e, owned' e → owned e ∨ n.next ≤ e) : n'.Ok owned' := by
  -- what an endpoint of the service looked like before
  have hbefore : ∀ e, owned' e →
      n.sent e = n.received e ++ (n.channel e).queue ∧ (n.channel e).Coherent := by
    intro e he
    rcases hgain e he with h | h
    · exact ⟨hn.delivered e h, hn.coherent e h⟩
    · obtain ⟨hchan, hsent, hreceived⟩ := hn.fresh e h
      rw [hchan, hsent, hreceived]
      exact ⟨rfl, coherent_new⟩
  refine ⟨hlt, fun e he => ?_, fun e => ?_, halive, fun e he => ?_, fun e he => ?_⟩
  · have hnot : n.alive e ≠ true := fun h => by have := hn.alive_lt e h; omega
    obtain ⟨hchan, hsent, hreceived⟩ := hn.fresh e (by omega)
    cases hm e with
    | same hchan' hsent' hreceived' =>
      exact ⟨hchan'.trans hchan, hsent'.trans hsent, hreceived'.trans hreceived⟩
    | waiter h | send h | read h | closeSelf h | closePeer h => exact absurd h hnot
  · cases hm e with
    | same hchan => exact hchan ▸ hn.quiet e
    | waiter _ w hquiet hchan => exact hchan ▸ (hn.quiet e).wait hquiet
    | send _ msg call hsend =>
      obtain ⟨-, -, rfl, hchan⟩ := send_eq_some hsend
      rw [hchan]
      exact (hn.quiet e).setSignal _ _
    | read _ packet rest hqueue hchan | closeSelf _ _ hchan | closePeer _ hchan =>
      rw [hchan]; exact (hn.quiet e).setSignal _ _
  · obtain ⟨hd, -⟩ := hbefore e he
    cases hm e with
    | same hchan hsent hreceived | waiter _ w _ hchan hsent hreceived =>
      rw [hchan, hsent, hreceived, hd]
    | send _ msg call hsend hsent hreceived =>
      obtain ⟨-, -, -, hchan⟩ := send_eq_some hsend
      rw [hchan, hsent, hreceived, hd, append_assoc]
    | read _ packet rest hqueue hchan hsent hreceived =>
      rw [hchan, hsent, hreceived, hd, hqueue, append_assoc, singleton_append]
    | closeSelf _ hdead => exact absurd (halive e he) (by simp [hdead])
    | closePeer _ hchan hsent hreceived => rw [hchan, hsent, hreceived, hd]; rfl
  · obtain ⟨-, hc⟩ := hbefore e he
    cases hm e with
    | same hchan => exact hchan ▸ hc
    | waiter _ w _ hchan => exact hchan ▸ ⟨hc.readable, hc.closed⟩
    | send _ msg call hsend => exact hc.send hsend
    | read _ packet rest hqueue hchan => exact hchan ▸ hc.take rest
    | closeSelf _ hdead => exact absurd (halive e he) (by simp [hdead])
    | closePeer _ hchan => exact hchan ▸ hc.closePeer

theorem Ok.keep {owned : Nat → Prop} (hn : n.Ok owned) (hm : ∀ e, EndMove n n' e)
    (hnext : n'.next = n.next) (halive : n'.alive = n.alive) : n'.Ok owned := by
  refine hn.move hm (Nat.le_of_eq hnext.symm) ?_ ?_ fun _ => .inl
  · rw [hnext, halive]
    exact hn.alive_lt
  · rw [halive]
    exact hn.owned_alive

theorem Ok.congr {owned owned' : Nat → Prop} (hn : n.Ok owned) (h : ∀ e, owned' e → owned e) :
    n.Ok owned' where
  alive_lt := hn.alive_lt
  fresh := hn.fresh
  quiet := hn.quiet
  owned_alive := fun e he => hn.owned_alive e (h e he)
  delivered := fun e he => hn.delivered e (h e he)
  coherent := fun e he => hn.coherent e (h e he)

section Operations

variable {owned : Nat → Prop}

section

variable (hn : n.Ok owned)
include hn

theorem Ok.send (e : Nat) (msg : ChannelMessage) : (n.send e msg).Ok owned :=
  hn.keep (n.send_endMove e msg) (n.send_next e msg) (n.send_alive e msg)

theorem Ok.port (port : List PortNotification) : { n with port := port }.Ok owned :=
  hn.keep (fun _ => .same rfl rfl rfl) rfl rfl

variable {e : Nat}

theorem Ok.finishRead (halive : n.alive e = true) (read : ChannelRead) :
    (n.finishRead e ((n.channel e).sysRead read)).Ok owned :=
  hn.keep (n.finishRead_endMove halive read) (n.finishRead_next e _) (n.finishRead_alive e _)

theorem Ok.arm (halive : n.alive e = true) (p : PortRef) (key : Key) : (n.arm e p key).Ok owned :=
  hn.keep (n.arm_endMove halive p key) (n.arm_next e p key) (n.arm_alive e p key)

theorem Ok.closeSelf (halive : n.alive e = true) {owned' : Nat → Prop}
    (howned : ∀ x, owned' x → owned x ∧ x ≠ e) : (n.closeSelf e).Ok owned' := by
  refine hn.move (fun x => ?_) le_rfl (fun x hx => hn.alive_lt x (closeSelf_alive_iff.1 hx).2)
    (fun x hx => closeSelf_alive_iff.2 ⟨(howned x hx).2, hn.owned_alive x (howned x hx).1⟩)
    (fun x hx => .inl (howned x hx).1)
  by_cases hxe : x = e
  · subst hxe
    exact .closeSelf halive (update_self ..) (closeSelf_channel_self n x)
  · exact .same (closeSelf_channel_ne n hxe) rfl rfl

theorem Ok.close (halive : n.alive e = true) {owned' : Nat → Prop}
    (howned : ∀ x, owned' x → owned x ∧ x ≠ e) : (n.close e).Ok owned' :=
  (hn.closeSelf halive howned).keep ((n.closeSelf e).closePeerOf_endMove e)
    ((n.closeSelf e).closePeerOf_shrunk e).next ((n.closeSelf e).closePeerOf_alive e)

theorem Ok.create {owned' : Nat → Prop}
    (howned : ∀ x, owned' x → owned x ∨ x = n.next ∨ x = n.next + 1) : n.create.Ok owned' := by
  refine hn.move (create_endMove hn.new) (Nat.le_add_right _ _) (fun x hx => ?_) (fun x hx => ?_)
    fun x hx => ?_
  · show x < n.next + 2
    rcases create_alive_iff.1 hx with hx | rfl | rfl
    · have := hn.alive_lt x hx
      omega
    · omega
    · omega
  · exact create_alive_iff.2 ((howned x hx).imp_left (hn.owned_alive x))
  · rcases howned x hx with hx | rfl | rfl
    · exact .inl hx
    · exact .inr le_rfl
    · exact .inr (le_succ _)

end

/-- All endpoints that exist are in order. -/
abbrev Intact (n : Endpoints) : Prop := n.Ok (fun e => n.alive e = true)

theorem Intact.keep (hn : n.Intact) (hm : ∀ e, EndMove n n' e) (hnext : n'.next = n.next)
    (halive : n'.alive = n.alive) : n'.Intact := by
  unfold Intact
  rw [halive]
  exact Ok.keep hn hm hnext halive

theorem Intact.send (hn : n.Intact) (e : Nat) (msg : ChannelMessage) : (n.send e msg).Intact :=
  hn.keep (n.send_endMove e msg) (n.send_next e msg) (n.send_alive e msg)

theorem Intact.finishRead (hn : n.Intact) (halive : n.alive e = true) (read : ChannelRead) :
    (n.finishRead e ((n.channel e).sysRead read)).Intact :=
  hn.keep (n.finishRead_endMove halive read) (n.finishRead_next e _) (n.finishRead_alive e _)

theorem Intact.create (hn : n.Intact) : n.create.Intact :=
  Ok.create hn fun _ hx => create_alive_iff.1 hx

end Operations

/-! ## Traffic -/

/-- What a conversation over an endpoint is made of. -/
structure Traffic where
  queue : List ChannelMessage
  sent : List ChannelMessage
  received : List ChannelMessage
  isOpen : Bool
  alive : Bool

namespace Traffic

/-- A message is accepted. -/
def push (t : Traffic) (msg : ChannelMessage) : Traffic :=
  { t with queue := t.queue ++ [msg], sent := t.sent ++ [msg] }

/-- The message `packet` is taken and leaves `rest`. -/
def pop (t : Traffic) (packet : ChannelMessage) (rest : List ChannelMessage) : Traffic :=
  { t with queue := rest, received := t.received ++ [packet] }

/-- The endpoint takes another message. -/
structure Ready (t : Traffic) : Prop where
  alive : t.alive = true
  isOpen : t.isOpen = true
  room : t.queue.length ≤ channelCapacity

end Traffic

def traffic (n : Endpoints) (e : Nat) : Traffic :=
  ⟨(n.channel e).queue, n.sent e, n.received e, (n.channel e).isOpen, n.alive e⟩

variable (n) {x : Nat}

theorem traffic_arm (e : Nat) (p : PortRef) (key : Key) (x : Nat) :
    (n.arm e p key).traffic x = n.traffic x := by
  rcases n.arm_cases e p key with ⟨-, h⟩ | ⟨-, h⟩
  · rw [h]; rfl
  · rw [h]
    by_cases hx : x = e
    · subst hx; simp [traffic, channel]
    · simp [traffic, channel, hx]

theorem traffic_send_ne (msg : ChannelMessage) (hx : x ≠ n.peer e) :
    (n.send e msg).traffic x = n.traffic x := by
  rcases n.send_cases e msg with h | ⟨chan, call, -, -, h⟩
  · rw [h]
  · rw [h]; simp [traffic, channel, put, hx]

theorem accepts_iff (e : Nat) (msg : ChannelMessage) :
    n.accepts e msg = true ↔ (n.traffic (n.peer e)).Ready := by
  have hsend := (n.channel (n.peer e)).send_isSome msg
  refine ⟨fun h => ?_, fun h => ?_⟩
  · rw [accepts, Bool.and_eq_true, hsend, Bool.and_eq_true, decide_eq_true_eq] at h
    exact ⟨h.1, h.2.1, h.2.2⟩
  · rw [accepts, Bool.and_eq_true, hsend, Bool.and_eq_true, decide_eq_true_eq]
    exact ⟨h.alive, h.isOpen, h.room⟩

theorem traffic_finishRead_ne (out : SysRead) (hx : x ≠ e) :
    (n.finishRead e out).traffic x = n.traffic x := by
  unfold finishRead
  split
  · simp [traffic, channel, put, hx]
  · rfl

variable {n} {msg : ChannelMessage}

theorem traffic_send_ready (h : (n.traffic (n.peer e)).Ready) (msg : ChannelMessage) :
    (n.send e msg).traffic (n.peer e) = (n.traffic (n.peer e)).push msg := by
  obtain ⟨halive, hsome⟩ := Bool.and_eq_true_iff.1 ((n.accepts_iff e msg).2 h)
  obtain ⟨⟨chan, call⟩, hsend⟩ := isSome_iff_exists.1 hsome
  obtain ⟨-, -, -, rfl⟩ := send_eq_some hsend
  unfold send
  rw [if_pos halive, hsend]
  simp [traffic, channel, put, Traffic.push]

theorem traffic_send (h : n.accepts e msg = true) : (n.send e msg).traffic
    = update n.traffic (n.peer e) ((n.traffic (n.peer e)).push msg) := by
  funext x
  by_cases hx : x = n.peer e
  · rw [hx, update_self, traffic_send_ready ((n.accepts_iff e msg).1 h)]
  · rw [update_of_ne hx, n.traffic_send_ne msg hx]

theorem send_refused (h : ¬ (n.traffic (n.peer e)).Ready) (msg : ChannelMessage) :
    n.send e msg = n := by
  rcases n.send_cases e msg with hs | ⟨chan, call, halive, hsend, -⟩
  · exact hs
  · refine absurd ((n.accepts_iff e msg).1 ?_) h
    simp [accepts, halive, hsend]

theorem traffic_finishRead (read : ChannelRead) {packet : ChannelMessage}
    {rest : List ChannelMessage} (hq : (n.channel e).queue = packet :: rest)
    (hfit : KChannelInner.Fits packet read.dataLen read.handlesLen) :
    (n.finishRead e ((n.channel e).sysRead read)).traffic e = (n.traffic e).pop packet rest := by
  rcases (n.channel e).sysRead_cases read with ⟨hq', -⟩ | ⟨_, _, hq', hf, -⟩ | ⟨_, _, hq', -, hr⟩
  · exact absurd (hq.symm.trans hq') (by simp)
  · obtain ⟨rfl, rfl⟩ := List.cons.inj (hq.symm.trans hq')
    exact absurd hfit hf
  · obtain ⟨rfl, rfl⟩ := List.cons.inj (hq.symm.trans hq')
    rw [hr]
    simp [finishRead, traffic, channel, put, Traffic.pop]

theorem traffic_of_packet {read : ChannelRead} {packet : ChannelMessage}
    (h : ((n.channel e).sysRead read).packet = some packet) :
    ∃ rest, (n.channel e).queue = packet :: rest ∧
      (n.finishRead e ((n.channel e).sysRead read)).traffic
        = update n.traffic e ((n.traffic e).pop packet rest) := by
  rcases (n.channel e).sysRead_cases read with ⟨-, hr⟩ | ⟨_, _, -, -, hr⟩ | ⟨_, rest, hq, hfit, hr⟩
  · rw [hr] at h
    cases h
  · rw [hr] at h
    cases h
  · rw [hr] at h
    cases h
    refine ⟨rest, hq, funext fun x => ?_⟩
    by_cases hx : x = e
    · rw [hx, update_self, traffic_finishRead read hq hfit]
    · rw [update_of_ne hx, n.traffic_finishRead_ne _ hx]

theorem mem_send_queue {m : ChannelMessage} (hm : m ∈ ((n.send e msg).channel x).queue) :
    m ∈ (n.channel x).queue ∨ m = msg := by
  rcases n.send_cases e msg with hs | ⟨chan, call, -, hsend, hs⟩
  · exact .inl (hs ▸ hm)
  · obtain ⟨-, -, -, rfl⟩ := send_eq_some hsend
    rw [hs] at hm
    by_cases hx : x = n.peer e
    · have hm : m ∈ (n.channel x).queue ++ [msg] := by simpa [channel, put, hx] using hm
      exact (mem_append.1 hm).imp_right mem_singleton.1
    · exact .inl (by simpa [channel, put, hx] using hm)

theorem mem_finishRead_queue {read : ChannelRead} {m : ChannelMessage}
    (hm : m ∈ ((n.finishRead e ((n.channel e).sysRead read)).channel x).queue) :
    m ∈ (n.channel x).queue := by
  rcases n.finishRead_cases e read with hr | ⟨packet, rest, hq, -, hr⟩
  · exact hr ▸ hm
  · rw [hr] at hm
    by_cases hx : x = e
    · subst hx
      exact hq ▸ mem_cons_of_mem packet (by simpa [channel, put] using hm)
    · simpa [channel, put, hx] using hm

variable (n)

theorem traffic_close_ne (hx : x ≠ e) (hp : x ≠ n.peer e) :
    (n.close e).traffic x = n.traffic x := by
  have hchan : (n.close e).channel x = n.channel x := by
    refine .trans ?_ (closeSelf_channel_ne n hx)
    rcases (n.closeSelf e).closePeerOf_cases e with ⟨-, h⟩ | ⟨-, h⟩
    · exact congrArg (channel · x) h
    · exact (congrArg (channel · x) h).trans (put_channel_ne _ _ _ (by rwa [closeSelf_peer]))
  simp [traffic, hchan, close_alive, hx, (n.close_shrunk e).sent, (n.close_shrunk e).received]

variable {n} in
theorem traffic_close_peer (hne : n.peer e ≠ e) (halive : n.alive (n.peer e) = true) :
    (n.close e).traffic (n.peer e) = { n.traffic (n.peer e) with isOpen := false } := by
  have halive' : (n.closeSelf e).alive (n.peer e) = true := by
    simpa [closeSelf, hne] using halive
  unfold close
  simp only [closeSelf_peer, if_pos halive', closeSelf_channel_ne n hne]
  simp [traffic, closeSelf, channel, put, KChannelInner.closePeer, hne]

theorem traffic_create (hx : x < n.next) : n.create.traffic x = n.traffic x := by
  have hl : x ≠ n.next := Nat.ne_of_lt hx
  have hr : x ≠ n.next + 1 := Nat.ne_of_lt (lt_succ_of_lt hx)
  simp [traffic, create, channel, hl, hr]

theorem arm_peer (e : Nat) (p : PortRef) (key : Key) : (n.arm e p key).peer = n.peer := by
  rcases n.arm_cases e p key with ⟨-, h⟩ | ⟨-, h⟩
  · rw [h]; rfl
  · rw [h]
    funext x
    by_cases hx : x = e
    · subst hx; simp [peer]
    · simp [peer, hx]

end Endpoints

end Fioxa
