import Fioxa.Init.Line

/-! # One call of `work_on_chan`

The loop of `work_on_chan` reads one message after another and acts on each. When a message does not
fit its buffer the loop enlarges the buffer, but then goes on to parse what the buffer holds, which
is still the previous message. So a call that returns `true` has acted on exactly what it read, in
order, if and only if nothing it read exceeded the initial buffer. -/

namespace Fioxa

open List Endpoints Codec Lts

namespace Endpoints

/-- Nothing is read from `e`; messages may be added. -/
def Grows (n n' : Endpoints) (e : Nat) : Prop :=
  n'.received e = n.received e ∧ ∃ more, (n'.channel e).queue = (n.channel e).queue ++ more

theorem Grows.refl (n : Endpoints) (e : Nat) : n.Grows n e := ⟨rfl, [], by simp⟩

theorem EndMove.grows {n n' : Endpoints} {e : Nat} (h : EndMove n n' e)
    (hreceived : n'.received e = n.received e) (halive : n'.alive e = true) : n.Grows n' e := by
  cases h with
  | same hchan | waiter _ w _ hchan => exact ⟨hreceived, [], by simp [hchan]⟩
  | send _ msg call hsend =>
    obtain ⟨-, -, -, hchan⟩ := KChannelInner.send_eq_some hsend
    exact ⟨hreceived, [msg], by rw [hchan]⟩
  | read _ packet rest _ _ _ htaken => exact absurd (htaken.symm.trans hreceived) (by simp)
  | closeSelf _ hdead => exact absurd halive (by simp [hdead])
  | closePeer _ hchan => exact ⟨hreceived, [], by rw [hchan, append_nil]; rfl⟩

theorem Shrunk.grows {n n' : Endpoints} {e : Nat} (h : Shrunk n n') (halive : n'.alive e = true) :
    n.Grows n' e := by
  rcases h.queue e with hq | ⟨hdead, -⟩
  · exact ⟨congrFun h.received e, [], by rw [hq, append_nil]⟩
  · rw [halive] at hdead
    cases hdead

end Endpoints

namespace InitWorld

variable {Name : Type} [DecidableEq Name]

/-- Acting on one message: its request and, for `PublishHandle`, the handle that came with it. -/
def asExecuted (c : Codec Name) (packet : ChannelMessage) : Option (Executed Name) :=
  match c.deserialize packet.data with
  | none => none
  | some (.publishHandle name) => some ⟨.publishHandle name, packet.handles.bind List.head?⟩
  | some msg => some ⟨msg, none⟩

/-- A message that the loop cannot read into its initial buffer and handle slot. -/
def Oversized (packet : ChannelMessage) : Prop := ¬ KChannelInner.Fits packet 100 1

/-- What a call has done so far. Either it has acted on just what it read, and the buffer is still
    the initial one; or it has acted on something more often than it read, and there is an
    oversized message among those it read or (as long as it has not returned) at the head of the
    queue. -/
inductive Progress (c : Codec Name) (w : Work Name) (queue : List ChannelMessage) : Prop where
  | faithful (hcap : w.cap = 100) (hexec : w.executed.map some = w.consumed.map (asExecuted c))
      (hsmall : ∀ m ∈ w.consumed, m.data.length ≤ 100)
  | repeated (hlen : w.consumed.length < w.executed.length)
      (hbig : (∃ m ∈ w.consumed, 100 < m.data.length) ∨ ∃ m ∈ queue.head?, Oversized m)

/-- The invariant of a call on endpoint `e`. -/
structure Call (c : Codec Name) (s : InitWorld Name) (w : Work Name) (queue : List ChannelMessage)
    (e : Nat) : Prop where
  received : s.net.received e = w.before ++ w.consumed
  progress : Progress c w queue

/-- While the service works for a client, and once it has returned `true` (when nothing was left to
    read). -/
def Working (c : Codec Name) (s : InitWorld Name) : Prop :=
  match s.pc with
  | .work _ w => ∀ e, s.refs.value w.chan = some (.channel e) →
      Call c s w (s.net.channel e).queue e
  | .rearm _ w => ∀ e, s.refs.value w.chan = some (.channel e) → Call c s w [] e
  | _ => True

/-! ## Acting on a message -/

variable {c : Codec Name} {s t : InitWorld Name} {key : Key} {w w' : Work Name}
  {packet : ChannelMessage}

theorem asExecuted_of_dispatched {key' : Key} (hdata : w.data = packet.data)
    (hslot : packet.handlesLen = 1 → ∀ publisher, w.slot = some publisher →
      s.refs.value publisher = packet.handles.bind List.head?)
    (hd : Dispatched c s key w packet.handlesLen t) (hpc : t.pc = .work key' w') :
    ∃ x, w'.executed = w.executed ++ [x] ∧ asExecuted c packet = some x := by
  unfold asExecuted
  rw [← hdata]
  cases hd with
  | refused | undefined => cases hpc
  | found name handle hmsg | notFound name hmsg | cloning hmsg =>
    cases hpc
    exact ⟨_, rfl, by rw [hmsg]⟩
  | published name publisher hmsg hlen hpub =>
    cases hpc
    exact ⟨_, rfl, by rw [hmsg, hslot hlen publisher hpub]⟩

theorem work_of_dispatched {key' : Key} {handlesLen : Nat} (hd : Dispatched c s key w handlesLen t)
    (hpc : t.pc = .work key' w') :
    t.net = s.net ∧ t.refs = s.refs ∧ w'.chan = w.chan ∧ w'.cap = w.cap ∧ w'.before = w.before ∧
      w'.consumed = w.consumed ∧ ∃ x, w'.executed = w.executed ++ [x] := by
  cases hd with
  | refused | undefined => cases hpc
  | found | notFound | published | cloning =>
    cases hpc; exact ⟨rfl, rfl, rfl, rfl, rfl, rfl, _, rfl⟩

theorem Working.dispatched {u : InitWorld Name} {handlesLen : Nat}
    (hd : Dispatched c u key w handlesLen t)
    (h : ∀ w', t.pc = .work key w' → ∀ e, t.refs.value w'.chan = some (.channel e) →
      Call c t w' (t.net.channel e).queue e) : t.Working c := by
  cases hd with
  | refused | undefined => trivial
  | found | notFound | published | cloning => exact h _ rfl

variable {rest : List ChannelMessage}

omit [DecidableEq Name] in
theorem Progress.take {x : Executed Name} (hp : Progress c w (packet :: rest))
    (hfit : KChannelInner.Fits packet w.cap 1) (hcap : w'.cap = w.cap)
    (hconsumed : w'.consumed = w.consumed ++ [packet]) (hexec : w'.executed = w.executed ++ [x])
    (hx : asExecuted c packet = some x) : Progress c w' rest := by
  cases hp with
  | faithful hcap' hmap hsmall =>
    rw [hcap'] at hfit
    refine .faithful (hcap.trans hcap') ?_ ?_
    · rw [hexec, hconsumed, map_append, map_append, hmap, map_singleton, map_singleton, hx]
    · intro m hm
      rw [hconsumed] at hm
      rcases mem_append.1 hm with hm | hm
      · exact hsmall m hm
      · rw [mem_singleton.1 hm]
        exact hfit.1
  | repeated hlen hbig =>
    refine .repeated ?_ (.inl ?_)
    · rw [hexec, hconsumed, length_append, length_append]
      simpa using hlen
    · rw [hconsumed]
      rcases hbig with ⟨m, hm, hm'⟩ | ⟨m, hm, hm'⟩
      · exact ⟨m, mem_append_left _ hm, hm'⟩
      · -- the head was oversized, but not for its handles
        obtain rfl : packet = m := by simpa using hm
        refine ⟨packet, mem_append_right _ (mem_singleton_self _), ?_⟩
        refine Decidable.of_not_not fun hle => hm' ⟨by omega, hfit.2⟩

omit [DecidableEq Name] in
theorem Progress.stale {x : Executed Name} (hp : Progress c w (packet :: rest))
    (hfit : ¬ KChannelInner.Fits packet w.cap 1) (hconsumed : w'.consumed = w.consumed)
    (hexec : w'.executed = w.executed ++ [x]) : Progress c w' (packet :: rest) := by
  cases hp with
  | faithful hcap hmap =>
    rw [hcap] at hfit
    have hlen : w.executed.length = w.consumed.length := by
      simpa using congrArg List.length hmap
    refine .repeated ?_ (.inr ⟨packet, by simp, hfit⟩)
    rw [hexec, hconsumed, length_append, hlen]
    simp
  | repeated hlen hbig =>
    refine .repeated ?_ ?_
    · rw [hexec, hconsumed, length_append]
      omega
    · rw [hconsumed]
      exact hbig

omit [DecidableEq Name] in
theorem Progress.grow {queue queue' : List ChannelMessage} (hp : Progress c w queue)
    (hq : ∃ more, queue' = queue ++ more) (phase : Phase) :
    Progress c { w with phase := phase } queue' := by
  cases hp with
  | faithful hcap hmap hsmall => exact .faithful hcap hmap hsmall
  | repeated hlen hbig =>
    refine .repeated hlen (hbig.imp (fun h => h) ?_)
    rintro ⟨m, hm, hm'⟩
    obtain ⟨more, rfl⟩ := hq
    cases queue with
    | nil => cases hm
    | cons => exact ⟨m, hm, hm'⟩

/-! ## Whole calls -/

omit [DecidableEq Name] in
theorem Working.advance (hw : s.Working c) (phase : Phase) (hpc : s.pc = .work key w)
    (hpc' : t.pc = .work key { w with phase := phase })
    (hgrow : ∀ e, t.refs.value w.chan = some (.channel e) →
      s.refs.value w.chan = some (.channel e) ∧ s.net.Grows t.net e) : t.Working c := by
  unfold Working at hw ⊢
  rw [hpc] at hw
  rw [hpc']
  intro e he
  obtain ⟨he', hreceived, hqueue⟩ := hgrow e he
  obtain ⟨hrec, hprog⟩ := hw e he'
  exact ⟨hreceived.trans hrec, hprog.grow hqueue phase⟩

omit [DecidableEq Name] in
theorem Working.env (hw : s.Working c) (hpc : t.pc = s.pc) (hrefs : t.refs = s.refs)
    (hgrow : ∀ key id e, s.pc.job = some (key, id) → s.refs.value id = some (.channel e) →
      s.net.Grows t.net e) : t.Working c := by
  cases hs : s.pc with
  | work key w =>
    refine hw.advance w.phase hs (hpc.trans hs) fun e he => ?_
    rw [hrefs] at he
    exact ⟨he, hgrow key w.chan e (by rw [hs]; rfl) he⟩
  | rearm key w =>
    unfold Working at hw ⊢
    rw [hpc, hs]
    rw [hs] at hw
    intro e he
    rw [hrefs] at he
    obtain ⟨hrec, hprog⟩ := hw e he
    exact ⟨(hgrow key w.chan e (by rw [hs]; rfl) he).1.trans hrec, hprog⟩
  | starting | portWait | remove | dead => unfold Working; rw [hpc, hs]; trivial

omit [DecidableEq Name] in
theorem taken_slot (s : InitWorld Name) (e : Nat) (w : Work Name) (packet : ChannelMessage)
    (hlen : packet.handlesLen = 1) {publisher : Nat}
    (hslot : (s.taken e w packet).2 = some publisher) :
    (s.taken e w packet).1.refs.value publisher = packet.handles.bind List.head? := by
  unfold taken receiveHandles at hslot ⊢
  cases hh : packet.handles with
  | none => exact absurd hlen (by simp [ChannelMessage.handlesLen, hh])
  | some values =>
    cases values with
    | nil => exact absurd hlen (by simp [ChannelMessage.handlesLen, hh])
    | cons =>
      rw [hh] at hslot
      cases hslot
      simp [ProcessReferences.addValue]

theorem Working.take (hb : s.Base) (hw : s.Working c) {e : Nat} (hpc : s.pc = .work key w)
    (hid : s.refs.value w.chan = some (.channel e)) (hq : (s.net.channel e).queue = packet :: rest)
    (hfit : KChannelInner.Fits packet w.cap 1) (hd : Dispatched c (s.taken e w packet).1 key
      { w with
        data := packet.data, slot := (s.taken e w packet).2
        consumed := w.consumed ++ [packet] } packet.handlesLen t) : t.Working c := by
  have hlt := hb.ref_lt (hb.job_mem (job_work hpc))
  refine .dispatched hd fun w' hpc' e' he' => ?_
  obtain ⟨x, hexec, hx⟩ := asExecuted_of_dispatched rfl
    (fun hlen publisher hslot => taken_slot s e w packet hlen hslot) hd hpc'
  obtain ⟨hnet, hrefs, hchan, hcap, hbefore, hconsumed, -⟩ := work_of_dispatched hd hpc'
  rw [hrefs, hchan, taken_value e w packet hlt, hid] at he'
  obtain rfl : e = e' := by simpa using he'
  rw [Working, hpc] at hw
  obtain ⟨hrec, hprog⟩ := hw e hid
  rw [hq] at hprog
  have htraffic := traffic_finishRead ⟨w.cap, 1⟩ hq hfit
  rw [← taken_net, ← hnet] at htraffic
  refine ⟨?_, ?_⟩
  · rw [show t.net.received e = s.net.received e ++ [packet] from
      congrArg Traffic.received htraffic, hbefore, hconsumed, hrec, append_assoc]
  · rw [show (t.net.channel e).queue = rest from congrArg Traffic.queue htraffic]
    exact hprog.take hfit hcap hconsumed hexec hx

theorem Working.stale (hw : s.Working c) {e cap : Nat} (hpc : s.pc = .work key w)
    (hid : s.refs.value w.chan = some (.channel e)) (hq : (s.net.channel e).queue = packet :: rest)
    (hfit : ¬ KChannelInner.Fits packet w.cap 1)
    (hd : Dispatched c s key { w with cap := cap } packet.handlesLen t) : t.Working c := by
  refine .dispatched hd fun w' hpc' e' he' => ?_
  obtain ⟨hnet, hrefs, hchan, -, hbefore, hconsumed, x, hexec⟩ := work_of_dispatched hd hpc'
  rw [hrefs, hchan, hid] at he'
  obtain rfl : e = e' := by simpa using he'
  rw [Working, hpc] at hw
  obtain ⟨hrec, hprog⟩ := hw e hid
  rw [hq] at hprog
  refine ⟨by rw [hnet, hbefore, hconsumed, hrec], ?_⟩
  rw [hnet, hq]
  exact hprog.stale hfit hconsumed hexec

variable {g : Growth}

theorem Working.move {a : Action} (hb : s.Base) (hw : s.Working c) (m : Move c g s a t) :
    t.Working c := by
  have hb' : t.Base := hb.move m
  -- an endpoint of a client stays alive
  have halive : ∀ {key id e}, t.pc.job = some (key, id) → t.refs.value id = some (.channel e) →
      t.net.alive e = true := fun hjob he => hb'.alive (hb'.job_mem hjob) he
  cases m with
  | die | collide | started | startArm | giveUp | rearm | forgotten | remove => trivial
  | pop notif rest id =>
    intro e he
    refine ⟨?_, .faithful rfl rfl (by simp [startWork])⟩
    replace he : s.refs.value id = some (.channel e) := he
    simp [startWork, he]
  | finish key w e hpc hphase hid hq =>
    intro e' he'
    rw [Working, hpc] at hw
    obtain ⟨hrec, hprog⟩ := hw e hid
    obtain rfl : e = e' := by simpa using hid.symm.trans he'
    rw [hq] at hprog
    exact ⟨hrec, hprog⟩
  | take key w e packet rest hpc hphase hid hq hfit =>
    exact hw.take hb hpc hid hq hfit (dispatch_dispatched c _ key _ _)
  | stale key w e packet rest cap hpc hphase hid hq hfit =>
    exact hw.stale hpc hid hq hfit (dispatch_dispatched c _ key _ _)
  | createPair key w handle hpc | createClone key w id hpc =>
    refine hw.advance _ hpc rfl fun e he => ?_
    have hval := hb.channelCreate_value (hb.job_mem (job_work hpc))
    have hmove := create_endMove (fun x hx => (hb.net.fresh x hx).1) e
    exact ⟨hval.symm.trans he, hmove.grows rfl (halive rfl he)⟩
  | notify key w handle left right x values hpc
  | reply key w byte handles drops x values hpc =>
    exact hw.advance _ hpc rfl fun e he => ⟨he, (s.net.send_endMove x _ e).grows
      (by rw [send_received]) (halive rfl he)⟩
  | armClone key w id right x p hpc hphase hid =>
    exact hw.advance _ hpc rfl fun e he => ⟨he,
      (s.net.arm_endMove (hb.alive (hb.job_mem (job_work hpc)) hid) p id e).grows
        (congrArg Traffic.received (s.net.traffic_arm ..)) (halive rfl he)⟩
  | dropped key w hpc =>
    exact hw.advance _ hpc rfl fun e he => ⟨he, Endpoints.Grows.refl _ e⟩
  | drop key w id rest hpc =>
    refine hw.advance _ hpc rfl fun e he => ⟨?_, Endpoints.Grows.refl _ e⟩
    replace he : (s.refs.remove id).value w.chan = some (.channel e) := he
    by_cases hid : w.chan = id
    · rw [hid] at he
      exact absurd he (by simp [ProcessReferences.remove])
    · rwa [RefsOk.remove_ne s.refs hid] at he
  | envSend x msg =>
    exact hw.env rfl rfl fun key id e hjob he => (s.net.send_endMove x msg e).grows
      (by rw [send_received]) (halive hjob he)
  | envRead x maxBytes maxHandles hx hown =>
    refine hw.env rfl rfl fun key id e hjob he => ?_
    have hne : e ≠ x := fun h => hown (h ▸ hb.job_owned hjob he)
    exact (s.net.finishRead_endMove hx _ e).grows
      (congrArg Traffic.received (s.net.traffic_finishRead_ne _ hne)) (halive hjob he)
  | envDrop x hx =>
    exact hw.env rfl rfl fun key id e hjob he => (s.net.close_shrunk x).grows (halive hjob he)
  | envCreate =>
    exact hw.env rfl rfl fun key id e hjob he =>
      (create_endMove (fun x hx => (hb.net.fresh x hx).1) e).grows rfl (halive hjob he)

theorem working_of_reachable {m : Nat} (h : Lts.Reachable (step c g) (boot Name m) s) :
    s.Base ∧ s.Working c := by
  refine h.invariant (I := fun s => s.Base ∧ s.Working c) ?_ ⟨base_boot m, trivial⟩
  rintro s a t ⟨hb, hw⟩ hstep
  have m := move_of_step hstep
  exact ⟨hb.move m, hw.move hb m⟩

/-- **When `work_on_chan` acts on each message exactly once.** Whenever a call has returned `true`,
    the messages it read are those that arrived next, in order and with none left out; and what it
    acted on is exactly these messages, each once, in order and with its own handle, if and only if
    every one of them fits the initial buffer of 100 bytes. -/
theorem requests_executed_once_iff {c : Codec Name} {g : Growth} {m : Nat} {s : InitWorld Name}
    (h : Lts.Reachable (step c g) (boot Name m) s) {key : Key} {w : Work Name}
    (hpc : s.pc = .rearm key w) :
    ∃ e, s.refs.value w.chan = some (.channel e) ∧
      s.net.sent e = w.before ++ w.consumed ++ (s.net.channel e).queue ∧
      (w.executed.map some = w.consumed.map (asExecuted c) ↔
        ∀ packet ∈ w.consumed, packet.data.length ≤ 100) := by
  obtain ⟨hb, hw⟩ := working_of_reachable h
  have hjob : s.pc.job = some (key, w.chan) := by rw [hpc]; rfl
  obtain ⟨e, he⟩ := hb.refs.chan w.chan (hb.job_mem hjob)
  rw [Working, hpc] at hw
  obtain ⟨hrec, hprog⟩ := hw e he
  refine ⟨e, he, ?_, ?_⟩
  · rw [hb.net.delivered e (hb.job_owned hjob he), hrec]
  · cases hprog with
    | faithful _ hmap hsmall => exact ⟨fun _ => hsmall, fun _ => hmap⟩
    | repeated hlen hbig =>
      obtain ⟨packet, hmem, hbig⟩ : ∃ m ∈ w.consumed, 100 < m.data.length := by
        rcases hbig with hbig | ⟨_, hmem, -⟩
        · exact hbig
        · cases hmem
      refine ⟨fun hmap => ?_, fun hsmall => ?_⟩
      · have := congrArg List.length hmap
        simp only [length_map] at this
        omega
      · have := hsmall packet hmem
        omega

/-- The state of a call that has returned `true`. -/
def returned (s : InitWorld Name) : Option (Work Name) :=
  match s.pc with
  | .rearm _ w => some w
  | _ => none

/-- The request for the name `aa…a`. -/
def getRequest (len : Nat) : ChannelMessage := ascii.request (.getHandle (.ofLetters len))

/-- The first client asks for a name of one letter and then for one of two. -/
def smallRun : List Action :=
  [.send 1 (getRequest 1), .send 1 (getRequest 2)] ++ replicate 10 .init

theorem requests_executed_once_small :
    ∃ s w, run (step ascii Growth.exact) (boot ShortName 1) smallRun = some s ∧
      s.pc = .rearm 10 w ∧ w.consumed = [getRequest 1, getRequest 2] ∧
      w.executed.map some = w.consumed.map (asExecuted ascii) := by
  have hrun : ∃ s ∈ run (step ascii Growth.exact) (boot ShortName 1) smallRun,
      ∃ w ∈ s.returned, s.pc = .rearm 10 w ∧ w.consumed = [getRequest 1, getRequest 2] := by
    decide +kernel
  obtain ⟨s, hs, w, -, hpc, hconsumed⟩ := hrun
  refine ⟨s, w, hs, hpc, hconsumed, ?_⟩
  obtain ⟨e, -, -, hiff⟩ := requests_executed_once_iff ⟨smallRun, hs⟩ hpc
  refine hiff.2 ?_
  rw [hconsumed]
  decide

/-- The first client asks for a name of one letter and then for one of 99 letters, whose request
    has 101 bytes. -/
def largeRun : List Action :=
  [.send 1 (getRequest 1), .send 1 (getRequest 99)] ++ replicate 13 .init

/-- The call returns `true` having acted on the first request twice. -/
theorem request_executed_twice :
    ∃ s w, run (step ascii Growth.exact) (boot ShortName 1) largeRun = some s ∧
      s.pc = .rearm 10 w ∧ w.consumed = [getRequest 1, getRequest 99] ∧
      w.executed = [⟨.getHandle (.ofLetters 1), none⟩, ⟨.getHandle (.ofLetters 1), none⟩,
        ⟨.getHandle (.ofLetters 99), none⟩] ∧
      w.executed.map some ≠ w.consumed.map (asExecuted ascii) := by
  have hrun : ∃ s ∈ run (step ascii Growth.exact) (boot ShortName 1) largeRun,
      ∃ w ∈ s.returned, s.pc = .rearm 10 w ∧ w.consumed = [getRequest 1, getRequest 99] ∧
        w.executed = [⟨.getHandle (.ofLetters 1), none⟩, ⟨.getHandle (.ofLetters 1), none⟩,
          ⟨.getHandle (.ofLetters 99), none⟩] := by decide +kernel
  obtain ⟨s, hs, w, -, hpc, hconsumed, hexecuted⟩ := hrun
  refine ⟨s, w, hs, hpc, hconsumed, hexecuted, fun hmap => ?_⟩
  have hlen := congrArg List.length hmap
  rw [hconsumed, hexecuted] at hlen
  exact absurd hlen (by decide)

end InitWorld

end Fioxa
