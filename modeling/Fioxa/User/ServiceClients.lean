import Fioxa.User.ServiceTokens

/-! # Dead clients of a service

When a client closes its end of the channel, `close` raises `CHANNEL_CLOSED` on the service's end.
The service only waits for `READABLE`. If its waiter is armed at that moment, which it is whenever
the client is not being served, the loop does not hear about it and the entry stays in `customers`
for ever. A client is dropped only if the service comes to read from its channel after it has
gone. -/

namespace Fioxa.ServiceWorld

open List Option Function Endpoints Lts

/-- The other end of a channel. -/
def peerOf (s : ServiceWorld) : SignalObject → Option Nat
  | .channel e => some (s.net.peer e)
  | .process _ => none

/-- The other end of a customer's channel still exists. -/
def PeerAlive (s : ServiceWorld) (o : SignalObject) : Prop :=
  ∀ e ∈ s.peerOf o, s.net.alive e = true

instance (s : ServiceWorld) : DecidablePred s.PeerAlive := fun o =>
  inferInstanceAs (Decidable (∀ e ∈ s.peerOf o, s.net.alive e = true))

/-- When the loop blocks, all customers are alive. -/
def NoDeadCustomer (s : ServiceWorld) : Prop :=
  s.pc = .portWait → s.net.port = [] → ∀ kc ∈ s.customers, s.PeerAlive kc.2

instance (s : ServiceWorld) : Decidable s.NoDeadCustomer :=
  inferInstanceAs (Decidable (_ → _ → ∀ kc ∈ s.customers, s.PeerAlive kc.2))

/-- The handler breaks off once its read has returned `Closed`. -/
def HandlerBreaks (s : ServiceWorld) (a : Action) : Prop :=
  match a, s.pc with
  | .handlerReturn .continues, .handling _ closed => closed = false
  | _, _ => True

instance (s : ServiceWorld) (a : Action) : Decidable (s.HandlerBreaks a) := by
  unfold HandlerBreaks
  split <;> infer_instance

/-- Arming the object does not put a waiter on a channel whose other end is gone. -/
def Safe (s : ServiceWorld) (o : SignalObject) : Prop :=
  s.PeerAlive o ∨ (s.signal o).signalStatus.intersects .readable = true

instance (s : ServiceWorld) : DecidablePred s.Safe := fun _ => inferInstanceAs (Decidable (_ ∨ _))

/-- No client goes away at a moment at which the service does not come to read from it any more: not
    while its waiter is armed; not before it is enrolled, and not during a handler call that does
    not find out, unless a message is left. -/
def Noticed (s : ServiceWorld) (a : Action) : Prop :=
  match a, s.pc with
  | .drop e, _ => ∀ kc ∈ s.customers, kc.1 ∈ s.armed kc.2 → s.peerOf kc.2 ≠ some e
  | .service, .enroll v => ∀ o ∈ SignalObject.ofValue v, s.Safe o
  | .handlerReturn .continues, .handling key false => ∀ o ∈ s.lookup key, s.Safe o
  | _, _ => True

instance (s : ServiceWorld) (a : Action) : Decidable (s.Noticed a) := by
  unfold Noticed
  split <;> infer_instance

/-! ## What a step does to the peers and to the armed waiters -/

variable {s t : ServiceWorld} {key key' : Key} {o o' : SignalObject}

@[simp] theorem wait_peer (s : ServiceWorld) (o : SignalObject) (ty : SignalWaiterType)
    (mask : ObjectSignal) : (s.wait o ty mask).net.peer = s.net.peer := by
  cases o with
  | channel e =>
    funext x
    by_cases hx : x = e
    · simp [wait, Endpoints.peer, hx]
    · simp [wait, Endpoints.peer, hx]
  | process => rfl

@[simp] theorem arm_peer (s : ServiceWorld) (o : SignalObject) (key : Key) :
    (s.arm o key).net.peer = s.net.peer := by
  unfold arm
  split
  · rfl
  · exact wait_peer ..

theorem mem_armed_arm (h : key' ∈ (s.arm o key).armed o') :
    key' ∈ s.armed o' ∨
      key' = key ∧ o' = o ∧ (s.signal o).signalStatus.intersects .readable = false := by
  unfold arm at h
  split at h
  · exact .inl h
  · next hr =>
    replace h : key' ∈ (s.wait o (.port initPort key) .readable).board.armed o' := h
    rw [wait_board, Board.wait_armed] at h
    by_cases ho : o' = o
    · subst ho
      rw [update_self] at h
      rcases mem_append.1 h with h | h
      · exact .inl h
      · exact .inr ⟨by simpa [serviceKey] using h, rfl, by simpa using hr⟩
    · rw [update_of_ne ho] at h
      exact .inl h

theorem peerAlive_congr (halive : t.net.alive = s.net.alive) (hpeer : t.net.peer = s.net.peer) :
    t.PeerAlive o ↔ s.PeerAlive o := by
  have hof : t.peerOf o = s.peerOf o := by
    cases o with
    | channel e => exact congrArg some (congrFun hpeer e)
    | process => rfl
  rw [PeerAlive, hof, halive, PeerAlive]

theorem serviceStep_cases (hst : s.serviceStep = some t) :
    t.net.alive = s.net.alive ∧ t.net.peer = s.net.peer ∧
    (t.customers = s.customers ∧ (∀ key o, key ∈ t.armed o → key ∈ s.armed o ∨ key = 0) ∨
      ∃ v id o, s.pc = .enroll v ∧ s.nextKey = some id ∧ SignalObject.ofValue v = some o ∧
        t = { s.arm o id with customers := s.customers ++ [(id, o)], pc := .portWait }) := by
  have harm : ∀ {key o} pc, key ∈ { s.arm (.channel s.accepting) 0 with pc := pc }.armed o →
      key ∈ s.armed o ∨ key = 0 := fun _ hkey => (mem_armed_arm hkey).imp_right And.left
  unfold serviceStep at hst
  split at hst
  · cases hst
    exact ⟨arm_alive .., arm_peer .., .inl ⟨arm_customers .., fun _ _ => harm _⟩⟩
  · split at hst
    · cases hst
    · dsimp only at hst
      split at hst
      · cases hst
        exact ⟨rfl, rfl, .inl ⟨rfl, fun _ _ => .inl⟩⟩
      · split at hst
        · cases hst
          exact ⟨rfl, rfl, .inl ⟨rfl, fun _ _ => .inl⟩⟩
        · cases hst
          exact ⟨rfl, rfl, .inl ⟨rfl, fun _ _ => .inl⟩⟩
  · have hread : ∀ pc, { s with
        net := s.net.finishRead s.accepting ((s.net.channel s.accepting).sysRead ⟨100, 1⟩)
        pc := pc } = t →
        t.net.alive = s.net.alive ∧ t.net.peer = s.net.peer ∧ t.customers = s.customers ∧
          ∀ key o, key ∈ t.armed o → key ∈ s.armed o ∨ key = 0 := by
      rintro pc rfl
      exact ⟨finishRead_alive .., finishRead_peer .., rfl, fun _ _ hkey =>
        .inl ((s.fires_net (s.net.finishRead_fires s.accepting ⟨100, 1⟩)).mem_armed hkey)⟩
    dsimp only at hst
    split at hst
    · split at hst
      · obtain ⟨ha, hp, hc, hk⟩ := hread _ (Option.some.inj hst)
        exact ⟨ha, hp, .inl ⟨hc, hk⟩⟩
      · obtain ⟨ha, hp, hc, hk⟩ := hread _ (Option.some.inj hst)
        exact ⟨ha, hp, .inl ⟨hc, hk⟩⟩
    · cases hst
      exact ⟨rfl, rfl, .inl ⟨rfl, fun _ _ => .inl⟩⟩
    · obtain ⟨ha, hp, hc, hk⟩ := hread _ (Option.some.inj hst)
      exact ⟨ha, hp, .inl ⟨hc, hk⟩⟩
  · cases hst
    exact ⟨arm_alive .., arm_peer .., .inl ⟨arm_customers .., fun _ _ => harm _⟩⟩
  · next v hpc =>
    split at hst
    · cases hst
      exact ⟨rfl, rfl, .inl ⟨rfl, fun _ _ => .inl⟩⟩
    · cases hst
      exact ⟨rfl, rfl, .inl ⟨rfl, fun _ _ => .inl⟩⟩
    · next id o hid ho =>
      cases hst
      exact ⟨arm_alive .., arm_peer .., .inr ⟨v, id, o, hpc, hid, ho, rfl⟩⟩
  · cases hst
  · cases hst

/-! ## The invariant -/

/-- Every customer the service waits for is alive. -/
structure Live (s : ServiceWorld) : Prop where
  sound : s.Sound
  peers : s.pc.isDead = false → ∀ kc ∈ s.customers, kc.1 ∈ s.armed kc.2 → s.PeerAlive kc.2

theorem Live.noDeadCustomer (h : s.Live) : s.NoDeadCustomer := by
  intro hpc hport kc hkc
  have hdead : s.pc.isDead = false := by
    rw [hpc]
    rfl
  exact h.peers hdead kc hkc ((h.sound.running hdead).mem_armed hpc hport (.inr hkc))

theorem Live.keep (h : s.Live) (hs : s.pc.isDead = false)
    (hcustomers : ∀ kc ∈ t.customers, kc ∈ s.customers)
    (harmed : ∀ kc ∈ t.customers, kc.1 ∈ t.armed kc.2 → kc.1 ∈ s.armed kc.2)
    (halive : t.net.alive = s.net.alive) (hpeer : t.net.peer = s.net.peer) :
    ∀ kc ∈ t.customers, kc.1 ∈ t.armed kc.2 → t.PeerAlive kc.2 := by
  intro kc hkc hkey
  exact (peerAlive_congr halive hpeer).2 (h.peers hs kc (hcustomers kc hkc) (harmed kc hkc hkey))

theorem Safe.peerAlive (hsafe : s.Safe o) (hfree : key ∉ s.armed o)
    (hkey : key ∈ (s.arm o key).armed o) : (s.arm o key).PeerAlive o := by
  rw [peerAlive_congr (arm_alive ..) (arm_peer ..)]
  refine hsafe.resolve_right fun hr => ?_
  rcases mem_armed_arm hkey with h | ⟨-, -, hr'⟩
  · exact hfree h
  · rw [hr] at hr'
    cases hr'

theorem Live.serviceStep (h : s.Live) (hs : s.pc.isDead = false)
    (hC : s.Noticed .service) (hst : s.serviceStep = some t) :
    ∀ kc ∈ t.customers, kc.1 ∈ t.armed kc.2 → t.PeerAlive kc.2 := by
  have hr := h.sound.running hs
  have hpos : ∀ kc ∈ s.customers, kc.1 ≠ 0 := by
    intro kc hkc h0
    have hlt := (pairwise_cons.1 hr.sorted).1 kc.1 (List.mem_map.2 ⟨kc, hkc, rfl⟩)
    rw [h0] at hlt
    exact absurd hlt (by simp)
  obtain ⟨halive, hpeer, ⟨hcustomers, harmed⟩ | ⟨v, id, o, hpc, hid, ho, rfl⟩⟩ :=
    serviceStep_cases hst
  · rw [hcustomers]
    intro kc hkc hkey
    exact (peerAlive_congr halive hpeer).2 (h.peers hs kc hkc
      ((harmed kc.1 kc.2 hkey).resolve_right (hpos kc hkc)))
  · have hlast := hr.nextKey_gt hid
    intro kc hkc hkey
    rcases mem_append.1 hkc with hkc | hkc
    · rcases mem_armed_arm hkey with hold | ⟨heq, -⟩
      · exact (peerAlive_congr halive hpeer).2 (h.peers hs kc hkc hold)
      · have hlt := hlast kc.1 (.tail _ (List.mem_map.2 ⟨kc, hkc, rfl⟩))
        rw [heq] at hlt
        exact absurd hlt (by simp)
    · rw [mem_singleton.1 hkc] at hkey ⊢
      simp only [Noticed, hpc] at hC
      refine (hC o ho).peerAlive (fun hmem => ?_) hkey
      -- the key is new
      have hclient := hr.watched.tokens.of_armed o id hmem
      have hmem : id ∈ (0 : Key) :: s.customers.map Prod.fst := by
        rcases hclient with ⟨rfl, -⟩ | hcust
        · exact .head _
        · exact .tail _ (List.mem_map.2 ⟨_, hcust, rfl⟩)
      exact absurd (hlast id hmem) (by simp)

theorem Live.handlerReturn (h : s.Live) (hs : s.pc.isDead = false) {flow : ControlFlow}
    (hD : s.HandlerBreaks (.handlerReturn flow)) (hC : s.Noticed (.handlerReturn flow))
    (hst : s.handlerReturn flow = some t) :
    ∀ kc ∈ t.customers, kc.1 ∈ t.armed kc.2 → t.PeerAlive kc.2 := by
  have hr := h.sound.running hs
  unfold ServiceWorld.handlerReturn at hst
  split at hst
  · next key closed hpc =>
    split at hst
    · next o hlookup =>
      cases hst
      have hmem := (lookup_eq_some hr.sorted).1 hlookup
      have hopen : closed = false := by
        simp only [HandlerBreaks, hpc] at hD
        exact hD
      subst hopen
      simp only [Noticed, hpc] at hC
      have hfree : key ∉ s.armed o := by
        have hone : (s.armed o).count key + _ + _ = 1 :=
          hr.watched.tokens.one key o (.inr hmem)
        rw [hpc, ServicePc.busy, count_singleton_self] at hone
        exact count_eq_zero.1 (by omega)
      intro kc hkc hkey
      replace hkc : kc ∈ (s.arm o key).customers := hkc
      rw [arm_customers] at hkc
      rcases mem_armed_arm hkey with hold | ⟨heq, ho, -⟩
      · exact (peerAlive_congr (arm_alive ..) (arm_peer ..)).2 (h.peers hs kc hkc hold)
      · replace hkey : kc.1 ∈ (s.arm o key).armed kc.2 := hkey
        rw [heq, ho] at hkey
        rw [ho]
        exact (hC o hlookup).peerAlive hfree hkey
    · cases hst
    · cases hst
      exact h.keep hs (fun _ => mem_of_mem_filter) (fun _ _ hkey => hkey) rfl rfl
  · cases hst

theorem Live.step (h : s.Live) {a : Action} (hD : s.HandlerBreaks a) (hC : s.Noticed a)
    (hst : step s a = some t) : t.Live := by
  refine ⟨h.sound.step hst, fun _ => ?_⟩
  unfold ServiceWorld.step at hst
  split at hst
  · cases hst
  · next hdead =>
    have hs : s.pc.isDead = false := by simpa using hdead
    have hr := h.sound.running hs
    cases a with
    | service => exact h.serviceStep hs hC hst
    | handlerRead maxBytes maxHandles =>
      replace hst : s.handlerRead maxBytes maxHandles = some t := hst
      unfold ServiceWorld.handlerRead at hst
      split at hst
      · split at hst
        · next e _ =>
          cases hst
          exact h.keep hs (fun _ hkc => hkc)
            (fun _ _ => (s.fires_net (s.net.finishRead_fires e _)).mem_armed)
            (finishRead_alive ..) (finishRead_peer ..)
        · cases hst
          exact h.keep hs (fun _ hkc => hkc) (fun _ _ hkey => hkey) rfl rfl
      · cases hst
    | handlerReturn => exact h.handlerReturn hs hD hC hst
    | send e msg =>
      obtain ⟨-, hst⟩ := ite_none_right_eq_some.1 hst
      cases hst
      exact h.keep hs (fun _ hkc => hkc)
        (fun _ _ => (s.fires_net (s.net.send_fires e msg)).mem_armed) (send_alive ..)
        (Endpoints.send_peer ..)
    | read e maxBytes maxHandles =>
      obtain ⟨-, hst⟩ := ite_none_right_eq_some.1 hst
      cases hst
      exact h.keep hs (fun _ hkc => hkc)
        (fun _ _ => (s.fires_net (s.net.finishRead_fires e _)).mem_armed)
        (finishRead_alive ..) (finishRead_peer ..)
    | drop e =>
      obtain ⟨-, hst⟩ := ite_none_right_eq_some.1 hst
      cases hst
      intro kc hkc hkey
      have hkey' := (s.fires_net (s.net.close_fires e)).mem_armed hkey
      have hold := h.peers hs kc hkc hkey'
      cases ho : kc.2 with
      | channel x =>
        have hne : s.net.peer x ≠ e := fun heq => hC kc hkc hkey' (by rw [ho, peerOf, heq])
        rw [ho] at hold
        rintro y hy
        replace hy : (s.net.close e).peer x = y := Option.some.inj hy
        show (s.net.close e).alive y = true
        rw [← hy, (s.net.close_shrunk e).peer, close_alive, update_of_ne hne]
        exact hold _ rfl
      | process =>
        intro y hy
        cases hy
    | create =>
      cases hst
      intro kc hkc hkey
      have hold := h.peers hs kc hkc ((s.fires_net (create_fires hr.net.new)).mem_armed hkey)
      have hexist := hr.exist_client (.inr hkc)
      cases ho : kc.2 with
      | channel x =>
        rw [ho] at hold hexist
        have hlt := hr.net.alive_lt x (hexist _ (mem_singleton_self _) x rfl)
        have halive : s.net.alive (s.net.peer x) = true := hold _ rfl
        rintro y hy
        replace hy : s.net.create.peer x = y := Option.some.inj hy
        show s.net.create.alive y = true
        rw [← hy, create_peer s.net hlt]
        exact create_alive_iff.2 (.inl halive)
      | process =>
        intro y hy
        cases hy
    | watch =>
      obtain ⟨⟨-, hty⟩, hst⟩ := ite_none_right_eq_some.1 hst
      cases hst
      unfold ServiceWorld.watch
      split
      · exact h.peers hs
      · refine h.keep hs (by simp) (fun kc _ hkey => ?_) (by simp) (by simp)
        replace hkey : kc.1 ∈ (s.wait _ _ _).board.armed kc.2 := hkey
        rwa [wait_board, Board.wait_armed_none (serviceKey_foreign hty _ _)] at hkey
    | exit p =>
      cases hst
      exact h.keep hs (fun _ hkc => hkc) (fun _ _ => (s.exit_fires p).mem_armed) rfl rfl

theorem live_boot : boot.Live := ⟨sound_boot, fun _ _ hkc => nomatch hkc⟩

/-- If no client goes unnoticed, all customers are alive whenever the loop blocks. -/
theorem noDeadCustomer_of_noticed {as : List Action}
    (h : Guarded step (fun s a => s.HandlerBreaks a ∧ s.Noticed a) boot as) :
    Always step NoDeadCustomer boot as :=
  always_of_guarded (fun _ hl => Live.noDeadCustomer hl)
    (fun _ _ _ hl hC hst => hl.step hC.1 hC.2 hst) live_boot h

/-- A client connects: it creates a channel, sends one end to the service, and is enrolled. -/
def connect : List Action :=
  [.service, .create, .send 1 ⟨[], some [.channel 2]⟩, .service, .service, .service, .service]

/-- The client sends a request and leaves. The handler reads the request and finds out that the
    client has gone. -/
def visit : List Action :=
  connect ++ [.send 3 ⟨[7], none⟩, .drop 3, .service, .handlerRead 100 1, .handlerRead 100 1,
    .handlerReturn .breaks]

theorem noDeadCustomer_visit :
    Guarded step (fun s a => s.HandlerBreaks a ∧ s.Noticed a) boot visit ∧
      Always step NoDeadCustomer boot visit ∧
      ∃ s ∈ Lts.run step boot visit, s.pc = .portWait ∧ s.net.port = [] ∧ s.customers = [] := by
  have hguarded : Guarded step (fun s a => s.HandlerBreaks a ∧ s.Noticed a) boot visit := by
    decide +kernel
  exact ⟨hguarded, noDeadCustomer_of_noticed hguarded, by decide +kernel⟩

/-- A client leaves without another request: the loop blocks, and the client's entry is still
    there. -/
theorem idle_client_leaves_unnoticed :
    Guarded step HandlerBreaks boot (connect ++ [.drop 3]) ∧
      ¬ Always step NoDeadCustomer boot (connect ++ [.drop 3]) := by
  refine ⟨by decide +kernel, fun h => ?_⟩
  have hrun : ∃ s ∈ Lts.run step boot (connect ++ [.drop 3]), ¬ s.NoDeadCustomer := by
    decide +kernel
  obtain ⟨s, hs, hdead⟩ := hrun
  exact hdead (h.last hs)

end Fioxa.ServiceWorld
