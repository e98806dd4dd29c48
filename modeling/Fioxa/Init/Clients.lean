import Mathlib.Algebra.Group.Nat.Defs
import Fioxa.Init.Moves
import Fioxa.Init.Watchers

/-! # No client is forgotten

Waiters are one-shot, so the service has to arm every client channel again and again. The argument
that it does is one about tokens: each client has exactly one token, which is either a waiter on its
own channel, a notification in the port, or the fact that the service is working for it. When the
service blocks with an empty port, every token is a waiter, and a waiter for `READABLE` is only
stored on an empty queue.

`Clone` breaks this. It arms the *requesting* channel under the key of the new one, so the new
client's token becomes a waiter on the wrong channel, unless the requesting channel has another
message waiting, in which case `WaitPort` notifies at once. -/

namespace Fioxa

open List Codec Lts Endpoints

namespace Endpoints

/-- The waiters stored on an endpoint. -/
def waiters (n : Endpoints) (e : Nat) : List SignalWaiter := (n.channel e).signal.signalWaiters

/-- Every client of `client` has one token; `busy` are the keys the service is working on. All
    waiters are the service's. -/
abbrev Tokens (n : Endpoints) : (Key → Nat → Prop) → List Key → Prop :=
  n.board.Watched fun w => ∃ key, w.ty = .port initPort key ∧ w.mask = .readable

theorem Tokens.arm {n : Endpoints} {client : Key → Nat → Prop} {busy : List Key} {key : Key}
    {e : Nat} (ht : n.Tokens client (key :: busy))
    (hkey : client key e ∨ (n.channel e).signal.signalStatus.intersects .readable = true) :
    (n.arm e initPort key).Tokens client busy := by
  rw [Tokens, arm_board]
  exact Board.Watched.arm ht hkey ⟨key, rfl, rfl⟩

end Endpoints

/-! ## The service -/

/-- A new client between its insertion and its `WaitPort`. -/
def Phase.joining : Phase → List Key
  | .armClone id _ => [id]
  | _ => []

/-- The keys whose token is with the service. -/
def Pc.busy {Name : Type} : Pc Name → List Key
  | .work key w => w.phase.joining ++ [key]
  | .rearm key _ => [key]
  | .remove key => [key]
  | _ => []

namespace InitWorld

variable {Name : Type}

/-- `chans` has the endpoint under the key. -/
def Client (s : InitWorld Name) (key : Key) (e : Nat) : Prop :=
  ∃ id, (key, id) ∈ s.chans ∧ s.refs.value id = some (.channel e)

/-- The keys the start-up loop gives out. -/
def startKey (i : Nat) : Key := BitVec.ofNat 64 (i + 10)

/-- Every client has one token. -/
structure Armed (s : InitWorld Name) : Prop where
  keys : (s.chans.map Prod.fst).Nodup
  tokens : s.net.Tokens s.Client s.pc.busy
  start : ∀ todo i, s.pc = .starting todo i →
    s.chans.map Prod.fst = (List.range i).map startKey ∧ i + todo.length ≤ 2 ^ 64

variable {s : InitWorld Name}

theorem client_endpoint (hkeys : (s.chans.map Prod.fst).Nodup) {key : Key} {e e' : Nat} :
    s.Client key e → s.Client key e' → e = e' := by
  rintro ⟨id, hid, he⟩ ⟨id', hid', he'⟩
  have heq := inj_on_of_nodup_map hkeys hid hid' rfl
  obtain rfl : id = id' := congrArg Prod.snd heq
  simpa using he.symm.trans he'

theorem Base.client_key (hb : s.Base) {key key' : Key} {e : Nat} :
    s.Client key e → s.Client key' e → key = key' := by
  have hdistinct : (s.chans.map (s.refs.value ∘ Prod.snd)).Nodup := by
    rw [← map_map]
    exact hb.refs.distinct.sublist ((sublist_append_left _ _).map _)
  rintro ⟨id, hid, he⟩ ⟨id', hid', he'⟩
  exact congrArg Prod.fst (inj_on_of_nodup_map hdistinct hid hid' (he.trans he'.symm))

variable {t : InitWorld Name}

theorem client_congr (hchans : t.chans = s.chans)
    (hvalue : ∀ id ∈ s.clientRefs, t.refs.value id = s.refs.value id) : t.Client = s.Client := by
  funext key e
  refine propext (exists_congr fun id => ?_)
  rw [hchans]
  refine and_congr_right fun hid => ?_
  rw [hvalue id (mem_append_left _ (mem_map_of_mem (f := Prod.snd) hid))]

theorem Armed.step (ha : s.Armed) (hchans : t.chans = s.chans)
    (hvalue : ∀ id ∈ s.clientRefs, t.refs.value id = s.refs.value id)
    (hstart : ∀ todo i, t.pc = .starting todo i → s.pc = .starting todo i)
    (htokens : t.net.Tokens s.Client t.pc.busy) : t.Armed where
  keys := hchans ▸ ha.keys
  tokens := client_congr hchans hvalue ▸ htokens
  start := fun todo i h => hchans ▸ ha.start todo i (hstart todo i h)

variable {key : Key} {id e : Nat}

theorem client_append (hchans : t.chans = s.chans ++ [(key, id)])
    (hvalue : ∀ id ∈ s.clientRefs, t.refs.value id = s.refs.value id)
    (hid : t.refs.value id = some (.channel e)) :
    ∀ k x, t.Client k x ↔ s.Client k x ∨ k = key ∧ x = e := by
  have hold : ∀ kr ∈ s.chans, t.refs.value kr.2 = s.refs.value kr.2 := fun kr hkr =>
    hvalue kr.2 (mem_append_left _ (mem_map_of_mem hkr))
  intro k x
  constructor
  · rintro ⟨id', hid', hx⟩
    rw [hchans] at hid'
    rcases mem_append.1 hid' with hid' | hid'
    · exact .inl ⟨id', hid', (hold _ hid').symm.trans hx⟩
    · simp only [mem_singleton, Prod.mk.injEq] at hid'
      obtain ⟨rfl, rfl⟩ := hid'
      exact .inr ⟨rfl, by simpa using hx.symm.trans hid⟩
  · rintro (⟨id', hid', hx⟩ | ⟨rfl, rfl⟩)
    · exact ⟨id', hchans ▸ mem_append_left _ hid', (hold _ hid').trans hx⟩
    · exact ⟨id, hchans ▸ mem_append_right _ (mem_singleton_self _), hid⟩

theorem not_mem_chans (h : s.lookup key = none) (id : Nat) : (key, id) ∉ s.chans := by
  intro hid
  have hnone : s.chans.find? (fun kr => kr.1 == key) = none := by simpa [lookup] using h
  exact absurd (List.find?_eq_none.1 hnone _ hid) (by simp)

theorem not_client_of_lookup (h : s.lookup key = none) (e : Nat) : ¬ s.Client key e :=
  fun ⟨id, hid, _⟩ => not_mem_chans h id hid

theorem not_mem_keys (hk : ∀ id, (key, id) ∉ s.chans) : key ∉ s.chans.map Prod.fst := by
  intro hmem
  obtain ⟨⟨k, id⟩, hid, rfl⟩ := mem_map.1 hmem
  exact hk id hid

/-- The endpoint the service is about to arm for a `Clone`. -/
def cloning (s : InitWorld Name) : Option Nat :=
  match s.pc with
  | .work _ w =>
    match w.phase, s.refs.value w.chan with
    | .armClone _ _, some (.channel e) => some e
    | _, _ => none
  | _ => none

/-- Another message is already waiting on that endpoint. -/
def CloneReady (s : InitWorld Name) : Prop := ∀ e ∈ s.cloning, (s.net.channel e).queue ≠ []

instance (s : InitWorld Name) : Decidable s.CloneReady :=
  inferInstanceAs (Decidable (∀ e ∈ s.cloning, (s.net.channel e).queue ≠ []))

/-- The condition on the service's steps under which no client is lost. -/
def ClonesBusy (s : InitWorld Name) : Action → Prop
  | .init => s.CloneReady
  | _ => True

instance (s : InitWorld Name) (a : Action) : Decidable (s.ClonesBusy a) :=
  match a with
  | .init => inferInstanceAs (Decidable s.CloneReady)
  | .send _ _ | .read _ _ _ | .drop _ | .create => isTrue trivial

theorem startKey_fresh {i : Nat} (hi : i < 2 ^ 64) : startKey i ∉ (List.range i).map startKey := by
  intro hmem
  obtain ⟨j, hj, heq⟩ := mem_map.1 hmem
  have hlt := mem_range.1 hj
  have hnat := congrArg BitVec.toNat heq
  simp only [startKey, BitVec.toNat_ofNat] at hnat
  omega

theorem Armed.startArm (ha : s.Armed) {i : Nat} {todo : List Nat}
    (hpc : s.pc = .starting (id :: todo) i) (hid : s.refs.value id = some (.channel e))
    (hnet : t.net = s.net.arm e initPort (startKey i)) (hrefs : t.refs = s.refs)
    (hchans : t.chans = s.chans ++ [(startKey i, id)]) (htpc : t.pc = .starting todo (i + 1)) :
    t.Armed := by
  obtain ⟨hkeys, hle⟩ := ha.start _ _ hpc
  have hi : i < 2 ^ 64 := by simp only [length_cons] at hle; omega
  have hnew : ∀ id', (startKey i, id') ∉ s.chans := fun id' hmem =>
    startKey_fresh hi (hkeys ▸ mem_map_of_mem hmem)
  have hclient := client_append hchans (fun x _ => by rw [hrefs]) (hrefs ▸ hid)
  have hkeys' : (t.chans.map Prod.fst).Nodup := by
    rw [hchans, map_append]
    exact ha.keys.append (nodup_singleton _) (disjoint_singleton.2 (not_mem_keys hnew))
  have htokens := ha.tokens
  rw [hpc] at htokens
  have hfree : ∀ x, ¬ s.Client (startKey i) x := fun x ⟨id', hmem, _⟩ => hnew id' hmem
  refine ⟨hkeys', ?_, fun todo' i' h => ?_⟩
  · have hjoin : s.net.Tokens t.Client (startKey i :: []) :=
      ⟨htokens.tokens.join hfree hclient, htokens.waiter, client_endpoint hkeys'⟩
    rw [htpc, hnet]
    exact hjoin.arm (.inl ((hclient _ _).2 (.inr ⟨rfl, rfl⟩)))
  · rw [htpc] at h
    cases h
    refine ⟨?_, by simp only [length_cons] at hle; omega⟩
    rw [hchans, map_append, hkeys, range_succ, map_append]
    rfl

theorem Armed.createClone (hb : s.Base) (ha : s.Armed) {id : Key} {w : Work Name}
    (hpc : s.pc = .work key w) (hphase : w.phase = .createClone) (hnew : s.lookup id = none)
    (hnet : t.net = s.net.create) (hrefs : t.refs = s.channelCreate.1.refs)
    (hchans : t.chans = s.chans ++ [(id, s.channelCreate.2.1)]) (htpc : t.pc.busy = [id, key])
    (hstart : ∀ todo i, t.pc ≠ .starting todo i) : t.Armed := by
  have hvalue : ∀ x ∈ s.clientRefs, t.refs.value x = s.refs.value x := fun x hx => by
    rw [hrefs, hb.channelCreate_value hx]
  have hleft : t.refs.value s.channelCreate.2.1 = some (.channel s.net.next) := by
    rw [hrefs]
    exact (RefsOk.addValue_ne _ _ (Nat.lt_succ_self _)).trans (Function.update_self ..)
  have hclient := client_append hchans hvalue hleft
  have htokens := ha.tokens
  rw [hpc, Pc.busy, hphase] at htokens
  have hkeys : (t.chans.map Prod.fst).Nodup := by
    rw [hchans, map_append]
    exact ha.keys.append (nodup_singleton _)
      (disjoint_singleton.2 (not_mem_keys (not_mem_chans hnew)))
  refine ⟨hkeys, ?_, fun todo i h => absurd h (hstart todo i)⟩
  have hcreated := htokens.fires (create_fires hb.net.new)
  rw [htpc, hnet]
  exact ⟨hcreated.tokens.join (not_client_of_lookup hnew) hclient, hcreated.waiter,
    client_endpoint hkeys⟩

theorem Armed.remove (hb : s.Base) (ha : s.Armed) (hpc : s.pc = .remove key)
    (hid : (key, id) ∈ s.chans) (hnet : t.net = s.net.close e) (hrefs : t.refs = s.refs.remove id)
    (hchans : t.chans = s.chans.filter (fun kr => kr.1 != key)) (htpc : t.pc = .portWait) :
    t.Armed := by
  have htokens := ha.tokens
  rw [hpc] at htokens
  have hmem : ∀ kr ∈ s.chans, kr.1 ≠ key → kr.2 ≠ id := by
    intro kr hkr hne heq
    have hnodup : (s.chans.map Prod.snd).Nodup :=
      (hb.refs.distinct.of_map _).sublist (sublist_append_left _ _)
    have := inj_on_of_nodup_map hnodup hkr hid heq
    exact hne (congrArg Prod.fst this)
  have hclient : ∀ k x, t.Client k x ↔ s.Client k x ∧ k ≠ key := by
    intro k x
    unfold Client
    rw [hchans, hrefs]
    refine ⟨?_, ?_⟩
    · rintro ⟨id', hid', hx⟩
      obtain ⟨hid', hne⟩ := mem_filter.1 hid'
      have hne : k ≠ key := by simpa using hne
      rw [RefsOk.remove_ne s.refs (hmem _ hid' hne)] at hx
      exact ⟨⟨id', hid', hx⟩, hne⟩
    · rintro ⟨⟨id', hid', hx⟩, hne⟩
      refine ⟨id', mem_filter.2 ⟨hid', by simpa using hne⟩, ?_⟩
      rw [RefsOk.remove_ne s.refs (hmem _ hid' hne)]
      exact hx
  have hkeys : (t.chans.map Prod.fst).Nodup := by
    rw [hchans]
    exact ha.keys.sublist (filter_sublist.map _)
  refine ⟨hkeys, ?_, by simp [htpc]⟩
  rw [htpc, hnet]
  have hclosed := htokens.fires (s.net.close_fires e)
  exact ⟨hclosed.tokens.leave hclient, hclosed.waiter, client_endpoint hkeys⟩

variable [DecidableEq Name]

variable {c : Codec Name}

theorem Armed.dispatch {u : InitWorld Name} {w : Work Name} {handlesLen : Nat} (ha : s.Armed)
    (hd : Dispatched c u key w handlesLen t) (hchans : u.chans = s.chans)
    (hvalue : ∀ id ∈ s.clientRefs, u.refs.value id = s.refs.value id)
    (htokens : u.net.Tokens s.Client [key]) : t.pc = .dead ∨ t.Armed := by
  cases hd with
  | refused | found | notFound | published | cloning =>
    exact .inr (ha.step hchans hvalue (by simp) htokens)
  | undefined => exact .inl rfl

theorem Armed.move {g : Growth} {a : Action} (hb : s.Base) (ha : s.Armed) (hbusy : s.ClonesBusy a)
    (m : Move c g s a t) : t.pc = .dead ∨ t.Armed := by
  have htokens := ha.tokens
  -- the port the service arms is its own
  have hinit : ∀ {p}, s.refs.value s.portHandle = some (.port p) → p = initPort := fun h => by
    simpa using h.symm.trans hb.refs.port
  cases m with
  | die => exact .inl rfl
  | collide => exact .inl rfl
  | started i hpc =>
    rw [hpc] at htokens
    exact .inr (ha.step rfl (fun _ _ => rfl) (by simp) htokens)
  | startArm id todo i e p hpc hid hport =>
    obtain rfl := hinit hport
    exact .inr (ha.startArm hpc hid rfl rfl rfl rfl)
  | pop notif rest id hpc hport =>
    rw [hpc] at htokens
    exact .inr (ha.step rfl (fun _ _ => rfl) (by simp) (htokens.pop hport))
  | finish key w e hpc hphase | giveUp key w hpc hphase | dropped key w hpc hphase =>
    rw [hpc, Pc.busy, hphase] at htokens
    exact .inr (ha.step rfl (fun _ _ => rfl) (by simp) htokens)
  | take key w e packet rest hpc hphase =>
    rw [hpc, Pc.busy, hphase] at htokens
    refine ha.dispatch (dispatch_dispatched c _ key _ _) ?_ (fun x hx => ?_) ?_
    · exact (s.taken_frame e w packet).2.2
    · exact taken_value e w packet (hb.ref_lt hx)
    · rw [taken_net]
      exact htokens.fires (s.net.finishRead_fires e _)
  | stale key w e packet rest cap hpc hphase =>
    rw [hpc, Pc.busy, hphase] at htokens
    exact ha.dispatch (dispatch_dispatched c _ key _ _) rfl (fun _ _ => rfl) htokens
  | createPair key w handle hpc hphase =>
    rw [hpc, Pc.busy, hphase] at htokens
    exact .inr (ha.step rfl (fun x hx => hb.channelCreate_value hx) (by simp)
      (htokens.fires (create_fires hb.net.new)))
  | notify key w handle left right e values hpc hphase
  | reply key w byte handles drops e values hpc hphase =>
    rw [hpc, Pc.busy, hphase] at htokens
    exact .inr (ha.step rfl (fun _ _ => rfl) (by simp) (htokens.fires (s.net.send_fires e _)))
  | createClone key w id hpc hphase hnew =>
    exact .inr (ha.createClone hb hpc hphase hnew rfl rfl rfl rfl (by simp))
  | armClone key w id right e p hpc hphase hid hport =>
    obtain rfl := hinit hport
    rw [hpc, Pc.busy, hphase] at htokens
    have hready : s.CloneReady := hbusy
    have hreadable : (s.net.channel e).signal.signalStatus.intersects .readable = true := by
      have hown : s.Owned e := hb.job_owned (job_work hpc) hid
      rw [ObjectSignal.intersects_readable, (hb.net.coherent e hown).readable]
      simpa [CloneReady, cloning, hpc, hphase, hid] using hready
    exact .inr (ha.step rfl (fun _ _ => rfl) (by simp) (htokens.arm (.inr hreadable)))
  | drop key w id rest hpc hphase =>
    rw [hpc, Pc.busy, hphase] at htokens
    refine .inr (ha.step rfl (fun x hx => RefsOk.remove_ne s.refs ?_) (by simp) htokens)
    rintro rfl
    refine hb.refs.apart x (.tail _ hx) (.inl ?_)
    simp [Pc.loose, Phase.refs, hpc, hphase]
  | rearm key w e p hpc hid hport =>
    obtain rfl := hinit hport
    rw [hpc] at htokens
    have hclient : s.Client key e :=
      ⟨w.chan, mem_chans_of_lookup (hb.looked _ _ (by rw [hpc]; rfl)), hid⟩
    exact .inr (ha.step rfl (fun _ _ => rfl) (by simp) (htokens.arm (.inl hclient)))
  | forgotten key hpc hnone =>
    rw [hpc] at htokens
    obtain ⟨e, he⟩ := htokens.tokens.of_busy key (mem_singleton_self _)
    exact absurd he (not_client_of_lookup hnone e)
  | remove key id v hpc hid hv =>
    obtain ⟨e, he⟩ := hb.refs.chan id (mem_clientRefs hid)
    obtain rfl : v = .channel e := Option.some.inj (hv.symm.trans he)
    exact .inr (ha.remove hb hpc (mem_chans_of_lookup hid) rfl rfl rfl rfl)
  | envSend e msg =>
    exact .inr (ha.step rfl (fun _ _ => rfl) (fun _ _ h => h)
      (htokens.fires (s.net.send_fires e msg)))
  | envRead e =>
    exact .inr (ha.step rfl (fun _ _ => rfl) (fun _ _ h => h)
      (htokens.fires (s.net.finishRead_fires e _)))
  | envDrop e =>
    exact .inr (ha.step rfl (fun _ _ => rfl) (fun _ _ h => h) (htokens.fires (s.net.close_fires e)))
  | envCreate =>
    exact .inr (ha.step rfl (fun _ _ => rfl) (fun _ _ h => h)
      (htokens.fires (create_fires hb.net.new)))

/-! ## Runs -/

theorem dead_of_step {g : Growth} {a : Action} (hdead : s.pc = .dead)
    (hstep : s.step c g a = some t) : t.pc = .dead := by
  cases a with
  | init => exact absurd hstep (by simp [step, initStep, hdead])
  | create =>
    cases hstep
    exact hdead
  | send | read | drop =>
    simp only [step] at hstep
    split at hstep
    · cases hstep
      exact hdead
    · cases hstep

omit [DecidableEq Name] in
theorem armed_boot {m : Nat} (hm : m < 2 ^ 64) : (boot Name m).Armed := by
  have hclient : ∀ key e, ¬ (boot Name m).Client key e := by
    rintro key e ⟨id, hid, -⟩
    exact absurd hid (by simp [boot])
  refine ⟨by simp [boot], ⟨⟨fun e key hkey => ?_, fun key hkey => ?_, by simp [boot, Pc.busy],
    fun key e h => absurd h (hclient key e)⟩, fun e w hw => ?_, fun h => absurd h (hclient _ _)⟩,
    ?_⟩
  · cases hkey
  · cases hkey
  · cases hw
  · intro todo i h
    obtain ⟨rfl, rfl⟩ := Pc.starting.inj h
    refine ⟨rfl, ?_⟩
    simp only [length_map, length_range]
    omega

/-- When the service is blocked, every channel in `chans` has exactly one waiter, for `READABLE`
    under the channel's own key, and an empty queue. -/
def Remembered (s : InitWorld Name) : Prop :=
  s.pc = .portWait → s.net.port = [] → ∀ key id, (key, id) ∈ s.chans →
    ∃ e registration, s.refs.value id = some (.channel e) ∧
      s.net.waiters e = [⟨.port initPort key, .readable, registration⟩] ∧
      (s.net.channel e).queue = []

omit [DecidableEq Name] in
theorem Armed.remembered (hb : s.Base) (ha : s.Armed) : s.Remembered := by
  intro hpc hport key id hmem
  have hid : id ∈ s.clientRefs := mem_append_left _ (mem_map_of_mem hmem)
  obtain ⟨e, he⟩ := hb.refs.chan id hid
  have hclient : s.Client key e := ⟨id, hmem, he⟩
  have htokens := ha.tokens
  rw [hpc] at htokens
  -- nothing is in the port or with the service, so the token is a waiter
  have hone : (s.net.board.armed e).count key = 1 := by
    simpa [board, hport, Pc.busy] using htokens.tokens.one key e hclient
  have hkeys : ∀ k ∈ s.net.board.armed e, key = k := fun k hk =>
    hb.client_key hclient (htokens.tokens.of_armed e k hk)
  rw [count_eq_length.2 hkeys] at hone
  have hlen : (s.net.board.armed e).length = (s.net.waiters e).length := by
    refine filterMap_length_eq_length.2 fun w hw => ?_
    obtain ⟨k, hty, -⟩ := htokens.waiter e w hw
    simp [serviceKey, hty]
  obtain ⟨w, hw⟩ := length_eq_one_iff.1 (hlen.symm.trans hone)
  have hwmem : w ∈ s.net.waiters e := by simp [hw]
  obtain ⟨key', hty, hmask⟩ := htokens.waiter e w hwmem
  obtain rfl := hkeys key' (mem_filterMap.2 ⟨w, hwmem, by simp [serviceKey, hty]⟩)
  have hquiet := hb.net.quiet e w hwmem
  rw [KObjectSignal.hits, hmask, ObjectSignal.intersects_readable,
    (hb.net.coherent e ⟨id, hid, he⟩).readable] at hquiet
  refine ⟨e, w.registration, he, ?_, by simpa using hquiet⟩
  rw [hw, ← hty, ← hmask]

/-- **When no client is forgotten.** Over every run in which a `Clone` request only ever reaches its
    `WaitPort` call while another message is waiting behind it, every channel is armed once, under
    its own key, and drained whenever the service blocks. (`channels` is a `Vec`, so its length is
    a `usize`.) -/
theorem clients_remembered {c : Codec Name} {g : Growth} {m : Nat} (hm : m < 2 ^ 64)
    {as : List Action} (hg : Lts.Guarded (step c g) ClonesBusy (boot Name m) as) :
    Lts.Always (step c g) Remembered (boot Name m) as := by
  refine always_of_guarded (I := fun s => s.Base ∧ (s.pc = .dead ∨ s.Armed)) ?_ ?_
    ⟨base_boot m, .inr (armed_boot hm)⟩ hg
  · rintro s ⟨hb, hdead | ha⟩
    · intro hpc
      exact absurd (hdead.symm.trans hpc) (by simp)
    · exact ha.remembered hb
  · rintro s a t ⟨hb, hs⟩ hguard hstep
    have m := move_of_step hstep
    refine ⟨hb.move m, ?_⟩
    rcases hs with hdead | ha
    · exact .inl (dead_of_step hdead hstep)
    · exact ha.move hb hguard m

/-- The first client sends `Clone` and, before the service gets to it, asks for the name `a`. -/
def busyCloneRun : List Action :=
  [.send 1 (ascii.request .clone),
    .send 1 (ascii.request (.getHandle (.ofLetters 1)))] ++ replicate 17 .init

theorem clients_remembered_busy :
    ∃ s, run (step ascii Growth.exact) (boot ShortName 1) busyCloneRun = some s ∧
      s.pc = .portWait ∧ s.net.port = [] ∧ s.chans.map Prod.fst = [10, 11] ∧ s.Remembered := by
  have hrun : ∃ s ∈ run (step ascii Growth.exact) (boot ShortName 1) busyCloneRun,
      s.pc = .portWait ∧ s.net.port = [] ∧ s.chans.map Prod.fst = [10, 11] := by decide +kernel
  obtain ⟨s, hs, hpc, hport, hkeys⟩ := hrun
  refine ⟨s, hs, hpc, hport, hkeys, ?_⟩
  exact (clients_remembered (by decide) (by decide +kernel)).last hs

/-- The first client sends `Clone` and waits for the answer, with which it then asks for the name
    `a`. -/
def cloneRun : List Action :=
  .send 1 (ascii.request .clone) :: replicate 11 .init ++
    [.read 1 100 1, .send 3 (ascii.request (.getHandle (.ofLetters 1)))]

/-- The service is blocked for good on an empty port, and the new client's request is never read:
    no waiter was ever stored on its channel. -/
theorem client_forgotten_by_clone :
    ∃ s, run (step ascii Growth.exact) (boot ShortName 1) cloneRun = some s ∧
      s.pc = .portWait ∧ s.net.port = [] ∧ s.initStep ascii Growth.exact = none ∧
      (11, 4) ∈ s.chans ∧ s.refs.value 4 = some (.channel 2) ∧ s.net.waiters 2 = [] ∧
      (s.net.channel 2).queue = [ascii.request (.getHandle (.ofLetters 1))] ∧
      ¬ s.Remembered := by
  have hrun : ∃ s ∈ run (step ascii Growth.exact) (boot ShortName 1) cloneRun,
      s.pc = .portWait ∧ s.net.port = [] ∧ (11, 4) ∈ s.chans ∧
      s.refs.value 4 = some (.channel 2) ∧ s.net.waiters 2 = [] ∧
      (s.net.channel 2).queue = [ascii.request (.getHandle (.ofLetters 1))] := by
    decide +kernel
  obtain ⟨s, hs, hpc, hport, hmem, hvalue, hwaiters, hqueue⟩ := hrun
  refine ⟨s, hs, hpc, hport, by simp [initStep, hpc, hport], hmem, hvalue, hwaiters, hqueue, ?_⟩
  intro hremembered
  obtain ⟨e, r, he, hw, -⟩ := hremembered hpc hport 11 4 hmem
  obtain rfl : e = 2 := by simpa using he.symm.trans hvalue
  exact absurd (hwaiters.symm.trans hw) (by simp)

end InitWorld

end Fioxa
