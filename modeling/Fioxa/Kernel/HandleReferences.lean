import Fioxa.Kernel.HandleMoves

/-! # References to endpoints

Every action keeps the books: an endpoint exists exactly as long as a table, a call in progress or a
queue refers to it (`Counted`). References are moved from one place to another or dropped; the two
rules `regroup` and `Dropping.releaseWith` are all that is needed. -/

namespace Fioxa.HandleWorld

open List Endpoints Function


variable {s t : HandleWorld} {p i x : Nat} {v : KernelValue} {c c' : Call}

/-- A table or a call in progress refers to endpoint `x`. -/
def Refers (s : HandleWorld) (x : Nat) : Prop :=
  s.InTable x ∨ ∃ c ∈ s.calls, .channel x ∈ c.values

theorem TablesOk.mem_roots (h : s.TablesOk) : .channel x ∈ s.roots ↔ s.Refers x := by
  rw [roots, mem_append, h.mem_tableValues, mem_flatMap]
  rfl

theorem inTable_added (s : HandleWorld) (p x : Nat) : (s.added p (.channel x)).InTable x :=
  ⟨p, _, added_value_self s p _⟩

theorem refers_added (h : s.TablesOk) : (s.added p v).Refers x ↔ s.Refers x ∨ v = .channel x := by
  constructor
  · rintro (⟨q, id, hq⟩ | hcall)
    · by_cases hnew : q = p ∧ id = (s.refs p).nextId
      · obtain ⟨rfl, rfl⟩ := hnew
        rw [added_value_self] at hq
        exact .inr (Option.some.inj hq)
      · rw [added_value s p v q id hnew] at hq
        exact .inl (.inl ⟨q, id, hq⟩)
    · exact .inl (.inr hcall)
  · rintro ((⟨q, id, hq⟩ | hcall) | rfl)
    · exact .inl ⟨q, id, h.stable p v hq⟩
    · exact .inr hcall
    · exact .inl (inTable_added s p x)

theorem refers_push :
    { s with calls := s.calls ++ [c] }.Refers x ↔ s.Refers x ∨ .channel x ∈ c.values := by
  simp [Refers, InTable, or_and_right, exists_or, or_assoc]

/-- The call that is about to go on, apart from the others. -/
theorem refers_get (hget : s.calls[i]? = some c) : s.Refers x ↔
    .channel x ∈ c.values ∨ { s with calls := s.calls.eraseIdx i }.Refers x := by
  obtain ⟨hi, rfl⟩ := List.getElem?_eq_some_iff.1 hget
  simp only [Refers, InTable, ← (getElem_cons_eraseIdx_perm hi).mem_iff, mem_cons,
    exists_eq_or_imp, or_left_comm]

theorem refers_setCall (hget : s.calls[i]? = some c) : (s.setCall i c').Refers x ↔
    .channel x ∈ c'.values ∨ { s with calls := s.calls.eraseIdx i }.Refers x := by
  obtain ⟨hi, -⟩ := List.getElem?_eq_some_iff.1 hget
  simp only [Refers, InTable, setCall, (set_perm_cons_eraseIdx hi c').mem_iff, mem_cons,
    exists_eq_or_imp, or_left_comm]

/-! ## Counting -/

/-- Tables are in order, and the endpoints that exist are those that are referred to. -/
structure Counted (s : HandleWorld) : Prop where
  tables : s.TablesOk
  refs : s.net.Dropping s.roots []
  callers : ∀ c ∈ s.calls, c.process < s.processes

section

variable (h : s.Counted)
include h

theorem Counted.alive_iff (x : Nat) :
    s.net.alive x = true ↔ s.Refers x ∨ .channel x ∈ s.net.queued := by
  rw [h.refs.alive_iff x, mem_append, h.tables.mem_roots]
  simp

theorem Counted.alive_of_refers (hx : s.Refers x) : s.net.alive x = true :=
  (h.alive_iff x).2 (.inl hx)

theorem Counted.alive_of_call (hget : s.calls[i]? = some c)
    (hx : .channel x ∈ c.values) : s.net.alive x = true :=
  h.alive_of_refers (.inr ⟨c, mem_of_getElem? hget, hx⟩)

theorem Counted.fresh : ∀ e, s.net.next ≤ e → s.net.channel e = .new :=
  fun e he => (h.refs.net.fresh e he).1

variable {work : List DropWork}

theorem Counted.regroup (ht : t.TablesOk)
    (hnet : t.net.Ok (fun e => t.net.alive e = true)) (hnext : t.net.next = s.net.next)
    (hpeer : t.net.peer = s.net.peer) (halive : t.net.alive = s.net.alive)
    (hopen : ∀ x, (t.net.channel x).isOpen = (s.net.channel x).isOpen)
    (hqueue : ∀ x, s.net.alive x = false → (t.net.channel x).queue = (s.net.channel x).queue)
    (hmem : ∀ x, s.net.alive x = true ↔
      (t.Refers x ∨ .channel x ∈ t.net.queued) ∨ .value (.channel x) ∈ work) :
    t.net.Dropping t.roots work where
  net := hnet
  alive_iff x := by
    rw [halive, mem_append, ht.mem_roots]
    exact hmem x
  cleared x hx := by
    rw [halive] at hx
    rw [hqueue x hx]
    exact h.refs.cleared x hx
  peers := by
    rw [hnext, hpeer]
    exact h.refs.peers
  told x hx hdead hpeer' := by
    rw [hnext] at hx
    rw [halive] at hdead hpeer'
    rw [hpeer] at hpeer' ⊢
    rw [hopen]
    exact .inl ((h.refs.told x hx hdead hpeer').resolve_right (by simp))

theorem Counted.dropping (ht : t.TablesOk) (hnet : t.net = s.net) (hlost : ∀ x, s.Refers x →
      t.Refers x ∨ .channel x ∈ s.net.queued ∨ .value (.channel x) ∈ work)
    (hgain : ∀ x, t.Refers x ∨ .value (.channel x) ∈ work → s.net.alive x = true) :
    t.net.Dropping t.roots work := by
  refine h.regroup ht ?_ (by rw [hnet]) (by rw [hnet]) (by rw [hnet]) (by simp [hnet])
    (by simp [hnet]) fun x => ⟨fun hx => ?_, ?_⟩
  · rw [hnet]
    exact h.refs.net
  · rw [hnet]
    rcases (h.alive_iff x).1 hx with hx | hx
    · rcases hlost x hx with hx | hx | hx
      · exact .inl (.inl hx)
      · exact .inl (.inr hx)
      · exact .inr hx
    · exact .inl (.inr hx)
  · rw [hnet]
    rintro ((hx | hx) | hx)
    · exact hgain x (.inl hx)
    · exact (h.alive_iff x).2 (.inr hx)
    · exact hgain x (.inr hx)

theorem Counted.moved (ht : t.TablesOk) (hnet : t.net = s.net)
    (hlost : ∀ x, s.Refers x → t.Refers x) (hgain : ∀ x, t.Refers x → s.net.alive x = true)
    (hcallers : ∀ c ∈ t.calls, c.process < t.processes) : t.Counted := by
  refine ⟨ht, h.dropping ht hnet (fun x hx => .inl (hlost x hx)) fun x hx => ?_, hcallers⟩
  exact hgain x (hx.resolve_right (by simp))

end

variable {values : List KernelValue}

theorem counted_release (ht : s.TablesOk) (h : s.net.Dropping s.roots (values.map .value))
    (hcallers : ∀ c ∈ s.calls, c.process < s.processes) : (s.release values).Counted where
  tables := ht.congr rfl rfl le_rfl
  refs := Dropping.releaseWith h le_rfl
  callers := hcallers

theorem Counted.added (h : s.Counted) (hp : p < s.processes)
    (hv : ∀ e, v = .channel e → s.net.alive e = true) : (s.added p v).Counted := by
  refine h.moved (h.tables.added hp v) rfl (fun x hx => (refers_added h.tables).2 (.inl hx))
    (fun x hx => ?_) h.callers
  exact ((refers_added h.tables).1 hx).elim h.alive_of_refers (hv x)

theorem Counted.push (h : s.Counted) (hp : c.process < s.processes)
    (hc : ∀ x, .channel x ∈ c.values → s.net.alive x = true) :
    { s with calls := s.calls ++ [c] }.Counted := by
  refine h.moved (h.tables.congr rfl rfl le_rfl) rfl (fun x hx => refers_push.2 (.inl hx))
    (fun x hx => (refers_push.1 hx).elim h.alive_of_refers (hc x)) fun d hd => ?_
  rcases mem_append.1 hd with hd | hd
  · exact h.callers d hd
  · exact mem_singleton.1 hd ▸ hp

theorem Counted.callers_set (h : s.Counted) (hget : s.calls[i]? = some c)
    (hp : c'.process = c.process) : ∀ d ∈ s.calls.set i c', d.process < s.processes := by
  intro d hd
  rcases mem_or_eq_of_mem_set hd with hd | rfl
  · exact h.callers d hd
  · rw [hp]
    exact h.callers c (mem_of_getElem? hget)

theorem Counted.setCall (h : s.Counted) (hget : s.calls[i]? = some c)
    (hp : c'.process = c.process)
    (hnew : ∀ x, .channel x ∈ c'.values → s.net.alive x = true)
    (hlost : ∀ x, .channel x ∈ c.values → .channel x ∈ c'.values ∨ s.InTable x) :
    (s.setCall i c').Counted := by
  refine h.moved (h.tables.congr rfl rfl le_rfl) rfl (fun x hx => ?_) (fun x hx => ?_)
    (h.callers_set hget hp)
  · rcases (refers_get hget).1 hx with hx | hx
    · exact (hlost x hx).elim (fun hx => (refers_setCall hget).2 (.inl hx)) .inl
    · exact (refers_setCall hget).2 (.inr hx)
  · rcases (refers_setCall hget).1 hx with hx | hx
    · exact hnew x hx
    · exact h.alive_of_refers ((refers_get hget).2 (.inr hx))

theorem Counted.endCall (h : s.Counted) (hget : s.calls[i]? = some c)
    (hsub : ∀ x, .channel x ∈ values → .channel x ∈ c.values)
    (hlost : ∀ x, .channel x ∈ c.values → .channel x ∈ values ∨ .channel x ∈ s.net.queued) :
    (s.endCall i values).Counted := by
  have ht : { s with calls := s.calls.eraseIdx i }.TablesOk :=
    h.tables.congr rfl rfl le_rfl
  refine counted_release ht (h.dropping ht rfl (fun x hx => ?_) ?_)
    fun d hd => h.callers d (mem_of_mem_eraseIdx hd)
  · rcases (refers_get hget).1 hx with hx | hx
    · exact .inr ((hlost x hx).symm.imp_right mem_map_of_mem)
    · exact .inl hx
  · rintro x (hx | hwork)
    · exact h.alive_of_refers ((refers_get hget).2 (.inr hx))
    · obtain ⟨w, hw, heq⟩ := mem_map.1 hwork
      cases heq
      exact h.alive_of_call hget (hsub x hw)

/-! ### Messages -/

variable {e : Nat}

theorem carries_send {n : Endpoints} {msg : ChannelMessage} (h : n.accepts e msg = true) :
    v ∈ ((n.send e msg).channel x).queue.flatMap ChannelMessage.values ↔
      v ∈ (n.channel x).queue.flatMap ChannelMessage.values ∨ x = n.peer e ∧ v ∈ msg.values := by
  show v ∈ ((n.send e msg).traffic x).queue.flatMap _ ↔ _
  rw [traffic_send h]
  by_cases hx : x = n.peer e
  · subst hx
    simp [Traffic.push, traffic]
  · simp [hx, traffic]

theorem carries_finishRead {n : Endpoints} {read : ChannelRead} {packet : ChannelMessage}
    (h : ((n.channel e).sysRead read).packet = some packet) :
    v ∈ (n.channel x).queue.flatMap ChannelMessage.values ↔
      v ∈ ((n.finishRead e ((n.channel e).sysRead read)).channel x).queue.flatMap
        ChannelMessage.values ∨ x = e ∧ v ∈ packet.values := by
  obtain ⟨rest, hq, ht⟩ := traffic_of_packet h
  show _ ↔ v ∈ ((n.finishRead e _).traffic x).queue.flatMap _ ∨ _
  rw [ht]
  by_cases hx : x = e
  · subst hx
    simp [hq, Traffic.pop, or_comm]
  · simp [hx, traffic]

section

variable (h : s.Counted)
include h

theorem Counted.send {msg : ChannelMessage} (haccepts : s.net.accepts e msg = true)
    (hmsg : ∀ x, .channel x ∈ msg.values → s.net.alive x = true) (hnet : t.net = s.net.send e msg)
    (hrefs : t.refs = s.refs) (hgiven : t.given = s.given) (hcalls : t.calls = s.calls)
    (hprocesses : t.processes = s.processes) : t.Counted := by
  have htraffic := traffic_send haccepts
  have ht : t.TablesOk := h.tables.congr hrefs hgiven (Nat.le_of_eq hprocesses.symm)
  have hok : (s.net.send e msg).Intact := h.refs.net.send e msg
  have hqueued : ∀ {v}, v ∈ (s.net.send e msg).queued ↔ v ∈ s.net.queued ∨ v ∈ msg.values := by
    intro v
    rw [mem_queued hok.new, mem_queued h.fresh]
    simp only [carries_send haccepts, exists_or, exists_eq_left]
  refine ⟨ht, h.regroup ht ?_ ?_ ?_ ?_ (fun x => ?_) (fun x hx => ?_) fun x => ?_, ?_⟩
  · rw [hnet]
    exact hok
  · rw [hnet, send_next]
  · rw [hnet, Endpoints.send_peer]
  · rw [hnet, send_alive]
  · rw [hnet]
    show ((s.net.send e msg).traffic x).isOpen = _
    rw [htraffic]
    by_cases hx : x = s.net.peer e
    · subst hx
      rw [update_self]
      rfl
    · rw [update_of_ne hx]
      rfl
  · rw [hnet]
    refine congrArg Traffic.queue (s.net.traffic_send_ne msg ?_)
    rintro rfl
    rw [(Bool.and_eq_true_iff.1 haccepts).1] at hx
    cases hx
  · have hsame : t.Refers x ↔ s.Refers x := by rw [Refers, InTable, hrefs, hcalls]; rfl
    rw [h.alive_iff x, hsame, hnet, hqueued]
    constructor
    · rintro (hx | hx)
      · exact .inl (.inl hx)
      · exact .inl (.inr (.inl hx))
    · rintro ((hx | hx | hx) | hnone)
      · exact .inl hx
      · exact .inr hx
      · exact (h.alive_iff x).1 (hmsg x hx)
      · cases hnone
  · rw [hcalls, hprocesses]
    exact h.callers

theorem Counted.take {read : ChannelRead} {index : Nat} {packet : ChannelMessage}
    (hget : s.calls[i]? = some (.reading p e read.dataLen read.handlesLen))
    (hpacket : ((s.net.channel e).sysRead read).packet = some packet) :
    ({ s with net := s.net.finishRead e ((s.net.channel e).sysRead read) }.setCall i
      (.receiving p e index packet.values [])).Counted := by
  obtain ⟨rest, hq, htraffic⟩ := traffic_of_packet hpacket
  have halive : s.net.alive e = true := h.alive_of_call hget (.head _)
  let n := s.net.finishRead e ((s.net.channel e).sysRead read)
  let u := { s with net := n }.setCall i (.receiving p e index packet.values [])
  have ht : u.TablesOk := h.tables.congr rfl rfl le_rfl
  have hok : n.Intact := h.refs.net.finishRead halive read
  have hqueued : ∀ {v}, v ∈ s.net.queued ↔ v ∈ n.queued ∨ v ∈ packet.values := by
    intro v
    rw [mem_queued hok.new, mem_queued h.fresh]
    simp only [carries_finishRead hpacket, exists_or, exists_eq_left, n]
  refine ⟨ht, h.regroup (t := u) ht hok (finishRead_next ..)
    (finishRead_peer ..) (finishRead_alive ..) (fun x => ?_) (fun x hx => ?_)
    fun x => ?_, h.callers_set hget rfl⟩
  · show (n.traffic x).isOpen = _
    rw [htraffic]
    by_cases hx : x = e
    · subst hx
      rw [update_self]
      rfl
    · rw [update_of_ne hx]
      rfl
  · refine congrArg Traffic.queue (s.net.traffic_finishRead_ne _ ?_)
    rintro rfl
    rw [halive] at hx
    cases hx
  · have hget' : { s with net := n }.calls[i]?
        = some (.reading p e read.dataLen read.handlesLen) := hget
    rw [h.alive_iff x, refers_setCall hget', refers_get hget, hqueued]
    show _ ↔ (_ ∨ .channel x ∈ n.queued) ∨ _
    simp only [Call.values, mem_cons, not_mem_nil, or_false]
    tauto

/-! ### The remaining actions -/

theorem Counted.channelCreate (hp : p < s.processes) : { s with
      net := s.net.create
      calls := s.calls ++ [Call.creating p [s.net.next, s.net.next + 1]] }.Counted := by
  let u : HandleWorld :=
    { s with
      net := s.net.create
      calls := s.calls ++ [.creating p [s.net.next, s.net.next + 1]] }
  have ht : u.TablesOk := h.tables.congr rfl rfl le_rfl
  have hchan : ∀ x, s.net.create.channel x = s.net.channel x := create_channel h.fresh
  have hok : u.net.Intact := h.refs.net.create
  have hqueued : ∀ {v}, v ∈ u.net.queued ↔ v ∈ s.net.queued := by
    intro v
    rw [mem_queued hok.new, mem_queued h.fresh]
    show (∃ x, v ∈ (s.net.create.channel x).queue.flatMap _) ↔ _
    simp only [hchan]
  refine ⟨ht, ⟨hok, fun x => ?_, fun x hx => ?_, fun x hx => ?_, fun x hx hdead hpeer => ?_⟩,
    fun d hd => ?_⟩
  · have hrefers : u.Refers x ↔ s.Refers x ∨ x = s.net.next ∨ x = s.net.next + 1 :=
      (refers_push (s := s)).trans (by simp [Call.values])
    rw [mem_append, ht.mem_roots, hqueued, hrefers]
    refine create_alive_iff.trans ?_
    rw [h.alive_iff x]
    tauto
  · show (s.net.create.channel x).queue = []
    rw [hchan]
    refine h.refs.cleared x (Bool.eq_false_iff.2 fun halive => ?_)
    have := create_alive_iff.2 (.inl halive)
    rw [show u.net.alive x = s.net.create.alive x from rfl, this] at hx
    cases hx
  · show s.net.create.peer x < s.net.next + 2
    replace hx : x < s.net.next + 2 := hx
    by_cases hold : x < s.net.next
    · rw [create_peer s.net hold]
      have := h.refs.peers x hold
      omega
    · rcases (show x = s.net.next ∨ x = s.net.next + 1 by omega) with rfl | rfl
      · simp [Endpoints.create, Endpoints.peer]
      · simp [Endpoints.create, Endpoints.peer]
  · -- the new endpoints exist, so `x` is an old one
    have hnot : ¬ (s.net.alive x = true ∨ x = s.net.next ∨ x = s.net.next + 1) := fun hor => by
      rw [show u.net.alive x = s.net.create.alive x from rfl,
        create_alive_iff.2 hor] at hdead
      cases hdead
    have hlt : x < s.net.next := by
      replace hx : x < s.net.next + 2 := hx
      omega
    replace hpeer : s.net.create.alive (s.net.create.peer x) = true := hpeer
    rw [create_peer s.net hlt] at hpeer
    show (s.net.create.channel (s.net.create.peer x)).isOpen = false ∨ _
    rw [create_peer s.net hlt, hchan]
    rcases create_alive_iff.1 hpeer with hpeer | hnew
    · have hdead' : s.net.alive x = false := Bool.eq_false_iff.2 fun halive => hnot (.inl halive)
      exact h.refs.told x hlt hdead' hpeer
    · -- peers of old endpoints are old
      exact absurd hnew (by have := h.refs.peers x hlt; omega)
  · rcases mem_append.1 hd with hd | hd
    · exact h.callers d hd
    · rw [mem_singleton.1 hd]
      exact hp

theorem Counted.delete {id : Nat} (hv : (s.refs p).value id = some v) :
    ({ s with refs := update s.refs p ((s.refs p).remove id) }.release [v]).Counted := by
  have ht := h.tables.remove p id
  refine counted_release ht (h.dropping ht rfl ?_ ?_) h.callers
  · rintro x (⟨q, y, hy⟩ | hcall)
    · by_cases hdel : q = p ∧ y = id
      · obtain ⟨rfl, rfl⟩ := hdel
        rw [hv] at hy
        cases hy
        exact .inr (.inr (by simp))
      · refine .inl (.inl ⟨q, y, ?_⟩)
        rw [remove_value, if_neg hdel]
        exact hy
    · exact .inl (.inr hcall)
  · rintro x ((⟨q, y, hy⟩ | hcall) | hwork)
    · rw [remove_value] at hy
      split_ifs at hy
      exact h.alive_of_refers (.inl ⟨q, y, hy⟩)
    · exact h.alive_of_refers (.inr hcall)
    · rw [map_singleton, mem_singleton] at hwork
      cases hwork
      exact h.alive_of_refers (.inl ⟨p, id, hv⟩)

theorem Counted.addAll (hp : p < s.processes)
    (hv : ∀ v ∈ values, ∀ e, v = .channel e → s.net.alive e = true) :
    (s.addAll p values).Counted := by
  induction values generalizing s with
  | nil => exact h
  | cons v values ih =>
    rw [HandleWorld.addAll]
    rcases h.tables.withValue_cases p v (fun t _ => t.addAll p values) with heq | heq
    · rw [heq]
      exact ⟨h.tables.congr rfl rfl le_rfl, h.refs, h.callers⟩
    · rw [heq]
      exact ih (h.added hp (hv v (.head _))) hp fun w hw => hv w (.tail v hw)

theorem Counted.newProcess : { s with processes := s.processes + 1 }.Counted :=
  h.moved (h.tables.congr rfl rfl (Nat.le_succ _)) rfl (fun _ hx => hx)
    (fun _ => h.alive_of_refers) fun c hc => Nat.lt_succ_of_lt (h.callers c hc)

theorem Counted.load {ids : List Nat} (hvalues : ids.mapM (s.refs p).value = some values) :
    ({ s with processes := s.processes + 1 }.addAll s.processes values).Counted := by
  refine h.newProcess.addAll (Nat.lt_succ_self _) fun v hv e he => ?_
  have hmem : some v ∈ ids.map (s.refs p).value := by
    rw [mapM_eq_some.1 hvalues]
    exact mem_map_of_mem hv
  obtain ⟨id, -, hid⟩ := mem_map.1 hmem
  exact h.alive_of_refers (.inl ⟨p, id, he ▸ hid⟩)

theorem Counted.move {a : Action} (hm : Move s a t) : t.Counted := by
  have hp : ∀ {i} {c : Call}, s.calls[i]? = some c → c.process < s.processes := fun hget =>
    h.callers _ (mem_of_getElem? hget)
  cases hm with
  | same => exact h
  | panic => exact ⟨h.tables.congr rfl rfl le_rfl, h.refs, h.callers⟩
  | add hp hv =>
    have hu := h.added hp fun e he => h.alive_of_refers (.inl (hv e he))
    exact ⟨hu.tables.congr rfl rfl le_rfl, hu.refs, hu.callers⟩
  | delete ha hv => exact h.delete hv
  | load hvalues => exact h.load hvalues
  | channelCreate hp => exact h.channelCreate hp
  | start hp he hc =>
    rcases hc with ⟨data, ids, rfl⟩ | ⟨m, k, rfl⟩
    all_goals
      refine h.push hp fun x hx => ?_
      cases mem_singleton.1 hx
      exact h.alive_of_refers (.inl he)
  | create hget =>
    refine (h.added (hp hget) fun x hx => ?_).setCall hget rfl (fun x hx => ?_) fun x hx => ?_
    · exact h.alive_of_call hget (hx ▸ .head _)
    · exact h.alive_of_call hget (.tail _ hx)
    · rcases mem_cons.1 hx with hx | hx
      · exact .inr (hx ▸ inTable_added s _ x)
      · exact .inl hx
  | collect hget hmsg =>
    refine h.setCall hget rfl (fun x hx => ?_) fun x hx => .inl ?_
    · rcases mem_cons.1 hx with hx | hx
      · exact h.alive_of_call hget (hx ▸ .head _)
      · exact h.alive_of_refers (.inl ⟨_, hmsg _ hx⟩)
    · rw [mem_singleton.1 hx]
      exact .head _
  | @send i p e msg record ha hget haccepts =>
    let u : HandleWorld := { s with
      net := s.net.send e msg
      writes := update s.writes (s.net.peer e)
        (s.writes (s.net.peer e) ++ [record]) }
    have hu : u.Counted := h.send haccepts (fun x hx => h.alive_of_call hget (.tail _ hx)) rfl rfl
      rfl rfl rfl
    refine hu.endCall (c := .sending p e msg record) hget (fun x hx => ?_) fun x hx => ?_
    · rw [mem_singleton.1 hx]
      exact .head _
    · rcases mem_cons.1 hx with hx | hx
      · exact .inl (hx ▸ mem_singleton_self _)
      · refine .inr ((mem_queued hu.fresh).2 ⟨s.net.peer e, ?_⟩)
        exact (carries_send haccepts).2 (.inr ⟨rfl, hx⟩)
  | take _ hget hpacket => exact h.take hget hpacket
  | receive hget =>
    refine (h.added (hp hget) fun x hx => ?_).setCall hget rfl (fun x hx => ?_) fun x hx => ?_
    · exact h.alive_of_call hget (hx ▸ .tail _ (.head _))
    · rcases mem_cons.1 hx with hx | hx
      · exact h.alive_of_call hget (hx ▸ .head _)
      · exact h.alive_of_call hget (.tail _ (.tail _ hx))
    · rcases mem_cons.1 hx with hx | hx
      · exact .inl (hx ▸ .head _)
      · rcases mem_cons.1 hx with hx | hx
        · exact .inr (hx ▸ inTable_added s _ x)
        · exact .inl (.tail _ hx)
  | @finish i c values reads hget hvalues =>
    have hu : { s with reads := reads }.Counted :=
      ⟨h.tables.congr rfl rfl le_rfl, h.refs, h.callers⟩
    exact hu.endCall hget (fun x => (hvalues _).1) fun x hx => .inl ((hvalues _).2 hx)

end

theorem counted_boot : boot.Counted where
  tables := ⟨fun _ => Nat.le_refl _, fun _ _ _ hv => (nomatch hv), fun _ => rfl, fun _ _ => rfl⟩
  refs :=
    { net := ⟨fun _ he => (nomatch he), fun _ _ => ⟨rfl, rfl, rfl⟩,
        fun _ => KObjectSignal.quiet_new, fun _ he => (nomatch he), fun _ he => (nomatch he),
        fun _ he => (nomatch he)⟩
      alive_iff := fun e => by
        simp [boot, roots, tableValues, ProcessReferences.values, ProcessReferences.new,
          Endpoints.queued]
      cleared := fun _ _ => rfl
      peers := fun _ he => absurd he (Nat.not_lt_zero _)
      told := fun _ he => absurd he (Nat.not_lt_zero _) }
  callers := fun _ hc => (nomatch hc)

end Fioxa.HandleWorld
