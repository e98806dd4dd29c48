import Fioxa.Kernel.HandleReferences

/-! # The laws of handles

Identifiers are given out in increasing order and never twice, so an identifier denotes one object
until it is deleted. A message carries the objects that the writer's identifiers denoted when the
`Write` collected them, and the reader gets new identifiers for these objects, in order; nothing
that happens to the writer's table in the meantime matters. The messages of an endpoint are told
apart by their number: the one that is read as number `k` is the one that was accepted as number
`k`. -/

namespace Fioxa.HandleWorld

open List Option Prod Nat Endpoints Function

variable {s t : HandleWorld} {p i : Nat} {v : KernelValue} {c : Call} {a : Action}

/-! ## Messages -/

/-- A reader of message `index` of endpoint `e` has got new identifiers for some of its handles;
    those in `rest` are to come. -/
structure Delivered (s : HandleWorld) (p e index : Nat) (rest : List KernelValue)
    (got : List (Nat × Option KernelValue)) : Prop where
  values : ∃ msg, (s.net.received e)[index]? = some msg ∧
    got.map snd ++ rest.map some = msg.values.map some
  increasing : (got.map fst).Pairwise (· < ·)
  given : ∀ id ∈ got.map fst, 1 ≤ id ∧ id < (s.refs p).nextId

def CallOk (s : HandleWorld) : Call → Prop
  | .sending _ _ msg record => record.denoted = msg.values.map some
  | .receiving p e index rest got => s.Delivered p e index rest got
  | _ => True

/-- Messages are read in the order in which they were accepted, and their handles denote what they
    denoted for the writer. -/
structure TransferOk (s : HandleWorld) : Prop where
  written : ∀ e, (s.net.sent e).map (fun msg => msg.values.map some)
    = (s.writes e).map WriteRecord.denoted
  inOrder : ∀ e, s.net.received e <+: s.net.sent e
  calls : ∀ c ∈ s.calls, s.CallOk c
  reads : ∀ r ∈ s.reads, s.Delivered r.process r.endpoint r.index [] r.got

variable {e : Nat}

theorem Delivered.keep {index : Nat} {rest : List KernelValue}
    {got : List (Nat × Option KernelValue)} (h : s.Delivered p e index rest got)
    (hreceived : ∀ e, s.net.received e <+: t.net.received e)
    (hnext : ∀ p, (s.refs p).nextId ≤ (t.refs p).nextId) : t.Delivered p e index rest got where
  values := by
    obtain ⟨msg, hmsg, hvalues⟩ := h.values
    obtain ⟨later, hlater⟩ := hreceived e
    obtain ⟨hlt, -⟩ := List.getElem?_eq_some_iff.1 hmsg
    refine ⟨msg, ?_, hvalues⟩
    rw [← hlater, List.getElem?_append_left hlt]
    exact hmsg
  increasing := h.increasing
  given id hid := by
    have := h.given id hid
    have := hnext p
    omega

theorem CallOk.keep (h : s.CallOk c) (hreceived : ∀ e, s.net.received e <+: t.net.received e)
    (hnext : ∀ p, (s.refs p).nextId ≤ (t.refs p).nextId) : t.CallOk c := by
  cases c with
  | sending => exact h
  | receiving => exact Delivered.keep h hreceived hnext
  | _ => trivial

section

variable (h : s.TransferOk)
include h

theorem TransferOk.keep (hsent : t.net.sent = s.net.sent)
    (hreceived : t.net.received = s.net.received) (hwrites : t.writes = s.writes)
    (hreads : t.reads = s.reads) (hnext : ∀ p, (s.refs p).nextId ≤ (t.refs p).nextId)
    (hcalls : ∀ c ∈ t.calls, c ∈ s.calls ∨ t.CallOk c) : t.TransferOk where
  written e := by
    rw [hsent, hwrites]
    exact h.written e
  inOrder e := by
    rw [hsent, hreceived]
    exact h.inOrder e
  calls c hc := by
    rcases hcalls c hc with hc | hc
    · exact (h.calls c hc).keep (fun e => by rw [hreceived]) hnext
    · exact hc
  reads r hr := by
    rw [hreads] at hr
    exact (h.reads r hr).keep (fun e => by rw [hreceived]) hnext

theorem TransferOk.endCall (i : Nat) (values : List KernelValue) :
    (s.endCall i values).TransferOk := by
  have hshrunk := release_shrunk s.net
    { s with calls := s.calls.eraseIdx i }.roots values
  exact h.keep hshrunk.sent hshrunk.received rfl rfl (fun _ => Nat.le_refl _)
    fun c hc => .inl (mem_of_mem_eraseIdx hc)

theorem TransferOk.setCall (hc : s.CallOk c) : (s.setCall i c).TransferOk := by
  refine h.keep rfl rfl rfl rfl (fun _ => Nat.le_refl _) fun d hd => ?_
  rcases mem_or_eq_of_mem_set hd with hd | rfl
  · exact .inl hd
  · exact .inr (hc.keep (fun _ => prefix_rfl) (fun _ => Nat.le_refl _))

theorem TransferOk.added (p : Nat) (v : KernelValue) : (s.added p v).TransferOk := by
  refine h.keep rfl rfl rfl rfl (fun q => ?_) fun c hc => .inl hc
  rw [added_nextId]
  exact Nat.le_add_right _ _

theorem TransferOk.push (hcalls : t.calls = s.calls ++ [c]) (hc : t.CallOk c)
    (hnet : t.net.sent = s.net.sent ∧ t.net.received = s.net.received)
    (hwrites : t.writes = s.writes) (hreads : t.reads = s.reads) (hrefs : t.refs = s.refs) :
    t.TransferOk := by
  refine h.keep hnet.1 hnet.2 hwrites hreads (fun _ => by rw [hrefs]) fun d hd => ?_
  rw [hcalls] at hd
  rcases mem_append.1 hd with hd | hd
  · exact .inl hd
  · exact .inr (mem_singleton.1 hd ▸ hc)

theorem TransferOk.addAll (ht : s.TablesOk) (hp : p < s.processes) (values : List KernelValue) :
    (s.addAll p values).TransferOk := by
  induction values generalizing s with
  | nil => exact h
  | cons v values ih =>
    rw [HandleWorld.addAll]
    rcases ht.withValue_cases p v (fun t _ => t.addAll p values) with heq | heq
    · rw [heq]
      exact h.keep rfl rfl rfl rfl (fun _ => Nat.le_refl _) fun c hc => .inl hc
    · rw [heq]
      exact ih (h.added p v) (ht.added hp v) hp

theorem TransferOk.send {msg : ChannelMessage} {record : WriteRecord}
    (haccepts : s.net.accepts e msg = true) (hrecord : record.denoted = msg.values.map some) :
    { s with
      net := s.net.send e msg
      writes := update s.writes (s.net.peer e)
        (s.writes (s.net.peer e) ++ [record]) }.TransferOk := by
  have htraffic := congrFun (traffic_send haccepts)
  have hreceived := s.net.send_received e msg
  refine ⟨fun x => ?_, fun x => ?_, fun c hc => ?_, fun r hr => ?_⟩
  · show (((s.net.send e msg).traffic x).sent).map _ = (update s.writes _ _ x).map _
    rw [htraffic]
    by_cases hx : x = s.net.peer e
    · subst hx
      rw [update_self, update_self, Traffic.push, map_append, map_append,
        map_singleton, map_singleton, hrecord, ← h.written]
      rfl
    · rw [update_of_ne hx, update_of_ne hx]
      exact h.written x
  · show (s.net.send e msg).received x <+: ((s.net.send e msg).traffic x).sent
    rw [hreceived, htraffic]
    by_cases hx : x = s.net.peer e
    · subst hx
      rw [update_self]
      exact (h.inOrder _).trans (prefix_append _ _)
    · rw [update_of_ne hx]
      exact h.inOrder x
  · exact (h.calls c hc).keep (fun x => by rw [hreceived]) (fun _ => Nat.le_refl _)
  · exact (h.reads r hr).keep (fun x => by rw [hreceived]) (fun _ => Nat.le_refl _)

theorem TransferOk.take {read : ChannelRead} {packet : ChannelMessage}
    (hdelivered : s.net.sent e = s.net.received e ++ (s.net.channel e).queue)
    (hpacket : ((s.net.channel e).sysRead read).packet = some packet) :
    ({ s with net := s.net.finishRead e ((s.net.channel e).sysRead read) }.setCall i
      (.receiving p e (s.net.received e).length packet.values [])).TransferOk := by
  obtain ⟨rest, hhead, htraffic⟩ := traffic_of_packet hpacket
  let n := s.net.finishRead e ((s.net.channel e).sysRead read)
  have hsent : n.sent = s.net.sent := s.net.finishRead_sent ..
  have hreceived : n.received = update s.net.received e (s.net.received e ++ [packet]) := by
    funext x
    show (n.traffic x).received = _
    rw [htraffic]
    by_cases hx : x = e
    · rw [hx, update_self, update_self]
      rfl
    · rw [update_of_ne hx, update_of_ne hx]
      rfl
  have hgrow : ∀ x, s.net.received x <+: n.received x := by
    intro x
    rw [hreceived]
    by_cases hx : x = e
    · rw [hx, update_self]
      exact prefix_append _ _
    · rw [update_of_ne hx]
  have hu : { s with net := n }.TransferOk := by
    refine ⟨fun x => ?_, fun x => ?_, fun c hc => ?_, fun r hr => ?_⟩
    · rw [hsent]
      exact h.written x
    · rw [hsent, hreceived]
      by_cases hx : x = e
      · rw [hx, update_self, hdelivered, hhead]
        exact ⟨_, by rw [append_assoc, singleton_append]⟩
      · rw [update_of_ne hx]
        exact h.inOrder x
    · exact (h.calls c hc).keep hgrow (fun _ => Nat.le_refl _)
    · exact (h.reads r hr).keep hgrow (fun _ => Nat.le_refl _)
  refine hu.setCall ⟨⟨packet, ?_, by simp⟩, by simp, by simp⟩
  rw [hreceived, update_self]
  exact List.getElem?_concat_length

theorem TransferOk.receive {index : Nat} {rest : List KernelValue}
    {got : List (Nat × Option KernelValue)} (ht : s.TablesOk)
    (hcall : s.Delivered p e index (v :: rest) got) :
    ((s.added p v).setCall i
      (.receiving p e index rest (got ++ [((s.refs p).nextId, some v)]))).TransferOk := by
  refine (h.added p v).setCall ?_
  have hnext := added_nextId s p v p
  rw [if_pos rfl] at hnext
  obtain ⟨msg, hmsg, hvalues⟩ := hcall.values
  refine ⟨⟨msg, hmsg, ?_⟩, ?_, fun id hid => ?_⟩
  · rw [map_append, map_singleton, append_assoc, singleton_append]
    exact hvalues
  · rw [map_append, pairwise_append]
    refine ⟨hcall.increasing, by simp, fun a ha b hb => ?_⟩
    rw [show b = (s.refs p).nextId by simpa using hb]
    exact (hcall.given a ha).2
  · rw [hnext]
    rw [map_append] at hid
    rcases mem_append.1 hid with hid | hid
    · have := hcall.given id hid
      omega
    · rw [show id = (s.refs p).nextId by simpa using hid]
      have := ht.pos p
      omega

theorem TransferOk.move (hs : s.Counted) (hm : Move s a t) : t.TransferOk := by
  have hcall : ∀ {i c}, s.calls[i]? = some c → s.CallOk c := fun hget =>
    h.calls _ (mem_of_getElem? hget)
  have hle : ∀ p, (s.refs p).nextId ≤ (s.refs p).nextId := fun _ => Nat.le_refl _
  cases hm with
  | same => exact h
  | panic => exact h.keep rfl rfl rfl rfl hle fun c hc => .inl hc
  | @add n p v =>
    have hu := h.added p v
    exact hu.keep rfl rfl rfl rfl (fun _ => Nat.le_refl _) fun c hc => .inl hc
  | @delete p id v =>
    have hshrunk := release_shrunk s.net
      { s with refs := update s.refs p ((s.refs p).remove id) }.roots [v]
    refine h.keep hshrunk.sent hshrunk.received rfl rfl (fun q => ?_) fun c hc => .inl hc
    exact Nat.le_of_eq (remove_nextId s p id q).symm
  | load =>
    have hu : { s with processes := s.processes + 1 }.TransferOk :=
      h.keep rfl rfl rfl rfl hle fun c hc => .inl hc
    exact hu.addAll hs.newProcess.tables (lt_succ_self _) _
  | channelCreate => exact h.push rfl trivial ⟨rfl, rfl⟩ rfl rfl rfl
  | start hp he hc =>
    refine h.push rfl ?_ ⟨rfl, rfl⟩ rfl rfl rfl
    rcases hc with ⟨data, ids, rfl⟩ | ⟨m, k, rfl⟩ <;> trivial
  | create => exact (h.added _ _).setCall trivial
  | collect hget hmsg hrecord => exact h.setCall hrecord
  | send ha hget haccepts => exact (h.send haccepts (hcall hget)).endCall _ _
  | take _ hget hpacket =>
    exact h.take (hs.refs.net.delivered _ (hs.alive_of_call hget (.head _))) hpacket
  | receive hget => exact h.receive hs.tables (hcall hget)
  | @finish i c values reads hget hvalues hreads =>
    have hu : { s with reads := reads }.TransferOk := by
      refine ⟨h.written, h.inOrder, fun d hd => ?_, fun r hr => ?_⟩
      · exact (h.calls d hd).keep (fun _ => prefix_rfl) hle
      · have hr : s.Delivered r.process r.endpoint r.index [] r.got := by
          rcases hreads r hr with hr | rfl
          · exact h.reads r hr
          · exact hcall hget
        exact hr.keep (fun _ => prefix_rfl) hle
    exact hu.endCall i _

end

/-! ## The laws -/

/-- What an identifier (or a null handle) denotes for a process. -/
def denotes (s : HandleWorld) (p : Nat) (id : Option Nat) : Option KernelValue :=
  id.bind (s.refs p).value

/-- What holds of an action `a` that leads from `s` to `t`. -/
structure HandleLaws (s : HandleWorld) (a : Action) (t : HandleWorld) : Prop where
  /-- A process is never given an identifier twice. -/
  fresh : ∀ p, ∃ new, t.given p = s.given p ++ new ∧ new.Nodup ∧ ∀ id ∈ new, id ∉ s.given p
  /-- Tables only have entries for identifiers that have been given. -/
  known : ∀ p id v, (t.refs p).value id = some v → id ∈ t.given p
  /-- The assertion in `add_value` holds. -/
  asserted : t.panicked ≠ some .zero ∧ t.panicked ≠ some .occupied
  /-- An identifier denotes the same object until it is deleted. -/
  stable : ∀ p id v, (s.refs p).value id = some v → a ≠ .delete p id →
    (t.refs p).value id = some v
  /-- A `Write` collects what its handles denote, in order, and leaves the table alone. -/
  collects : ∀ i p e data ids, a = .advance i → s.calls[i]? = some (.writing p e data ids) →
    (∀ id ∈ ids, s.denotes p id ≠ none) → t.refs = s.refs ∧ t.net = s.net ∧
      ∃ msg record, t.calls[i]? = some (.sending p e msg record) ∧ record.ids = ids ∧
        record.denoted = ids.map (s.denotes p) ∧ msg.values.map some = ids.map (s.denotes p)
  /-- A `Write` that names an unknown handle is over, and nothing has been queued. -/
  unknown : ∀ i p e data ids, a = .advance i → s.calls[i]? = some (.writing p e data ids) →
    (∃ id ∈ ids, s.denotes p id = none) → t.refs = s.refs ∧ t.calls = s.calls.eraseIdx i ∧
      ∀ x, (t.net.channel x).queue = (s.net.channel x).queue ∨ (t.net.channel x).queue = []
  /-- Sending leaves the table alone, too. -/
  sends : ∀ i p e msg record, a = .advance i →
    s.calls[i]? = some (.sending p e msg record) → t.refs = s.refs
  /-- A `Read` gives one new identifier for each handle. -/
  receives : ∀ i p e index v rest got, a = .advance i →
    s.calls[i]? = some (.receiving p e index (v :: rest) got) → t.panicked = none →
      ∃ id, id ∉ s.given p ∧ (t.refs p).value id = some v ∧
        t.calls[i]? = some (.receiving p e index rest (got ++ [(id, some v)]))
  /-- The identifiers a `Read` has returned denote, in order, what those of the corresponding
      `Write` denoted. -/
  transfers : ∀ r ∈ t.reads, ∃ w, (t.writes r.endpoint)[r.index]? = some w ∧
    r.got.map snd = w.denoted ∧ (r.got.map fst).Nodup ∧
    ∀ id ∈ r.got.map fst, id ∈ t.given r.process
  /-- The identifiers 1, 2, … of a new process denote the references of its loader. -/
  loads : ∀ p ids, a = .load p ids → t.panicked = none →
    t.given s.processes = range' 1 ids.length ∧
    ∀ k id, ids[k]? = some id → (t.refs s.processes).value (k + 1) = (s.refs p).value id ∧
      (s.refs p).value id ≠ none

theorem TablesOk.fresh (h : s.TablesOk) (h' : t.TablesOk)
    (hnext : (s.refs p).nextId ≤ (t.refs p).nextId) :
    ∃ new, t.given p = s.given p ++ new ∧ new.Nodup ∧ ∀ id ∈ new, id ∉ s.given p := by
  have hpos := h.pos p
  refine ⟨range' (s.refs p).nextId ((t.refs p).nextId - (s.refs p).nextId), ?_,
    nodup_range', fun id hid hgiven => ?_⟩
  · rw [h.given, h'.given]
    have happend := range'_append_1 (s := 1) (m := (s.refs p).nextId - 1)
      (n := (t.refs p).nextId - (s.refs p).nextId)
    rw [show 1 + ((s.refs p).nextId - 1) = (s.refs p).nextId by omega,
      show (s.refs p).nextId - 1 + ((t.refs p).nextId - (s.refs p).nextId)
        = (t.refs p).nextId - 1 by omega] at happend
    exact happend.symm
  · have hlt := (h.mem_given.1 hgiven).2
    have hle := (mem_range'_1.1 hid).1
    omega

theorem TablesOk.move (h : s.TablesOk) (hm : Move s a t) :
    (∀ p, (s.refs p).nextId ≤ (t.refs p).nextId) ∧
    (∀ p id v, (s.refs p).value id = some v → a ≠ .delete p id →
      (t.refs p).value id = some v) ∧
    (t.panicked = s.panicked ∨ t.panicked = some .overflow ∨ t.panicked = some .missing) := by
  cases hm with
  | panic hwhy =>
    exact ⟨fun _ => Nat.le_refl _, fun _ _ _ hv _ => hv, .inr (by simpa using hwhy)⟩
  | @add n p v =>
    have hext := h.extends_added p v
    exact ⟨hext.nextId, fun q id w hw _ => hext.value q id w hw, .inl rfl⟩
  | @create i p e =>
    have hext := h.extends_added p (.channel e)
    exact ⟨hext.nextId, fun q id w hw _ => hext.value q id w hw, .inl rfl⟩
  | @receive i p e index v =>
    have hext := h.extends_added p v
    exact ⟨hext.nextId, fun q id w hw _ => hext.value q id w hw, .inl rfl⟩
  | @delete p id v ha =>
    refine ⟨fun q => Nat.le_of_eq (remove_nextId s p id q).symm, fun q x w hw hne => ?_, .inl rfl⟩
    show (update s.refs p ((s.refs p).remove id) q).value x = some w
    rw [remove_value, if_neg, hw]
    rintro ⟨rfl, rfl⟩
    exact hne ha
  | @load p ids values =>
    have hu : { s with processes := s.processes + 1 }.TablesOk :=
      h.congr rfl rfl (le_succ _)
    have hext := (hu.addAll (lt_succ_self s.processes) values).1
    exact ⟨hext.nextId, fun q id w hw _ => hext.value q id w hw, hext.panicked.imp_right .inl⟩
  | _ => exact ⟨fun _ => Nat.le_refl _, fun _ _ _ hv _ => hv, .inl rfl⟩

variable {ids : List (Option Nat)}

theorem exists_values (hids : ∀ id ∈ ids, s.denotes p id ≠ none) :
    ∃ values : List KernelValue, ids.map (s.denotes p) = values.map some := by
  induction ids with
  | nil => exact ⟨[], rfl⟩
  | cons id ids ih =>
    obtain ⟨values, hvalues⟩ := ih fun x hx => hids x (.tail id hx)
    obtain ⟨w, hw⟩ := ne_none_iff_exists'.1 (hids id (.head _))
    exact ⟨w :: values, by rw [map_cons, hvalues, hw, map_cons]⟩

theorem advance_writing_known {data : List UInt8}
    (hget : s.calls[i]? = some (.writing p e data ids)) (hids : ∀ id ∈ ids, s.denotes p id ≠ none) :
    (s.advance i (.writing p e data ids)).refs = s.refs ∧
    (s.advance i (.writing p e data ids)).net = s.net ∧
    ∃ msg record, (s.advance i (.writing p e data ids)).calls[i]?
        = some (.sending p e msg record) ∧ record.ids = ids ∧
      record.denoted = ids.map (s.denotes p) ∧ msg.values.map some = ids.map (s.denotes p) := by
  obtain ⟨hi, -⟩ := List.getElem?_eq_some_iff.1 hget
  simp only [advance]
  split
  · next hempty =>
    rw [List.isEmpty_iff] at hempty
    subst hempty
    exact ⟨rfl, rfl, ⟨data, none⟩, ⟨p, [], []⟩, List.getElem?_set_self hi, rfl, rfl, rfl⟩
  · split
    · next hnone =>
      obtain ⟨values, hvalues⟩ := exists_values hids
      replace hnone : ids.mapM (s.denotes p) = none := hnone
      rw [mapM_eq_some.2 hvalues] at hnone
      cases hnone
    · next values hvalues =>
      exact ⟨rfl, rfl, ⟨data, some values⟩, _, List.getElem?_set_self hi, rfl, rfl,
        (mapM_eq_some.1 hvalues).symm⟩

theorem advance_writing_unknown {data : List UInt8} (hids : ∃ id ∈ ids, s.denotes p id = none) :
    s.advance i (.writing p e data ids) = s.endCall i [.channel e] := by
  obtain ⟨id, hid, hnone⟩ := hids
  simp only [advance]
  split
  · next hempty =>
    rw [List.isEmpty_iff.1 hempty] at hid
    cases hid
  · split
    · rfl
    · next values hvalues =>
      have hmem : none ∈ values.map some := by
        rw [← mapM_eq_some.1 hvalues]
        exact List.mem_map.2 ⟨id, hid, hnone⟩
      obtain ⟨w, -, hw⟩ := List.mem_map.1 hmem
      cases hw

/-- The state after any run. -/
structure Lawful (s : HandleWorld) : Prop where
  counted : s.Counted
  transfer : s.TransferOk

theorem Lawful.act (h : s.Lawful) (hp : a.process < s.processes) : (s.act a).Lawful := by
  have hm := h.counted.tables.act_move hp
  exact ⟨h.counted.move hm, h.transfer.move h.counted hm⟩

theorem lawful_boot : boot.Lawful where
  counted := counted_boot
  transfer := ⟨fun _ => rfl, fun _ => prefix_rfl, fun _ hc => (nomatch hc),
    fun _ hr => (nomatch hr)⟩

theorem Lawful.transfers (h : s.Lawful) : ∀ r ∈ s.reads, ∃ w,
    (s.writes r.endpoint)[r.index]? = some w ∧ r.got.map snd = w.denoted ∧
    (r.got.map fst).Nodup ∧ ∀ id ∈ r.got.map fst, id ∈ s.given r.process := by
  intro r hr
  have hdelivered := h.transfer.reads r hr
  obtain ⟨msg, hmsg, hvalues⟩ := hdelivered.values
  obtain ⟨later, hlater⟩ := h.transfer.inOrder r.endpoint
  obtain ⟨hlt, -⟩ := List.getElem?_eq_some_iff.1 hmsg
  -- the message is the one that was accepted under this number
  have hsent : (s.net.sent r.endpoint)[r.index]? = some msg := by
    rw [← hlater, List.getElem?_append_left hlt]
    exact hmsg
  have hwritten := congrArg (fun l => l[r.index]?) (h.transfer.written r.endpoint)
  simp only [List.getElem?_map, hsent, map_some] at hwritten
  obtain ⟨w, hw, hdenoted⟩ := map_eq_some_iff.1 hwritten.symm
  refine ⟨w, hw, ?_, hdelivered.increasing.imp Nat.ne_of_lt, fun id hid => ?_⟩
  · rw [hdenoted, ← hvalues, map_nil, append_nil]
  · exact h.counted.tables.mem_given.2 (hdelivered.given id hid)

/-- The laws hold for every action in every state that can be reached. -/
theorem handle_laws {a : Action} (hreach : Lts.Reachable step boot s) (hst : step s a = some t) :
    HandleLaws s a t := by
  have hs : s.Lawful := hreach.invariant (fun u b w hu hb => by
    obtain ⟨-, hp, rfl⟩ := step_eq_some hb
    exact hu.act hp) lawful_boot
  obtain ⟨hnone, hp, rfl⟩ := step_eq_some hst
  have ht := hs.act hp
  obtain ⟨hnext, hstable, hpanicked⟩ := hs.counted.tables.move (hs.counted.tables.act_move hp)
  refine ⟨fun p => hs.counted.tables.fresh ht.counted.tables (hnext p), fun p id v hv => ?_, ?_,
    hstable, ?_, ?_, ?_, ?_, ht.transfers, ?_⟩
  · exact ht.counted.tables.mem_given.2 (ht.counted.tables.lt p id v hv)
  · rcases hpanicked with h | h | h <;> simp [h, hnone]
  · rintro i p e data ids rfl hget hids
    simp only [HandleWorld.act, hget]
    exact advance_writing_known hget hids
  · rintro i p e data ids rfl hget hids
    simp only [HandleWorld.act, hget]
    rw [advance_writing_unknown hids]
    refine ⟨rfl, rfl, fun x => ?_⟩
    exact ((release_shrunk ..).queue x).imp_right And.right
  · rintro i p e msg record rfl hget
    simp only [HandleWorld.act, hget, advance]
    split <;> rfl
  · rintro i p e index v rest got rfl hget hpanic
    obtain ⟨hi, -⟩ := List.getElem?_eq_some_iff.1 hget
    simp only [HandleWorld.act, hget, advance] at hpanic ⊢
    rcases hs.counted.tables.withValue_cases p v (fun t id =>
      t.setCall i (.receiving p e index rest (got ++ [(id, (t.refs p).value id)]))) with h | h
    · rw [h] at hpanic
      cases hpanic
    · rw [h]
      refine ⟨(s.refs p).nextId, fun hgiven => ?_, added_value_self s p v, ?_⟩
      · exact absurd (hs.counted.tables.mem_given.1 hgiven).2 (Nat.lt_irrefl _)
      · show (s.calls.set i _)[i]? = _
        rw [List.getElem?_set_self hi, added_value_self]
  · rintro p ids rfl hpanic
    have hgiven := ht.counted.tables.given s.processes
    simp only [HandleWorld.act] at hpanic hgiven ⊢
    split at hpanic
    · cases hpanic
    · next values hvalues =>
      have hmap := mapM_eq_some.1 hvalues
      have hnew : s.refs s.processes = .new := hs.counted.tables.unborn _ le_rfl
      obtain ⟨-, hall⟩ :=
        hs.counted.newProcess.tables.addAll (lt_succ_self s.processes) values
      obtain ⟨hlen, hvalue⟩ := hall (hpanic.trans hnone.symm) hnone
      replace hlen : _ = (s.refs s.processes).nextId + values.length := hlen
      replace hvalue : ∀ k v, values[k]? = some v →
        (({ s with processes := s.processes + 1 }.addAll s.processes values).refs
          s.processes).value ((s.refs s.processes).nextId + k) = some v := hvalue
      rw [hnew] at hlen hvalue
      have hlength : values.length = ids.length := by
        have := congrArg List.length hmap
        simpa using this.symm
      simp only [hvalues] at hgiven ⊢
      refine ⟨?_, fun k id hk => ?_⟩
      · rw [hgiven, hlen, hlength]
        show range' 1 (1 + ids.length - 1) = _
        rw [Nat.add_sub_cancel_left]
      · have hat := congrArg (fun l => l[k]?) hmap
        simp only [List.getElem?_map, hk, map_some] at hat
        obtain ⟨v, hv, hsome⟩ := map_eq_some_iff.1 hat.symm
        refine ⟨?_, by rw [← hsome]; exact some_ne_none v⟩
        rw [← hsome, ← hvalue k v hv, Nat.add_comm k 1]
        rfl

/-- A process creates an object and a channel, starts another process with the far end of the
    channel, sends the object and deletes its own handle. The other process reads the message; the
    last step of that is still to come. -/
def handOver : List Action :=
  [.create 0 .message, .channelCreate 0, .advance 0, .advance 0, .advance 0, .load 0 [3],
    .write 0 2 [] [some 1], .advance 0, .advance 0, .delete 0 1, .read 1 1 100 1, .advance 0,
    .advance 0]

theorem handle_laws_handOver : ∃ s t, Lts.run step boot handOver = some s ∧
    step s (.advance 0) = some t ∧ HandleLaws s (.advance 0) t ∧
    (s.refs 0).value 1 = none ∧ t.reads = [⟨1, 1, 0, [(2, some (.message 0))]⟩] := by
  have hrun : ∃ s ∈ Lts.run step boot handOver, (s.refs 0).value 1 = none ∧
      ∃ t ∈ step s (.advance 0), t.reads = [⟨1, 1, 0, [(2, some (.message 0))]⟩] := by
    decide +kernel
  obtain ⟨s, hs, hdeleted, t, ht, hreads⟩ := hrun
  exact ⟨s, t, hs, ht, handle_laws ⟨handOver, hs⟩ ht, hdeleted, hreads⟩

end Fioxa.HandleWorld
