import Fioxa.Kernel.HandleRelease

/-! # What an action does to the handles

Identifiers are given out in increasing order (`TablesOk`). An action changes tables, calls in
progress and queues in one of the ways `Move` lists; every invariant is shown for these. -/

namespace Fioxa.HandleWorld

open List Option Function

variable {s t u : HandleWorld} {p i : Nat} {v : KernelValue} {c c' : Call} {a : Action}

/-! ## Tables -/

/-- Identifiers are given out in order. -/
structure TablesOk (s : HandleWorld) : Prop where
  pos : ∀ p, 1 ≤ (s.refs p).nextId
  lt : ∀ p id v, (s.refs p).value id = some v → 1 ≤ id ∧ id < (s.refs p).nextId
  given : ∀ p, s.given p = range' 1 ((s.refs p).nextId - 1)
  unborn : ∀ p, s.processes ≤ p → s.refs p = .new

variable {id : Nat}

theorem TablesOk.mem_given (h : s.TablesOk) : id ∈ s.given p ↔ 1 ≤ id ∧ id < (s.refs p).nextId := by
  have := h.pos p
  rw [h.given, mem_range'_1]
  omega

theorem TablesOk.mem_tableValues (h : s.TablesOk) :
    v ∈ s.tableValues ↔ ∃ p id, (s.refs p).value id = some v := by
  unfold tableValues ProcessReferences.values
  simp only [mem_flatMap, mem_filterMap, mem_range]
  constructor
  · rintro ⟨p, -, id, -, hv⟩
    exact ⟨p, id, hv⟩
  · rintro ⟨p, id, hv⟩
    refine ⟨p, Nat.lt_of_not_le fun hle => ?_, id, (h.lt p id v hv).2, hv⟩
    rw [h.unborn p hle] at hv
    cases hv

/-! ### Adding a handle -/

/-- `add_value` without its panics. -/
def added (s : HandleWorld) (p : Nat) (v : KernelValue) : HandleWorld :=
  { s with
    refs := update s.refs p ((s.refs p).addValue v).1
    given := update s.given p (s.given p ++ [(s.refs p).nextId]) }

theorem TablesOk.addValue_cases (h : s.TablesOk) (p : Nat) (v : KernelValue) :
    s.addValue p v = .error .overflow ∨ s.addValue p v = .ok (s.added p v, (s.refs p).nextId) := by
  have hpos : (s.refs p).nextId ≠ 0 := Nat.ne_of_gt (h.pos p)
  have hfree : ((s.refs p).value (s.refs p).nextId).isSome = false := by
    rw [Bool.eq_false_iff, ne_eq, isSome_iff_exists]
    rintro ⟨v, hv⟩
    exact absurd (h.lt p _ v hv).2 (Nat.lt_irrefl _)
  unfold addValue ProcessReferences.tryAddValue
  by_cases hmax : (s.refs p).nextId + 1 = 0x10000000000000000
  · simp [hpos, hmax]
  · simp [hpos, hmax, hfree, added, ProcessReferences.addValue]

theorem TablesOk.withValue_cases (h : s.TablesOk) (p : Nat) (v : KernelValue)
    (next : HandleWorld → Nat → HandleWorld) :
    s.withValue p v next = { s with panicked := some .overflow } ∨
      s.withValue p v next = next (s.added p v) (s.refs p).nextId := by
  unfold withValue
  rcases h.addValue_cases p v with hadd | hadd
  · exact .inl (by rw [hadd])
  · exact .inr (by rw [hadd])

theorem added_value_self (s : HandleWorld) (p : Nat) (v : KernelValue) :
    ((s.added p v).refs p).value (s.refs p).nextId = some v := by
  simp [added, ProcessReferences.addValue]

theorem added_value (s : HandleWorld) (p : Nat) (v : KernelValue) (q id : Nat)
    (hne : ¬ (q = p ∧ id = (s.refs p).nextId)) :
    ((s.added p v).refs q).value id = (s.refs q).value id := by
  by_cases hq : q = p
  · have hid : id ≠ (s.refs p).nextId := fun heq => hne ⟨hq, heq⟩
    simp [added, ProcessReferences.addValue, hq, hid]
  · simp [added, hq]

theorem added_nextId (s : HandleWorld) (p : Nat) (v : KernelValue) (q : Nat) :
    ((s.added p v).refs q).nextId = (s.refs q).nextId + if q = p then 1 else 0 := by
  by_cases hq : q = p
  · simp [added, ProcessReferences.addValue, hq]
  · simp [added, hq]

theorem TablesOk.stable (h : s.TablesOk) (p : Nat) (v : KernelValue) {q : Nat} {w : KernelValue}
    (hw : (s.refs q).value id = some w) : ((s.added p v).refs q).value id = some w := by
  rw [added_value s p v q id, hw]
  rintro ⟨rfl, rfl⟩
  exact absurd (h.lt q _ w hw).2 (Nat.lt_irrefl _)

theorem TablesOk.added (h : s.TablesOk) (hp : p < s.processes) (v : KernelValue) :
    (s.added p v).TablesOk where
  pos q := by
    have := h.pos q
    rw [added_nextId]
    omega
  lt q id w hw := by
    rw [added_nextId]
    by_cases hnew : q = p ∧ id = (s.refs p).nextId
    · obtain ⟨rfl, rfl⟩ := hnew
      have := h.pos q
      simp
      omega
    · rw [added_value s p v q id hnew] at hw
      have := h.lt q id w hw
      omega
  given q := by
    rw [added_nextId]
    by_cases hq : q = p
    · subst hq
      have hpos := h.pos q
      simp only [HandleWorld.added, update_self, if_pos]
      rw [h.given q, show (s.refs q).nextId + 1 - 1 = (s.refs q).nextId - 1 + 1 by omega,
        range'_1_concat, show 1 + ((s.refs q).nextId - 1) = (s.refs q).nextId by omega]
    · simp [HandleWorld.added, hq, h.given q]
  unborn q hq := by
    have hne : q ≠ p := by
      have : s.processes ≤ q := hq
      omega
    simp only [HandleWorld.added, update_of_ne hne]
    exact h.unborn q hq

theorem TablesOk.congr (h : s.TablesOk) (hrefs : t.refs = s.refs) (hgiven : t.given = s.given)
    (hprocesses : s.processes ≤ t.processes) : t.TablesOk where
  pos q := hrefs ▸ h.pos q
  lt q := hrefs ▸ h.lt q
  given q := by rw [hgiven, hrefs]; exact h.given q
  unborn q hq := by rw [hrefs]; exact h.unborn q (Nat.le_trans hprocesses hq)

theorem remove_nextId (s : HandleWorld) (p id q : Nat) :
    (update s.refs p ((s.refs p).remove id) q).nextId = (s.refs q).nextId := by
  by_cases hq : q = p
  · simp [hq, ProcessReferences.remove]
  · simp [hq]

theorem remove_value (s : HandleWorld) (p id q x : Nat) :
    (update s.refs p ((s.refs p).remove id) q).value x
      = if q = p ∧ x = id then none else (s.refs q).value x := by
  by_cases hq : q = p
  · subst hq
    by_cases hx : x = id
    · simp [ProcessReferences.remove, hx]
    · simp [ProcessReferences.remove, hx]
  · simp [hq]

theorem TablesOk.remove (h : s.TablesOk) (p id : Nat) :
    { s with refs := update s.refs p ((s.refs p).remove id) }.TablesOk := by
  refine ⟨fun q => ?_, fun q x w hw => ?_, fun q => ?_, fun q hq => ?_⟩
  · rw [remove_nextId]
    exact h.pos q
  · rw [remove_nextId]
    rw [remove_value] at hw
    split_ifs at hw
    exact h.lt q x w hw
  · rw [remove_nextId]
    exact h.given q
  · have hnew := h.unborn q hq
    by_cases hqp : q = p
    · subst hqp
      simp only [update_self, hnew, ProcessReferences.remove, ProcessReferences.new]
      congr 1
      funext x
      by_cases hx : x = id
      · rw [hx, update_self]
      · rw [update_of_ne hx]
    · simp only [update_of_ne hqp]
      exact hnew

/-! ### Tables grow -/

/-- No entry is lost, and `add_value` has not found its entry occupied. -/
structure Extends (s t : HandleWorld) : Prop where
  nextId : ∀ p, (s.refs p).nextId ≤ (t.refs p).nextId
  value : ∀ p id v, (s.refs p).value id = some v → (t.refs p).value id = some v
  net : t.net = s.net
  panicked : t.panicked = s.panicked ∨ t.panicked = some .overflow

theorem Extends.refl (s : HandleWorld) : Extends s s :=
  ⟨fun _ => Nat.le_refl _, fun _ _ _ hv => hv, rfl, .inl rfl⟩

theorem Extends.trans (h : Extends s t) (h' : Extends t u) : Extends s u where
  nextId p := Nat.le_trans (h.nextId p) (h'.nextId p)
  value p id v hv := h'.value p id v (h.value p id v hv)
  net := h'.net.trans h.net
  panicked := by
    rcases h'.panicked with heq | hnew
    · rw [heq]
      exact h.panicked
    · exact .inr hnew

theorem TablesOk.extends_added (h : s.TablesOk) (p : Nat) (v : KernelValue) :
    Extends s (s.added p v) where
  nextId q := by
    rw [added_nextId]
    exact Nat.le_add_right _ _
  value q id w hw := h.stable p v hw
  net := rfl
  panicked := .inl rfl

theorem TablesOk.addAll (h : s.TablesOk) (hp : p < s.processes) (values : List KernelValue) :
    Extends s (s.addAll p values) ∧
    ((s.addAll p values).panicked = s.panicked → s.panicked = none →
      ((s.addAll p values).refs p).nextId = (s.refs p).nextId + values.length ∧
      ∀ k v, values[k]? = some v →
        ((s.addAll p values).refs p).value ((s.refs p).nextId + k) = some v) := by
  induction values generalizing s with
  | nil => exact ⟨.refl s, fun _ _ => ⟨rfl, fun k v hv => nomatch hv⟩⟩
  | cons v values ih =>
    obtain ⟨hext, hall⟩ := ih (s := s.added p v) (h.added hp v) hp
    rw [HandleWorld.addAll]
    rcases h.withValue_cases p v (fun t _ => t.addAll p values) with heq | heq
    · rw [heq]
      refine ⟨⟨fun _ => Nat.le_refl _, fun _ _ _ hv => hv, rfl, .inr rfl⟩,
        fun hpanicked hnone => ?_⟩
      rw [hnone] at hpanicked
      cases hpanicked
    · rw [heq]
      refine ⟨(h.extends_added p v).trans hext, fun hpanicked hnone => ?_⟩
      obtain ⟨hnext, hvalue⟩ := hall hpanicked hnone
      have hself := added_nextId s p v p
      rw [if_pos rfl] at hself
      rw [hself] at hnext hvalue
      refine ⟨by rw [hnext, length_cons]; omega, fun k w hw => ?_⟩
      cases k with
      | zero =>
        cases hw
        exact hext.value p _ _ (added_value_self s p v)
      | succ k =>
        have := hvalue k w hw
        rwa [show (s.refs p).nextId + 1 + k = (s.refs p).nextId + (k + 1) by omega] at this

/-! ## Moves -/

/-- A process has a handle to `e`. -/
def InTable (s : HandleWorld) (e : Nat) : Prop := ∃ p id, (s.refs p).value id = some (.channel e)

inductive Move (s : HandleWorld) (a : Action) : HandleWorld → Prop where
  | same : Move s a s
  | panic {n : Nat} {why : HandlePanic} (hwhy : why = .overflow ∨ why = .missing) :
      Move s a { s with objects := n, panicked := some why }
  -- tables
  | add {n p : Nat} {v : KernelValue} (hp : p < s.processes)
      (hv : ∀ e, v = .channel e → s.InTable e) : Move s a { s.added p v with objects := n }
  | delete {p id : Nat} {v : KernelValue} (ha : a = .delete p id)
      (hv : (s.refs p).value id = some v) :
      Move s a ({ s with refs := update s.refs p ((s.refs p).remove id) }.release [v])
  | load {p : Nat} {ids : List Nat} {values : List KernelValue}
      (hvalues : ids.mapM (s.refs p).value = some values) :
      Move s a ({ s with processes := s.processes + 1 }.addAll s.processes values)
  -- calls
  | channelCreate {p : Nat} (hp : p < s.processes) :
      Move s a { s with
        net := s.net.create
        calls := s.calls ++ [.creating p [s.net.next, s.net.next + 1]] }
  | start {p e : Nat} {c : Call} (hp : p < s.processes) (he : s.InTable e)
      (hc : (∃ data ids, c = .writing p e data ids) ∨ ∃ m k, c = .reading p e m k) :
      Move s a { s with calls := s.calls ++ [c] }
  | create {i p e : Nat} {ends : List Nat} (hget : s.calls[i]? = some (.creating p (e :: ends))) :
      Move s a ((s.added p (.channel e)).setCall i (.creating p ends))
  | collect {i p e : Nat} {data : List UInt8} {ids : List (Option Nat)} {msg : ChannelMessage}
      {record : WriteRecord} (hget : s.calls[i]? = some (.writing p e data ids))
      (hmsg : ∀ v ∈ msg.values, ∃ id, (s.refs p).value id = some v)
      (hrecord : record.denoted = msg.values.map some) :
      Move s a (s.setCall i (.sending p e msg record))
  | send {i p e : Nat} {msg : ChannelMessage} {record : WriteRecord} (ha : a = .advance i)
      (hget : s.calls[i]? = some (.sending p e msg record))
      (haccepts : s.net.accepts e msg = true) :
      Move s a ({ s with
        net := s.net.send e msg
        writes := update s.writes (s.net.peer e)
          (s.writes (s.net.peer e) ++ [record]) }.endCall i [.channel e])
  | take {i p e : Nat} (read : ChannelRead) {packet : ChannelMessage}
      (hget : s.calls[i]? = some (.reading p e read.dataLen read.handlesLen))
      (hpacket : ((s.net.channel e).sysRead read).packet = some packet) :
      Move s a ({ s with net := s.net.finishRead e ((s.net.channel e).sysRead read) }.setCall i
        (.receiving p e (s.net.received e).length packet.values []))
  | receive {i p e index : Nat} {v : KernelValue} {rest : List KernelValue}
      {got : List (Nat × Option KernelValue)}
      (hget : s.calls[i]? = some (.receiving p e index (v :: rest) got)) :
      Move s a ((s.added p v).setCall i
        (.receiving p e index rest (got ++ [((s.refs p).nextId, some v)])))
  | finish {i : Nat} {c : Call} {values : List KernelValue} {reads : List ReadRecord}
      (hget : s.calls[i]? = some c) (hvalues : ∀ v, v ∈ values ↔ v ∈ c.values)
      (hreads : ∀ r ∈ reads, r ∈ s.reads ∨ c = .receiving r.process r.endpoint r.index [] r.got) :
      Move s a ({ s with reads := reads }.endCall i values)

theorem TablesOk.withValue_move (h : s.TablesOk) {next : HandleWorld → Nat → HandleWorld}
    (hnext : Move s a (next (s.added p v) (s.refs p).nextId)) :
    Move s a (s.withValue p v next) := by
  rcases h.withValue_cases p v next with heq | heq
  · rw [heq]
    exact .panic (.inl rfl)
  · rw [heq]
    exact hnext

theorem TablesOk.advance_move (h : s.TablesOk) (hget : s.calls[i]? = some c) :
    Move s (.advance i) (s.advance i c) := by
  match c with
  | .creating p [] => exact .finish hget (fun _ => Iff.rfl) fun _ => .inl
  | .creating p (e :: ends) => exact h.withValue_move (.create hget)
  | .writing p e data ids =>
    simp only [advance]
    split
    · next hempty =>
      rw [List.isEmpty_iff] at hempty
      exact .collect hget (by simp [ChannelMessage.values])
        (by simp [hempty, ChannelMessage.values])
    · split
      · exact .finish hget (fun _ => Iff.rfl) fun _ => .inl
      · next values hvalues =>
        have hmap := mapM_eq_some.1 hvalues
        refine .collect hget (fun v hv => ?_) hmap
        have hmem : some v ∈ ids.map fun id => id.bind (s.refs p).value :=
          hmap ▸ List.mem_map_of_mem hv
        obtain ⟨id, -, hid⟩ := List.mem_map.1 hmem
        obtain ⟨id, rfl, hid⟩ := bind_eq_some_iff.1 hid
        exact ⟨id, hid⟩
  | .sending p e msg record =>
    simp only [advance]
    split
    · next haccepts => exact .send rfl hget haccepts
    · exact .finish hget (fun v => by simp [Call.values, or_comm]) fun _ => .inl
  | .reading p e maxBytes maxHandles =>
    simp only [advance]
    split
    · exact .finish hget (fun _ => Iff.rfl) fun _ => .inl
    · next packet hpacket => exact .take ⟨maxBytes, maxHandles⟩ hget hpacket
  | .receiving p e index [] got =>
    refine .finish hget (fun _ => Iff.rfl) fun r hr => ?_
    refine (mem_append.1 hr).imp_right fun hr => ?_
    rw [mem_singleton.1 hr]
  | .receiving p e index (v :: rest) got =>
    refine h.withValue_move ?_
    rw [added_value_self]
    exact .receive hget

theorem TablesOk.act_move (h : s.TablesOk) (hp : a.process < s.processes) : Move s a (s.act a) := by
  cases a with
  | create p o =>
    have hu : { s with objects := s.objects + 1 }.TablesOk := h.congr rfl rfl le_rfl
    rw [act]
    rcases hu.withValue_cases p (o.value s.objects) (fun t _ => t) with heq | heq
    · rw [heq]
      exact .panic (.inl rfl)
    · rw [heq]
      exact .add hp fun e he => by cases o <;> cases he
  | processHandle => exact h.withValue_move (.add hp fun e he => by cases he)
  | clone p id =>
    simp only [act]
    split
    · exact .same
    · next v hv => exact h.withValue_move (.add hp fun e he => ⟨p, id, he ▸ hv⟩)
  | delete =>
    simp only [act]
    split
    · exact .same
    · next v hv => exact .delete rfl hv
  | channelCreate => exact .channelCreate hp
  | write p id =>
    simp only [act]
    split
    · next e he => exact .start hp ⟨p, id, he⟩ (.inl ⟨_, _, rfl⟩)
    · exact .same
  | read p id =>
    simp only [act]
    split
    · next e he => exact .start hp ⟨p, id, he⟩ (.inr ⟨_, _, rfl⟩)
    · exact .same
  | advance =>
    simp only [act]
    split
    · exact .same
    · next c hget => exact h.advance_move hget
  | load =>
    simp only [act]
    split
    · exact .panic (.inr rfl)
    · next values hvalues => exact .load hvalues

theorem step_eq_some (hst : step s a = some t) :
    s.panicked = none ∧ a.process < s.processes ∧ s.act a = t := by
  obtain ⟨⟨hnone, hp⟩, heq⟩ := ite_none_right_eq_some.1 hst
  exact ⟨isNone_iff_eq_none.1 hnone, hp, Option.some.inj heq⟩

end Fioxa.HandleWorld
