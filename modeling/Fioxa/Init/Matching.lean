import Fioxa.Init.Served

/-! # Requests and replies

The service answers the requests of a client in the order they were written, one reply each, and
replies arrive in the order they were sent. So the `j`-th reply on the client's end answers the
`j`-th request, and a call gets its own reply exactly if it reads in its turn. Nothing makes the
threads of a process do that. -/

namespace Fioxa

open List Function Codec Lts

open Endpoints (Traffic Line)

/-- The number of requests that have a reply or may still get one. -/
def asked (L R : Traffic) (owes : Option Nat) : Nat :=
  if owes = none then R.sent.length else L.sent.length

/-- The numbers `idx` of the requests that calls wait for, on a line whose calls have all read in
    their turn. -/
structure Turns {n : Nat} (L R : Traffic) (owes : Option Nat) (idx : Fin n → Option Nat) :
    Prop where
  distinct : ∀ i j x, idx i = some x → idx j = some x → i = j
  bounds : ∀ i x, idx i = some x → R.received.length ≤ x ∧ x < L.sent.length
  /-- Every request without a reader belongs to a waiting call, or is not a request. -/
  covered : ∀ x, R.received.length ≤ x → x < asked L R owes →
    (∃ i, idx i = some x) ∨ ∃ m, L.sent[x]? = some m ∧ m.data = [1]

namespace Turns

variable {n : Nat} {L R L' R' : Traffic} {owes owes' : Option Nat} {idx : Fin n → Option Nat}
  {i : Fin n}

section

variable (h : Turns L R owes idx)
include h

theorem leave (hi : ∀ x, idx i = some x → asked L R owes ≤ x) :
    Turns L R owes (update idx i none) := by
  obtain ⟨hdistinct, hbounds, hcovered⟩ := h
  refine ⟨?_, ?_, ?_⟩
  · grind
  · grind
  · intro x hlow hx
    refine (hcovered x hlow hx).imp_left ?_
    rintro ⟨j, hj⟩
    exact ⟨j, by grind⟩

theorem join (hi : idx i = none) (hle : R.received.length ≤ L.sent.length) (m : ChannelMessage) :
    Turns (L.push m) R owes (update idx i (some L.sent.length)) := by
  obtain ⟨hdistinct, hbounds, hcovered⟩ := h
  refine ⟨?_, ?_, ?_⟩
  · grind
  · grind [Traffic.push]
  · intro x hlow hx
    by_cases hold : x < asked L R owes
    · rcases hcovered x hlow hold with ⟨j, hj⟩ | hm
      · exact .inl ⟨j, by grind⟩
      · exact .inr (by grind [Traffic.push])
    · exact .inl ⟨i, by grind [asked, Traffic.push]⟩

theorem hear (hi : idx i = some R.received.length)
    (packet : ChannelMessage) (rest : List ChannelMessage) :
    Turns L (R.pop packet rest) owes (update idx i none) := by
  obtain ⟨hdistinct, hbounds, hcovered⟩ := h
  refine ⟨?_, ?_, ?_⟩
  · grind
  · grind [Traffic.pop]
  · intro x hlow hx
    simp only [Traffic.pop, length_append, length_singleton] at hlow
    refine (hcovered x (by omega) hx).imp_left ?_
    rintro ⟨j, hj⟩
    exact ⟨j, by grind⟩

theorem world (hL : L'.sent = L.sent ∨ ∃ m, L'.sent = L.sent ++ [m] ∧ m.data = [1])
    (hR : R'.received = R.received) (hle : R'.sent.length ≤ L'.sent.length)
    (hsent : owes = none → owes' = none ∧ R'.sent = R.sent) : Turns L' R' owes' idx := by
  obtain ⟨hdistinct, hbounds, hcovered⟩ := h
  refine ⟨?_, ?_, ?_⟩
  · grind
  · grind
  · grind [asked]

end

end Turns

namespace InitWorld

variable {Name : Type} {k : Nat} {s : InitWorld Name}

variable {c : Codec Name}

theorem Served.owes_of_replying (h : Served c k s) {x : Nat} (hx : s.replying (2 * k) = some x) :
    s.owes (2 * k) ≠ none := by
  unfold replying at hx
  split at hx
  · next key w hpc =>
    split at hx
    · split at hx
      · next hval =>
        rw [owes, if_pos (h.owned (job_work hpc) hval)]
        simp [debt, hpc]
      · cases hx
    · cases hx
  · cases hx

theorem Served.not_owned (h : Served c k s) : ¬ s.Owned (2 * k + 1) := by
  rintro ⟨id, hid, he⟩
  have := h.table.even id hid _ he
  omega

variable [DecidableEq Name]

theorem Served.request (h : Served c k s) {msg : ChannelMessage}
    (hfit : KChannelInner.Fits msg 100 1) (hmsg : ∀ v ∈ msg.handles.getD [], v ≠ .channel (2 * k)) :
    Served c k { s with net := s.net.send (2 * k + 1) msg } := by
  have hmove : Move c Growth.exact s (.send (2 * k + 1) msg)
      { s with net := s.net.send (2 * k + 1) msg } :=
    .envSend (2 * k + 1) msg h.line.alive h.not_owned
  refine ⟨⟨h.base.move hmove, h.table.move h.base h.wires hmove, h.wires.send _ hmsg⟩, h.cap, ?_⟩
  have hpeer := h.wires.peer_right
  have hr : (s.net.send (2 * k + 1) msg).traffic (2 * k + 1) = s.net.traffic (2 * k + 1) :=
    s.net.traffic_send_ne msg (by omega)
  rw [hr]
  rcases h.wires.push msg with ⟨hsame, -⟩ | ⟨hpush, -⟩
  · rw [hsame]
    exact h.line
  · rw [hpush]
    exact h.line.request hfit

theorem Served.hear (h : Served c k s) {cap : Nat} {packet : ChannelMessage}
    {rest : List ChannelMessage} (hq : (s.net.channel (2 * k + 1)).queue = packet :: rest)
    (hfit : KChannelInner.Fits packet cap 1) :
    Served c k { s with
      net := s.net.finishRead (2 * k + 1) ((s.net.channel (2 * k + 1)).sysRead ⟨cap, 1⟩) } := by
  have hmove : Move c Growth.exact s (.read (2 * k + 1) cap 1) { s with
      net := s.net.finishRead (2 * k + 1) ((s.net.channel (2 * k + 1)).sysRead ⟨cap, 1⟩) } :=
    .envRead (2 * k + 1) cap 1 h.line.alive h.not_owned
  refine ⟨⟨h.base.move hmove, h.table.move h.base h.wires hmove, h.wires.finishRead _ _⟩, h.cap, ?_⟩
  have hl := s.net.traffic_finishRead_ne (e := 2 * k + 1) (x := 2 * k)
    ((s.net.channel (2 * k + 1)).sysRead ⟨cap, 1⟩) (by omega)
  have hr := Endpoints.traffic_finishRead ⟨cap, 1⟩ hq hfit
  rw [hl, hr]
  exact h.line.hear hq

end InitWorld

/-- The read buffer has room for a reply. -/
def Caller.Roomy {Name : Type} : Caller Name → Prop
  | .waiting _ _ cap => 1 ≤ cap
  | _ => True

namespace Process

variable {Name : Type} {n k : Nat} {s t : Process Name n}

/-- Every call that has returned got the reply to its own request. -/
def Matched (s : Process Name n) : Prop := ∀ x ∈ s.returned, x.origin = some x.index

/-- Requests fit the service's initial buffer, and there is room for its replies. -/
def Moderate (c : Codec Name) (k : Nat) (s : Process Name n) : Action Name n → Prop
  | .world .init => (s.world.net.channel (2 * k + 1)).queue.length ≤ channelCapacity
  | .call _ call => (c.serialize call.msg).length ≤ 100
  | _ => True

instance (c : Codec Name) (k : Nat) (s : Process Name n) (a : Action Name n) :
    Decidable (Moderate c k s a) :=
  match a with
  | .world .init =>
    inferInstanceAs (Decidable (List.length _ ≤ channelCapacity))
  | .call _ call => inferInstanceAs (Decidable ((c.serialize call.msg).length ≤ 100))
  | .world (.send _ _) | .world (.read _ _ _) | .world (.drop _) | .world .create | .read _ =>
    isTrue trivial

/-- A call only takes a message when no call that wrote its request earlier is still waiting. -/
def InTurn (k : Nat) (s : Process Name n) : Action Name n → Prop
  | .read i => (s.world.net.channel (2 * k + 1)).queue ≠ [] →
      ∀ x ∈ (s.thread i).index, ∀ j, ∀ y ∈ (s.thread j).index, x ≤ y
  | _ => True

instance (k : Nat) (s : Process Name n) (a : Action Name n) : Decidable (InTurn k s a) :=
  match a with
  | .read i => inferInstanceAs (Decidable ((s.world.net.channel (2 * k + 1)).queue ≠ [] →
      ∀ x ∈ (s.thread i).index, ∀ j, ∀ y ∈ (s.thread j).index, x ≤ y))
  | .world _ | .call _ _ => isTrue trivial

/-- The state of a process whose calls have all read in their turn. -/
structure InOrder (c : Codec Name) (k : Nat) (s : Process Name n) : Prop where
  served : s.world.Served c k
  /-- Replies come in the order of the requests. -/
  origins : s.origins = (List.range (s.world.net.sent (2 * k + 1)).length).map some
  turns : Turns (s.world.net.traffic (2 * k)) (s.world.net.traffic (2 * k + 1))
    (s.world.owes (2 * k)) (Caller.index ∘ s.thread)
  cap : ∀ i, (s.thread i).Roomy
  matched : s.Matched

theorem serialize_ne_nil (c : Codec Name) (msg : InitHandleMessage Name) :
    c.serialize msg ≠ [] := by
  intro h
  have hround := c.deserialize_serialize msg
  rw [h, c.deserialize_nil] at hround
  cases hround

variable {i : Fin n} {v : Caller Name} {x : Nat} {c : Codec Name}

/-- Thread `i` goes on to `v`: it does not wait, or waits for the reply to a new request. -/
theorem InOrder.advance (h : InOrder c k s) (hserved : t.world.Served c k)
    (horigins : t.origins = s.origins)
    (hreplies : t.world.net.sent (2 * k + 1) = s.world.net.sent (2 * k + 1))
    (hthread : t.thread = update s.thread i v)
    (hturns : Turns (t.world.net.traffic (2 * k)) (t.world.net.traffic (2 * k + 1))
      (t.world.owes (2 * k)) (update (Caller.index ∘ s.thread) i v.index))
    (hv : v.Roomy) (hmatched : t.Matched) : InOrder c k t := by
  refine ⟨hserved, by rw [horigins, hreplies, h.origins], ?_, ?_, hmatched⟩
  · rw [hthread, comp_update]
    exact hturns
  · rw [hthread]
    exact (forall_update_iff s.thread fun _ => Caller.Roomy).2 ⟨hv, fun j _ => h.cap j⟩

theorem InOrder.panic (h : InOrder c k s) (i : Fin n)
    (hasked : ∀ x, (s.thread i).index = some x → asked (s.world.net.traffic (2 * k))
      (s.world.net.traffic (2 * k + 1)) (s.world.owes (2 * k)) ≤ x) :
    InOrder c k { s with thread := update s.thread i .panicked } :=
  h.advance h.served rfl rfl rfl (h.turns.leave hasked) trivial h.matched

variable {call : ClientCall Name} {cap : Nat}

/-- Thread `i` takes the reply `packet` to the oldest request without a reader. -/
def taken (k : Nat) (s : Process Name n) (i : Fin n) (call : ClientCall Name) (x cap : Nat)
    (packet : ChannelMessage) : Process Name n :=
  { s with
    world := { s.world with
      net := s.world.net.finishRead (2 * k + 1)
        ((s.world.net.channel (2 * k + 1)).sysRead ⟨cap, 1⟩) }
    thread := update s.thread i (if (call.finish packet).isSome then .idle else .panicked)
    returned := s.returned ++
      [⟨call, x, some (s.world.net.received (2 * k + 1)).length, call.finish packet⟩] }

/-- What a turn of the read loop can do: sleep, panic on a closed channel, or take the reply to the
    oldest request without a reader. -/
theorem InOrder.read_cases (h : InOrder c k s) (hi : s.thread i = .waiting call x cap) :
    ((s.world.net.channel (2 * k + 1)).queue = [] ∧
      (s.read k i call x cap = s ∨
        (s.world.owes (2 * k) = none ∧
          s.read k i call x cap = { s with thread := update s.thread i .panicked }))) ∨
    ∃ packet rest, (s.world.net.channel (2 * k + 1)).queue = packet :: rest ∧
      KChannelInner.Fits packet cap 1 ∧
      s.read k i call x cap = s.taken k i call x cap packet := by
  rcases (s.world.net.channel (2 * k + 1)).sysRead_cases ⟨cap, 1⟩ with ⟨hq, hr⟩ |
    ⟨packet, rest, hq, hf, -⟩ | ⟨packet, rest, hq, hf, hr⟩
  · refine .inl ⟨hq, ?_⟩
    rw [Process.read, hr]
    cases hopen : (s.world.net.channel (2 * k + 1)).isOpen with
    | true => exact .inl rfl
    | false =>
      refine .inr ⟨?_, rfl⟩
      -- while the service is there it keeps the channel open
      cases howes : s.world.owes (2 * k) with
      | none => rfl
      | some owed => exact absurd (h.served.line.served owed howes).1 (by
          show ¬ (s.world.net.channel (2 * k + 1)).isOpen = true
          simp [hopen])
  · refine absurd ?_ hf
    obtain ⟨hd, hh⟩ := h.served.line.fit packet (by
      show packet ∈ (s.world.net.channel (2 * k + 1)).queue
      rw [hq]
      exact .head _)
    have hcap := h.cap i
    rw [hi] at hcap
    exact ⟨hd.trans hcap, hh⟩
  · refine .inr ⟨packet, rest, hq, hf, ?_⟩
    have hlt : (s.world.net.traffic (2 * k + 1)).received.length
        < (s.world.net.traffic (2 * k + 1)).sent.length := by
      rw [h.served.line.replies, show (s.world.net.traffic (2 * k + 1)).queue = _ from hq,
        length_append, length_cons]
      omega
    have horigin : (s.origins[(s.world.net.received (2 * k + 1)).length]?).join
        = some (s.world.net.received (2 * k + 1)).length := by
      rw [h.origins, List.getElem?_map]
      exact congrArg (fun o => (Option.map some o).join) (List.getElem?_range hlt)
    rw [Process.read, hr]
    simp only [afterRead, horigin, taken, hr]

theorem InOrder.next_waits (h : InOrder c k s) (hq : (s.world.net.channel (2 * k + 1)).queue ≠ []) :
    ∃ i, (s.thread i).index = some (s.world.net.received (2 * k + 1)).length := by
  have hreplies := congrArg List.length h.served.line.replies
  have hbound := h.served.line.bound
  have hlt : 0 < (s.world.net.traffic (2 * k + 1)).queue.length := length_pos_iff.2 hq
  rw [length_append] at hreplies
  rcases h.turns.covered _ le_rfl (by unfold asked; split <;> omega) with hi | ⟨m, hm, hdata⟩
  · exact hi
  · exact absurd (hdata ▸ c.deserialize_publish) (h.served.line.parsed _ m (by omega) hm)

theorem inOrder_start (c : Codec Name) {m : Nat} (hk : k < m) : InOrder c k (start Name n m) := by
  have howes : ((InitWorld.boot Name m).owes (2 * k)).getD 0 = 0 := by
    unfold InitWorld.owes
    split <;> rfl
  have hchannel : ∀ {id e}, (InitWorld.boot Name m).refs.value id = some (.channel e) →
      id % 2 = 1 ∧ id < 2 * m ∧ e = id - 1 := by
    intro id e he
    simp only [InitWorld.boot] at he
    split_ifs at he with h1 h2
    · cases he
    · cases he
      exact ⟨h2.1, h2.2, rfl⟩
  refine ⟨⟨⟨InitWorld.base_boot m, ?_, ?_⟩, by simp [start, InitWorld.boot, Pc.buffer], ?_⟩, rfl,
    ⟨?_, ?_, ?_⟩, ?_, ?_⟩
  · refine ⟨fun id hid => ?_, ?_, ?_, fun id hid e he => ?_, trivial⟩
    · have := hchannel hid
      omega
    · simp only [start, InitWorld.boot]
      omega
    · simp [start, InitWorld.boot, InitWorld.Loose, Pc.loose]
    · have := hchannel he
      omega
  · refine ⟨?_, ?_, rfl, ?_⟩
    · simp only [start, InitWorld.boot]
      omega
    · simp [start, InitWorld.boot]
    · simp [start, InitWorld.boot, Endpoints.channel, KChannelInner.new]
  · have hright : (InitWorld.boot Name m).net.traffic (2 * k + 1) = ⟨[], [], [], true, true⟩ := by
      simp only [InitWorld.boot, Endpoints.traffic, decide_eq_true (by omega : 2 * k + 1 < 2 * m)]
      rfl
    show Line c _ ((InitWorld.boot Name m).net.traffic (2 * k + 1)) _
    rw [hright]
    exact .new c howes _
  · simp [start, Caller.index]
  · simp [start, Caller.index]
  · intro x _ hx
    have hx : x < if (InitWorld.boot Name m).owes (2 * k) = none then 0 else 0 := hx
    rw [ite_self] at hx
    exact absurd hx (Nat.not_lt_zero x)
  · exact fun _ => trivial
  · simp [start, Matched]

variable [DecidableEq Name]

theorem InOrder.hear (h : InOrder c k s) (hi : s.thread i = .waiting call x cap)
    {packet : ChannelMessage} {rest : List ChannelMessage}
    (hq : (s.world.net.channel (2 * k + 1)).queue = packet :: rest)
    (hfit : KChannelInner.Fits packet cap 1)
    (hturn : x = (s.world.net.received (2 * k + 1)).length) :
    InOrder c k (s.taken k i call x cap packet) := by
  have hl := s.world.net.traffic_finishRead_ne (e := 2 * k + 1) (x := 2 * k)
    ((s.world.net.channel (2 * k + 1)).sysRead ⟨cap, 1⟩) (by omega)
  have hr := Endpoints.traffic_finishRead ⟨cap, 1⟩ hq hfit
  refine h.advance (h.served.hear hq hfit) rfl (congrArg Traffic.sent hr) rfl ?_ ?_
    fun entry hentry => ?_
  · have hindex : (s.thread i).index = some (s.world.net.received (2 * k + 1)).length := by
      rw [hi, hturn]
      rfl
    have hnone : (if (call.finish packet).isSome then .idle else .panicked : Caller Name).index
        = none := by split <;> rfl
    rw [hnone]
    show Turns ((s.world.net.finishRead _ _).traffic (2 * k))
      ((s.world.net.finishRead _ _).traffic (2 * k + 1)) (s.world.owes (2 * k)) _
    rw [hl, hr]
    exact h.turns.hear hindex packet rest
  · split <;> trivial
  · rcases mem_append.1 hentry with hentry | hentry
    · exact h.matched entry hentry
    · rw [mem_singleton.1 hentry, hturn]

variable {g : Growth}

theorem InOrder.world {a : InitWorld.Action} {w : InitWorld Name} (h : InOrder c k s)
    (hforeign : Foreign k a)
    (hroom : a = .init → (s.world.net.channel (2 * k + 1)).queue.length ≤ channelCapacity)
    (hstep : s.world.step c g a = some w) : InOrder c k (s.observe k w) := by
  obtain ⟨hserved, hheard⟩ := h.served.move hforeign hroom (InitWorld.move_of_step hstep)
  refine ⟨hserved, ?_, h.turns.world hheard.requests hheard.received
    (Nat.le_of_add_right_le hserved.line.bound) fun hnone => ⟨?_, ?_⟩, h.cap, h.matched⟩
  · show s.origins ++ _ = (List.range (w.net.sent (2 * k + 1)).length).map some
    rcases hheard.replies with heq | ⟨⟨m, heq⟩, hreplying⟩
    · rw [if_pos heq, append_nil, heq, h.origins]
    · rw [if_neg (by simp [heq]), heq, hreplying, h.origins, length_append,
        length_singleton, range_succ, map_append, map_singleton]
  · by_contra hne
    exact hheard.served hne hnone
  · exact hheard.replies.resolve_right fun hr => h.served.owes_of_replying hr.2 hnone

theorem InOrder.write (h : InOrder c k s) (hidle : s.thread i = .idle)
    (hhandle : .channel (2 * k) ∉ call.handles) (hsmall : (c.serialize call.msg).length ≤ 100) :
    InOrder c k (s.write c g k i call) := by
  have hfit : KChannelInner.Fits (call.request c) 100 1 := by
    refine ⟨hsmall, ?_⟩
    cases call with
    | publishHandle => exact Nat.le_refl 1
    | getHandle => exact Nat.zero_le 1
    | cloneInitService => exact Nat.zero_le 1
  have hserved := h.served.request hfit fun v hv heq => by
    rw [ClientCall.request, InitWorld.message_handles] at hv
    exact hhandle (heq ▸ hv)
  have haccepts := s.world.net.accepts_iff (2 * k + 1) (call.request c)
  have hpeer := h.served.wires.peer_right
  rw [hpeer] at haccepts
  rcases h.served.wires.push (call.request c) with ⟨-, hrefuse, hready⟩ | ⟨hpush, hready⟩
  · have hwrite : s.write c g k i call = { s with thread := update s.thread i .panicked } := by
      simp only [Process.write, hrefuse, if_neg (fun hacc => hready (haccepts.1 hacc))]
    rw [hwrite]
    exact h.panic i (by simp [hidle, Caller.index])
  · have hother : (s.world.net.send (2 * k + 1) (call.request c)).traffic (2 * k + 1)
        = s.world.net.traffic (2 * k + 1) := s.world.net.traffic_send_ne _ (by omega)
    have hthread : (s.write c g k i call).thread = update s.thread i
        (.waiting call (s.world.net.sent (2 * k)).length
          (g.reserve 0 0 (c.serialize call.msg).length)) := by
      simp only [Process.write, haccepts.2 hready, if_true]
    have hcap : 1 ≤ g.reserve 0 0 (c.serialize call.msg).length := by
      have hpos := length_pos_iff.2 (serialize_ne_nil c call.msg)
      have henough := g.enough 0 0 (c.serialize call.msg).length
      omega
    have hle : (s.world.net.traffic (2 * k + 1)).received.length
        ≤ (s.world.net.traffic (2 * k)).sent.length := by
      have hbound := h.served.line.bound
      rw [h.served.line.replies, length_append] at hbound
      omega
    refine h.advance hserved rfl (congrArg Traffic.sent hother) hthread ?_ hcap h.matched
    show Turns ((s.world.net.send _ _).traffic (2 * k))
      ((s.world.net.send _ _).traffic (2 * k + 1)) (s.world.owes (2 * k)) _
    rw [hpush, hother]
    exact h.turns.join (by simp [hidle, Caller.index]) hle _

/-- One step, whatever the threads do: either the invariant is kept, or a call takes a reply that is
    not its own. -/
theorem InOrder.step (h : InOrder c k s) {a : Action Name n} (hmod : Moderate c k s a)
    (hstep : s.step c g k a = some t) :
    (InTurn k s a ∧ InOrder c k t) ∨ (¬ InTurn k s a ∧ ¬ t.Matched) := by
  cases a with
  | world =>
    refine .inl ⟨trivial, ?_⟩
    simp only [Process.step] at hstep
    split at hstep
    · next hforeign =>
      obtain ⟨w, hw, rfl⟩ := Option.map_eq_some_iff.1 hstep
      refine h.world hforeign ?_ hw
      rintro rfl
      exact hmod
    · cases hstep
  | call =>
    refine .inl ⟨trivial, ?_⟩
    simp only [Process.step] at hstep
    split at hstep
    · next hidle =>
      split at hstep
      · cases hstep
      · next hhandle =>
        cases hstep
        exact h.write hidle hhandle hmod
    · cases hstep
  | read i =>
    simp only [Process.step] at hstep
    split at hstep
    · next call x cap hi =>
      cases hstep
      have hindex : (s.thread i).index = some x := by rw [hi]; rfl
      rcases h.read_cases hi with ⟨hq, hread⟩ | ⟨packet, rest, hq, hfit, hread⟩
      · refine .inl ⟨fun hne => absurd hq hne, ?_⟩
        rcases hread with hread | ⟨hnone, hread⟩
        · rw [hread]; exact h
        · rw [hread]
          refine h.panic i fun y hy => ?_
          -- all replies have been read
          rw [asked, if_pos hnone, h.served.line.replies,
            show (s.world.net.traffic (2 * k + 1)).queue = [] from hq, append_nil]
          exact (h.turns.bounds i y hy).1
      · have hne : (s.world.net.channel (2 * k + 1)).queue ≠ [] := by simp [hq]
        have hlow := (h.turns.bounds i x hindex).1
        by_cases hturn : x = (s.world.net.received (2 * k + 1)).length
        · refine .inl ⟨fun _ x' hx' j y hy => ?_, ?_⟩
          · obtain rfl : x = x' := Option.some.inj (hindex.symm.trans hx')
            exact hturn ▸ (h.turns.bounds j y hy).1
          · rw [hread]
            exact h.hear hi hq hfit hturn
        · refine .inr ⟨fun hin => ?_, fun hmatched => ?_⟩
          · obtain ⟨j, hj⟩ := h.next_waits hne
            exact hturn (Nat.le_antisymm (hin hne x hindex j _ hj) hlow)
          · rw [hread] at hmatched
            have := hmatched _ (mem_append_right _ (mem_singleton_self _))
            exact hturn (Option.some.inj this).symm
    · cases hstep

/-- **When every call gets its own reply.** Over every run in which requests have at most 100 bytes
    and the queue of replies has room, every call returns the reply to its own request if and only
    if calls read in the order they wrote in: none takes a message while a call that wrote earlier
    is still waiting. -/
theorem replies_matched_iff {c : Codec Name} {g : Growth} {m : Nat} (hk : k < m)
    {as : List (Action Name n)}
    (hmod : Lts.Guarded (step c g k) (Moderate c k) (start Name n m) as) :
    Lts.Always (step c g k) Matched (start Name n m) as ↔
      Lts.Guarded (step c g k) (InTurn k) (start Name n m) as := by
  refine always_iff_guarded_within (I := InOrder c k) (fun s h => h.matched) ?_ ?_
    (inOrder_start c hk) hmod
  · intro s a t h hmod hturn hstep
    rcases h.step hmod hstep with ⟨-, ht⟩ | ⟨hnot, -⟩
    · exact ht
    · exact absurd hturn hnot
  · intro s a t h hmod hstep hmatched
    rcases h.step hmod hstep with ⟨hturn, -⟩ | ⟨-, hnot⟩
    · exact hturn
    · exact absurd hmatched hnot

/-- Two threads call one after the other. -/
def serialRun (i j : Fin 2) : List (Action ShortName 2) :=
  .call i .cloneInitService :: replicate 11 (.world .init) ++
    [.read i, .call j (.getHandle (.ofLetters 1))] ++ replicate 6 (.world .init) ++ [.read j]

theorem replies_matched_serial :
    (∃ s, run (step ascii Growth.exact 0) (start ShortName 2 1) (serialRun 0 1) = some s ∧
      s.returned.map Return.result
        = [some (.cloneInitService (.channel 3)), some (.getHandle none)]) ∧
    Lts.Always (step ascii Growth.exact 0) Matched (start ShortName 2 1) (serialRun 0 1) := by
  refine ⟨?_, ?_⟩
  · have hrun :
        ∃ s ∈ run (step ascii Growth.exact 0) (start ShortName 2 1) (serialRun 0 1),
          s.returned.map Return.result
            = [some (.cloneInitService (.channel 3)), some (.getHandle none)] := by decide +kernel
    exact hrun
  · exact (replies_matched_iff (by decide) (by decide +kernel)).2 (by decide +kernel)

/-- One thread asks for a new connection to the service and another one for the name `a`. Both
    requests are answered before the second thread reads. -/
def crossedRun (i j : Fin 2) : List (Action ShortName 2) :=
  [.call i .cloneInitService, .call j (.getHandle (.ofLetters 1))] ++
    replicate 11 (.world .init) ++ [.read j]

/-- `get_handle` returns the handle made for the other thread, though nothing has the name `a`. -/
theorem reply_taken_by_other_call :
    ∃ s, run (step ascii Growth.exact 0) (start ShortName 2 1) (crossedRun 0 1) = some s ∧
      s.returned = [⟨.getHandle (.ofLetters 1), 1, some 0, some (.getHandle (some (.channel 3)))⟩] ∧
      s.world.names (.ofLetters 1) = none ∧ ¬ s.Matched := by
  have hrun :
      ∃ s ∈ run (step ascii Growth.exact 0) (start ShortName 2 1) (crossedRun 0 1),
        s.returned = [⟨.getHandle (.ofLetters 1), 1, some 0,
          some (.getHandle (some (.channel 3)))⟩] ∧
        s.world.names (.ofLetters 1) = none := by decide +kernel
  obtain ⟨s, hs, hreturned, hname⟩ := hrun
  refine ⟨s, hs, hreturned, hname, fun hmatched => ?_⟩
  have horigin := hmatched _ (hreturned ▸ mem_singleton_self _)
  exact absurd horigin (by decide)

end Process

end Fioxa
