import Fioxa.Init.Callers

/-! # The two directions of a client channel

A conversation over one channel, apart from the rest of the system: `Wires` says how endpoints are
connected, and `Line` what the two ends of a client channel have to do with each other at each point
of the service's work. One lemma for each thing that can happen to a `Line`: a request is written,
read and answered, a reply is read, the service gives up. -/

namespace Fioxa

open List Option

namespace Endpoints

variable {n : Endpoints} {e : Nat}

/-- The other end of a channel. -/
def mate (e : Nat) : Nat := if e % 2 = 0 then e + 1 else e - 1

/-- The `k`-th channel exists, every channel connects neighbours, and no message carries a handle to
    the service's end of the `k`-th. -/
structure Wires (k : Nat) (n : Endpoints) : Prop where
  lt : 2 * k + 1 < n.next
  even : n.next % 2 = 0
  peer : n.peer = mate
  unforged : ∀ e, ∀ msg ∈ (n.channel e).queue, ∀ v ∈ msg.handles.getD [], v ≠ .channel (2 * k)

namespace Wires

variable {k : Nat}

variable (h : Wires k n)
include h

theorem peer_left : n.peer (2 * k) = 2 * k + 1 := by
  rw [h.peer, mate, if_pos (by omega)]

theorem peer_right : n.peer (2 * k + 1) = 2 * k := by
  rw [h.peer, mate, if_neg (by omega)]
  omega

theorem peer_div {e : Nat} (he : e / 2 ≠ k) : n.peer e / 2 ≠ k := by
  rw [h.peer, mate]
  split <;> omega

theorem keep {n' : Endpoints} (hnext : n'.next = n.next) (hpeer : n'.peer = n.peer)
    (hqueue : ∀ x, ∀ m ∈ (n'.channel x).queue, m ∈ (n.channel x).queue ∨
      ∀ v ∈ m.handles.getD [], v ≠ .channel (2 * k)) : Wires k n' where
  lt := hnext ▸ h.lt
  even := hnext ▸ h.even
  peer := hpeer.trans h.peer
  unforged x m hm := (hqueue x m hm).elim (h.unforged x m) fun hm => hm

theorem port (port : List PortNotification) : Wires k { n with port := port } :=
  ⟨h.lt, h.even, h.peer, h.unforged⟩

theorem arm (e : Nat) (p : PortRef) (key : Key) : Wires k (n.arm e p key) := by
  refine h.keep (n.arm_next e p key) (n.arm_peer e p key) fun x m hm => .inl ?_
  have hqueue : ((n.arm e p key).channel x).queue = (n.channel x).queue :=
    congrArg Traffic.queue (n.traffic_arm e p key x)
  exact hqueue ▸ hm

theorem send (e : Nat) {msg : ChannelMessage}
    (hmsg : ∀ v ∈ msg.handles.getD [], v ≠ .channel (2 * k)) : Wires k (n.send e msg) := by
  refine h.keep (n.send_next e msg) (n.send_peer e msg) fun x m hm => ?_
  rcases mem_send_queue hm with hm | rfl
  · exact .inl hm
  · exact .inr hmsg

theorem finishRead (e : Nat) (read : ChannelRead) :
    Wires k (n.finishRead e ((n.channel e).sysRead read)) :=
  h.keep (n.finishRead_next e _) (n.finishRead_peer e _)
    fun _ _ hm => .inl (mem_finishRead_queue hm)

theorem close (e : Nat) : Wires k (n.close e) := by
  refine h.keep (n.close_shrunk e).next (n.close_shrunk e).peer fun x m hm => .inl ?_
  rcases (n.close_shrunk e).queue x with hq | ⟨-, hq⟩
  · exact hq ▸ hm
  · rw [hq] at hm
    cases hm

theorem create (hfresh : ∀ e, n.next ≤ e → n.channel e = .new) :
    Wires k n.create where
  lt := Nat.lt_add_right 2 h.lt
  even := by
    have := h.even
    simp only [Endpoints.create]
    omega
  peer := by
    have heven := h.even
    funext x
    by_cases hr : x = n.next + 1
    · subst hr
      rw [mate, if_neg (by omega)]
      simp [Endpoints.create, Endpoints.peer]
    · by_cases hl : x = n.next
      · subst hl
        rw [mate, if_pos heven]
        simp [Endpoints.create, Endpoints.peer]
      · rw [← h.peer]
        simp [Endpoints.create, Endpoints.peer, hl, hr]
  unforged := by
    intro x m hm
    rw [create_channel hfresh] at hm
    exact h.unforged x m hm

end Wires

/-- Nothing happens to the `k`-th channel, but that a notification may have been added for the
    service. -/
structure Calm (k : Nat) (n n' : Endpoints) : Prop where
  left : n'.traffic (2 * k) = n.traffic (2 * k) ∨ ∃ m, m.data = [1] ∧
    KChannelInner.Fits m 100 1 ∧ n'.traffic (2 * k) = (n.traffic (2 * k)).push m
  right : n'.traffic (2 * k + 1) = n.traffic (2 * k + 1)

theorem Calm.of_eq {k : Nat} {n' : Endpoints} (h : ∀ x, x / 2 = k → n'.traffic x = n.traffic x) :
    Calm k n n' :=
  ⟨.inl (h _ (by omega)), h _ (by omega)⟩

theorem Wires.push {k : Nat} (h : Wires k n) (m : ChannelMessage) :
    (n.send (2 * k + 1) m).traffic (2 * k) = n.traffic (2 * k) ∧ n.send (2 * k + 1) m = n ∧
      ¬ (n.traffic (2 * k)).Ready ∨
    (n.send (2 * k + 1) m).traffic (2 * k) = (n.traffic (2 * k)).push m ∧
      (n.traffic (2 * k)).Ready := by
  have hpeer := h.peer_right
  by_cases hready : (n.traffic (2 * k)).Ready
  · have hpush := traffic_send_ready (e := 2 * k + 1) (by rw [hpeer]; exact hready) m
    rw [hpeer] at hpush
    exact .inr ⟨hpush, hready⟩
  · have hsame : n.send (2 * k + 1) m = n := send_refused (by rw [hpeer]; exact hready) m
    exact .inl ⟨by rw [hsame], hsame, hready⟩

/-- The service sends a notification, but not to the client. -/
theorem Wires.calm_send {k : Nat} (h : Wires k n) {m : ChannelMessage} (hne : e ≠ 2 * k)
    (hdata : m.data = [1]) (hfit : KChannelInner.Fits m 100 1) : Calm k n (n.send e m) := by
  by_cases hdiv : e / 2 = k
  · -- the client has published its own end of the channel
    obtain rfl : e = 2 * k + 1 := by omega
    have hpeer := h.peer_right
    refine ⟨?_, n.traffic_send_ne m (by omega)⟩
    rcases h.push m with ⟨hsame, -⟩ | ⟨hpush, -⟩
    · exact .inl hsame
    · exact .inr ⟨m, hdata, hfit, hpush⟩
  · have hpeer := h.peer_div hdiv
    exact .of_eq fun x hx => n.traffic_send_ne m (by omega)

/-! ### The two directions of a channel -/

/-- The service's end `L` and the client's end `R` of a channel. `owes` is the number of replies the
    service owes for what it has read, as long as it is going to read more. -/
structure Line {Name : Type} (c : Codec Name) (L R : Traffic) (owes : Option Nat) : Prop where
  alive : R.alive = true
  replies : R.sent = R.received ++ R.queue
  fit : ∀ m ∈ R.queue, KChannelInner.Fits m 1 1
  requests : ∀ m ∈ L.queue, KChannelInner.Fits m 100 1
  bound : R.sent.length + owes.getD 0 ≤ L.sent.length
  /-- What has been answered, or is going to be, is a request. -/
  parsed : ∀ i m, i < R.sent.length + owes.getD 0 → L.sent[i]? = some m →
    c.deserialize m.data ≠ none
  served : ∀ owed, owes = some owed → R.isOpen = true ∧ L.sent = L.received ++ L.queue ∧
    L.received.length = R.sent.length + owed

namespace Line

variable {Name : Type} {c : Codec Name} {L R : Traffic} {owes : Option Nat}

theorem new (c : Codec Name) (howes : owes.getD 0 = 0) (alive : Bool) :
    Line c ⟨[], [], [], true, alive⟩ ⟨[], [], [], true, true⟩ owes where
  alive := rfl
  replies := rfl
  fit := by simp
  requests := by simp
  bound := Nat.le_of_eq ((Nat.zero_add _).trans howes)
  parsed := by simp
  served := by
    rintro owed rfl
    exact ⟨rfl, rfl, ((Nat.zero_add owed).trans howes).symm⟩

theorem stop (h : Line c L R owes) {L' : Traffic} (hsent : L'.sent = L.sent)
    (hqueue : ∀ m ∈ L'.queue, m ∈ L.queue) (isOpen : Bool) :
    Line c L' { R with isOpen := isOpen } none := by
  have hbound := h.bound
  refine ⟨h.alive, h.replies, h.fit, fun m hm => h.requests m (hqueue m hm), ?_, ?_, by simp⟩
  · simp only [getD_none, hsent]
    omega
  · intro i m hi hm
    rw [hsent] at hm
    exact h.parsed i m (Nat.lt_add_right _ hi) hm

theorem request (h : Line c L R owes) {msg : ChannelMessage} (hfit : KChannelInner.Fits msg 100 1) :
    Line c (L.push msg) R owes := by
  have hbound := h.bound
  refine ⟨h.alive, h.replies, h.fit, fun m hm => ?_, ?_, fun i m hi hm => ?_, fun owed howed => ?_⟩
  · rcases mem_append.1 hm with hm | hm
    · exact h.requests m hm
    · exact mem_singleton.1 hm ▸ hfit
  · simp only [Traffic.push, length_append]
    omega
  · simp only [Traffic.push] at hm
    rw [List.getElem?_append_left (by omega)] at hm
    exact h.parsed i m hi hm
  · obtain ⟨hopen, hdelivered, hcount⟩ := h.served owed howed
    exact ⟨hopen, by simp [Traffic.push, hdelivered], hcount⟩

theorem take (h : Line c L R (some 0)) {packet : ChannelMessage} {rest : List ChannelMessage}
    (hq : L.queue = packet :: rest) (hmsg : c.deserialize packet.data ≠ none) :
    Line c (L.pop packet rest) R (some 1) := by
  obtain ⟨hopen, hdelivered, hcount⟩ := h.served 0 rfl
  have hsent : L.sent = (L.received ++ [packet]) ++ rest := by
    rw [hdelivered, hq, append_assoc, singleton_append]
  refine ⟨h.alive, h.replies, h.fit, fun m hm => ?_, ?_, fun i m hi hm => ?_, ?_⟩
  · exact h.requests m (hq ▸ .tail packet hm)
  · have := congrArg List.length hsent
    simp only [length_append, length_singleton] at this
    simp only [Traffic.pop, getD_some]
    omega
  · simp only [getD_some] at hi
    by_cases hlast : i < R.sent.length
    · exact h.parsed i m hlast hm
    · have hi : i = L.received.length := by omega
      subst hi
      simp only [Traffic.pop, hsent, append_assoc,
        List.getElem?_append_right le_rfl, Nat.sub_self] at hm
      obtain rfl : packet = m := by simpa using hm
      exact hmsg
  · rintro owed howed
    cases howed
    refine ⟨hopen, hsent, ?_⟩
    simp only [Traffic.pop, length_append, length_singleton]
    omega

theorem reply (h : Line c L R (some 1)) {msg : ChannelMessage} (hfit : KChannelInner.Fits msg 1 1) :
    Line c L (R.push msg) (some 0) := by
  obtain ⟨hopen, hdelivered, hcount⟩ := h.served 1 rfl
  have hlen : (R.push msg).sent.length = R.sent.length + 1 := by simp [Traffic.push]
  refine ⟨h.alive, ?_, fun m hm => ?_, h.requests, ?_, fun i m hi hm => ?_, ?_⟩
  · simp [Traffic.push, h.replies]
  · rcases mem_append.1 hm with hm | hm
    · exact h.fit m hm
    · exact mem_singleton.1 hm ▸ hfit
  · rw [hlen]; exact h.bound
  · rw [hlen] at hi
    exact h.parsed i m hi hm
  · rintro owed howed
    cases howed
    exact ⟨hopen, hdelivered, by rw [hlen, hcount]⟩

theorem hear (h : Line c L R owes) {packet : ChannelMessage} {rest : List ChannelMessage}
    (hq : R.queue = packet :: rest) : Line c L (R.pop packet rest) owes where
  alive := h.alive
  replies := by simp [Traffic.pop, h.replies, hq]
  fit := fun m hm => h.fit m (hq ▸ .tail packet hm)
  requests := h.requests
  bound := h.bound
  parsed := h.parsed
  served := h.served

end Line

end Endpoints

end Fioxa
