import Fioxa.Init.Line

/-! # How the service treats one client

The service's end of a client channel is reachable through one reference only, which the service
neither sends nor publishes; so the only messages that reach the client are the replies to its own
requests, one for each request and in their order (`Served`, `Heard`). -/

namespace Fioxa

open List Option Function Prod Nat Endpoints

/-- The replies a call owes in each phase. -/
def Phase.owes : Phase → Nat
  | .read | .drop _ => 0
  | _ => 1

/-- The references of a phase that are not on the list of those to be deleted; `id` is not to be
    among them. -/
def Phase.Avoids (id : Nat) : Phase → Prop
  | .createPair handle | .notify handle _ _ => handle ≠ id
  | .reply _ handles drops => handles ⊆ drops ∧ handles.length ≤ 1
  | _ => True

def Pc.Avoids {Name : Type} (id : Nat) : Pc Name → Prop
  | .work _ w => w.phase.Avoids id
  | _ => True

/-- The buffer of the running call: the channel it is for, and its size. -/
def Pc.buffer {Name : Type} : Pc Name → Option (Nat × Nat)
  | .work _ w => some (w.chan, w.cap)
  | _ => none

namespace InitWorld

variable {Name : Type}

/-- The replies the service owes on endpoint `l` by what it is doing; `none` if it is about to give
    the endpoint up, or dead. -/
def debt (s : InitWorld Name) (l : Nat) : Option Nat :=
  match s.pc with
  | .work _ w => some (if s.refs.value w.chan = some (.channel l) then w.phase.owes else 0)
  | .remove key => if (s.lookup key).bind s.refs.value = some (.channel l) then none else some 0
  | .dead => none
  | _ => some 0

/-- The replies the service owes on endpoint `l`; `none` if it will not read from it again. -/
def owes (s : InitWorld Name) (l : Nat) : Option Nat := if s.Owned l then s.debt l else none

/-- The handle table as far as the `k`-th client is concerned: reference `2 k + 1` is the only way
    to the service's end of its channel, and stays out of everything the service sends, publishes or
    deletes. -/
structure Table (k : Nat) (s : InitWorld Name) : Prop where
  own : ∀ id, s.refs.value id = some (.channel (2 * k)) → id = 2 * k + 1
  lt : 2 * k + 1 < s.refs.nextId
  loose : ¬ s.Loose (2 * k + 1)
  /-- The service's ends are the even ones. -/
  even : ∀ id ∈ s.clientRefs, ∀ e, s.refs.value id = some (.channel e) → e % 2 = 0
  phase : s.pc.Avoids (2 * k + 1)

variable {k : Nat} {s t : InitWorld Name}

/-- References the service may come to send, publish or delete in its next step: those it is free to
    now, and new ones. -/
def Stray (s : InitWorld Name) (id : Nat) : Prop := s.Loose id ∨ s.refs.nextId ≤ id

variable {id : Nat}

theorem slot_loose {key : Key} {w : Work Name} (hpc : s.pc = .work key w) (hid : id ∈ w.slot) :
    s.Loose id :=
  .inl (by rw [hpc]; exact mem_append_left _ (mem_toList.2 hid))

theorem Table.stray (h : Table k s) (hid : s.Stray id) : id ≠ 2 * k + 1 := by
  rintro rfl
  rcases hid with hid | hid
  · exact h.loose hid
  · exact absurd h.lt (Nat.not_lt.2 hid)

theorem Table.step (h : Table k s) (hown : ∀ id, t.refs.value id = some (.channel (2 * k)) →
      s.refs.value id = some (.channel (2 * k)))
    (hlt : s.refs.nextId ≤ t.refs.nextId) (hloose : ∀ id, t.Loose id → s.Stray id)
    (heven : ∀ id ∈ t.clientRefs, ∀ e, t.refs.value id = some (.channel e) → e % 2 = 0)
    (hphase : t.pc.Avoids (2 * k + 1)) : Table k t where
  own := fun id hid => h.own id (hown id hid)
  lt := Nat.lt_of_lt_of_le h.lt hlt
  loose := fun hmem => h.stray (hloose _ hmem) rfl
  even := heven
  phase := hphase

theorem Table.quietStep (h : Table k s) (hrefs : t.refs = s.refs) (hnames : t.names = s.names)
    (hclients : t.clientRefs ⊆ s.clientRefs) (hloose : t.pc.loose ⊆ s.pc.loose)
    (hphase : t.pc.Avoids (2 * k + 1)) : Table k t := by
  refine h.step (by rw [hrefs]; exact fun _ hid => hid) (by rw [hrefs])
    (fun id hid => .inl (hid.imp (fun h => hloose h) (hnames ▸ fun h => h))) ?_ hphase
  rw [hrefs]
  exact fun id hid => h.even id (hclients hid)

variable {l : Nat} {key : Key} {w : Work Name}

theorem Table.workStep (h : Table k s) (hpc : s.pc = .work key w) {phase : Phase} {net : Endpoints}
    (hloose : phase.refs ⊆ w.phase.refs) (hphase : phase.Avoids (2 * k + 1)) :
    Table k { s with net := net, pc := .work key { w with phase := phase } } := by
  refine h.quietStep rfl rfl (by simp [clientRefs, todo, hpc]) ?_ hphase
  rw [hpc]
  exact append_subset.2 ⟨subset_append_left _ _, subset_append_of_subset_right _ hloose⟩

theorem own_addValue {r : ProcessReferences} {v : KernelValue} (hv : v ≠ .channel l)
    (h : (r.addValue v).1.value id = some (.channel l)) : r.value id = some (.channel l) := by
  by_cases hid : id = r.nextId
  · subst hid
    simp only [ProcessReferences.addValue, update_self, Option.some.injEq] at h
    exact absurd h hv
  · simpa [ProcessReferences.addValue, hid] using h

theorem own_channelCreate (hl : l < s.net.next)
    (h : s.channelCreate.1.refs.value id = some (.channel l)) :
    s.refs.value id = some (.channel l) := by
  have hne : ∀ x, s.net.next ≤ x → KernelValue.channel x ≠ .channel l := fun x hx heq => by
    obtain rfl := KernelValue.channel.inj heq
    exact absurd hl (Nat.not_lt.2 hx)
  have h1 := own_addValue (hne _ (le_succ _)) h
  exact own_addValue (hne _ le_rfl) h1

theorem own_remove {r : ProcessReferences} {id' : Nat}
    (h : (r.remove id').value id = some (.channel l)) : r.value id = some (.channel l) := by
  by_cases hid : id = id'
  · subst hid
    exact absurd h (by simp [ProcessReferences.remove])
  · rwa [RefsOk.remove_ne r hid] at h

theorem chans_subset (s : InitWorld Name) : s.chans.map snd ++ [] ⊆ s.clientRefs :=
  append_subset.2 ⟨subset_append_left _ _, nil_subset _⟩

theorem Table.create (h : Table k s) (hb : s.Base) (hw : Wires k s.net)
    (hrefs : t.refs = s.channelCreate.1.refs) (hnames : t.names = s.names)
    (hclients : ∀ id ∈ t.clientRefs, id ∈ s.clientRefs ∨ id = s.channelCreate.2.1)
    (hloose : ∀ id ∈ t.pc.loose, id ∈ s.pc.loose ∨ s.refs.nextId ≤ id)
    (hphase : t.pc.Avoids (2 * k + 1)) : Table k t := by
  have hlt : 2 * k < s.net.next := lt_of_succ_lt hw.lt
  have hleft : s.channelCreate.1.refs.value s.channelCreate.2.1 = some (.channel s.net.next) :=
    (RefsOk.addValue_ne _ _ (lt_succ_self _)).trans (update_self ..)
  refine h.step (fun id hid => ?_) ?_ (fun id hid => ?_) (fun id hid e he => ?_) hphase
  · rw [hrefs] at hid
    exact own_channelCreate hlt hid
  · rw [hrefs]
    exact Nat.le_add_right _ 2
  · rcases hid with hid | hid
    · exact (hloose id hid).imp .inl fun hl => hl
    · exact .inl (.inr (hnames ▸ hid))
  · rw [hrefs] at he
    rcases hclients id hid with hmem | rfl
    · rw [hb.channelCreate_value hmem] at he
      exact h.even id hmem e he
    · rw [hleft] at he
      cases he
      exact hw.even

variable [DecidableEq Name]

variable {c : Codec Name} {u : InitWorld Name} {handlesLen : Nat} {w' : Work Name}

/-- The service has read from the channel of `w`, and parses what `w'` holds. -/
structure Parses (c : Codec Name) (s u t : InitWorld Name) (key : Key) (w w' : Work Name)
    (handlesLen : Nat) : Prop where
  pc : s.pc = .work key w
  phase : w.phase = .read
  dispatched : Dispatched c u key w' handlesLen t
  chan : w'.chan = w.chan
  chans : u.chans = s.chans
  value : ∀ id ∈ s.clientRefs, u.refs.value id = s.refs.value id

theorem Table.dispatched (h : Table k s) (hp : Parses c s u t key w w' handlesLen)
    (hown : ∀ id, u.refs.value id = some (.channel (2 * k)) →
      s.refs.value id = some (.channel (2 * k))) (hlt : s.refs.nextId ≤ u.refs.nextId)
    (hnames : u.names = s.names) (hslot : ∀ id ∈ w'.slot, s.Stray id) : Table k t := by
  have hloose : ∀ id, t.Loose id → s.Stray id := by
    intro id hid
    rcases hp.dispatched.loose hid with hid | hid
    · exact hslot id (mem_toList.1 hid)
    · exact .inl (.inr (hnames ▸ hid))
  have heven : ∀ id ∈ u.chans.map snd ++ [], ∀ e, u.refs.value id = some (.channel e) →
      e % 2 = 0 := by
    intro id hid e he
    rw [append_nil, hp.chans] at hid
    have hmem : id ∈ s.clientRefs := mem_append_left _ hid
    exact h.even id hmem e (hp.value id hmem ▸ he)
  cases hp.dispatched with
  | refused | undefined | cloning => exact h.step hown hlt hloose heven trivial
  | found name handle hmsg hname =>
    exact h.step hown hlt hloose heven (h.stray (.inl (.inr ⟨name, hnames ▸ hname⟩)))
  | notFound | published => exact h.step hown hlt hloose heven ⟨nil_subset _, by simp⟩

theorem Dispatched.frame (hd : Dispatched c u key w handlesLen t) :
    t.net = u.net ∧ t.refs = u.refs ∧ t.chans = u.chans ∧ t.todo = [] := by
  cases hd <;> exact ⟨rfl, rfl, rfl, rfl⟩

theorem dispatched_buffer {b : Nat × Nat} (hd : Dispatched c u key w handlesLen t)
    (hb : t.pc.buffer = some b) : b = (w.chan, w.cap) := by
  cases hd <;> cases hb <;> rfl

namespace Parses

variable (hp : Parses c s u t key w w' handlesLen)
include hp

theorem mem (hb : s.Base) : w.chan ∈ s.clientRefs := hb.job_mem (job_work hp.pc)

theorem value_chan (hb : s.Base) : u.refs.value w'.chan = s.refs.value w.chan := by
  rw [hp.chan, hp.value _ (hp.mem hb)]

theorem lookup_eq (hb : s.Base) : u.lookup key = some w'.chan := by
  rw [lookup_congr hp.chans, hp.chan]
  exact hb.looked _ _ (job_work hp.pc)

theorem owned (h : t.Owned l) : s.Owned l := by
  obtain ⟨-, hrefs, hchans, htodo⟩ := hp.dispatched.frame
  have hsub : t.clientRefs ⊆ s.clientRefs := by
    rw [clientRefs, htodo, hchans, hp.chans, append_nil]
    exact subset_append_left _ _
  obtain ⟨id, hid, he⟩ := h
  exact ⟨id, hsub hid, by rwa [hrefs, hp.value id (hsub hid)] at he⟩

end Parses

theorem parses_taken (hb : s.Base) {e : Nat} (packet : ChannelMessage) (hpc : s.pc = .work key w)
    (hph : w.phase = .read) (n : Nat) :
    Parses c s (s.taken e w packet).1 (dispatch c (s.taken e w packet).1 key
        { w with
          data := packet.data, slot := (s.taken e w packet).2
          consumed := w.consumed ++ [packet] } n) key w
        { w with
          data := packet.data, slot := (s.taken e w packet).2
          consumed := w.consumed ++ [packet] } n :=
  ⟨hpc, hph, dispatch_dispatched c _ key _ n, rfl, (s.taken_frame e w packet).2.2,
    fun _ hid => taken_value e w packet (hb.ref_lt hid)⟩

theorem parses_stale (cap : Nat) (hpc : s.pc = .work key w) (hph : w.phase = .read) (n : Nat) :
    Parses c s s (dispatch c s key { w with cap := cap } n) key w { w with cap := cap } n :=
  ⟨hpc, hph, dispatch_dispatched c s key _ n, rfl, rfl, fun _ _ => rfl⟩

variable {g : Growth} {a : Action}

theorem Table.move (h : Table k s) (hb : s.Base) (hw : Wires k s.net) (m : Move c g s a t) :
    Table k t := by
  have hphase := h.phase
  cases m with
  | die =>
    exact h.quietStep rfl rfl s.chans_subset (nil_subset _) trivial
  | collide =>
    exact h.create hb hw rfl rfl (fun id hid => .inl (s.chans_subset hid)) (by simp [Pc.loose])
      trivial
  | started i hpc | startArm id refs i e p hpc | giveUp key w hpc | rearm key w e p hpc
  | forgotten key hpc | finish key w e hpc | pop notif rest id hpc =>
    exact h.quietStep rfl rfl (by simp [clientRefs, todo, hpc]) (nil_subset _) trivial
  | take key w e packet rest hpc hph hid hq =>
    refine h.dispatched (parses_taken hb packet hpc hph _) ?_ ?_ (s.taken_frame e w packet).2.1 ?_
    all_goals unfold taken receiveHandles
    · split
      · next v vs hh =>
        refine fun id hid => own_addValue (hw.unforged e packet ?_ v ?_) hid
        · rw [hq]; exact .head _
        · rw [hh]; exact .head _
      · exact fun _ hid => hid
    · split
      · exact le_succ _
      · exact le_rfl
    · split
      · rintro id hid
        cases hid
        exact .inr le_rfl
      · exact fun id hid => .inl (slot_loose hpc hid)
  | stale key w e packet rest cap hpc hph hid =>
    exact h.dispatched (parses_stale cap hpc hph _) (fun _ hid => hid) le_rfl rfl
      fun id hid => .inl (slot_loose hpc hid)
  | createPair key w handle hpc hph =>
    rw [hpc, Pc.Avoids, hph] at hphase
    refine h.create hb hw rfl rfl (by simp +contextual [clientRefs, todo, hpc, channelCreate])
      (fun id hid => ?_) hphase
    simp only [Pc.loose, Phase.refs, mem_append, mem_cons, not_mem_nil, or_false] at hid
    rcases hid with hid | rfl | rfl
    · exact .inl (by rw [hpc]; exact mem_append_left _ hid)
    · exact .inr (le_succ _)
    · exact .inr le_rfl
  | notify key w handle left right e values hpc hph | armClone key w id right e p hpc hph =>
    exact h.workStep hpc (by simp [Phase.refs, hph]) ⟨by simp, by simp⟩
  | createClone key w id hpc =>
    refine h.create hb hw rfl rfl (by simp [clientRefs, todo, hpc]) (fun x hx => ?_) trivial
    simp only [Pc.loose, Phase.refs, mem_append, mem_singleton] at hx
    rcases hx with hx | rfl
    · exact .inl (by rw [hpc]; exact mem_append_left _ hx)
    · exact .inr (le_succ _)
  | reply key w byte handles drops e values hpc hph | dropped key w hpc hph =>
    exact h.workStep hpc (by simp [Phase.refs, hph]) trivial
  | drop key w id rest hpc hph =>
    refine h.step (fun _ hid => own_remove hid) le_rfl (fun x hx => .inl ?_)
      (fun x hx e he => ?_) trivial
    · simp only [Loose, Pc.loose, Phase.refs, hpc, hph, mem_append, mem_cons] at hx ⊢
      tauto
    · exact h.even x (by simpa [clientRefs, todo, hpc] using hx) e (own_remove he)
  | remove key id v hpc hid =>
    refine h.step (fun _ hid => own_remove hid) le_rfl (fun _ hx => .inl (hx.published rfl rfl))
      (fun x hx e he => h.even x ?_ e (own_remove he)) trivial
    have hsub := (filter_sublist (l := s.chans) (p := fun kr => kr.1 != key)).map snd
    exact mem_append_left _ (hsub.subset (by simpa [clientRefs, todo] using hx))
  | envSend | envRead | envDrop | envCreate =>
    exact ⟨h.own, h.lt, h.loose, h.even, hphase⟩

/-! ## A step of the others -/

omit [DecidableEq Name] in
theorem message_handles (data : List UInt8) (values : List KernelValue) :
    (message data values).handles.getD [] = values := by
  cases values with
  | nil => rfl
  | cons => rfl

variable {values : List KernelValue}

omit [DecidableEq Name] in
theorem message_fits (byte : UInt8) {ids : List Nat} (hvalues : ids.mapM s.refs.value = some values)
    (hids : ids.length ≤ 1) :
    KChannelInner.Fits (message [byte] values) 1 1 := by
  have hlen : values.length = ids.length := by
    simpa using (congrArg List.length (mapM_eq_some.1 hvalues)).symm
  refine ⟨Nat.le_refl _, ?_⟩
  cases values with
  | nil => exact Nat.zero_le _
  | cons => exact hlen.trans_le hids

omit [DecidableEq Name] in
theorem Table.unforged (h : Table k s) {ids : List Nat}
    (hvalues : ids.mapM s.refs.value = some values) (hids : ∀ id ∈ ids, id ∈ s.pc.loose)
    (data : List UInt8) :
    ∀ v ∈ (message data values).handles.getD [], v ≠ .channel (2 * k) := by
  rw [message_handles]
  rintro v hv rfl
  obtain ⟨id, hid, hval⟩ := List.mem_map.1 (mapM_eq_some.1 hvalues ▸ List.mem_map_of_mem hv)
  exact h.stray (.inl (.inl (hids id hid))) (h.own id hval)

theorem wires_move (hw : Wires k s.net) (h : Table k s) (hb : s.Base)
    (hforeign : Process.Foreign k a) (m : Move c g s a t) : Wires k t.net := by
  have hfresh : ∀ e, s.net.next ≤ e → s.net.channel e = .new := fun e he => (hb.net.fresh e he).1
  cases m with
  | die n hn =>
    rcases hn with rfl | ⟨port, rfl⟩
    · exact hw
    · exact hw.port port
  | collide => exact hw.create hfresh
  | started | finish | giveUp | dropped | drop | forgotten => exact hw
  | startArm id todo i e p => exact hw.arm e p _
  | pop notif rest => exact hw.port rest
  | take key w e =>
    rw [(dispatch_dispatched c _ key _ _).frame.1, taken_net]
    exact hw.finishRead e ⟨w.cap, 1⟩
  | stale key =>
    rw [(dispatch_dispatched c s key _ _).frame.1]
    exact hw
  | createPair | createClone | envCreate => exact hw.create hfresh
  | notify key w handle left right e values hpc hph hid hvalues =>
    refine hw.send e (h.unforged hvalues (fun id hid => ?_) [1])
    rw [mem_singleton.1 hid]
    simp [Pc.loose, Phase.refs, hpc, hph]
  | armClone key w id right e p => exact hw.arm e p id
  | reply key w byte handles drops e values hpc hph hid hvalues =>
    refine hw.send e (h.unforged hvalues (fun id hid => ?_) [byte])
    have havoid := h.phase
    rw [hpc, Pc.Avoids, hph] at havoid
    simp only [Pc.loose, Phase.refs, hpc, hph, mem_append]
    exact .inr (havoid.1 hid)
  | rearm key w e p => exact hw.arm e p key
  | remove key id v hpc hid hv =>
    obtain ⟨e, he⟩ := hb.refs.chan id (mem_clientRefs hid)
    obtain rfl : v = .channel e := Option.some.inj (hv.symm.trans he)
    exact hw.close e
  | envSend e => exact hw.send e hforeign.2
  | envRead e => exact hw.finishRead e _
  | envDrop e => exact hw.close e

/-- The way to the `k`-th client's channel is in order. -/
structure Setup (k : Nat) (s : InitWorld Name) : Prop where
  base : s.Base
  table : Table k s
  wires : Wires k s.net

theorem Setup.move (h : Setup k s) (hforeign : Process.Foreign k a) (m : Move c g s a t) :
    Setup k t :=
  ⟨h.base.move m, h.table.move h.base h.wires m, wires_move h.wires h.table h.base hforeign m⟩

/-- The `k`-th client's channel and the service's dealings with it are in order. -/
structure Served (c : Codec Name) (k : Nat) (s : InitWorld Name) : Prop extends Setup k s where
  /-- The buffer is never enlarged for this client. -/
  cap : ∀ chan cap, s.pc.buffer = some (chan, cap) →
    s.refs.value chan = some (.channel (2 * k)) → cap = 100
  line : Line c (s.net.traffic (2 * k)) (s.net.traffic (2 * k + 1)) (s.owes (2 * k))

/-- What a step of the others can do to the channel: a notification for the client's own end reaches
    the service, or the service replies to the oldest request without a reply. -/
structure Heard (k : Nat) (s t : InitWorld Name) : Prop where
  requests : t.net.sent (2 * k) = s.net.sent (2 * k) ∨
    ∃ m, t.net.sent (2 * k) = s.net.sent (2 * k) ++ [m] ∧ m.data = [1]
  received : t.net.received (2 * k + 1) = s.net.received (2 * k + 1)
  replies : t.net.sent (2 * k + 1) = s.net.sent (2 * k + 1) ∨
    (∃ m, t.net.sent (2 * k + 1) = s.net.sent (2 * k + 1) ++ [m]) ∧
      s.replying (2 * k) = some (s.net.sent (2 * k + 1)).length
  served : t.owes (2 * k) ≠ none → s.owes (2 * k) ≠ none

omit [DecidableEq Name] in
theorem owes_step (howned : t.Owned l → s.Owned l)
    (hdebt : s.Owned l → t.debt l = s.debt l ∨ t.debt l = none) :
    t.owes l = s.owes l ∨ t.owes l = none := by
  unfold owes
  by_cases ht : t.Owned l
  · rw [if_pos ht, if_pos (howned ht)]
    exact hdebt (howned ht)
  · exact .inr (if_neg ht)

omit [DecidableEq Name] in
theorem owned_congr (hrefs : t.refs = s.refs) (hclients : t.clientRefs ⊆ s.clientRefs)
    (h : t.Owned l) : s.Owned l := by
  obtain ⟨id, hid, he⟩ := h
  exact ⟨id, hclients hid, hrefs ▸ he⟩

section

variable (h : Served c k s) (ht : Setup k t) (hcalm : Calm k s.net t.net)
include h ht hcalm

omit [DecidableEq Name]

theorem Served.quiet (howes : t.owes (2 * k) = s.owes (2 * k) ∨ t.owes (2 * k) = none)
    (hcap : ∀ chan cap, t.pc.buffer = some (chan, cap) →
      t.refs.value chan = some (.channel (2 * k)) → cap = 100) :
    Served c k t ∧ Heard k s t := by
  obtain ⟨hl, hr⟩ := hcalm
  have hline : Line c (t.net.traffic (2 * k)) (s.net.traffic (2 * k + 1)) (s.owes (2 * k)) := by
    rcases hl with hl | ⟨m, -, hfit, hl⟩
    · rw [hl]; exact h.line
    · rw [hl]; exact h.line.request hfit
  refine ⟨⟨ht, hcap, ?_⟩, ?_, congrArg Traffic.received hr, .inl (congrArg Traffic.sent hr),
    fun hne => ?_⟩
  · rw [hr]
    rcases howes with howes | howes
    · rw [howes]; exact hline
    · rw [howes]; exact hline.stop rfl (fun _ hm => hm) _
  · rcases hl with hl | ⟨m, hdata, -, hl⟩
    · exact .inl (congrArg Traffic.sent hl)
    · exact .inr ⟨m, congrArg Traffic.sent hl, hdata⟩
  · rcases howes with howes | howes
    · exact howes ▸ hne
    · exact absurd howes hne

theorem Served.still (hrefs : t.refs = s.refs) (hclients : t.clientRefs ⊆ s.clientRefs)
    (hdebt : t.debt (2 * k) = s.debt (2 * k) ∨ t.debt (2 * k) = none)
    (hcap : ∀ chan cap, t.pc.buffer = some (chan, cap) → cap = 100) :
    Served c k t ∧ Heard k s t :=
  h.quiet ht hcalm (owes_step (owned_congr hrefs hclients) fun _ => hdebt)
    fun chan cap hb _ => hcap chan cap hb

/-- The next system call of `work_on_chan`. -/
theorem Served.workStep (hpc : s.pc = .work key w) {phase : Phase}
    (htpc : t.pc = .work key { w with phase := phase })
    (howned : t.Owned (2 * k) → s.Owned (2 * k))
    (hvalue : t.refs.value w.chan = s.refs.value w.chan)
    (hphase : s.refs.value w.chan = some (.channel (2 * k)) → phase.owes = w.phase.owes) :
    Served c k t ∧ Heard k s t := by
  refine h.quiet ht hcalm (owes_step howned fun _ => .inl ?_) fun chan cap hb hval => ?_
  · simp only [debt, htpc, hpc, hvalue]
    split
    · next hval => rw [hphase hval]
    · rfl
  · rw [htpc] at hb
    cases hb
    exact h.cap w.chan w.cap (by rw [hpc]; rfl) (hvalue ▸ hval)

end

theorem debt_dispatched {e : Nat} (hd : Dispatched c u key w handlesLen t)
    (hlook : u.lookup key = some w.chan) (he : u.refs.value w.chan = some (.channel e)) :
    t.debt l = none ∨ (t.debt l = some (if e = l then 1 else 0) ∧
      (e = l → c.deserialize w.data ≠ none)) := by
  cases hd with
  | refused =>
    have hlook' : (lookup { u with pc := .remove key } key).bind u.refs.value
        = some (.channel e) := by
      show (u.lookup key).bind u.refs.value = _
      rw [hlook]
      exact he
    by_cases hl : e = l
    · exact .inl (by simp [debt, hlook', hl])
    · exact .inr ⟨by simp [debt, hlook', hl], fun h => absurd h hl⟩
  | undefined => exact .inl rfl
  | found name handle hmsg | notFound name hmsg | published name publisher hmsg | cloning hmsg =>
    exact .inr ⟨by simp [debt, he, Phase.owes], by simp [hmsg]⟩

theorem Served.dispatched_ne {e : Nat} (h : Served c k s) (ht : Setup k t)
    (hp : Parses c s u t key w w' handlesLen) (hid : s.refs.value w.chan = some (.channel e))
    (hne : e ≠ 2 * k) (htraffic : ∀ x, x / 2 = k → u.net.traffic x = s.net.traffic x) :
    Served c k t ∧ Heard k s t := by
  obtain ⟨hnet, hrefs, -⟩ := hp.dispatched.frame
  have hvalue := (hp.value_chan h.base).trans hid
  refine h.quiet ht (.of_eq fun x hx => by rw [hnet, htraffic x hx])
    (owes_step hp.owned fun _ => ?_) fun chan cap hb hval => ?_
  · have hs : s.debt (2 * k) = some 0 := by simp [debt, hp.pc, hp.phase, Phase.owes]
    rcases debt_dispatched hp.dispatched (hp.lookup_eq h.base) hvalue with hdebt | ⟨hdebt, -⟩
    · exact .inr hdebt
    · exact .inl (by rw [hdebt, hs, if_neg hne])
  · obtain ⟨rfl, -⟩ := Prod.mk.inj (dispatched_buffer hp.dispatched hb)
    rw [hrefs, hvalue] at hval
    simp only [Option.some.injEq, KernelValue.channel.injEq] at hval
    exact absurd hval hne

omit [DecidableEq Name] in
theorem Served.owned (h : Served c k s) (hjob : s.pc.job = some (key, id))
    (hid : s.refs.value id = some (.channel (2 * k))) :
    s.Owned (2 * k) := h.base.job_owned hjob hid

theorem Served.take {packet : ChannelMessage} {rest : List ChannelMessage} (h : Served c k s)
    (ht : Setup k t) (hp : Parses c s u t key w w' handlesLen)
    (hid : s.refs.value w.chan = some (.channel (2 * k)))
    (hq : (s.net.channel (2 * k)).queue = packet :: rest)
    (hcap : w'.cap = w.cap) (hdata : w'.data = packet.data)
    (hl : u.net.traffic (2 * k) = (s.net.traffic (2 * k)).pop packet rest)
    (hr : u.net.traffic (2 * k + 1) = s.net.traffic (2 * k + 1)) :
    Served c k t ∧ Heard k s t := by
  obtain ⟨hnet, -⟩ := hp.dispatched.frame
  have hsowes : s.owes (2 * k) = some 0 := by
    rw [owes, if_pos (h.owned (job_work hp.pc) hid)]
    simp [debt, hp.pc, hp.phase, Phase.owes]
  have hline := h.line
  rw [hsowes] at hline
  have hq' : (s.net.traffic (2 * k)).queue = packet :: rest := hq
  have htowes : t.owes (2 * k) = none ∨
      (t.owes (2 * k) = some 1 ∧ c.deserialize packet.data ≠ none) := by
    unfold owes
    by_cases howned : t.Owned (2 * k)
    · rw [if_pos howned]
      refine (debt_dispatched hp.dispatched (hp.lookup_eq h.base)
        ((hp.value_chan h.base).trans hid)).imp (fun hdebt => hdebt) fun ⟨hdebt, hmsg⟩ => ?_
      exact ⟨by rw [hdebt, if_pos rfl], hdata ▸ hmsg rfl⟩
    · exact .inl (if_neg howned)
  refine ⟨⟨ht, fun chan cap hb _ => ?_, ?_⟩, ?_⟩
  · obtain ⟨-, rfl⟩ := Prod.mk.inj (dispatched_buffer hp.dispatched hb)
    exact hcap.trans (h.cap w.chan w.cap (by rw [hp.pc]; rfl) hid)
  · rw [hnet, hl, hr]
    rcases htowes with htowes | ⟨htowes, hmsg⟩
    · rw [htowes]
      refine hline.stop ?_ (fun m hm => ?_) _
      · rfl
      · exact hq' ▸ .tail packet hm
    · rw [htowes]
      exact hline.take hq' hmsg
  · rw [← hnet] at hl hr
    exact ⟨.inl (congrArg Traffic.sent hl), congrArg Traffic.received hr,
      .inl (congrArg Traffic.sent hr), fun _ => by rw [hsowes]; simp⟩

omit [DecidableEq Name] in
theorem Served.reply (h : Served c k s) {byte : UInt8} {handles drops : List Nat}
    (hpc : s.pc = .work key w) (hph : w.phase = .reply byte handles drops)
    (hid : s.refs.value w.chan = some (.channel (2 * k)))
    (heq : t = { s with
      net := s.net.send (2 * k) (message [byte] values)
      pc := .work key { w with phase := .drop drops } }) (ht : Setup k t)
    (hfit : KChannelInner.Fits (message [byte] values) 1 1)
    (hroom : (s.net.channel (2 * k + 1)).queue.length ≤ channelCapacity) :
    Served c k t ∧ Heard k s t := by
  subst heq
  have howned := h.owned (job_work hpc) hid
  have hsowes : s.owes (2 * k) = some 1 := by
    rw [owes, if_pos howned]
    simp [debt, hpc, hph, hid, Phase.owes]
  have hline := h.line
  rw [hsowes] at hline
  obtain ⟨hopen, -, hcount⟩ := hline.served 1 rfl
  have hpeer := h.wires.peer_left
  have hr := traffic_send_ready (n := s.net) (e := 2 * k)
    (by rw [hpeer]; exact ⟨hline.alive, hopen, hroom⟩) (message [byte] values)
  rw [hpeer] at hr
  have hl : (s.net.send (2 * k) (message [byte] values)).traffic (2 * k)
      = s.net.traffic (2 * k) := s.net.traffic_send_ne _ (by omega)
  refine ⟨⟨ht, fun chan cap hb hval => ?_, ?_⟩, .inl (congrArg Traffic.sent hl),
    congrArg Traffic.received hr, .inr ⟨⟨_, congrArg Traffic.sent hr⟩, ?_⟩, by rw [hsowes]; simp⟩
  · cases hb
    exact h.cap w.chan w.cap (by rw [hpc]; rfl) hval
  · rw [hl, hr, owes, if_pos]
    · simp only [debt, Phase.owes, ite_self]
      exact hline.reply hfit
    · obtain ⟨id, hid', hval⟩ := howned
      exact ⟨id, by simpa [clientRefs, todo, hpc] using hid', hval⟩
  · have hcount' : (s.net.received (2 * k)).length = (s.net.sent (2 * k + 1)).length + 1 := hcount
    simp [replying, hpc, hph, hid, hcount']

omit [DecidableEq Name] in
theorem Served.remove (h : Served c k s) (ht : Setup k t)
    (he : s.refs.value id = some (.channel (2 * k))) (hnet : t.net = s.net.close (2 * k))
    (hrefs : t.refs = s.refs.remove id) (htpc : t.pc = .portWait) :
    Served c k t ∧ Heard k s t := by
  have hpeer := h.wires.peer_left
  have htowes : t.owes (2 * k) = none := by
    refine if_neg ?_
    rintro ⟨x, -, hval⟩
    rw [hrefs] at hval
    obtain rfl := h.table.own x (own_remove hval)
    obtain rfl := h.table.own id he
    exact absurd hval (by simp [ProcessReferences.remove])
  have hr : t.net.traffic (2 * k + 1) = { s.net.traffic (2 * k + 1) with isOpen := false } := by
    have hclose := traffic_close_peer (n := s.net) (e := 2 * k) (by omega)
      (by rw [hpeer]; exact h.line.alive)
    rw [hpeer] at hclose
    rw [hnet, hclose]
  have hqueue : (t.net.channel (2 * k)).queue = [] := by
    rw [hnet]
    refine ((s.net.closeSelf (2 * k)).closePeerOf_queue _ _).trans ?_
    rw [closeSelf_channel_self]
    rfl
  have hsent : t.net.sent (2 * k) = s.net.sent (2 * k) := by rw [hnet, (s.net.close_shrunk _).sent]
  refine ⟨⟨ht, by simp [htpc, Pc.buffer], ?_⟩, .inl hsent, congrArg Traffic.received hr,
    .inl (congrArg Traffic.sent hr), by rw [htowes]; simp⟩
  rw [hr, htowes]
  refine h.line.stop hsent (fun m hm => ?_) false
  rw [show (t.net.traffic (2 * k)).queue = [] from hqueue] at hm
  cases hm

theorem Served.move (h : Served c k s) (hforeign : Process.Foreign k a)
    (hroom : a = .init → (s.net.channel (2 * k + 1)).queue.length ≤ channelCapacity)
    (m : Move c g s a t) : Served c k t ∧ Heard k s t := by
  have ht := h.toSetup.move hforeign m
  have hlt := h.wires.lt
  have hcreate : Calm k s.net s.net.create := .of_eq fun x hx => s.net.traffic_create (by omega)
  cases m with
  | die n hn =>
    have htraffic : ∀ x, n.traffic x = s.net.traffic x := by
      rcases hn with rfl | ⟨port, rfl⟩ <;> exact fun _ => rfl
    exact h.still ht (.of_eq fun x _ => htraffic x) rfl s.chans_subset (.inr rfl)
      (by simp [Pc.buffer])
  | collide =>
    refine h.quiet ht hcreate (.inr ?_) (by simp [Pc.buffer])
    unfold owes
    split <;> rfl
  | started i hpc | finish key w e hpc | forgotten key hpc =>
    exact h.still ht (.of_eq fun _ _ => rfl) rfl (by simp [clientRefs, todo, hpc])
      (.inl (by simp [debt, *, Phase.owes])) (by simp [Pc.buffer])
  | startArm id refs i e p hpc | rearm key w e p hpc =>
    exact h.still ht (.of_eq fun _ _ => s.net.traffic_arm ..) rfl (by simp [clientRefs, todo, hpc])
      (.inl (by simp [debt, hpc])) (by simp [Pc.buffer])
  | pop notif rest id hpc =>
    refine h.still ht (.of_eq fun _ _ => rfl) rfl (by simp [clientRefs, todo, hpc]) (.inl ?_) ?_
    · simp only [debt, hpc]
      exact congrArg some (ite_self 0)
    · rintro chan cap ⟨⟩
      rfl
  | giveUp key w hpc hph =>
    refine h.still ht (.of_eq fun _ _ => rfl) rfl (by simp [clientRefs, todo, hpc]) ?_
      (by simp [Pc.buffer])
    simp only [debt, hpc, hph, Phase.owes]
    split
    · exact .inr rfl
    · exact .inl (by simp)
  | take key w e packet rest hpc hph hid hq hfit =>
    have hp := parses_taken (c := c) (e := e) h.base packet hpc hph packet.handlesLen
    by_cases he : e = 2 * k
    · subst he
      refine h.take ht hp hid hq rfl rfl ?_ ?_
      · rw [taken_net]
        exact traffic_finishRead ⟨w.cap, 1⟩ hq hfit
      · rw [taken_net]
        exact s.net.traffic_finishRead_ne _ (by omega)
    · have heven := h.table.even w.chan (hp.mem h.base) e hid
      refine h.dispatched_ne ht hp hid he fun x hx => ?_
      rw [taken_net]
      exact s.net.traffic_finishRead_ne _ (by omega)
  | stale key w e packet rest cap hpc hph hid hq hfit =>
    refine h.dispatched_ne ht (parses_stale cap hpc hph _) hid ?_ fun _ _ => rfl
    rintro rfl
    refine hfit ?_
    rw [h.cap w.chan w.cap (by rw [hpc]; rfl) hid]
    have hq' : (s.net.traffic (2 * k)).queue = packet :: rest := hq
    exact h.line.requests packet (hq' ▸ .head _)
  | createPair key w handle hpc hph =>
    refine h.workStep ht hcreate hpc rfl ?_
      (h.base.channelCreate_value (h.base.job_mem (job_work hpc))) (by simp [hph, Phase.owes])
    rintro ⟨id, hid, he⟩
    exact ⟨id, by simpa [clientRefs, todo, hpc, channelCreate] using hid,
      own_channelCreate (by omega) he⟩
  | notify key w handle left right e values hpc hph hid hvalues =>
    have havoid := h.table.phase
    rw [hpc, Pc.Avoids, hph] at havoid
    have hne : e ≠ 2 * k := by
      rintro rfl
      exact havoid (h.table.own handle hid)
    have hfit := message_fits 1 hvalues (by simp)
    exact h.workStep ht (h.wires.calm_send hne rfl ⟨by simp [message], hfit.2⟩) hpc rfl
      (owned_congr rfl (by simp [clientRefs, todo, hpc])) rfl (by simp [hph, Phase.owes])
  | createClone key w id hpc hph =>
    refine h.workStep ht hcreate hpc rfl ?_
      (h.base.channelCreate_value (h.base.job_mem (job_work hpc))) (by simp [hph, Phase.owes])
    rintro ⟨id', hid', he⟩
    have hval := own_channelCreate (by omega) he
    obtain rfl := h.table.own id' hval
    refine ⟨_, ?_, hval⟩
    have hmem : 2 * k + 1 ∈ s.chans.map snd ++ [s.refs.nextId] := by
      simpa [clientRefs, todo, channelCreate, ProcessReferences.addValue] using hid'
    rcases mem_append.1 hmem with hmem | hmem
    · exact mem_append_left _ hmem
    · exact absurd (mem_singleton.1 hmem) (Nat.ne_of_lt h.table.lt)
  | armClone key w id right e p hpc hph =>
    exact h.workStep ht (.of_eq fun _ _ => s.net.traffic_arm ..) hpc rfl
      (owned_congr rfl (by simp [clientRefs, todo, hpc])) rfl (by simp [hph, Phase.owes])
  | reply key w byte handles drops e values hpc hph hid hvalues =>
    by_cases he : e = 2 * k
    · subst he
      have havoid := h.table.phase
      rw [hpc, Pc.Avoids, hph] at havoid
      exact h.reply hpc hph hid rfl ht (message_fits byte hvalues havoid.2) (hroom rfl)
    · have heven := h.table.even w.chan (h.base.job_mem (job_work hpc)) e hid
      have hdiv' := h.wires.peer_div (e := e) (by omega)
      refine h.workStep ht (.of_eq fun x hx => s.net.traffic_send_ne _ (by omega)) hpc rfl
        (owned_congr rfl (by simp [clientRefs, todo, hpc])) rfl fun hval => ?_
      rw [hid] at hval
      simp only [Option.some.injEq, KernelValue.channel.injEq] at hval
      exact absurd hval he
  | dropped key w hpc hph =>
    exact h.workStep ht (.of_eq fun _ _ => rfl) hpc rfl
      (owned_congr rfl (by simp [clientRefs, todo, hpc])) rfl (by simp [hph, Phase.owes])
  | drop key w id rest hpc hph =>
    refine h.workStep ht (.of_eq fun _ _ => rfl) hpc rfl ?_ (RefsOk.remove_ne s.refs ?_)
      (by simp [hph, Phase.owes])
    · rintro ⟨x, hx, he⟩
      exact ⟨x, by simpa [clientRefs, todo, hpc] using hx, own_remove he⟩
    · rintro rfl
      refine h.base.refs.apart w.chan (.tail _ (h.base.job_mem (job_work hpc))) (.inl ?_)
      simp [Pc.loose, Phase.refs, hpc, hph]
  | remove key id v hpc hid hv =>
    have hmem := mem_clientRefs hid
    obtain ⟨e, he⟩ := h.base.refs.chan id hmem
    obtain rfl : v = .channel e := Option.some.inj (hv.symm.trans he)
    by_cases hl : e = 2 * k
    · subst hl
      exact h.remove ht he rfl rfl rfl
    · have heven := h.table.even id hmem e he
      have hdiv' := h.wires.peer_div (e := e) (by omega)
      refine h.quiet ht (.of_eq fun x hx => s.net.traffic_close_ne (by omega) (by omega))
        (owes_step ?_ fun _ => .inl (by simp [debt, hpc, hid, he, hl])) (by simp [Pc.buffer])
      rintro ⟨x, hx, hval⟩
      refine ⟨x, mem_append_left _ ?_, own_remove hval⟩
      have hsub := (filter_sublist (l := s.chans) (p := fun kr => kr.1 != key)).map snd
      exact hsub.subset (by simpa [clientRefs, todo] using hx)
  | envSend e msg =>
    have hdiv := h.wires.peer_div hforeign.1
    exact h.quiet ht (.of_eq fun x hx => s.net.traffic_send_ne msg (by omega)) (.inl rfl) h.cap
  | envRead e =>
    have hdiv : e / 2 ≠ k := hforeign
    exact h.quiet ht (.of_eq fun x hx => s.net.traffic_finishRead_ne _ (by omega)) (.inl rfl) h.cap
  | envDrop e =>
    have hdiv : e / 2 ≠ k := hforeign
    have hdiv' := h.wires.peer_div hdiv
    exact h.quiet ht (.of_eq fun x hx => s.net.traffic_close_ne (by omega) (by omega)) (.inl rfl)
      h.cap
  | envCreate => exact h.quiet ht hcreate (.inl rfl) h.cap

end InitWorld

end Fioxa
