import Fioxa.Init.Endpoints

/-! # What a step of the init service does

One inversion for the steps of the whole system, and the two invariants every later result rests on:
the handle table keeps the references of client channels apart from everything the service deletes,
and the endpoints behind them are intact. -/

namespace Fioxa

open List Option Prod Pc Function
open ProcessReferences (addValue)

/-! ## The handle table -/

/-- The endpoint is behind one of the references. -/
def OwnedBy (r : ProcessReferences) (clients : List Nat) (e : Nat) : Prop :=
  ∃ id ∈ clients, r.value id = some (.channel e)

/-- The handle table: `ph` is the service's port, `clients` are the references of its client
    channels, `loose` those that the running call may delete or publish, and the published ones. -/
structure RefsOk (r : ProcessReferences) (ph : Nat) (clients : List Nat) (loose : Nat → Prop) :
    Prop where
  free : ∀ id, r.nextId ≤ id → r.value id = none
  loose_lt : ∀ id, loose id → id < r.nextId
  port : r.value ph = some (.port initPort)
  chan : ∀ id ∈ clients, ∃ e, r.value id = some (.channel e)
  /-- Different references lead to different endpoints. -/
  distinct : (clients.map r.value).Nodup
  apart : ∀ id ∈ ph :: clients, ¬ loose id

namespace RefsOk

variable {r : ProcessReferences} {ph id : Nat} {clients : List Nat} {loose : Nat → Prop}

theorem lt (h : RefsOk r ph clients loose) (hid : id ∈ ph :: clients) : id < r.nextId := by
  refine Decidable.of_not_not fun hge => ?_
  have hfree := h.free id (Nat.le_of_not_lt hge)
  rcases mem_cons.1 hid with rfl | hid
  · rw [h.port] at hfree
    cases hfree
  · obtain ⟨e, he⟩ := h.chan id hid
    rw [he] at hfree
    cases hfree

theorem mono (h : RefsOk r ph clients loose) {loose' : Nat → Prop}
    (hsub : ∀ id, loose' id → loose id) : RefsOk r ph clients loose' :=
  { h with
    loose_lt := fun id hid => h.loose_lt id (hsub id hid)
    apart := fun id hid hl => h.apart id hid (hsub id hl) }

theorem restrict (h : RefsOk r ph clients loose) {clients' : List Nat}
    (hsub : clients'.Sublist clients) : RefsOk r ph clients' loose :=
  { h with
    chan := fun id hid => h.chan id (hsub.subset hid)
    distinct := h.distinct.sublist (hsub.map r.value)
    apart := fun id hid => h.apart id (cons_subset_cons ph hsub.subset hid) }

theorem addValue_ne (r : ProcessReferences) (v : KernelValue) (hid : id < r.nextId) :
    (r.addValue v).1.value id = r.value id := by
  simp [addValue, update_of_ne (Nat.ne_of_lt hid)]

theorem addValue_map (h : RefsOk r ph clients loose) (v : KernelValue) :
    clients.map (r.addValue v).1.value = clients.map r.value :=
  map_congr_left fun _ hid => addValue_ne r v (h.lt (.tail ph hid))

theorem addLoose (h : RefsOk r ph clients loose) (v : KernelValue) :
    RefsOk (r.addValue v).1 ph clients (fun id => id = r.nextId ∨ loose id) where
  free := by
    intro id hid
    simp only [addValue] at hid ⊢
    rw [update_of_ne (by omega)]
    exact h.free id (by omega)
  loose_lt := by
    intro id hid
    simp only [addValue]
    rcases hid with rfl | hid
    · omega
    · have := h.loose_lt id hid; omega
  port := by rw [addValue_ne r v (h.lt (.head _))]; exact h.port
  chan := fun id hid => by
    rw [addValue_ne r v (h.lt (.tail ph hid))]
    exact h.chan id hid
  distinct := by rw [h.addValue_map v]; exact h.distinct
  apart := by
    rintro id hid (rfl | hl)
    · exact absurd (h.lt hid) (Nat.lt_irrefl _)
    · exact h.apart id hid hl

theorem addClient (h : RefsOk r ph clients loose) {e : Nat} (hnew : ¬ OwnedBy r clients e) :
    RefsOk (r.addValue (.channel e)).1 ph (clients ++ [r.nextId]) loose := by
  have hbase := (h.addLoose (.channel e)).mono (fun _ hid => .inr hid)
  have hself : (r.addValue (.channel e)).1.value r.nextId = some (.channel e) := by
    simp [addValue]
  refine { hbase with chan := ?_, distinct := ?_, apart := ?_ }
  · intro id hid
    rcases mem_append.1 hid with hid | hid
    · exact hbase.chan id hid
    · rw [mem_singleton.1 hid]
      exact ⟨e, hself⟩
  · rw [map_append, h.addValue_map, map_singleton, hself]
    refine h.distinct.append (nodup_singleton _) (disjoint_singleton.2 fun hmem => ?_)
    obtain ⟨id, hid, hval⟩ := List.mem_map.1 hmem
    exact hnew ⟨id, hid, hval⟩
  · intro id hid
    by_cases hlast : id = r.nextId
    · subst hlast
      exact fun hl => absurd (h.loose_lt _ hl) (Nat.lt_irrefl _)
    · refine hbase.apart id ?_
      rcases mem_cons.1 hid with rfl | hid
      · exact .head _
      · rcases mem_append.1 hid with hid | hid
        · exact .tail ph hid
        · exact absurd (mem_singleton.1 hid) hlast

theorem remove_ne (r : ProcessReferences) {x : Nat} (hx : x ≠ id) :
    (r.remove id).value x = r.value x := by
  simp [ProcessReferences.remove, update_of_ne hx]

theorem remove (h : RefsOk r ph clients loose) {clients' : List Nat}
    (hsub : clients'.Sublist clients) (hid : id ∉ ph :: clients') :
    RefsOk (r.remove id) ph clients' loose := by
  have hne : ∀ x ∈ ph :: clients', x ≠ id := fun x hx heq => hid (heq ▸ hx)
  have hmap : clients'.map (r.remove id).value = clients'.map r.value :=
    map_congr_left fun x hx => remove_ne r (hne x (.tail ph hx))
  refine ⟨fun x hx => ?_, h.loose_lt, ?_, fun x hx => ?_, ?_, fun x hx => ?_⟩
  · by_cases hxid : x = id
    · subst hxid; simp [ProcessReferences.remove]
    · rw [remove_ne r hxid]; exact h.free x hx
  · rw [remove_ne r (hne ph (.head _))]; exact h.port
  · rw [remove_ne r (hne x (.tail ph hx))]
    exact h.chan x (hsub.subset hx)
  · rw [hmap]
    exact h.distinct.sublist (hsub.map r.value)
  · refine h.apart x ?_
    rcases mem_cons.1 hx with rfl | hx
    · exact .head _
    · exact .tail ph (hsub.subset hx)

theorem not_mem_filter {chans : List (Key × Nat)} (h : RefsOk r ph (chans.map snd) loose)
    {key : Key} (hid : (key, id) ∈ chans) :
    id ∉ (chans.filter (fun kr => kr.1 != key)).map snd := by
  intro hmem
  obtain ⟨kr, hkr, hsnd⟩ := List.mem_map.1 hmem
  obtain ⟨hkr, hkey⟩ := mem_filter.1 hkr
  have heq : kr = (key, id) :=
    inj_on_of_nodup_map (h.distinct.of_map _) hkr hid hsnd
  rw [heq] at hkey
  exact absurd hkey (by simp)

theorem ownedBy_addValue (h : RefsOk r ph clients loose) (v : KernelValue) (e : Nat) :
    OwnedBy (r.addValue v).1 clients e ↔ OwnedBy r clients e := by
  refine exists_congr fun id => and_congr_right fun hid => ?_
  rw [addValue_ne r v (h.lt (.tail ph hid))]

theorem ownedBy_remove (hid : id ∉ clients) (e : Nat) :
    OwnedBy (r.remove id) clients e ↔ OwnedBy r clients e := by
  refine exists_congr fun x => and_congr_right fun hx => ?_
  have hne : x ≠ id := fun h => hid (h ▸ hx)
  rw [remove_ne r hne]

end RefsOk

/-! ## The steps of the system -/

/-- The references on the stack of the running call that it may delete or publish. -/
def Phase.refs : Phase → List Nat
  | .notify _ left right => [right, left]
  | .armClone _ right => [right]
  | .reply _ _ drops => drops
  | .drop refs => refs
  | _ => []

def Pc.loose {Name : Type} : Pc Name → List Nat
  | .work _ w => w.slot.toList ++ w.phase.refs
  | _ => []

/-- The references that the running call may delete or publish, and the published ones. -/
def InitWorld.Loose {Name : Type} (s : InitWorld Name) (id : Nat) : Prop :=
  id ∈ s.pc.loose ∨ ∃ name, s.names name = some id

/-- The client channel `work_on_chan` was called for. -/
def Pc.job {Name : Type} : Pc Name → Option (Key × Nat)
  | .work key w | .rearm key w => some (key, w.chan)
  | _ => none

namespace InitWorld

variable {Name : Type} {s t : InitWorld Name} {id e : Nat} {key : Key} {w : Work Name}

/-- A message as `channel_write_rs` builds it. -/
def message (data : List UInt8) (values : List KernelValue) : ChannelMessage :=
  ⟨data, if values.isEmpty then none else some values⟩

/-- The state in which a request is parsed after `packet` has been read from `e`. -/
def taken (s : InitWorld Name) (e : Nat) (w : Work Name) (packet : ChannelMessage) :
    InitWorld Name × Option Nat :=
  { s with net := s.net.finishRead e ((s.net.channel e).sysRead ⟨w.cap, 1⟩) }.receiveHandles
    w.slot packet

theorem arm_eq_some (h : s.arm id key = some t) :
    ∃ e p, s.refs.value id = some (.channel e) ∧ s.refs.value s.portHandle = some (.port p) ∧
      t = { s with net := s.net.arm e p key } := by
  unfold arm at h
  split at h
  · next e p hid hport => exact ⟨e, p, hid, hport, (Option.some.inj h).symm⟩
  · cases h

theorem write_eq_some {data : List UInt8} {handles : List Nat}
    (h : s.write id data handles = some t) :
    ∃ e values, s.refs.value id = some (.channel e) ∧ handles.mapM s.refs.value = some values ∧
      t = { s with net := s.net.send e (message data values) } := by
  unfold write at h
  split at h
  · next e values hid hvalues => exact ⟨e, values, hid, hvalues, (Option.some.inj h).symm⟩
  · cases h

theorem taken_net (s : InitWorld Name) (e : Nat) (w : Work Name) (packet : ChannelMessage) :
    (s.taken e w packet).1.net = s.net.finishRead e ((s.net.channel e).sysRead ⟨w.cap, 1⟩) := by
  unfold taken receiveHandles
  split <;> rfl

theorem taken_value (e : Nat) (w : Work Name) (packet : ChannelMessage) (hid : id < s.refs.nextId) :
    (s.taken e w packet).1.refs.value id = s.refs.value id := by
  unfold taken receiveHandles
  split
  · exact RefsOk.addValue_ne s.refs _ hid
  · rfl

theorem taken_frame (s : InitWorld Name) (e : Nat) (w : Work Name) (packet : ChannelMessage) :
    (s.taken e w packet).1.portHandle = s.portHandle ∧
      (s.taken e w packet).1.names = s.names ∧ (s.taken e w packet).1.chans = s.chans := by
  unfold taken receiveHandles
  split <;> exact ⟨rfl, rfl, rfl⟩

section Steps

variable [DecidableEq Name]

/-- What a step does, with the conditions it is taken under. -/
inductive Move (c : Codec Name) (g : Growth) (s : InitWorld Name) :
    Action → InitWorld Name → Prop where
  | die (n : _) (hn : n = s.net ∨ ∃ port, n = { s.net with port := port }) :
      Move c g s .init { s with net := n, pc := .dead }
  /-- `Clone` finds its key taken, which fails an assertion. -/
  | collide : Move c g s .init { s.channelCreate.1 with pc := .dead }
  | started (i : _) (hpc : s.pc = .starting [] i) : Move c g s .init { s with pc := .portWait }
  | startArm (id todo i e p : _) (hpc : s.pc = .starting (id :: todo) i)
      (hid : s.refs.value id = some (.channel e))
      (hport : s.refs.value s.portHandle = some (.port p)) :
      Move c g s .init { s with
        net := s.net.arm e p (BitVec.ofNat 64 (i + 10))
        chans := s.chans ++ [(BitVec.ofNat 64 (i + 10), id)]
        pc := .starting todo (i + 1) }
  | pop (notif rest id : _) (hpc : s.pc = .portWait) (hport : s.net.port = notif :: rest)
      (hid : s.lookup notif.key = some id) :
      Move c g s .init { s with
        net := { s.net with port := rest }
        pc := .work notif.key (s.startWork id) }
  | finish (key w e : _) (hpc : s.pc = .work key w) (hphase : w.phase = .read)
      (hid : s.refs.value w.chan = some (.channel e)) (hq : (s.net.channel e).queue = []) :
      Move c g s .init { s with pc := .rearm key w }
  | giveUp (key w : _) (hpc : s.pc = .work key w) (hphase : w.phase = .read) :
      Move c g s .init { s with pc := .remove key }
  /-- A message is read and parsed. -/
  | take (key w e packet rest : _) (hpc : s.pc = .work key w) (hphase : w.phase = .read)
      (hid : s.refs.value w.chan = some (.channel e))
      (hq : (s.net.channel e).queue = packet :: rest) (hfit : KChannelInner.Fits packet w.cap 1) :
      Move c g s .init (dispatch c (s.taken e w packet).1 key
        { w with
          data := packet.data, slot := (s.taken e w packet).2
          consumed := w.consumed ++ [packet] } packet.handlesLen)
  /-- The head of the queue does not fit; what the buffer holds is parsed again. -/
  | stale (key w e packet rest cap : _) (hpc : s.pc = .work key w) (hphase : w.phase = .read)
      (hid : s.refs.value w.chan = some (.channel e))
      (hq : (s.net.channel e).queue = packet :: rest) (hfit : ¬ KChannelInner.Fits packet w.cap 1) :
      Move c g s .init (dispatch c s key { w with cap := cap } packet.handlesLen)
  | createPair (key w handle : _) (hpc : s.pc = .work key w)
      (hphase : w.phase = .createPair handle) :
      Move c g s .init { s.channelCreate.1 with
        pc := .work key { w with phase := .notify handle s.channelCreate.2.1 s.channelCreate.2.2 } }
  | notify (key w handle left right e values : _) (hpc : s.pc = .work key w)
      (hphase : w.phase = .notify handle left right) (hid : s.refs.value handle = some (.channel e))
      (hvalues : [left].mapM s.refs.value = some values) :
      Move c g s .init { s with
        net := s.net.send e (message [1] values)
        pc := .work key { w with phase := .reply 1 [right] [right, left] } }
  | createClone (key w id : _) (hpc : s.pc = .work key w) (hphase : w.phase = .createClone)
      (hnew : s.lookup id = none) :
      Move c g s .init { s.channelCreate.1 with
        chans := s.chans ++ [(id, s.channelCreate.2.1)]
        pc := .work key { w with phase := .armClone id s.channelCreate.2.2 } }
  | armClone (key w id right e p : _) (hpc : s.pc = .work key w)
      (hphase : w.phase = .armClone id right)
      (hid : s.refs.value w.chan = some (.channel e))
      (hport : s.refs.value s.portHandle = some (.port p)) :
      Move c g s .init { s with
        net := s.net.arm e p id
        pc := .work key { w with phase := .reply 1 [right] [right] } }
  | reply (key w byte handles drops e values : _) (hpc : s.pc = .work key w)
      (hphase : w.phase = .reply byte handles drops) (hid : s.refs.value w.chan = some (.channel e))
      (hvalues : handles.mapM s.refs.value = some values) :
      Move c g s .init { s with
        net := s.net.send e (message [byte] values)
        pc := .work key { w with phase := .drop drops } }
  | dropped (key w : _) (hpc : s.pc = .work key w) (hphase : w.phase = .drop []) :
      Move c g s .init { s with pc := .work key { w with phase := .read } }
  | drop (key w id rest : _) (hpc : s.pc = .work key w) (hphase : w.phase = .drop (id :: rest)) :
      Move c g s .init { s with
        refs := s.refs.remove id
        pc := .work key { w with phase := .drop rest } }
  | rearm (key w e p : _) (hpc : s.pc = .rearm key w)
      (hid : s.refs.value w.chan = some (.channel e))
      (hport : s.refs.value s.portHandle = some (.port p)) :
      Move c g s .init { s with net := s.net.arm e p key, pc := .portWait }
  /-- There is nothing to remove. -/
  | forgotten (key : _) (hpc : s.pc = .remove key) (hnone : s.lookup key = none) :
      Move c g s .init { s with pc := .portWait }
  | remove (key id v : _) (hpc : s.pc = .remove key) (hid : s.lookup key = some id)
      (hv : s.refs.value id = some v) :
      Move c g s .init { s with
        net := match v with | .channel e => s.net.close e | _ => s.net
        refs := s.refs.remove id
        chans := s.chans.filter (fun kr => kr.1 != key)
        pc := .portWait }
  | envSend (e msg : _) (halive : s.net.alive e = true) (hown : ¬ s.Owned e) :
      Move c g s (.send e msg) { s with net := s.net.send e msg }
  | envRead (e maxBytes maxHandles : _) (halive : s.net.alive e = true) (hown : ¬ s.Owned e) :
      Move c g s (.read e maxBytes maxHandles) { s with
        net := s.net.finishRead e ((s.net.channel e).sysRead ⟨maxBytes, maxHandles⟩) }
  | envDrop (e : _) (halive : s.net.alive e = true) (hown : ¬ s.Owned e) :
      Move c g s (.drop e) { s with net := s.net.close e }
  | envCreate : Move c g s .create { s with net := s.net.create }

theorem Move.dies (c : Codec Name) (g : Growth) (s : InitWorld Name) :
    Move c g s .init { s with pc := .dead } := .die s.net (.inl rfl)

theorem Move.of_workRead (c : Codec Name) (g : Growth) (hpc : s.pc = .work key w)
    (hphase : w.phase = .read) :
    Move c g s .init (workRead c g s key w) := by
  unfold workRead
  split
  · next e hid =>
    rcases (s.net.channel e).sysRead_cases ⟨w.cap, 1⟩ with ⟨hq, hr⟩ | ⟨packet, rest, hq, hf, hr⟩ |
      ⟨packet, rest, hq, hf, hr⟩
    · rw [hr]
      cases (s.net.channel e).isOpen with
      | true => exact .finish key w e hpc hphase hid hq
      | false => exact .giveUp key w hpc hphase
    · rw [hr]
      dsimp only
      split
      · exact .giveUp key w hpc hphase
      · split
        · exact .dies c g s
        · exact .stale key w e packet rest _ hpc hphase hid hq hf
    · have hmove := Move.take (c := c) (g := g) key w e packet rest hpc hphase hid hq hf
      unfold taken at hmove
      rw [hr] at hmove ⊢
      exact hmove
  · exact .dies c g s

theorem Move.of_workStep (c : Codec Name) (g : Growth) (hpc : s.pc = .work key w) :
    Move c g s .init (workStep c g s key w) := by
  unfold workStep
  split
  · next hphase => exact .of_workRead c g hpc hphase
  · next handle hphase => exact .createPair key w handle hpc hphase
  · next handle left right hphase =>
    cases h : s.write handle [1] [left] with
    | none => exact .dies c g s
    | some =>
      obtain ⟨e, values, hid, hvalues, rfl⟩ := write_eq_some h
      exact .notify key w handle left right e values hpc hphase hid hvalues
  · next hphase =>
    split
    · exact .dies c g s
    · next last hlast =>
      dsimp only
      split
      · exact .collide
      · next hnone =>
        exact .createClone key w (last + 1) hpc hphase (not_isSome_iff_eq_none.1 hnone)
  · next id right hphase =>
    cases h : s.arm w.chan id with
    | none => exact .dies c g s
    | some =>
      obtain ⟨e, p, hid, hport, rfl⟩ := arm_eq_some h
      exact .armClone key w id right e p hpc hphase hid hport
  · next byte handles drops hphase =>
    cases h : s.write w.chan [byte] handles with
    | none => exact .dies c g s
    | some =>
      obtain ⟨e, values, hid, hvalues, rfl⟩ := write_eq_some h
      exact .reply key w byte handles drops e values hpc hphase hid hvalues
  · next hphase => exact .dropped key w hpc hphase
  · next id rest hphase =>
    cases h : s.delete id with
    | none => exact .dies c g s
    | some =>
      unfold delete at h
      split at h
      · cases h
      · cases h
        exact .drop key w id rest hpc hphase

variable {c : Codec Name} {g : Growth}

theorem Move.of_initStep (h : s.initStep c g = some t) : Move c g s .init t := by
  unfold initStep at h
  split at h
  · next i hpc =>
    cases h
    exact .started i hpc
  · next id todo i hpc =>
    cases h
    cases harm : s.arm id (BitVec.ofNat 64 (i + 10)) with
    | none => exact .dies c g s
    | some =>
      obtain ⟨e, p, hid, hport, rfl⟩ := arm_eq_some harm
      exact .startArm id todo i e p hpc hid hport
  · next hpc =>
    split at h
    · cases h
    · next notif rest hport =>
      dsimp only at h
      split at h
      · next id hty hid =>
        cases h
        exact .pop notif rest id hpc hport hid
      · cases h
        exact .die _ (.inr ⟨rest, rfl⟩)
  · next key w hpc =>
    cases h
    exact .of_workStep c g hpc
  · next key w hpc =>
    cases h
    cases harm : s.arm w.chan key with
    | none => exact .dies c g s
    | some =>
      obtain ⟨e, p, hid, hport, rfl⟩ := arm_eq_some harm
      exact .rearm key w e p hpc hid hport
  · next key hpc =>
    split at h
    · next hnone =>
      cases h
      exact .forgotten key hpc hnone
    · next id hid =>
      dsimp only at h
      split at h
      · cases h
        exact .dies c g s
      · next e hv =>
        cases h
        exact .remove key id (.channel e) hpc hid hv
      · next v hne hv =>
        cases h
        have hmove := Move.remove (c := c) (g := g) key id v hpc hid hv
        cases v with
        | channel e => exact absurd rfl (hne e)
        | message => exact hmove
        | process => exact hmove
        | port => exact hmove
        | interrupt => exact hmove
  · cases h

theorem move_of_step {a : Action} (h : step c g s a = some t) : Move c g s a t := by
  cases a with
  | init => exact .of_initStep h
  | send e msg =>
    simp only [step] at h
    split at h
    · next hcond =>
      cases h
      exact .envSend e msg hcond.1 hcond.2
    · cases h
  | read e maxBytes maxHandles =>
    simp only [step] at h
    split at h
    · next hcond =>
      cases h
      exact .envRead e maxBytes maxHandles hcond.1 hcond.2
    · cases h
  | drop e =>
    simp only [step] at h
    split at h
    · next hcond =>
      cases h
      exact .envDrop e hcond.1 hcond.2
    · cases h
  | create =>
    cases h
    exact .envCreate

/-- What parsing the buffer leads to. -/
inductive Dispatched (c : Codec Name) (s : InitWorld Name) (key : Key) (w : Work Name)
    (handlesLen : Nat) : InitWorld Name → Prop where
  | refused : Dispatched c s key w handlesLen { s with pc := .remove key }
  | undefined (hslot : w.slot = none) : Dispatched c s key w handlesLen { s with pc := .dead }
  | found (name handle) (hmsg : c.deserialize w.data = some (.getHandle name))
      (hname : s.names name = some handle) :
      Dispatched c s key w handlesLen { s with
        pc := .work key { w with
          executed := w.executed ++ [⟨.getHandle name, none⟩]
          phase := .createPair handle } }
  | notFound (name) (hmsg : c.deserialize w.data = some (.getHandle name))
      (hname : s.names name = none) :
      Dispatched c s key w handlesLen { s with
        pc := .work key { w with
          executed := w.executed ++ [⟨.getHandle name, none⟩]
          phase := .reply 0 [] [] } }
  | published (name publisher) (hmsg : c.deserialize w.data = some (.publishHandle name))
      (hlen : handlesLen = 1) (hslot : w.slot = some publisher) :
      Dispatched c s key w handlesLen { s with
        names := update s.names name (some publisher)
        pc := .work key { w with
          executed := w.executed ++ [⟨.publishHandle name, s.refs.value publisher⟩]
          phase := .reply (if (s.names name).isSome then 1 else 0) [] (s.names name).toList } }
  | cloning (hmsg : c.deserialize w.data = some .clone) :
      Dispatched c s key w handlesLen { s with
        pc := .work key { w with
          executed := w.executed ++ [⟨.clone, none⟩]
          phase := .createClone } }

theorem dispatch_dispatched (c : Codec Name) (s : InitWorld Name) (key : Key) (w : Work Name)
    (handlesLen : Nat) : Dispatched c s key w handlesLen (dispatch c s key w handlesLen) := by
  unfold dispatch
  split
  · exact .refused
  · next name hmsg =>
    dsimp only
    split
    · next handle hname => exact .found name handle hmsg hname
    · next hname => exact .notFound name hmsg hname
  · next name hmsg =>
    split
    · exact .refused
    · next hlen =>
      split
      · next hslot => exact .undefined hslot
      · next publisher hslot =>
        exact .published name publisher hmsg (Decidable.of_not_not hlen) hslot
  · next hmsg => exact .cloning hmsg

theorem Dispatched.loose {c : Codec Name} {handlesLen : Nat}
    (hd : Dispatched c s key w handlesLen t) (h : t.Loose id) :
    id ∈ w.slot.toList ∨ ∃ name, s.names name = some id := by
  rcases h with h | h
  · cases hd with
    | refused | undefined => cases h
    | found | notFound | cloning => exact .inl (append_nil w.slot.toList ▸ h)
    | published name =>
      exact (mem_append.1 h).imp (fun h => h) fun h => ⟨name, mem_toList.1 h⟩
  · cases hd with
    | published name publisher _ _ hslot =>
      obtain ⟨name', h⟩ := h
      by_cases hn : name' = name
      · subst hn
        cases (update_self ..).symm.trans h
        exact .inl (by rw [hslot]; exact .head _)
      · exact .inr ⟨name', (update_of_ne hn _ _).symm.trans h⟩
    | _ => exact .inr h

end Steps

/-! ## The invariant of every run -/

/-- The handle table and the endpoints of the service's clients are in order. -/
structure Base (s : InitWorld Name) : Prop where
  refs : RefsOk s.refs s.portHandle s.clientRefs s.Loose
  net : s.net.Ok (OwnedBy s.refs s.clientRefs)
  looked : ∀ key id, s.pc.job = some (key, id) → s.lookup key = some id

theorem job_work (hpc : s.pc = .work key w) : s.pc.job = some (key, w.chan) := by rw [hpc]; rfl

theorem lookup_congr (hchans : t.chans = s.chans) (key : Key) : t.lookup key = s.lookup key := by
  unfold lookup
  rw [hchans]

theorem lookup_append {key' : Key} {id' : Nat} (hchans : t.chans = s.chans ++ [(key', id')])
    (h : s.lookup key = some id) : t.lookup key = some id := by
  unfold lookup at h ⊢
  obtain ⟨kr, hfind, rfl⟩ := map_eq_some_iff.1 h
  rw [hchans, List.find?_append, hfind]
  rfl

theorem mem_chans_of_lookup (h : s.lookup key = some id) : (key, id) ∈ s.chans := by
  unfold lookup at h
  obtain ⟨kr, hfind, rfl⟩ := map_eq_some_iff.1 h
  have hkey : kr.1 = key := by simpa using List.find?_some hfind
  rw [← hkey]
  exact List.mem_of_find?_eq_some hfind

theorem mem_clientRefs (h : s.lookup key = some id) : id ∈ s.clientRefs :=
  mem_append_left _ (List.mem_map_of_mem (mem_chans_of_lookup h))

theorem clientRefs_of_todo (h : s.todo = []) : s.chans.map snd = s.clientRefs := by
  rw [clientRefs, h, append_nil]

theorem Loose.published (h : t.Loose id) (hloose : t.pc.loose = []) (hnames : t.names = s.names) :
    s.Loose id :=
  .inr (hnames ▸ h.resolve_left (by simp [hloose]))

namespace Base

theorem intro {clients : List Nat} (hclients : s.clientRefs = clients)
    (hlooked : ∀ key id, s.pc.job = some (key, id) → s.lookup key = some id)
    (hrefs : RefsOk s.refs s.portHandle clients s.Loose)
    (hnet : s.net.Ok (OwnedBy s.refs clients)) : s.Base := by
  subst hclients
  exact ⟨hrefs, hnet, hlooked⟩

variable (hb : s.Base)
include hb

theorem job_mem (h : s.pc.job = some (key, id)) : id ∈ s.clientRefs :=
  mem_clientRefs (hb.looked key id h)

theorem alive (hid : id ∈ s.clientRefs) (he : s.refs.value id = some (.channel e)) :
    s.net.alive e = true :=
  hb.net.owned_alive e ⟨id, hid, he⟩

theorem job_owned (hjob : s.pc.job = some (key, id)) (he : s.refs.value id = some (.channel e)) :
    s.Owned e :=
  ⟨id, hb.job_mem hjob, he⟩

theorem ref_lt (hid : id ∈ s.clientRefs) : id < s.refs.nextId := hb.refs.lt (.tail s.portHandle hid)

theorem channelCreate_value (hid : id ∈ s.clientRefs) :
    s.channelCreate.1.refs.value id = s.refs.value id := by
  have hlt := hb.ref_lt hid
  have h1 := RefsOk.addValue_ne (s.refs.addValue (.channel s.net.next)).1
    (.channel (s.net.next + 1)) (Nat.lt_succ_of_lt hlt)
  exact h1.trans (RefsOk.addValue_ne s.refs _ hlt)

theorem quietStep (hrefs : t.refs = s.refs) (hport : t.portHandle = s.portHandle)
    (hnames : t.names = s.names) (hclients : t.clientRefs.Sublist s.clientRefs)
    (hloose : ∀ id ∈ t.pc.loose, id ∈ s.pc.loose)
    (hlooked : ∀ key id, t.pc.job = some (key, id) → t.lookup key = some id)
    (hnet : t.net.Ok (OwnedBy s.refs s.clientRefs)) : t.Base := by
  refine ⟨?_, ?_, hlooked⟩
  · rw [hrefs, hport]
    exact (hb.refs.restrict hclients).mono fun id hid => hid.imp (hloose id) (hnames ▸ fun h => h)
  · rw [hrefs]
    exact hnet.congr fun e ⟨id, hid, he⟩ => ⟨id, hclients.subset hid, he⟩

/-- The next system call of `work_on_chan`. -/
theorem workStep (hpc : s.pc = .work key w) {phase : Phase} {net : Endpoints}
    (hloose : ∀ id ∈ phase.refs, id ∈ w.phase.refs)
    (hnet : net.Ok (OwnedBy s.refs s.clientRefs)) :
    Base { s with net := net, pc := .work key { w with phase := phase } } := by
  refine hb.quietStep rfl rfl rfl (by simp [clientRefs, todo, hpc]) (fun id hid => ?_)
    (fun key id h => hb.looked key id (by rw [hpc]; exact h)) hnet
  rw [hpc]
  exact (mem_append.1 hid).elim (mem_append_left _) fun hid => mem_append_right _ (hloose id hid)

/-- A step that leaves the endpoints to their owners. -/
theorem envStep {net : Endpoints} (hnet : net.Ok (OwnedBy s.refs s.clientRefs)) :
    Base { s with net := net } :=
  hb.quietStep rfl rfl rfl (Sublist.refl _) (fun _ h => h) hb.looked hnet

theorem slot (hpc : s.pc = .work key w) : RefsOk s.refs s.portHandle s.clientRefs
    fun id => id ∈ w.slot.toList ∨ ∃ name, s.names name = some id :=
  hb.refs.mono fun id hid => hid.imp (by rw [hpc]; exact mem_append_left _) fun h => h

theorem taken (hpc : s.pc = .work key w) (halive : s.net.alive e = true) (packet : ChannelMessage) :
    RefsOk (s.taken e w packet).1.refs s.portHandle s.clientRefs
      (fun id => id ∈ (s.taken e w packet).2.toList ∨ ∃ name, s.names name = some id) ∧
    (s.taken e w packet).1.net.Ok (OwnedBy (s.taken e w packet).1.refs s.clientRefs) := by
  have hslot := hb.slot hpc
  have hread := hb.net.finishRead halive ⟨w.cap, 1⟩
  unfold InitWorld.taken receiveHandles
  split
  · next v _ _ =>
    refine ⟨(hslot.addLoose v).mono fun id hid => ?_, ?_⟩
    · exact hid.imp (fun h => (mem_some.1 (mem_toList.1 h)).symm) .inr
    · exact hread.congr fun x hx => (hslot.ownedBy_addValue v x).1 hx
  · exact ⟨hslot, hread⟩

theorem create :
    RefsOk s.channelCreate.1.refs s.portHandle s.clientRefs
      (fun id => id = s.channelCreate.2.2 ∨ id = s.channelCreate.2.1 ∨ s.Loose id) ∧
    s.channelCreate.1.net.Ok (OwnedBy s.channelCreate.1.refs s.clientRefs) := by
  have hleft := hb.refs.addLoose (.channel s.net.next)
  have hright := hleft.addLoose (.channel (s.net.next + 1))
  refine ⟨hright, hb.net.create fun x hx => .inl ?_⟩
  exact (hb.refs.ownedBy_addValue _ x).1 ((hleft.ownedBy_addValue _ x).1 hx)

theorem createClient :
    RefsOk s.channelCreate.1.refs s.portHandle (s.clientRefs ++ [s.channelCreate.2.1])
      (fun id => id = s.channelCreate.2.2 ∨ s.Loose id) ∧
    s.channelCreate.1.net.Ok
      (OwnedBy s.channelCreate.1.refs (s.clientRefs ++ [s.channelCreate.2.1])) := by
  have hnew : ¬ OwnedBy s.refs s.clientRefs s.net.next := fun h =>
    absurd (hb.net.alive_lt _ (hb.net.owned_alive _ h)) (Nat.lt_irrefl _)
  have hleft := hb.refs.addClient hnew
  have hright := hleft.addLoose (.channel (s.net.next + 1))
  refine ⟨hright, hb.net.create fun x hx => ?_⟩
  obtain ⟨id, hid, hval⟩ := (hleft.ownedBy_addValue _ x).1 hx
  rcases mem_append.1 hid with hid | hid
  · exact .inl ((hb.refs.ownedBy_addValue _ x).1 ⟨id, hid, hval⟩)
  · rw [mem_singleton.1 hid] at hval
    simp only [addValue, update_self, Option.some.injEq, KernelValue.channel.injEq] at hval
    exact .inr (.inl hval.symm)

end Base

variable [DecidableEq Name]

theorem Base.dispatch (c : Codec Name) (key : Key) (w : Work Name) (handlesLen : Nat)
    {clients : List Nat} (hclients : s.chans.map snd = clients)
    (hlook : s.lookup key = some w.chan)
    (hrefs : RefsOk s.refs s.portHandle clients
      fun id => id ∈ w.slot.toList ∨ ∃ name, s.names name = some id)
    (hnet : s.net.Ok (OwnedBy s.refs clients)) :
    (InitWorld.dispatch c s key w handlesLen).Base := by
  subst hclients
  have hwork : ∀ w' : Work Name, w'.chan = w.chan →
      ∀ key' id, (work key w').job = some (key', id) → s.lookup key' = some id := by
    intro w' hw' key' id h
    cases h
    rw [hw']
    exact hlook
  have hd := dispatch_dispatched c s key w handlesLen
  generalize InitWorld.dispatch c s key w handlesLen = t at hd
  have hloose := hrefs.mono fun _ => hd.loose
  cases hd with
  | refused | undefined => exact .intro (append_nil _) (by simp [job]) hloose hnet
  | found | notFound | cloning | published =>
    exact .intro (append_nil _) (hwork _ rfl) hloose hnet

variable {c : Codec Name} {g : Growth}

theorem Base.move {a : Action} (hb : s.Base) (m : Move c g s a t) : t.Base := by
  have hlooked := hb.looked
  cases m with
  | die n hn =>
    refine hb.quietStep rfl rfl rfl ?_ (by simp [Pc.loose]) (by simp [job]) ?_
    · exact Sublist.append (Sublist.refl _) (nil_sublist _)
    · rcases hn with rfl | ⟨port, rfl⟩
      · exact hb.net
      · exact hb.net.port port
  | collide =>
    obtain ⟨hrefs, hnet⟩ := hb.create
    have hsub : (s.chans.map snd).Sublist s.clientRefs := sublist_append_left _ _
    refine .intro (append_nil _) (by simp [job])
      ((hrefs.restrict hsub).mono fun id h => .inr (.inr (h.published rfl rfl))) ?_
    exact hnet.congr fun e ⟨id, hid, he⟩ => ⟨id, hsub.subset hid, he⟩
  | started i hpc | giveUp key w hpc | forgotten key hpc =>
    exact hb.quietStep rfl rfl rfl (by simp [clientRefs, todo, hpc]) (by simp [Pc.loose])
      (by simp [job]) hb.net
  | startArm id todo i e p hpc hid =>
    have hmem : id ∈ s.clientRefs := by simp [clientRefs, InitWorld.todo, hpc]
    exact hb.quietStep rfl rfl rfl (by simp [clientRefs, InitWorld.todo, hpc])
      (by simp [Pc.loose]) (by simp [job]) (hb.net.arm (hb.alive hmem hid) p _)
  | pop notif rest id hpc hport hid =>
    refine hb.quietStep rfl rfl rfl (by simp [clientRefs, todo, hpc])
      (by simp [Pc.loose, startWork, Phase.refs]) ?_ (hb.net.port rest)
    intro key id h
    cases h
    exact hid
  | finish key w e hpc =>
    exact hb.quietStep rfl rfl rfl (by simp [clientRefs, todo, hpc]) (by simp [Pc.loose])
      (fun key id h => hlooked key id (by rw [hpc]; exact h)) hb.net
  | take key w e packet rest hpc hphase hid =>
    have hjob := job_work hpc
    obtain ⟨hrefs, hnet⟩ := hb.taken hpc (hb.alive (hb.job_mem hjob) hid) packet
    obtain ⟨hph, hnames, hchans⟩ := s.taken_frame e w packet
    refine .dispatch c key _ _ ?_ ((lookup_congr hchans key).trans (hlooked _ _ hjob)) ?_ hnet
    · rw [hchans, clientRefs_of_todo (by simp [todo, hpc])]
    · rw [hph, hnames]; exact hrefs
  | stale key w e packet rest cap hpc hphase hid =>
    exact .dispatch c key _ _ (clientRefs_of_todo (by simp [todo, hpc]))
      (hlooked key w.chan (job_work hpc)) (hb.slot (w := w) hpc) hb.net
  | createPair key w handle hpc hphase =>
    obtain ⟨hrefs, hnet⟩ := hb.create
    refine .intro (by simp [clientRefs, todo, hpc, channelCreate])
      (fun key id h => hlooked key id (by rw [hpc]; exact h)) (hrefs.mono fun x hx => ?_) hnet
    simp only [Loose, Pc.loose, Phase.refs, hpc, hphase, mem_append, mem_cons] at hx ⊢
    tauto
  | notify key w handle left right e values hpc hphase
  | reply key w byte handles drops e values hpc hphase =>
    exact hb.workStep hpc (by simp +contextual [Phase.refs, hphase]) (hb.net.send e _)
  | createClone key w id hpc hphase =>
    obtain ⟨hrefs, hnet⟩ := hb.createClient
    refine .intro (by simp [clientRefs, todo, hpc]) (fun key id h => ?_)
      (hrefs.mono fun x hx => ?_) hnet
    · exact lookup_append rfl (hlooked key id (by rw [hpc]; exact h))
    · simp only [Loose, Pc.loose, Phase.refs, hpc, hphase, mem_append, mem_cons] at hx ⊢
      tauto
  | armClone key w id right e p hpc hphase hid =>
    exact hb.workStep hpc (by simp [Phase.refs, hphase])
      (hb.net.arm (hb.alive (hb.job_mem (job_work hpc)) hid) p id)
  | dropped key w hpc hphase => exact hb.workStep hpc (by simp [Phase.refs]) hb.net
  | drop key w id rest hpc hphase =>
    have hloose : id ∈ s.pc.loose := by simp [Pc.loose, Phase.refs, hpc, hphase]
    have hnot : id ∉ s.portHandle :: s.clientRefs := fun hmem =>
      hb.refs.apart id hmem (.inl hloose)
    have hrefs := hb.refs.remove (Sublist.refl _) hnot
    refine .intro (by simp [clientRefs, todo, hpc])
      (fun key id h => hlooked key id (by rw [hpc]; exact h)) (hrefs.mono fun x hx => ?_)
      (hb.net.congr fun x hx => (RefsOk.ownedBy_remove (fun h => hnot (.tail _ h)) x).1 hx)
    simp only [Loose, Pc.loose, Phase.refs, hpc, hphase, mem_append, mem_cons] at hx ⊢
    tauto
  | rearm key w e p hpc hid =>
    have hjob : s.pc.job = some (key, w.chan) := by rw [hpc]; rfl
    exact hb.quietStep rfl rfl rfl (by simp [clientRefs, todo, hpc]) (by simp [Pc.loose])
      (by simp [job]) (hb.net.arm (hb.alive (hb.job_mem hjob) hid) p key)
  | remove key id v hpc hid hv =>
    have hclients : s.chans.map snd = s.clientRefs := clientRefs_of_todo (by simp [todo, hpc])
    obtain ⟨hrefs, hnet, -⟩ := hb
    rw [← hclients] at hrefs hnet
    have hmem : id ∈ s.chans.map snd := List.mem_map_of_mem (mem_chans_of_lookup hid)
    obtain ⟨e, he⟩ := hrefs.chan id hmem
    obtain rfl : v = .channel e := Option.some.inj (hv.symm.trans he)
    have hsub := (filter_sublist (l := s.chans) (p := fun kr => kr.1 != key)).map snd
    have hnot : id ∉ s.portHandle :: (s.chans.filter (fun kr => kr.1 != key)).map snd := by
      intro h
      rcases mem_cons.1 h with rfl | h
      · rw [hrefs.port] at he
        cases he
      · exact hrefs.not_mem_filter (mem_chans_of_lookup hid) h
    refine .intro (append_nil _) (by simp [job])
      ((hrefs.remove hsub hnot).mono fun id h => h.published rfl rfl) ?_
    refine hnet.close (hnet.owned_alive e ⟨id, hmem, he⟩) fun x ⟨id', hid', hx⟩ => ?_
    have hne : id' ≠ id := fun h => hnot (.tail _ (h ▸ hid'))
    rw [RefsOk.remove_ne s.refs hne] at hx
    refine ⟨⟨id', hsub.subset hid', hx⟩, ?_⟩
    rintro rfl
    exact hne (inj_on_of_nodup_map hrefs.distinct (hsub.subset hid') hmem (hx.trans he.symm))
  | envSend e msg => exact hb.envStep (hb.net.send e msg)
  | envRead e maxBytes maxHandles halive => exact hb.envStep (hb.net.finishRead halive _)
  | envDrop e halive hown =>
    refine hb.envStep (hb.net.close halive fun x hx => ⟨hx, ?_⟩)
    rintro rfl
    exact hown hx
  | envCreate => exact hb.envStep (hb.net.create fun _ => .inl)

omit [DecidableEq Name] in
theorem base_boot (m : Nat) : (boot Name m).Base := by
  have hvalue : ∀ i < m, (boot Name m).refs.value (2 * i + 1) = some (.channel (2 * i)) := by
    intro i hi
    have hne : ¬ 2 * i + 1 = 2 * m + 1 := by omega
    have hodd : (2 * i + 1) % 2 = 1 ∧ 2 * i + 1 < 2 * m := by omega
    simp only [boot, if_neg hne, if_pos hodd, Nat.add_sub_cancel]
  have hclients : (boot Name m).clientRefs = (List.range m).map (2 * · + 1) := rfl
  have hmem : ∀ id ∈ (boot Name m).clientRefs, ∃ i < m, id = 2 * i + 1 := by
    intro id hid
    rw [hclients] at hid
    obtain ⟨i, hi, rfl⟩ := List.mem_map.1 hid
    exact ⟨i, mem_range.1 hi, rfl⟩
  have hloose : ∀ id, ¬ (boot Name m).Loose id := by simp [boot, Loose, Pc.loose]
  refine ⟨⟨?_, fun id hid => absurd hid (hloose id), by simp [boot], ?_, ?_, fun id _ => hloose id⟩,
    ⟨?_, ?_, ?_, ?_, fun _ _ => rfl, fun _ _ => KChannelInner.coherent_new⟩, by simp [boot, job]⟩
  · intro id hid
    have hge : 2 * m + 2 ≤ id := hid
    simp only [boot, if_neg (by omega : ¬ id = 2 * m + 1),
      if_neg (by omega : ¬ (id % 2 = 1 ∧ id < 2 * m))]
  · intro id hid
    obtain ⟨i, hi, rfl⟩ := hmem id hid
    exact ⟨2 * i, hvalue i hi⟩
  · rw [hclients, List.map_map]
    refine (nodup_range).map_on fun i hi j hj hij => ?_
    simp only [Function.comp] at hij
    rw [hvalue i (mem_range.1 hi), hvalue j (mem_range.1 hj)] at hij
    simp only [Option.some.injEq, KernelValue.channel.injEq] at hij
    omega
  · intro e he
    simpa [boot] using he
  · intro e _
    exact ⟨rfl, rfl, rfl⟩
  · intro e
    exact KObjectSignal.quiet_new
  · rintro e ⟨id, hid, he⟩
    obtain ⟨i, hi, rfl⟩ := hmem id hid
    rw [hvalue i hi] at he
    simp only [Option.some.injEq, KernelValue.channel.injEq] at he
    simp only [boot, decide_eq_true_eq]
    omega

end InitWorld

end Fioxa
