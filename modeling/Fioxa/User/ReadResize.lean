import Fioxa.Init.Service

/-! # Reads that grow their buffers

`channel_read_resize` reads with the capacities of its two vectors as limits; when the message does
not fit, it makes room for what the kernel asks for and reads again. -/

namespace Fioxa

open Function (update_of_ne update_self)

/-- A `Vec` -/
structure GrowableVec (α : Type) where
  elems : List α
  cap : Nat
  le_cap : elems.length ≤ cap

namespace GrowableVec

variable {α : Type} (v : GrowableVec α)

/-- `if len > vec.len() { vec.reserve(len - vec.len()) }`; `none` if the subtraction underflows. -/
def growTo (g : Growth) (len : Nat) : Option (GrowableVec α) :=
  if v.elems.length < len then
    if len < v.elems.length then none
    else
      some ⟨v.elems, g.reserve v.elems.length v.cap (len - v.elems.length),
        (Nat.le_add_right _ _).trans (g.enough ..)⟩
  else some v

/-- `set_len` after the first elements have been written; `none` if there is no room for them. -/
def setLen (elems : List α) : Option (GrowableVec α) :=
  if h : elems.length ≤ v.cap then some ⟨elems, v.cap, h⟩ else none

theorem growTo_eq (g : Growth) (len : Nat) : ∃ v', v.growTo g len = some v' ∧ len ≤ v'.cap := by
  have hcap := v.le_cap
  have henough := g.enough v.elems.length v.cap (len - v.elems.length)
  unfold growTo
  split
  · rw [if_neg (by omega)]
    exact ⟨_, rfl, by dsimp only; omega⟩
  · exact ⟨v, rfl, by omega⟩

end GrowableVec

namespace ProcessReferences

/-- `add_value` for every handle of a message. -/
def addValues : List KernelValue → ProcessReferences → ProcessReferences × List Nat
  | [], refs => (refs, [])
  | v :: values, refs =>
    let (refs, id) := refs.addValue v
    let (refs, ids) := refs.addValues values
    (refs, id :: ids)

/-- The values are behind new identifiers, and the other references are as before. -/
structure Received (refs refs' : ProcessReferences) (values : List KernelValue) (ids : List Nat) :
    Prop where
  fresh : ids = List.range' refs.nextId values.length
  kept : ∀ id < refs.nextId, refs'.value id = refs.value id
  added : ids.map refs'.value = values.map some

theorem addValues_received (values : List KernelValue) (refs : ProcessReferences) :
    refs.Received (refs.addValues values).1 values (refs.addValues values).2 := by
  induction values generalizing refs with
  | nil => exact ⟨rfl, fun _ _ => rfl, rfl⟩
  | cons v values ih =>
    obtain ⟨hfresh, hkept, hadded⟩ := ih (refs.addValue v).1
    refine ⟨congrArg (refs.nextId :: ·) hfresh, fun id hid => ?_, congrArg₂ List.cons ?_ hadded⟩
    · exact (hkept id (Nat.lt_succ_of_lt hid)).trans (update_of_ne (Nat.ne_of_lt hid) ..)
    · exact (hkept refs.nextId (Nat.lt_succ_self _)).trans (update_self ..)

end ProcessReferences

/-- The endpoint, the handle table of the reader and its two vectors. -/
structure Reading where
  chan : KChannelInner
  refs : ProcessReferences
  data : GrowableVec UInt8
  handles : GrowableVec Nat

/-- `channel_read_resize` with a number of `Read` system calls; `others n` is what happens to the
    endpoint before the one after which `n` are left. -/
def channelReadResize (g : Growth) (others : Nat → KChannelInner → KChannelInner) :
    Nat → Reading → Option (ChannelReadResult × Reading)
  | 0, _ => none
  | n + 1, s => do
    let out := (others n s.chan).sysRead ⟨s.data.cap, s.handles.cap⟩
    match out.packet, out.result with
    | some packet, res =>
      let (refs, ids) := s.refs.addValues packet.values
      return (res, ⟨out.chan, refs, ← s.data.setLen packet.data, ← s.handles.setLen ids⟩)
    -- `object_wait`
    | none, .empty => channelReadResize g others n { s with chan := out.chan }
    | none, .size =>
      channelReadResize g others n ⟨out.chan, s.refs, ← s.data.growTo g out.read.dataLen,
        ← s.handles.growTo g out.read.handlesLen⟩
    | none, res => return (res, ⟨out.chan, s.refs, ← s.data.setLen [], ← s.handles.setLen []⟩)

variable {g : Growth} {others : Nat → KChannelInner → KChannelInner} {s : Reading}
  {packet : ChannelMessage} {rest : List ChannelMessage}

theorem handlesLen_eq (packet : ChannelMessage) : packet.handlesLen = packet.values.length := by
  obtain ⟨data, handles⟩ := packet
  cases handles <;> rfl

/-- One system call: the message is delivered, or it is still the next one and there is room for
    it. -/
theorem channelReadResize_succ (n : Nat) (hq : (others n s.chan).queue = packet :: rest) :
    (∃ t, channelReadResize g others (n + 1) s = some (.ok, t) ∧ t.data.elems = packet.data ∧
      s.refs.Received t.refs packet.values t.handles.elems) ∨
    ¬ KChannelInner.Fits packet s.data.cap s.handles.cap ∧ ∃ t,
      channelReadResize g others (n + 1) s = channelReadResize g others n t ∧ t.refs = s.refs ∧
      t.chan.queue = packet :: rest ∧ KChannelInner.Fits packet t.data.cap t.handles.cap := by
  rcases (others n s.chan).sysRead_cases ⟨s.data.cap, s.handles.cap⟩ with ⟨hnil, -⟩ |
    ⟨packet', rest', hq', hfit, hread⟩ | ⟨packet', rest', hq', hfit, hread⟩
  · rw [hq] at hnil
    cases hnil
  · cases hq.symm.trans hq'
    obtain ⟨data, hdata, hdlen⟩ := s.data.growTo_eq g packet.data.length
    obtain ⟨handles, hhandles, hhlen⟩ := s.handles.growTo_eq g packet.handlesLen
    refine .inr ⟨hfit, ⟨others n s.chan, s.refs, data, handles⟩, ?_, rfl, hq, hdlen, hhlen⟩
    simp only [channelReadResize, hread, hdata, hhandles]
    rfl
  · cases hq.symm.trans hq'
    have hreceived := s.refs.addValues_received packet.values
    have hlen : (s.refs.addValues packet.values).2.length ≤ s.handles.cap := by
      rw [hreceived.fresh, List.length_range', ← handlesLen_eq]
      exact hfit.2
    refine .inl ⟨⟨((others n s.chan).sysRead ⟨s.data.cap, s.handles.cap⟩).chan, _,
      ⟨packet.data, s.data.cap, hfit.1⟩, ⟨_, s.handles.cap, hlen⟩⟩, ?_, rfl, hreceived⟩
    simp only [channelReadResize, hread, GrowableVec.setLen, dif_pos hfit.1, dif_pos hlen]
    rfl

/-- With a message in the queue and others that only append to it, at most two system calls are
    needed, whatever the vectors were. -/
theorem channelReadResize_delivers (hq : s.chan.queue = packet :: rest)
    (hothers : ∀ n chan, chan.queue <+: (others n chan).queue) :
    ∃ n ≤ 2, ∃ t, channelReadResize g others n s = some (.ok, t) ∧ t.data.elems = packet.data ∧
      s.refs.Received t.refs packet.values t.handles.elems := by
  refine ⟨2, Nat.le_refl 2, ?_⟩
  obtain ⟨new, hnew⟩ := hothers 1 s.chan
  rw [hq] at hnew
  obtain h | ⟨-, t, ht, hrefs, hqt, hfit⟩ := channelReadResize_succ (g := g) 1 hnew.symm
  · exact h
  · obtain ⟨new', hnew'⟩ := hothers 0 t.chan
    rw [hqt] at hnew'
    rw [ht, ← hrefs]
    exact (channelReadResize_succ 0 hnew'.symm).resolve_right fun h => h.1 hfit

/-- A message of three bytes and one handle, for which neither vector has room. -/
theorem channelReadResize_delivers_three : ∃ n ≤ 2, ∃ t,
    channelReadResize .exact (fun _ chan => chan.closePeer.1) n
      ⟨⟨.new, true, [⟨[1, 2, 3], some [.port 0]⟩]⟩, ⟨fun _ => none, 5⟩, ⟨[9], 1, by decide⟩,
        ⟨[], 0, by decide⟩⟩ = some (.ok, t) ∧ t.data.elems = [1, 2, 3] ∧ t.handles.elems = [5] := by
  have hothers : ∀ (_ : Nat) (chan : KChannelInner), chan.queue <+: chan.closePeer.1.queue :=
    fun _ chan => List.prefix_refl chan.queue
  obtain ⟨n, hn, t, ht, hdata, hreceived⟩ := channelReadResize_delivers (g := .exact)
    (s := ⟨⟨.new, true, [⟨[1, 2, 3], some [.port 0]⟩]⟩, ⟨fun _ => none, 5⟩, ⟨[9], 1, by decide⟩,
      ⟨[], 0, by decide⟩⟩) rfl hothers
  exact ⟨n, hn, t, ht, hdata, hreceived.fresh⟩

end Fioxa
