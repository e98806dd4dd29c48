import Fioxa.Init.Watchers
import Fioxa.User.Service

/-! # A service forgets no client

Waiters are one-shot, so the loop of `Service::run` has to arm each of its channels again after
every notification. The clients of the loop are the accepting channel, under the key 0, and the
entries of `customers`; each has exactly one token in the sense of `Lib/Tokens.lean`. Two entries
may refer to the same object, since nothing keeps a client from sending one handle twice. A key is
used again as soon as the entry with the largest key has been removed; by then no notification with
that key is left. -/

namespace Fioxa

open List Prod Function
open Endpoints (send_fires finishRead_fires close_fires create_fires send_alive finishRead_alive
  close_alive closeSelf_alive_iff closeSelf_channel_ne create_alive_iff create_channel
  mem_send_queue mem_finishRead_queue)

/-! ## The tokens -/

/-- The key the service is busy with. -/
def ServicePc.busy : ServicePc → List Key
  | .starting | .accept | .rearm _ => [0]
  | .handling key _ => [key]
  | .portWait | .enroll _ | .dead _ => []

namespace ServiceWorld

/-- The keys the service has armed at an object. -/
def armed (s : ServiceWorld) (o : SignalObject) : List Key := (s.signal o).serviceKeys

/-- The keys of the notifications in the port. -/
def queued (s : ServiceWorld) : List Key := s.net.port.map PortNotification.key

/-- The objects the service serves, with their keys. -/
def Client (s : ServiceWorld) (key : Key) (o : SignalObject) : Prop :=
  key = 0 ∧ o = .channel s.accepting ∨ (key, o) ∈ s.customers

variable {s t : ServiceWorld} {client : Key → SignalObject → Prop} {keys : List Key} {key : Key}
  {o : SignalObject}

/-! ## Signals and the port -/

/-- The signals of endpoints and processes together. -/
def withProcesses (process : Nat → KObjectSignal) (b : Board Nat) : Board SignalObject where
  signal
    | .channel e => b.signal e
    | .process p => process p
  port := b.port

def board (s : ServiceWorld) : Board SignalObject := withProcesses s.process s.net.board

/-- The service only waits for `READABLE`. -/
abbrev Watched (s : ServiceWorld) : (Key → SignalObject → Prop) → List Key → Prop :=
  s.board.Watched fun w => (serviceKey w).isSome = true → w.mask = .readable

theorem fires_withProcesses (process : Nat → KObjectSignal) {b b' : Board Nat} (h : b.Fires b') :
    (withProcesses process b).Fires (withProcesses process b') := by
  induction h with
  | refl => exact .refl _
  | call b e flag status =>
    have hfire : withProcesses process (b.fire e ((b.signal e).setSignal flag status))
        = (withProcesses process b).fire (SignalObject.channel e)
          ((b.signal e).setSignal flag status) := by
      refine Board.ext (funext fun o => ?_) rfl
      cases o with
      | channel x => by_cases hx : x = e <;> simp [withProcesses, Board.fire, hx]
      | process => simp [withProcesses, Board.fire]
    rw [hfire]
    exact .call (withProcesses process b) (SignalObject.channel e) flag status
  | trans _ _ ih ih' => exact ih.trans ih'

/-- What happens to the endpoints is all that happens. -/
theorem fires_net (s : ServiceWorld) {n : Endpoints} (h : s.net.board.Fires n.board) :
    s.board.Fires { s with net := n }.board :=
  fires_withProcesses s.process h

theorem exit_fires (s : ServiceWorld) (p : Nat) : s.board.Fires (s.exit p).board := by
  have hfire : (s.exit p).board = s.board.fire (.process p)
      ((s.process p).setSignal .processExited true) := by
    refine Board.ext (funext fun o => ?_) rfl
    cases o with
    | channel => simp [board, withProcesses, Board.fire, exit]; rfl
    | process x => by_cases hx : x = p <;> simp [board, withProcesses, Board.fire, exit, hx]
  rw [hfire]
  exact .call s.board (.process p) .processExited true

theorem wait_board (s : ServiceWorld) (o : SignalObject) (ty : SignalWaiterType)
    (mask : ObjectSignal) :
    (s.wait o ty mask).board = s.board.wait o ⟨ty, mask, s.net.registrations⟩ := by
  cases o with
  | channel e =>
    refine Board.ext (funext fun o => ?_) rfl
    cases o with
    | channel x =>
      by_cases hx : x = e <;>
        simp [board, withProcesses, Board.wait, wait, Endpoints.board, Endpoints.channel, hx]
    | process => simp [board, withProcesses, Board.wait, wait]
  | process p =>
    refine Board.ext (funext fun o => ?_) rfl
    cases o with
    | channel => simp [board, withProcesses, Board.wait, wait, Endpoints.board, Endpoints.channel]
    | process x => by_cases hx : x = p <;> simp [board, withProcesses, Board.wait, wait, hx]

theorem arm_board (s : ServiceWorld) (o : SignalObject) (key : Key) :
    (s.arm o key).board = s.board.arm o key s.net.registrations := by
  have hsignal : s.signal o = s.board.signal o := by cases o <;> rfl
  unfold arm Board.arm
  rw [hsignal]
  split
  · rfl
  · exact s.wait_board o _ _

theorem serviceKey_foreign {ty : SignalWaiterType} (hty : foreign ty = true) (mask : ObjectSignal)
    (registration : Nat) : serviceKey ⟨ty, mask, registration⟩ = none := by
  cases ty with
  | one => rfl
  | port => simpa [foreign, serviceKey] using hty

theorem Watched.arm (h : s.Watched client (key :: keys)) (hclient : client key o) :
    (s.arm o key).Watched client keys := by
  rw [Watched, arm_board]
  exact Board.Watched.arm h (.inl hclient) fun _ => rfl

/-! ## What the service refers to -/

theorem exist_held {n : Endpoints} :
    Exist n s.held ↔ n.alive s.accepting = true ∧
      (∀ kc ∈ s.customers, Exist n [kc.2.value]) ∧ Exist n s.pc.values ∧
      ∀ msg ∈ (s.net.channel s.accepting).queue, Exist n msg.values := by
  simp only [Exist, held, mem_append, mem_cons, mem_map, mem_flatMap]
  constructor
  · intro h
    refine ⟨?_, fun kc hkc v hv => ?_, fun v hv => ?_, fun msg hmsg v hv => ?_⟩
    · exact h _ (.inl (.inl (.inl rfl))) _ rfl
    · rcases hv with rfl | hv
      · exact h _ (.inl (.inl (.inr ⟨kc, hkc, rfl⟩)))
      · cases hv
    · exact h v (.inl (.inr hv))
    · exact h v (.inr ⟨msg, hmsg, hv⟩)
  · rintro ⟨haccepting, hcustomers, hpc, hqueue⟩ v (((rfl | ⟨kc, hkc, rfl⟩) | hv) | ⟨msg, hmsg, hv⟩)
    · intro e he
      cases he
      exact haccepting
    · exact hcustomers kc hkc _ (.inl rfl)
    · exact hpc v hv
    · exact hqueue msg hmsg v hv

theorem Exist.keep (h : Exist s.net s.held) (haccepting : t.accepting = s.accepting)
    (hcustomers : ∀ kc ∈ t.customers, kc ∈ s.customers) (hpc : Exist s.net t.pc.values)
    (halive : t.net.alive = s.net.alive)
    (hqueue : ∀ msg ∈ (t.net.channel s.accepting).queue,
      msg ∈ (s.net.channel s.accepting).queue ∨ Exist s.net msg.values) :
    Exist t.net t.held := by
  have hexist : ∀ values, Exist s.net values → Exist t.net values := by
    intro values hv v hmem e he
    rw [halive]
    exact hv v hmem e he
  rw [exist_held] at h ⊢
  obtain ⟨ha, hc, -, hq⟩ := h
  refine ⟨?_, fun kc hkc => hexist _ (hc kc (hcustomers kc hkc)), hexist _ hpc, fun msg hmsg => ?_⟩
  · rw [halive, haccepting]
    exact ha
  · rw [haccepting] at hmsg
    exact hexist _ ((hqueue msg hmsg).elim (hq msg) id)

/-! ## What waiting leaves alone -/

section Frame

variable (s : ServiceWorld) (o : SignalObject) (ty : SignalWaiterType) (mask : ObjectSignal)
  (key : Key) (e : Nat)

@[simp] theorem wait_accepting : (s.wait o ty mask).accepting = s.accepting := by cases o <;> rfl

@[simp] theorem wait_customers : (s.wait o ty mask).customers = s.customers := by cases o <;> rfl

@[simp] theorem wait_pc : (s.wait o ty mask).pc = s.pc := by cases o <;> rfl

@[simp] theorem wait_alive : (s.wait o ty mask).net.alive = s.net.alive := by cases o <;> rfl

@[simp] theorem wait_queue :
    ((s.wait o ty mask).net.channel e).queue = (s.net.channel e).queue := by
  cases o with
  | channel x =>
    by_cases he : e = x
    · simp [wait, Endpoints.channel, he]
    · simp [wait, Endpoints.channel, he]
  | process => rfl

@[simp] theorem arm_accepting : (s.arm o key).accepting = s.accepting := by
  unfold arm
  split <;> simp

@[simp] theorem arm_customers : (s.arm o key).customers = s.customers := by
  unfold arm
  split <;> simp

@[simp] theorem arm_alive : (s.arm o key).net.alive = s.net.alive := by
  unfold arm
  split <;> simp

@[simp] theorem arm_queue : ((s.arm o key).net.channel e).queue = (s.net.channel e).queue := by
  unfold arm
  split
  · rfl
  · exact wait_queue ..

end Frame

theorem wait_ok (hn : s.net.Intact) (ho : Exist s.net [o.value]) (ty : SignalWaiterType)
    {mask : ObjectSignal} (hquiet : (s.signal o).signalStatus.intersects mask = false) :
    (s.wait o ty mask).net.Intact := by
  have hmove : ∀ x, Endpoints.EndMove s.net (s.wait o ty mask).net x := by
    intro x
    cases o with
    | channel e =>
      by_cases hx : x = e
      · subst hx
        exact .waiter (ho _ (mem_singleton_self _) x rfl) ⟨ty, mask, s.net.registrations⟩
          hquiet (by simp [wait, Endpoints.channel]) rfl rfl
      · exact .same (by simp [wait, Endpoints.channel, hx]) rfl rfl
    | process => exact .same rfl rfl rfl
  exact hn.keep hmove (by cases o <;> rfl) (wait_alive ..)

theorem arm_ok (hn : s.net.Intact) (ho : Exist s.net [o.value]) (key : Key) :
    (s.arm o key).net.Intact := by
  unfold arm
  split
  · exact hn.port _
  · next hr => exact wait_ok hn ho _ (by simpa using hr)

/-! ## The invariant -/

structure Running (s : ServiceWorld) : Prop where
  net : s.net.Intact
  held : Exist s.net s.held
  /-- `customers` is in order, and its keys are not the key of the accepting channel. -/
  sorted : ((0 : Key) :: s.customers.map fst).Pairwise (· < ·)
  handling : ∀ key closed, s.pc = .handling key closed → key ≠ 0
  watched : s.Watched s.Client s.pc.busy

theorem client_endpoint (hsorted : ((0 : Key) :: s.customers.map fst).Pairwise (· < ·))
    {o o' : SignalObject} (h : s.Client key o) (h' : s.Client key o') : o = o' := by
  obtain ⟨hpos, hkeys⟩ := pairwise_cons.1 hsorted
  have hzero : ∀ x, ((0 : Key), x) ∉ s.customers := fun x hx =>
    absurd (hpos 0 (mem_map.2 ⟨_, hx, rfl⟩)) (by simp)
  rcases h with ⟨rfl, rfl⟩ | h <;> rcases h' with ⟨hk, rfl⟩ | h'
  · rfl
  · exact absurd h' (hzero o')
  · exact absurd (hk ▸ h) (hzero o)
  · have hnodup : (s.customers.map fst).Nodup := hkeys.imp fun hlt heq => by
      rw [heq] at hlt
      exact absurd hlt (by simp)
    exact congrArg snd (inj_on_of_nodup_map hnodup h h' rfl)

theorem lookup_eq_some (hsorted : ((0 : Key) :: s.customers.map fst).Pairwise (· < ·)) :
    s.lookup key = some o ↔ (key, o) ∈ s.customers := by
  unfold lookup
  constructor
  · intro h
    obtain ⟨⟨k, x⟩, hfind, rfl⟩ := Option.map_eq_some_iff.1 h
    have hk : k = key := by simpa using List.find?_some hfind
    exact hk ▸ List.mem_of_find?_eq_some hfind
  · intro h
    obtain ⟨⟨k, x⟩, hfind⟩ : ∃ kc, s.customers.find? (fun kc => kc.1 == key) = some kc := by
      rw [← Option.isSome_iff_exists, List.find?_isSome]
      exact ⟨(key, o), h, by simp⟩
    have hk : k = key := by simpa using List.find?_some hfind
    subst hk
    rw [hfind]
    exact congrArg some (client_endpoint hsorted (.inr (List.mem_of_find?_eq_some hfind)) (.inr h))

namespace Running

section

variable (h : s.Running)
include h

theorem env (haccepting : t.accepting = s.accepting)
    (hcustomers : t.customers = s.customers) (hpc : t.pc = s.pc) (hnet : t.net.Intact)
    (hheld : Exist t.net t.held) (hwatched : t.Watched s.Client s.pc.busy) : t.Running where
  net := hnet
  held := hheld
  sorted := hcustomers ▸ h.sorted
  handling := hpc ▸ h.handling
  watched := by
    have hclient : t.Client = s.Client := by
      funext key o
      rw [Client, haccepting, hcustomers, Client]
    rw [hclient, hpc]
    exact hwatched

theorem exist_pc : Exist s.net s.pc.values := (exist_held.1 h.held).2.2.1

theorem send {msg : ChannelMessage} (hmsg : Exist s.net msg.values) (e : Nat) :
    { s with net := s.net.send e msg }.Running := by
  refine h.env rfl rfl rfl (h.net.send e msg) ?_ (h.watched.fires (s.fires_net (send_fires ..)))
  refine h.held.keep rfl (fun _ hkc => hkc) h.exist_pc (send_alive ..) fun m hm => ?_
  rcases mem_send_queue hm with hm | rfl
  · exact .inl hm
  · exact .inr hmsg

variable {e : Nat}

theorem read (he : s.net.alive e = true) (read : ChannelRead) :
    { s with net := s.net.finishRead e ((s.net.channel e).sysRead read) }.Running := by
  refine h.env rfl rfl rfl (h.net.finishRead he read) ?_
    (h.watched.fires (s.fires_net (finishRead_fires ..)))
  exact h.held.keep rfl (fun _ hkc => hkc) h.exist_pc (finishRead_alive ..)
    fun m hm => .inl (mem_finishRead_queue hm)

theorem drop (he : s.net.alive e = true) (hfree : KernelValue.channel e ∉ s.held) :
    { s with net := s.net.close e }.Running := by
  have hne : s.accepting ≠ e := by
    rintro rfl
    exact hfree (by simp [ServiceWorld.held])
  refine h.env rfl rfl rfl ?_ ?_ (h.watched.fires (s.fires_net (close_fires ..)))
  · refine Endpoints.Ok.close h.net he fun x hx => ?_
    rw [close_alive] at hx
    exact (closeSelf_alive_iff.1 hx).symm
  · have hqueue : ((s.net.close e).channel s.accepting).queue
        = (s.net.channel s.accepting).queue := by
      refine ((s.net.closeSelf e).closePeerOf_queue e _).trans ?_
      rw [closeSelf_channel_ne _ hne]
    have hheld : { s with net := s.net.close e }.held = s.held := by
      simp only [ServiceWorld.held, hqueue]
    rw [hheld]
    intro v hv x hx
    show (s.net.close e).alive x = true
    have hxe : x ≠ e := by
      rintro rfl
      exact hfree (hx ▸ hv)
    rw [close_alive, update_of_ne hxe]
    exact h.held v hv x hx

theorem create : { s with net := s.net.create }.Running := by
  refine h.env rfl rfl rfl h.net.create ?_ (h.watched.fires (s.fires_net (create_fires h.net.new)))
  have hheld : { s with net := s.net.create }.held = s.held := by
    simp only [ServiceWorld.held, create_channel h.net.new]
  rw [hheld]
  exact fun v hv x hx => create_alive_iff.2 (.inl (h.held v hv x hx))

theorem watch (ho : Exist s.net [o.value]) {ty : SignalWaiterType}
    (hty : foreign ty = true) (mask : ObjectSignal) : (s.watch o ty mask).Running := by
  unfold ServiceWorld.watch
  split
  · exact h
  · next hr =>
    have hkey := serviceKey_foreign hty mask s.net.registrations
    refine h.env (by simp) (by simp) (by simp) (wait_ok h.net ho ty (by simpa using hr)) ?_ ?_
    · refine h.held.keep (by simp) (by simp) ?_ (by simp) (by simp +contextual)
      rw [wait_pc]
      exact h.exist_pc
    · rw [Watched, wait_board]
      exact Board.Watched.wait h.watched hkey (by simp [hkey]) o

theorem exit (p : Nat) : (s.exit p).Running :=
  h.env rfl rfl rfl (h.net.port _) h.held (h.watched.fires (s.exit_fires p))

/-! ### Steps of the service -/

theorem goto (pc : ServicePc) (hbusy : pc.busy = s.pc.busy)
    (hvalues : Exist s.net pc.values) (hkey : ∀ key closed, pc = .handling key closed → key ≠ 0) :
    { s with pc := pc }.Running where
  net := h.net
  held := h.held.keep rfl (fun _ hkc => hkc) hvalues rfl (fun _ => .inl)
  sorted := h.sorted
  handling := hkey
  watched := by
    rw [hbusy]
    exact h.watched

theorem exist_client (hclient : s.Client key o) : Exist s.net [o.value] := by
  obtain ⟨haccepting, hcustomers, -⟩ := exist_held.1 h.held
  rcases hclient with ⟨-, rfl⟩ | hmem
  · intro v hv e he
    rw [mem_singleton.1 hv] at he
    cases he
    exact haccepting
  · exact hcustomers _ hmem

end

theorem arm (key : Key) (h : s.Running) (hbusy : s.pc.busy = [key]) (hclient : s.Client key o)
    (pc : ServicePc) (hidle : pc.busy = []) (hvalues : Exist s.net pc.values) :
    { s.arm o key with pc := pc }.Running where
  net := arm_ok h.net (h.exist_client hclient) key
  held := h.held.keep (arm_accepting ..) (by simp) hvalues (arm_alive ..)
    fun msg hmsg => .inl (by rwa [arm_queue] at hmsg)
  sorted := by
    show ((0 : Key) :: (s.arm o key).customers.map fst).Pairwise (· < ·)
    rw [arm_customers]
    exact h.sorted
  handling := by
    rintro key' closed rfl
    cases hidle
  watched := by
    have hwatched := h.watched
    rw [hbusy] at hwatched
    have hclients : { s.arm o key with pc := pc }.Client = s.Client := by
      funext key' o'
      simp [Client]
    rw [hclients, hidle]
    exact Watched.arm hwatched hclient

theorem pop (h : s.Running) (hpc : s.pc = .portWait) {ev : PortNotification}
    {rest : List PortNotification} (hport : s.net.port = ev :: rest) (pc : ServicePc)
    (hbusy : pc.busy = [ev.key]) (hvalues : pc.values = [])
    (hkey : ∀ key closed, pc = .handling key closed → key ≠ 0) :
    { s with net := { s.net with port := rest }, pc := pc }.Running where
  net := h.net.port rest
  held := h.held.keep rfl (fun _ hkc => hkc) (by simp [hvalues, Exist]) rfl (fun _ => .inl)
  sorted := h.sorted
  handling := hkey
  watched := by
    have hwatched := h.watched
    rw [hpc] at hwatched
    rw [hbusy]
    exact hwatched.pop hport

theorem nextKey_gt (h : s.Running) (hkey : s.nextKey = some key) :
    ∀ k ∈ (0 : Key) :: s.customers.map fst, k < key := by
  unfold nextKey at hkey
  split at hkey
  · next hlast =>
    rw [List.getLast?_eq_none_iff.1 hlast]
    cases hkey
    simp
  · next last o hlast =>
    split at hkey
    · cases hkey
    · next hmax =>
      cases hkey
      have hlt : last < last + 1 := by
        have hne : last.toNat ≠ 2 ^ 64 - 1 := fun heq =>
          hmax (BitVec.eq_of_toNat_eq (by simpa using heq))
        have hbound := last.isLt
        rw [BitVec.lt_def, BitVec.toNat_add]
        show last.toNat < (last.toNat + 1) % 2 ^ 64
        omega
      obtain ⟨init, hinit⟩ := List.getLast?_eq_some_iff.1 hlast
      have hsorted := h.sorted
      rw [hinit, map_append, ← cons_append, pairwise_append] at hsorted
      intro k hk
      rw [hinit, map_append, ← cons_append] at hk
      rcases mem_append.1 hk with hk | hk
      · exact BitVec.lt_trans (hsorted.2.2 k hk last (by simp)) hlt
      · rw [show k = last by simpa using hk]
        exact hlt

theorem enroll (h : s.Running) {v : KernelValue} (hpc : s.pc = .enroll v)
    (hkey : s.nextKey = some key) (ho : SignalObject.ofValue v = some o) :
    { s.arm o key with customers := s.customers ++ [(key, o)], pc := .portWait }.Running := by
  have hlast := h.nextKey_gt hkey
  have hvalue : o.value = v := by
    cases v <;> cases ho <;> rfl
  have hexist : Exist s.net [o.value] := by
    have hv := h.exist_pc
    rw [hpc] at hv
    rw [hvalue]
    exact hv
  have hsorted : ((0 : Key) :: (s.customers ++ [(key, o)]).map fst).Pairwise (· < ·) := by
    rw [map_append, ← cons_append, pairwise_append]
    refine ⟨h.sorted, by simp, fun k hk k' hk' => ?_⟩
    rw [show k' = key by simpa using hk']
    exact hlast k hk
  let u : ServiceWorld :=
    { s.arm o key with customers := s.customers ++ [(key, o)], pc := .portWait }
  have haccepting : u.accepting = s.accepting := arm_accepting ..
  have hclients : ∀ k x, u.Client k x ↔ s.Client k x ∨ k = key ∧ x = o := by
    intro k x
    show k = 0 ∧ x = .channel u.accepting ∨ (k, x) ∈ s.customers ++ [(key, o)] ↔ _
    rw [haccepting, Client, mem_append, mem_singleton, Prod.mk.injEq, or_assoc]
  refine ⟨arm_ok h.net hexist key, ?_, hsorted, fun _ _ hh => ServicePc.noConfusion hh, ?_⟩
  · rw [exist_held]
    obtain ⟨ha, hc, -, hq⟩ := exist_held.1 h.held
    have halive : ∀ values, Exist s.net values → Exist (s.arm o key).net values := by
      intro values hv v hmem e he
      rw [arm_alive]
      exact hv v hmem e he
    refine ⟨?_, fun kc hkc => ?_, by simp [ServicePc.values, Exist], fun msg hmsg => ?_⟩
    · show (s.arm o key).net.alive u.accepting = true
      rw [arm_alive, haccepting]
      exact ha
    · rcases mem_append.1 hkc with hkc | hkc
      · exact halive _ (hc kc hkc)
      · rw [mem_singleton.1 hkc]
        exact halive _ hexist
    · refine halive _ (hq msg ?_)
      replace hmsg : msg ∈ ((s.arm o key).net.channel (s.arm o key).accepting).queue := hmsg
      rwa [arm_queue, arm_accepting] at hmsg
  · have hnew : ∀ x, ¬ s.Client key x := by
      intro x hx
      have hmem : key ∈ (0 : Key) :: s.customers.map fst := by
        rcases hx with ⟨rfl, -⟩ | hx
        · exact .head _
        · exact .tail _ (mem_map.2 ⟨_, hx, rfl⟩)
      exact absurd (hlast key hmem) (by simp)
    have hwatched := h.watched
    rw [hpc] at hwatched
    have hjoined : s.Watched u.Client (key :: []) :=
      ⟨hwatched.tokens.join hnew hclients, hwatched.waiter, client_endpoint hsorted⟩
    exact Watched.arm hjoined ((hclients key o).2 (.inr ⟨rfl, rfl⟩))

theorem remove (h : s.Running) {closed : Bool} (hpc : s.pc = .handling key closed) :
    { s with
      customers := s.customers.filter (fun kc => kc.1 != key), pc := .portWait }.Running where
  net := h.net
  held := h.held.keep rfl (fun _ hkc => mem_of_mem_filter hkc) (by simp [Exist, ServicePc.values])
    rfl (fun _ => .inl)
  sorted := h.sorted.sublist ((filter_sublist.map fst).cons_cons 0)
  handling := by
    intro _ _ hh
    cases hh
  watched := by
    have hwatched := h.watched
    rw [hpc] at hwatched
    have hzero := h.handling key closed hpc
    have hsorted : ((0 : Key) :: (s.customers.filter (fun kc => kc.1 != key)).map
        fst).Pairwise (· < ·) :=
      h.sorted.sublist ((filter_sublist.map fst).cons_cons 0)
    refine ⟨hwatched.tokens.leave fun k x => ?_, hwatched.waiter, client_endpoint hsorted⟩
    simp only [Client, mem_filter, bne_iff_ne]
    constructor
    · rintro (⟨rfl, rfl⟩ | ⟨hmem, hne⟩)
      · exact ⟨.inl ⟨rfl, rfl⟩, Ne.symm hzero⟩
      · exact ⟨.inr hmem, hne⟩
    · rintro ⟨h0 | hmem, hne⟩
      · exact .inl h0
      · exact .inr ⟨hmem, hne⟩

end Running

/-! ## Whole runs -/

/-- As long as the service runs, its invariant holds; and it never misses a customer. -/
structure Sound (s : ServiceWorld) : Prop where
  running : s.pc.isDead = false → s.Running
  found : s.pc ≠ .dead .noCustomer

theorem Running.sound (h : s.Running) (hpc : s.pc ≠ .dead .noCustomer) : s.Sound :=
  ⟨fun _ => h, hpc⟩

theorem sound_dead {why : ServiceExit} (hpc : s.pc = .dead why) (hwhy : why ≠ .noCustomer) :
    s.Sound where
  running hdead := by
    rw [hpc] at hdead
    cases hdead
  found hpc' := by
    rw [hpc] at hpc'
    exact hwhy (ServicePc.dead.inj hpc')

theorem sound_boot : boot.Sound := by
  refine Running.sound ⟨⟨?_, ?_, ?_, ?_, ?_, ?_⟩, ?_, ?_, ?_, ?_, ?_, ?_⟩ (by simp [boot])
  · exact fun e he => of_decide_eq_true he
  · exact fun e _ => ⟨rfl, rfl, rfl⟩
  · exact fun e => KObjectSignal.quiet_new
  · exact fun e he => he
  · exact fun e _ => rfl
  · exact fun e _ => KChannelInner.coherent_new
  · decide
  · decide
  · intro _ _ hpc
    cases hpc
  · have hnone : ∀ o, boot.board.armed o = [] := fun o => by cases o <;> rfl
    refine ⟨fun o k hk => ?_, fun k hk => ?_, fun k hk => ?_, fun k o hk => ?_⟩
    · rw [hnone] at hk
      cases hk
    · cases hk
    · rw [mem_singleton.1 hk]
      exact ⟨_, .inl ⟨rfl, rfl⟩⟩
    · rcases hk with ⟨rfl, rfl⟩ | hk
      · rfl
      · cases hk
  · intro o w hw
    cases o <;> cases hw
  · exact client_endpoint (by decide)

theorem sysRead_packet {chan : KChannelInner} {read : ChannelRead} {packet : ChannelMessage}
    (h : (chan.sysRead read).packet = some packet) : packet ∈ chan.queue := by
  rcases chan.sysRead_cases read with ⟨-, hout⟩ | ⟨_, _, -, -, hout⟩ | ⟨p, rest, hqueue, -, hout⟩
  · rw [hout] at h
    cases h
  · rw [hout] at h
    cases h
  · rw [hout] at h
    cases h
    rw [hqueue]
    exact .head _

theorem Running.portWait (h : s.Running) (hpc : s.pc = .portWait) {ev : PortNotification}
    {rest : List PortNotification} (hport : s.net.port = ev :: rest)
    (hst : s.serviceStep = some t) : t.Sound := by
  simp only [ServiceWorld.serviceStep, hpc, hport] at hst
  split at hst
  · next hkey =>
    cases hst
    exact (h.pop hpc hport .accept (by rw [hkey]; rfl) rfl (by simp)).sound (by simp)
  · next hkey =>
    -- the notification belongs to a client, and not to the accepting channel
    have hev : ev ∈ s.net.port := by simp [hport]
    obtain ⟨o, ho⟩ := h.watched.tokens.of_queued ev.key (mem_map_of_mem hev)
    have hmem : (ev.key, o) ∈ s.customers := ho.resolve_left fun h0 => hkey h0.1
    split at hst
    · next hnone =>
      replace hnone : s.lookup ev.key = none := hnone
      rw [(lookup_eq_some h.sorted).2 hmem] at hnone
      cases hnone
    · cases hst
      refine (h.pop hpc hport (.handling ev.key false) rfl rfl ?_).sound (by simp)
      rintro key closed heq
      cases heq
      exact hkey

theorem Running.accept (h : s.Running) (hpc : s.pc = .accept) (hst : s.serviceStep = some t) :
    t.Sound := by
  have halive : s.net.alive s.accepting = true := (exist_held.1 h.held).1
  simp only [ServiceWorld.serviceStep, hpc] at hst
  split at hst
  · next packet hresult hpacket =>
    split at hst
    · next v hv =>
      cases hst
      have hexist := (exist_held.1 h.held).2.2.2 packet (sysRead_packet hpacket)
      rw [hv] at hexist
      refine ((h.read halive ⟨100, 1⟩).goto (.rearm v) (by rw [hpc]; rfl) ?_ (by simp)).sound
        (by simp)
      intro x hx e he
      show (s.net.finishRead _ _).alive e = true
      rw [finishRead_alive]
      exact hexist x hx e he
    · cases hst
      exact sound_dead rfl (by simp)
  · cases hst
    exact h.sound (by simp [hpc])
  · cases hst
    exact sound_dead rfl (by simp)

theorem Running.serviceStep (h : s.Running) (hst : s.serviceStep = some t) : t.Sound := by
  cases hpc : s.pc with
  | starting =>
    simp only [ServiceWorld.serviceStep, hpc] at hst
    cases hst
    exact (h.arm 0 (by rw [hpc]; rfl) (.inl ⟨rfl, rfl⟩) .portWait rfl
      (by simp [Exist, ServicePc.values])).sound (by simp)
  | portWait =>
    cases hport : s.net.port with
    | nil => simp [ServiceWorld.serviceStep, hpc, hport] at hst
    | cons => exact h.portWait hpc hport hst
  | accept => exact h.accept hpc hst
  | rearm v =>
    simp only [ServiceWorld.serviceStep, hpc] at hst
    cases hst
    have hv := h.exist_pc
    rw [hpc] at hv
    exact (h.arm 0 (by rw [hpc]; rfl) (.inl ⟨rfl, rfl⟩) (.enroll v) rfl hv).sound (by simp)
  | enroll =>
    simp only [ServiceWorld.serviceStep, hpc] at hst
    split at hst
    · cases hst
      exact sound_dead rfl (by simp)
    · cases hst
      exact sound_dead rfl (by simp)
    · next id o hid ho =>
      cases hst
      exact (h.enroll hpc hid ho).sound (by simp)
  | handling | dead => simp [ServiceWorld.serviceStep, hpc] at hst

theorem Running.handlerRead (h : s.Running) {maxBytes maxHandles : Nat}
    (hst : s.handlerRead maxBytes maxHandles = some t) : t.Sound := by
  unfold ServiceWorld.handlerRead at hst
  split at hst
  · next key closed hpc =>
    split at hst
    · next e hlookup =>
      cases hst
      have hclient : s.Client key (.channel e) :=
        .inr ((lookup_eq_some h.sorted).1 hlookup)
      have halive : s.net.alive e = true :=
        h.exist_client hclient _ (mem_singleton_self _) e rfl
      refine ((h.read halive ⟨maxBytes, maxHandles⟩).goto _ (by rw [hpc]; rfl)
        (by simp [Exist, ServicePc.values]) ?_).sound (by simp)
      rintro key' closed' heq
      cases heq
      exact h.handling key closed hpc
    · cases hst
      exact sound_dead rfl (by simp)
  · cases hst

theorem Running.handlerReturn (h : s.Running) {flow : ControlFlow}
    (hst : s.handlerReturn flow = some t) : t.Sound := by
  unfold ServiceWorld.handlerReturn at hst
  split at hst
  · next key closed hpc =>
    split at hst
    · next o hlookup =>
      cases hst
      exact (h.arm _ (by rw [hpc]; rfl) (.inr ((lookup_eq_some h.sorted).1 hlookup)) .portWait
        rfl (by simp [Exist, ServicePc.values])).sound (by simp)
    · cases hst
    · cases hst
      exact (h.remove hpc).sound (by simp)
  · cases hst

theorem Sound.step (h : s.Sound) {a : Action} (hst : step s a = some t) : t.Sound := by
  unfold ServiceWorld.step at hst
  split at hst
  · cases hst
  · next hdead =>
    have hr : s.Running := h.running (by simpa using hdead)
    have hsound : ∀ {u : ServiceWorld}, u.Running → u.pc = s.pc → u.Sound := fun hu hpc =>
      hu.sound (hpc ▸ h.found)
    cases a with
    | service => exact hr.serviceStep hst
    | handlerRead => exact hr.handlerRead hst
    | handlerReturn => exact hr.handlerReturn hst
    | send e =>
      obtain ⟨⟨-, hmsg⟩, hst⟩ := Option.ite_none_right_eq_some.1 hst
      cases hst
      exact hsound (hr.send hmsg e) rfl
    | read =>
      obtain ⟨he, hst⟩ := Option.ite_none_right_eq_some.1 hst
      cases hst
      exact hsound (hr.read he _) rfl
    | drop =>
      obtain ⟨⟨he, hfree⟩, hst⟩ := Option.ite_none_right_eq_some.1 hst
      cases hst
      exact hsound (hr.drop he hfree) rfl
    | create =>
      cases hst
      exact hsound hr.create rfl
    | watch o ty mask =>
      obtain ⟨⟨ho, hty⟩, hst⟩ := Option.ite_none_right_eq_some.1 hst
      cases hst
      refine hsound (hr.watch ho hty mask) ?_
      unfold ServiceWorld.watch
      split
      · rfl
      · exact wait_pc ..
    | exit p =>
      cases hst
      exact hsound (hr.exit p) rfl

/-- What the loop rests on. -/
structure TokenInvariant (s : ServiceWorld) : Prop where
  /-- At the top of the loop a client either has one armed waiter, or one notification is queued for
      it. -/
  one : s.pc = .portWait → ∀ key o, s.Client key o →
    (s.armed o).count key + s.queued.count key = 1
  /-- The keys of the clients are different. -/
  keys : s.pc.isDead = false → ∀ key o o', s.Client key o → s.Client key o' → o = o'
  /-- All waiters of the service wait for `READABLE`, on behalf of a client that is still there. -/
  waiters : s.pc.isDead = false → ∀ o, ∀ w ∈ (s.signal o).signalWaiters, ∀ key,
    serviceKey w = some key → w.mask = .readable ∧ s.Client key o
  /-- So are all notifications. -/
  notified : s.pc.isDead = false → ∀ ev ∈ s.net.port, ∃ o, s.Client ev.key o
  /-- `customers.get_mut(&ev.key).unwrap()` does not panic. -/
  found : s.pc ≠ .dead .noCustomer
  /-- When the loop blocks, no client has a message waiting. -/
  served : s.pc = .portWait → s.net.port = [] → ∀ key e, s.Client key (.channel e) →
    (s.net.channel e).queue = []

theorem Running.queue_of_armed (h : s.Running) {e : Nat} (hkey : key ∈ s.armed (.channel e)) :
    (s.net.channel e).queue = [] := by
  obtain ⟨w, hw, hwkey⟩ := mem_filterMap.1 hkey
  have hquiet := h.net.quiet e w hw
  have hmask := h.watched.waiter (.channel e) w hw (by simp [hwkey])
  have hclient := h.watched.tokens.of_armed (.channel e) key hkey
  have halive : s.net.alive e = true := h.exist_client hclient _ (mem_singleton_self _) e rfl
  have hcoherent := (h.net.coherent e halive).readable
  rw [KObjectSignal.hits, hmask, ObjectSignal.intersects_readable, hcoherent] at hquiet
  simpa using hquiet

theorem Running.mem_armed (h : s.Running) (hpc : s.pc = .portWait) (hport : s.net.port = [])
    (hclient : s.Client key o) : key ∈ s.armed o := by
  have htokens : Tokens.Exact s.Client s.armed (s.net.port.map _) s.pc.busy := h.watched.tokens
  rw [hpc, hport] at htokens
  exact htokens.mem_armed hclient

theorem Sound.tokenInvariant (h : s.Sound) : s.TokenInvariant where
  one hpc key o hclient := by
    have hone := (h.running (by rw [hpc]; rfl)).watched.tokens.one key o hclient
    rwa [hpc] at hone
  keys hdead _ _ _ := (h.running hdead).watched.endpoint
  waiters hdead o w hw key hkey := by
    have hr := h.running hdead
    refine ⟨hr.watched.waiter o w hw (by simp [hkey]), hr.watched.tokens.of_armed o key ?_⟩
    exact mem_filterMap.2 ⟨w, hw, hkey⟩
  notified hdead ev hev :=
    (h.running hdead).watched.tokens.of_queued ev.key (mem_map_of_mem hev)
  found := h.found
  served hpc hport key e hclient := by
    have hr := h.running (by rw [hpc]; rfl)
    exact hr.queue_of_armed (hr.mem_armed hpc hport hclient)

/-- The token invariant holds whatever the handler and the clients do. -/
theorem tokenInvariant_always (as : List Action) : Lts.Always step TokenInvariant boot as :=
  Lts.always_of_guarded (C := fun _ _ => True) (fun _ h => Sound.tokenInvariant h)
    (fun _ _ _ h _ hst => h.step hst) sound_boot (Lts.guarded_of_forall (fun _ _ _ => trivial) _)

end ServiceWorld

end Fioxa
