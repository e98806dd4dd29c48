import Fioxa.Syscall.Handlers

/-! # Which user pointers the kernel follows

The handlers that take a number as an address of user memory check it (`mmap_page_handler` asserts
`arg1 <= EndUserMem`); those that follow a pointer do not. The first result says for which arguments
a call stays in the user half of the address space, whatever the caller has and whatever its memory
holds: where the call follows pointers that it finds in memory, for none. The second one says which
calls access user memory with no spinlock held: all but `OBJECT`/`WaitPort` and `CHANNEL`/`Write`
with handles, which read through a pointer while they hold the lock of the references. -/

namespace Fioxa.Syscall

open Traced

/-- All bytes are in the lower half of the address space. Addresses have 64 bits. -/
def InUser (address length : Nat) : Prop :=
  ∀ i < length, (address + i) % 0x10000000000000000 < 0x800000000000

def Access.InUser (a : Access) : Prop := Syscall.InUser a.address a.length

theorem inUser_add {address n m : Nat} :
    InUser address (n + m) ↔ InUser address n ∧ InUser (address + n) m := by
  constructor
  · intro h
    refine ⟨fun i hi => h i (by omega), fun i hi => ?_⟩
    rw [Nat.add_assoc]
    exact h (n + i) (by omega)
  · rintro ⟨hfirst, hrest⟩ i hi
    rcases Nat.lt_or_ge i n with hlt | hge
    · exact hfirst i hlt
    · have := hrest (i - n) (by omega)
      rwa [show address + n + (i - n) = address + i by omega] at this

variable {c : Caller} {P : Access → Prop} {number arg1 arg2 arg3 : Nat}

/-! ## The steps of a handler -/

variable {β : Type} {n address : Nat}

@[simp] theorem all_load_bind {f : Nat → Handler β} :
    All P (c.load n address >>= f) ↔ P ⟨.read, address, 8, 0⟩ ∧ All P (f (c.memory n address)) :=
  all_event_bind

variable {f : Unit → Handler β} {length : Nat}

@[simp] theorem all_readBytes_bind :
    All P (readBytes address length >>= f) ↔ P ⟨.read, address, length, 0⟩ ∧ All P (f ()) :=
  all_event_bind

@[simp] theorem all_writeBytes_bind :
    All P (writeBytes address length >>= f) ↔ P ⟨.write, address, length, 0⟩ ∧ All P (f ()) :=
  all_event_bind

@[simp] theorem all_load : All P (c.load n address) ↔ P ⟨.read, address, 8, 0⟩ :=
  all_event

@[simp] theorem all_writeBytes :
    All P (writeBytes address length) ↔ P ⟨.write, address, length, 0⟩ :=
  all_event

@[simp] theorem all_readBytes : All P (readBytes address length) ↔ P ⟨.read, address, length, 0⟩ :=
  all_event

@[simp] theorem all_check_bind {stop : Stop} {b : Bool} :
    All P (check stop b >>= f) ↔ (b = true → All P (f ())) := by
  rw [check, all_require_bind]
  cases b with
  | false => simp
  | true =>
    constructor
    · intro h _
      exact h () rfl
    · intro h _ _
      exact h rfl

@[simp] theorem all_locked {α : Type} {m : Handler α} :
    All P (locked m) ↔ All (fun a => P { a with depth := a.depth + 1 }) m :=
  all_mapTrace

@[simp] theorem all_nil {α : Type} {r : Except Stop α} : All P (⟨r, []⟩ : Handler α) := by
  intro a ha
  cases ha

theorem all_storeHandles {handles : Nat} (h : ∀ address, P ⟨.write, address, 8, 0⟩) :
    All P (Caller.storeHandles handles n) := by
  induction n with
  | zero => exact all_pure ()
  | succ n ih => exact all_bind.2 ⟨ih, fun _ _ => all_event.2 (h _)⟩

/-- The first handle of a message is read before any of them is looked up. -/
theorem Caller.all_writtenHandles_first (h : All P (c.writtenHandles arg2))
    (hnull : c.memory 0 (arg2 + 24) ≠ 0) (hzero : c.memory 0 (arg2 + 32) ≠ 0)
    (hheap : c.heap (16 * c.memory 0 (arg2 + 32)) = true) :
    P ⟨.read, c.memory 0 (arg2 + 24), 8, 1⟩ := by
  obtain ⟨len, hlen⟩ := Nat.exists_eq_succ_of_ne_zero hzero
  simp only [writtenHandles, all_load_bind, if_neg hnull, if_neg hzero, all_check_bind,
    all_locked] at h
  have hfirst := h.2.2 hheap
  rw [hlen, loadHandles, all_load_bind] at hfirst
  exact hfirst.1

/-! ## The user half -/

/-- The arguments for which a call stays in the user half, if the process has `args` bytes of
    arguments: it follows no pointer, or only one that is an argument itself, to bytes in the user
    half. `MESSAGE`/`Create` and `Read` and `CHANNEL`/`Read` and `Write` also follow what they find
    there, which may be anything. -/
structure Confined (args number arg1 arg2 arg3 : Nat) : Prop where
  readArgs : number = Number.readArgs → arg1 ≠ 0 → InUser arg1 args
  message : number = Number.message → arg1 ≠ 0 ∧ arg1 ≠ 2 ∧ (arg1 = 1 → InUser arg2 8)
  object : number = Number.object → arg1 = 4 → arg2 ≠ 0 → InUser arg3 24
  channel : number = Number.channel → arg1 ≠ 1 ∧ arg1 ≠ 2 ∧ (arg1 = 0 → InUser arg2 16)
  port : number = Number.port → arg1 = 1 ∨ arg1 = 2 → arg2 ≠ 0 →
    InUser arg3 Caller.portNotificationSize

namespace Confined

theorem all_readArgsHandler (h : arg1 ≠ 0 → InUser arg1 c.args) :
    All Access.InUser (c.readArgsHandler arg1) := by
  unfold Caller.readArgsHandler
  split
  · exact all_pure _
  · rename_i hne
    rw [all_bind_pure, all_writeBytes]
    exact h hne

theorem all_messageHandler (h : arg1 ≠ 0 ∧ arg1 ≠ 2 ∧ (arg1 = 1 → InUser arg2 8)) :
    All Access.InUser (c.messageHandler arg1 arg2) := by
  obtain ⟨hcreate, hread, hsize⟩ := h
  unfold Caller.messageHandler
  split
  · exact absurd rfl hcreate
  · simp only [Caller.messageGetSize, all_load_bind, all_require_bind, all_bind_pure,
      all_writeBytes]
    exact ⟨hsize rfl, fun _ _ => hsize rfl⟩
  · exact absurd rfl hread
  · exact all_fail _

theorem all_sysReferenceHandler (h : arg1 = 4 → arg2 ≠ 0 → InUser arg3 24) :
    All Access.InUser (c.sysReferenceHandler arg1 arg2 arg3) := by
  unfold Caller.sysReferenceHandler
  split
  · exact all_fail _
  · rename_i hok
    split
    · rename_i hop
      obtain ⟨hfirst, hkey⟩ := (inUser_add (m := 8)).1 (h hop (fun h0 => hok (.inr h0)))
      obtain ⟨hport, hmask⟩ := (inUser_add (m := 8)).1 hfirst
      simp only [Caller.waitPort, all_require_bind, all_load_bind, all_bind_pure, all_locked,
        all_load]
      exact fun _ _ => ⟨hport, fun _ _ => ⟨hmask, fun _ _ => hkey⟩⟩
    · exact all_nil

theorem all_sysChannelHandler (h : arg1 ≠ 1 ∧ arg1 ≠ 2 ∧ (arg1 = 0 → InUser arg2 16)) :
    All Access.InUser (c.sysChannelHandler arg1 arg2) := by
  obtain ⟨hread, hwrite, hcreate⟩ := h
  unfold Caller.sysChannelHandler
  split
  · simp only [Caller.channelCreate, all_writeBytes_bind, all_bind_pure, all_writeBytes]
    exact (inUser_add (m := 8)).1 (hcreate rfl)
  · exact absurd rfl hread
  · exact absurd rfl hwrite
  · exact all_fail _

theorem getHandle_ne_zero {kind : KernelValue → Option Nat} {p : Nat}
    (h : c.getHandle kind arg2 = some p) : arg2 ≠ 0 := by
  rintro rfl
  cases h

theorem all_sysPortHandler
    (h : arg1 = 1 ∨ arg1 = 2 → arg2 ≠ 0 → InUser arg3 Caller.portNotificationSize) :
    All Access.InUser (c.sysPortHandler arg1 arg2 arg3) := by
  unfold Caller.sysPortHandler
  split
  · exact all_pure _
  · simp only [Caller.portWait, all_require_bind, all_check_bind, all_bind_pure, all_writeBytes]
    exact fun p hp _ => h (.inl rfl) (getHandle_ne_zero hp)
  · simp only [Caller.portPush, all_require_bind, all_bind_pure, all_readBytes]
    exact fun p hp => h (.inr rfl) (getHandle_ne_zero hp)
  · exact all_fail _

end Confined

theorem all_syscallHandler :
    All P (syscallHandler c number arg1 arg2 arg3) ↔ (c.killed = false →
      (number = Number.readArgs → All P (c.readArgsHandler arg1)) ∧
      (number = Number.message → All P (c.messageHandler arg1 arg2)) ∧
      (number = Number.object → All P (c.sysReferenceHandler arg1 arg2 arg3)) ∧
      (number = Number.channel → All P (c.sysChannelHandler arg1 arg2)) ∧
      (number = Number.port → All P (c.sysPortHandler arg1 arg2 arg3))) := by
  unfold syscallHandler
  split_ifs <;>
    simp_all [Number.readArgs, Number.message, Number.object, Number.channel, Number.port]

/-- A process with one byte of arguments, a channel as its first reference and a port as its second
    one. -/
def sampleCaller : Caller where
  killed := false
  args := 1
  references
    | 1 => some (.channel 0)
    | 2 => some (.port 0)
    | _ => none
  nextId := 3
  message _ := 0
  channel _ := .new
  sends _ := true
  notified _ := true
  heap _ := true
  memory _ address := if address = 0x400000 then 2 else 1
  others _ := .ok 0
  referenceOperation _ := .ok 0

/-- The first address of the kernel half. -/
def kernelHalf : Nat := 0xffff800000000000

theorem not_inUser_kernelHalf {length : Nat} (h : 0 < length) : ¬ InUser kernelHalf length := by
  intro hin
  exact absurd (hin 0 h) (by decide)

/-- A caller whose memory holds a pointer to the kernel half in every word but one, which holds a
    length of one byte; its channels have a message of one byte. -/
def hostile (args : Nat) (value : KernelValue) (length : Nat) : Caller :=
  { sampleCaller with
    args := args
    references := fun _ => some value
    message := fun _ => 1
    channel := fun _ => ⟨.new, true, [⟨[0], none⟩]⟩
    memory := fun _ address => if address = length then 1 else kernelHalf }

/-- A caller for whom the number `id` is a channel and the word at each address is a port. -/
def waiting (args id : Nat) : Caller :=
  { sampleCaller with
    args := args
    references := fun n => if n = id then some (.channel 0) else some (.port 0)
    memory := fun _ _ => if id = 1 then 2 else 1 }

section

variable {args : Nat}

theorem hostile_length {value : KernelValue} {n : Nat} :
    (hostile args value length).memory n length = 1 :=
  if_pos rfl

theorem hostile_pointer {value : KernelValue} {n : Nat} (h : address ≠ length) :
    (hostile args value length).memory n address = kernelHalf :=
  if_neg h

theorem hostile_messageCreate :
    ¬ All Access.InUser ((hostile args (.message 0) (arg2 + 8)).messageCreate arg2) := by
  simp only [Caller.messageCreate, all_load_bind, all_check_bind, all_readBytes_bind]
  intro h
  have hdata := (h.2.2 rfl).1
  rw [hostile_length, hostile_pointer (by omega)] at hdata
  exact not_inUser_kernelHalf Nat.one_pos hdata

theorem hostile_messageRead :
    ¬ All Access.InUser ((hostile args (.message 0) (arg2 + 16)).messageRead arg2) := by
  simp only [Caller.messageRead, all_load_bind, all_require_bind, all_check_bind, all_bind_pure,
    all_writeBytes]
  intro h
  have hdata := h.2.2.2 0 rfl (by rw [hostile_length]; rfl)
  rw [hostile_length, hostile_pointer (by omega)] at hdata
  exact not_inUser_kernelHalf Nat.one_pos hdata

theorem hostile_channelRead :
    ¬ All Access.InUser ((hostile args (.channel 0) (arg2 + 16)).channelRead arg2) := by
  simp only [Caller.channelRead, all_load_bind, all_require_bind]
  intro h
  have hread : (((hostile args (.channel 0) (arg2 + 16)).channel 0).read 1 kernelHalf).1 =
      .ok ⟨[0], none⟩ := rfl
  have hdata := (h.2 0 rfl).2.2
  rw [hostile_length, hostile_pointer (by omega), hread] at hdata
  simp only [all_writeBytes_bind, all_load_bind] at hdata
  rw [hostile_pointer (by omega)] at hdata
  exact not_inUser_kernelHalf Nat.one_pos hdata.2.2.1

theorem hostile_channelWrite :
    ¬ All Access.InUser ((hostile args (.channel 0) (arg2 + 32)).channelWrite arg2) := by
  simp only [Caller.channelWrite, all_load_bind, all_require_bind]
  intro h
  have hhandles : (hostile args (.channel 0) (arg2 + 32)).memory 0 (arg2 + 24) = kernelHalf :=
    hostile_pointer (by omega)
  have hfirst := Caller.all_writtenHandles_first (all_bind.1 (h.2 0 rfl).2.2).1
    (by rw [hhandles]; decide) (by rw [hostile_length]; decide) rfl
  rw [hhandles] at hfirst
  exact not_inUser_kernelHalf (by decide) hfirst

theorem waiting_waitPort (h : All Access.InUser ((waiting args arg2).waitPort arg2 arg3)) :
    InUser arg3 24 := by
  simp only [Caller.waitPort, all_require_bind, all_load_bind, all_bind_pure, all_locked,
    all_load] at h
  obtain ⟨hport, hrest⟩ := h (.channel 0) (by simp [waiting])
  have hid : (if arg2 = 1 then 2 else 1) ≠ arg2 := by
    split
    all_goals omega
  obtain ⟨hmask, hkey⟩ := hrest 0 (by simp [waiting, Caller.getAs, hid, asPort])
  exact (inUser_add (m := 8)).2 ⟨(inUser_add (n := 8) (m := 8)).2 ⟨hport, hmask⟩,
    hkey 0 rfl⟩

theorem Confined.of_forall (h : ∀ c : Caller, c.args = args →
      All Access.InUser (syscallHandler c number arg1 arg2 arg3)) :
    Confined args number arg1 arg2 arg3 := by
  have hcalls := fun c hargs hkilled => all_syscallHandler.1 (h c hargs) hkilled
  refine ⟨?_, ?_, ?_, ?_, ?_⟩
  · intro hnumber hne
    have hall := (hcalls (hostile args (.port 0) 0) rfl rfl).1 hnumber
    rwa [Caller.readArgsHandler, if_neg hne, all_bind_pure, all_writeBytes] at hall
  · intro hnumber
    have hall := fun length => (hcalls (hostile args (.message 0) length) rfl rfl).2.1 hnumber
    refine ⟨?_, ?_, ?_⟩
    · rintro rfl
      exact hostile_messageCreate (hall _)
    · rintro rfl
      exact hostile_messageRead (hall _)
    · rintro rfl
      exact (all_load_bind.1 (hall 0)).1
  · rintro hnumber rfl hid
    have hall := (hcalls (waiting args arg2) rfl rfl).2.2.1 hnumber
    rw [Caller.sysReferenceHandler, if_neg (by simp [hid]), all_locked, if_pos rfl] at hall
    exact waiting_waitPort hall
  · intro hnumber
    have hall := fun length => (hcalls (hostile args (.channel 0) length) rfl rfl).2.2.2.1 hnumber
    refine ⟨?_, ?_, ?_⟩
    · rintro rfl
      exact hostile_channelRead (hall _)
    · rintro rfl
      exact hostile_channelWrite (hall _)
    · rintro rfl
      have hboth := hall 0
      simp only [Caller.sysChannelHandler, Caller.channelCreate, all_writeBytes_bind,
        all_bind_pure, all_writeBytes] at hboth
      exact (inUser_add (m := 8)).2 hboth
  · intro hnumber hop hid
    have hall := (hcalls (hostile args (.port 0) 0) rfl rfl).2.2.2.2 hnumber
    have hport : (hostile args (.port 0) 0).getHandle asPort arg2 = some 0 := by
      simp [Caller.getHandle, hid, Caller.getAs, hostile, asPort]
    rcases hop with rfl | rfl
    · simp only [Caller.sysPortHandler, Caller.portWait, all_require_bind, all_check_bind,
        all_bind_pure, all_writeBytes] at hall
      exact hall 0 hport rfl
    · simp only [Caller.sysPortHandler, Caller.portPush, all_require_bind, all_bind_pure,
        all_readBytes] at hall
      exact hall 0 hport

/-- A call stays in the user half for every caller exactly when its arguments confine it: nothing is
    checked on the way. -/
theorem accesses_in_user_iff :
    (∀ c : Caller, c.args = args →
      ∀ a ∈ (syscallHandler c number arg1 arg2 arg3).trace, a.InUser) ↔
      Confined args number arg1 arg2 arg3 := by
  constructor
  · exact Confined.of_forall
  · rintro h c rfl
    refine all_syscallHandler.2 fun _ => ⟨?_, ?_, ?_, ?_, ?_⟩
    · exact fun hnumber => Confined.all_readArgsHandler (h.readArgs hnumber)
    · exact fun hnumber => Confined.all_messageHandler (h.message hnumber)
    · exact fun hnumber => Confined.all_sysReferenceHandler (h.object hnumber)
    · exact fun hnumber => Confined.all_sysChannelHandler (h.channel hnumber)
    · exact fun hnumber => Confined.all_sysPortHandler (h.port hnumber)

end

/-- `READ_ARGS` writes the arguments of the process to any address it is given. -/
theorem read_args_writes_to_kernel_half :
    ∃ a ∈ (syscallHandler sampleCaller Number.readArgs 0xffff800000000000 0 0).trace,
      a = ⟨.write, 0xffff800000000000, 1, 0⟩ ∧ ¬ a.InUser := by
  refine ⟨⟨.write, 0xffff800000000000, 1, 0⟩, by decide, rfl, ?_⟩
  intro h
  exact absurd (h 0 (by decide)) (by decide)

/-! ## Locks -/

/-- The calls that read through a pointer with the references locked. -/
def Caller.ReadsUnderLock (c : Caller) (number arg1 arg2 : Nat) : Prop :=
  c.killed = false ∧
    (number = Number.object ∧ arg1 = 4 ∧ arg2 ≠ 0 ∧ (c.references arg2).isSome ∨
      number = Number.channel ∧ arg1 = 2 ∧ (c.getAs asChannel (c.memory 0 arg2)).isSome ∧
        c.memory 0 (arg2 + 24) ≠ 0 ∧ c.memory 0 (arg2 + 32) ≠ 0 ∧
        c.heap (16 * c.memory 0 (arg2 + 32)) = true)

namespace Caller

theorem unlocked_channelRead : All (fun a => a.depth = 0) (c.channelRead arg2) := by
  simp only [channelRead, all_load_bind, all_require_bind]
  refine ⟨trivial, fun chan _ => ⟨trivial, trivial, ?_⟩⟩
  split
  · rename_i msg _
    cases msg.handles <;> simp [all_storeHandles]
  · simp
  · simp
  · simp

theorem unlocked_channelWrite :
    All (fun a => a.depth = 0) (c.channelWrite arg2) ↔
      ¬ ((c.getAs asChannel (c.memory 0 arg2)).isSome ∧ c.memory 0 (arg2 + 24) ≠ 0 ∧
        c.memory 0 (arg2 + 32) ≠ 0 ∧ c.heap (16 * c.memory 0 (arg2 + 32)) = true) := by
  have hhandles : All (fun a => a.depth = 0) (c.writtenHandles arg2) ↔
      ¬ (c.memory 0 (arg2 + 24) ≠ 0 ∧ c.memory 0 (arg2 + 32) ≠ 0 ∧
        c.heap (16 * c.memory 0 (arg2 + 32)) = true) := by
    constructor
    · rintro h ⟨hnull, hzero, hheap⟩
      cases all_writtenHandles_first h hnull hzero hheap
    · intro h
      rw [writtenHandles, all_load_bind]
      refine ⟨rfl, ?_⟩
      split
      · exact all_pure ()
      · rename_i hnull
        rw [all_load_bind]
        refine ⟨rfl, ?_⟩
        split
        · exact all_pure ()
        · rename_i hzero
          rw [all_check_bind]
          exact fun hheap => absurd ⟨hnull, hzero, hheap⟩ h
  simp only [channelWrite, all_load_bind, all_require_bind, true_and]
  constructor
  · rintro h ⟨hchan, hrest⟩
    obtain ⟨chan, hchan⟩ := Option.isSome_iff_exists.1 hchan
    exact hhandles.1 (all_bind.1 (h chan hchan)).1 hrest
  · intro h chan hchan
    refine all_bind.2 ⟨hhandles.2 fun hrest => h ⟨hchan ▸ rfl, hrest⟩, fun _ _ => ?_⟩
    simp

theorem unlocked_sysReferenceHandler :
    All (fun a => a.depth = 0) (c.sysReferenceHandler arg1 arg2 arg3) ↔
      ¬ (arg1 = 4 ∧ arg2 ≠ 0 ∧ (c.references arg2).isSome) := by
  unfold sysReferenceHandler
  by_cases hop : arg1 = 4
  · subst hop
    by_cases hid : arg2 = 0
    · simp [hid]
    · cases hval : c.references arg2 <;> simp [hid, waitPort, hval]
  · split <;> simp [hop]

theorem unlocked_sysChannelHandler :
    All (fun a => a.depth = 0) (c.sysChannelHandler arg1 arg2) ↔
      ¬ (arg1 = 2 ∧ (c.getAs asChannel (c.memory 0 arg2)).isSome ∧ c.memory 0 (arg2 + 24) ≠ 0 ∧
        c.memory 0 (arg2 + 32) ≠ 0 ∧ c.heap (16 * c.memory 0 (arg2 + 32)) = true) := by
  unfold sysChannelHandler
  split
  · simp [channelCreate]
  · simp [unlocked_channelRead]
  · simp [unlocked_channelWrite]
  · rename_i h
    have hne : arg1 ≠ 2 := h
    simp [hne]

theorem unlocked_readArgsHandler : All (fun a => a.depth = 0) (c.readArgsHandler arg1) := by
  unfold readArgsHandler
  split <;> simp

theorem unlocked_messageHandler : All (fun a => a.depth = 0) (c.messageHandler arg1 arg2) := by
  unfold messageHandler
  split <;> simp [messageCreate, messageGetSize, messageRead]

theorem unlocked_sysPortHandler : All (fun a => a.depth = 0) (c.sysPortHandler arg1 arg2 arg3) := by
  unfold sysPortHandler
  split <;> simp [portWait, portPush]

end Caller

/-- The calls that access user memory with a lock held are those two, so that a page of it that is
    not yet there makes the kernel panic in these and in no others. -/
theorem accesses_unlocked_iff :
    (∀ a ∈ (syscallHandler c number arg1 arg2 arg3).trace, a.depth = 0) ↔
      ¬ c.ReadsUnderLock number arg1 arg2 := by
  show All (fun a => a.depth = 0) (syscallHandler c number arg1 arg2 arg3) ↔ _
  rw [all_syscallHandler, Caller.unlocked_sysReferenceHandler, Caller.unlocked_sysChannelHandler]
  simp only [Caller.unlocked_readArgsHandler, Caller.unlocked_messageHandler,
    Caller.unlocked_sysPortHandler, implies_true, true_and, and_true, Caller.ReadsUnderLock]
  tauto

/-- `WaitPort` on a channel reads the number of the port with the references locked. -/
theorem wait_port_reads_under_lock :
    (⟨.read, 0x400000, 8, 1⟩ : Access) ∈
      (syscallHandler sampleCaller Number.object 4 1 0x400000).trace := by
  decide

end Fioxa.Syscall
