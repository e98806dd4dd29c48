import Fioxa.Paging.OrderedRanges
import Fioxa.Paging.ProcessMemory

/-! # What the calls of a process do to its address space

One specification for each function of `ProcessMemory`, in terms of the ranges it inserts and
removes. The list of ranges stays ordered (`Process.step_ordered`), and so it is ordered in every
process that can come about. -/

namespace Fioxa.Paging

open PageMapperManager List Option PageMapping

def apicRange : MappedRange := ⟨0xfee00000, 0xfee01000, apicLocation, .onlyWriteable⟩

def hpetRange (base : Nat) : MappedRange := ⟨base, base + 0x1000, hpetLocation, .onlyWriteable⟩

def stackRange (tid object : Nat) : MappedRange :=
  ⟨stackBase tid, stackBase tid + stackSize, object, .all⟩

def kstackRange (tid object : Nat) : MappedRange :=
  ⟨kstackBase tid, kstackBase tid + kstackSize, object, .onlyWriteable⟩

/-- The ranges that belong to the kernel. -/
def kernelRanges (hpet : Option Nat) (threads : List Nat) : List (Nat × Nat) :=
  (0xfee00000, 0xfee01000) :: (hpet.toList.map fun base => (base, base + 0x1000)) ++
    threads.map fun tid => (stackBase tid, stackBase tid + stackSize)

theorem stackBase_eq (tid : Nat) : stackBase tid = 0x100000000000 + 0x21000 * tid := rfl

theorem kstackBase_eq (tid : Nat) : kstackBase tid = 0xFFFF800000000000 + 0x11000 * tid := rfl

theorem stackRange_aligned (tid object : Nat) : (stackRange tid object).stop % 0x1000 = 0 := by
  show (stackBase tid + 0x20000) % 0x1000 = 0
  rw [stackBase_eq]
  omega

theorem kstackRange_aligned (tid object : Nat) : (kstackRange tid object).stop % 0x1000 = 0 := by
  show (kstackBase tid + 0x10000) % 0x1000 = 0
  rw [kstackBase_eq]
  omega

variable {tid : Nat}

/-- The stack of a thread ends in the lower half, because its kernel stack is below `perCpuMem`. -/
theorem stack_low (hkstack : kstackBase tid + kstackSize ≤ perCpuMem) :
    stackBase tid + stackSize < 0x800000000000 := by
  have hbase := stackBase_eq tid
  have hkbase := kstackBase_eq tid
  simp only [stackSize, kstackSize, perCpuMem] at *
  omega

theorem pagesOf_stack_ok (hlow : stackBase tid + stackSize < 0x800000000000) :
    ∀ v ∈ pagesOf (stackBase tid) (stackBase tid + stackSize), pageOk v = true := by
  intro v hv
  have hbounds := bounds_of_mem_pagesOf hv
  have hbase := stackBase_eq tid
  have halign : v % 0x1000 = 0 := aligned_of_mem_pagesOf (by omega) hv
  rw [pageOk_iff]
  omega

theorem pagesOf_kstack_ok (hbound : kstackBase tid + kstackSize < 0x10000000000000000) :
    ∀ v ∈ pagesOf (kstackBase tid) (kstackBase tid + kstackSize), pageOk v = true := by
  intro v hv
  have hbounds := bounds_of_mem_pagesOf hv
  have hbase := kstackBase_eq tid
  have halign : v % 0x1000 = 0 := aligned_of_mem_pagesOf (by omega) hv
  rw [pageOk_iff]
  omega

namespace Process

variable {p p' : Process} {reply : Reply} {privilege : ProcessPrivilige} {hpet : Option Nat}
  {arg1 arg2 object tid entryPoint vaddr memsz address phys : Nat} {flags : MemoryMappingFlags}
  {stack kstack : NewPages} {r : MappedRange}

/-- The ranges of the process are ordered. -/
def RangesOrdered (p : Process) : Prop := Ordered p.pageMapper.mappings

/-! ## System calls -/

theorem mmapPageHandler_spec (ho : p.RangesOrdered)
    (h : p.mmapPageHandler arg1 arg2 object = some reply) :
    reply = ⟨.error .error, p, none⟩ ∨
      ∃ base m, Inserts p.pageMapper ⟨base, base + roundUp arg2, object, .all⟩ [] m ∧
        reply = ⟨.ok base, { p with pageMapper := m }, none⟩ := by
  unfold mmapPageHandler at h
  split at h
  · cases h
    exact .inl rfl
  · split at h
    · cases h
    · simp only at h
      split at h
      · obtain ⟨⟨base, m⟩, hins, heq⟩ := map_eq_some_iff.1 h
        cases heq
        exact .inr ⟨base, m, insertMapping_inserts ho hins, rfl⟩
      · split at h
        · cases h
        · cases h
          exact .inl rfl
        · rename_i m hins
          cases h
          exact .inr ⟨arg1, m, insertMappingAt_inserts ho hins, rfl⟩

theorem mmapPage32Handler_spec {page : Option Nat} (h : p.mmapPage32Handler page = some reply) :
    page = none ∧ reply = ⟨.error .error, p, none⟩ ∨
      ∃ q m, page = some q ∧ p.pageMapper.map q q .all = some (.ok m) ∧
        reply = ⟨.ok q, { p with
          pageMapper := m
          owned32Pages := p.owned32Pages ++ [q] }, none⟩ := by
  unfold mmapPage32Handler at h
  split at h
  · cases h
    exact .inl ⟨rfl, rfl⟩
  · rename_i q
    split at h
    · rename_i m hmap
      cases h
      exact .inr ⟨q, m, rfl, hmap, rfl⟩
    · cases h

theorem unmmapPageHandler_spec (h : p.unmmapPageHandler arg1 arg2 = some reply) :
    reply = ⟨.error .error, p, none⟩ ∨
      ∃ r m, Removes p.pageMapper r m ∧ r.compareRange arg1 (roundUp (arg1 + arg2)) = .eq ∧
        reply = ⟨.ok 0, { p with pageMapper := m }, some r.object⟩ := by
  unfold unmmapPageHandler at h
  split at h
  · cases h
    exact .inl rfl
  · split at h
    · cases h
    · split at h
      · cases h
      · cases h
        exact .inl rfl
      · rename_i r m hfree
        cases h
        obtain ⟨hrem, hcmp⟩ := freeMapping_removes hfree
        exact .inr ⟨r, m, hrem, hcmp, rfl⟩

/-! ## Processes and threads -/

theorem targets_mmap (base : Nat) : targets ⟨0x1000, .mmap base⟩ base = [(base, base)] := by
  simp [targets, pageAt, pageCount]

theorem new_spec (h : Process.new privilege hpet = some p) :
    ∃ m, Inserts ⟨fun _ => none, []⟩ apicRange [(0xfee00000, 0xfee00000)] m ∧
      (hpet = none ∧ p = ⟨privilege, m, [], 0, [], false⟩ ∨
        ∃ base m', hpet = some base ∧ Inserts m (hpetRange base) [(base, base)] m' ∧
          p = ⟨privilege, m', [], 0, [], false⟩) := by
  have hempty : Ordered [] := ⟨by simp, Pairwise.nil⟩
  simp only [Process.new] at h
  split at h
  · cases h
  · rename_i m hins
    have hapic := insertMappingAtSet_inserts hempty (join_eq_some_iff.1 hins)
    refine ⟨m, hapic, ?_⟩
    split at h
    · cases h
      exact .inl ⟨rfl, rfl⟩
    · rename_i base
      obtain ⟨m', hins', rfl⟩ := map_eq_some_iff.1 h
      have ho : Ordered m.mappings := hapic.ordered (by decide)
      have hhpet := insertMappingAtSet_inserts ho (join_eq_some_iff.1 hins')
      rw [targets_mmap] at hhpet
      exact .inr ⟨base, m', rfl, hhpet, rfl⟩

theorem insertStack_spec {pages : List (Option Nat)} (ho : p.RangesOrdered)
    (h : p.insertStack tid object pages = some p') :
    ∃ m, Inserts p.pageMapper (stackRange tid object)
        ((newLazyFilled stackSize pages).targets (stackBase tid)) m ∧
      p' = { p with pageMapper := m } := by
  obtain ⟨m, hins, rfl⟩ := map_eq_some_iff.1 h
  exact ⟨m, insertMappingAtSet_inserts ho (join_eq_some_iff.1 hins), rfl⟩

theorem insertKstack_spec {pages : List (Option Nat)} (ho : p.RangesOrdered)
    (h : p.insertKstack tid entryPoint object pages = some p') :
    ∃ m, Inserts p.pageMapper (kstackRange tid object)
        ((newLazyFilled kstackSize pages).targets (kstackBase tid)) m ∧
      kstackBase tid + kstackSize ≤ perCpuMem ∧ virtAddrOk entryPoint = true ∧
      p.exited = false ∧ p' = { p with pageMapper := m, threads := tid :: p.threads } := by
  unfold insertKstack at h
  split at h
  · cases h
  · split at h
    · cases h
    · rename_i m hins
      split at h
      · rename_i hok
        cases h
        refine ⟨m, insertMappingAtSet_inserts ho (join_eq_some_iff.1 hins), hok.1, hok.2.1, ?_, rfl⟩
        simpa using hok.2.2.2
      · cases h

theorem newThread_spec (ho : p.RangesOrdered) (h : p.newThread entryPoint stack kstack = some p') :
    ∃ m m', Inserts p.pageMapper (stackRange p.threadNextId stack.object)
        ((newLazyFilled stackSize stack.pages).targets (stackBase p.threadNextId)) m ∧
      Inserts m (kstackRange p.threadNextId kstack.object)
        ((newLazyFilled kstackSize kstack.pages).targets (kstackBase p.threadNextId)) m' ∧
      kstackBase p.threadNextId + kstackSize ≤ perCpuMem ∧
      p' = { p with
        pageMapper := m'
        threadNextId := p.threadNextId + 1
        threads := p.threadNextId :: p.threads } := by
  simp only [newThread] at h
  split at h
  · cases h
  · rename_i p1 hstack
    obtain ⟨m, hm, rfl⟩ := insertStack_spec (p := p.takeId) ho hstack
    have ho1 : RangesOrdered { p.takeId with pageMapper := m } :=
      hm.ordered (stackRange_aligned ..)
    obtain ⟨m', hm', hbelow, -, -, rfl⟩ := insertKstack_spec ho1 h
    exact ⟨m, m', hm, hm', hbelow, rfl⟩

theorem dropThread_spec (h : p.dropThread tid = some (r, p')) :
    ∃ m, tid ∈ p.threads ∧ Removes p.pageMapper r m ∧
      r.compareRange (stackBase tid) (stackBase tid + stackSize) = .eq ∧
      p' = { p with
        pageMapper := m
        threads := p.threads.erase tid
        exited := p.exited || (p.threads.erase tid).isEmpty } := by
  unfold dropThread at h
  split at h
  · rename_i hmem
    split at h
    · rename_i r m hfree
      cases h
      obtain ⟨hrem, hcmp⟩ := freeMapping_removes hfree
      exact ⟨m, hmem, hrem, hcmp, rfl⟩
    · cases h
  · cases h

/-! ## Page faults and segments -/

theorem pageFault_spec (h : p.pageFault address phys = some p') :
    ∃ r m, p.pageMapper.faulting address = some r ∧
      p.pageMapper.mapFault address r phys = some m ∧ p' = { p with pageMapper := m } := by
  unfold pageFault at h
  split at h
  · cases h
  · rename_i r hr
    obtain ⟨m, hm, rfl⟩ := map_eq_some_iff.1 h
    exact ⟨r, m, hr, hm, rfl⟩

theorem segment_aligned : (pageBase vaddr + (segment vaddr memsz).2) % 0x1000 = 0 := by
  unfold segment pageBase roundUp
  omega

theorem loadSegment_spec (ho : p.RangesOrdered)
    (h : p.loadSegment vaddr memsz object flags = some p') :
    ∃ m, Inserts p.pageMapper
        ⟨pageBase vaddr, pageBase vaddr + (segment vaddr memsz).2, object, flags⟩ [] m ∧
      p' = { p with pageMapper := m } := by
  unfold loadSegment at h
  split at h
  · cases h
  · obtain ⟨m, hins, rfl⟩ := map_eq_some_iff.1 h
    exact ⟨m, insertMappingAt_inserts ho (join_eq_some_iff.1 hins), rfl⟩

/-! ## The ranges stay ordered -/

theorem hpetRange_aligned {m m' : PageMapperManager} {base : Nat} {pages : List (Nat × Nat)}
    (h : Inserts m (hpetRange base) pages m') : (hpetRange base).stop % 0x1000 = 0 := by
  have hbase : base % 0x1000 = 0 := h.aligned
  show (base + 0x1000) % 0x1000 = 0
  omega

theorem new_ordered (h : Process.new privilege hpet = some p) : p.RangesOrdered := by
  obtain ⟨m, hm, ⟨-, rfl⟩ | ⟨base, m', -, hm', rfl⟩⟩ := new_spec h
  · exact hm.ordered (by decide)
  · exact hm'.ordered (hpetRange_aligned hm')

/-- The action removes no range of the kernel and inserts no empty range. -/
def Spares (hpet : Option Nat) (p : Process) : Action → Prop
  | .syscall (.unmmapPage arg1 arg2) =>
    (arg1, roundUp (arg1 + arg2)) ∉ kernelRanges hpet p.threads
  | .syscall (.mmapPage _ arg2 _) => arg2 ≠ 0
  | .loadSegment vaddr memsz _ _ => (segment vaddr memsz).2 ≠ 0
  | _ => True

instance (hpet : Option Nat) (p : Process) : (a : Action) → Decidable (p.Spares hpet a)
  | .syscall (.unmmapPage _ _) => inferInstanceAs (Decidable (_ ∉ _))
  | .syscall (.mmapPage _ _ _) => inferInstanceAs (Decidable (_ ≠ _))
  | .syscall (.mmapPage32 _) => isTrue trivial
  | .syscall (.spawnThread _ _ _) => isTrue trivial
  | .pageFault _ _ => isTrue trivial
  | .dropThread _ => isTrue trivial
  | .loadSegment _ _ _ _ => inferInstanceAs (Decidable (_ ≠ _))

/-- What an action does to the ranges and to the table. -/
inductive Change (p : Process) : Action → Process → Prop where
  | same {a : _} : Change p a p
  | map {a v e owned32Pages : _} (hnone : p.pageMapper.pageMapper v = none) :
      Change p a { p with
        pageMapper :=
          { p.pageMapper with pageMapper := Function.update p.pageMapper.pageMapper v (some e) }
        owned32Pages := owned32Pages }
  | insert {a r m : _} (hins : Inserts p.pageMapper r [] m) (halign : r.stop % 0x1000 = 0)
      (hpos : ∀ hpet, p.Spares hpet a → r.start < r.stop) : Change p a { p with pageMapper := m }
  | remove {arg1 arg2 r m : _} (hlow : arg1 ≤ endUserMem) (hrem : Removes p.pageMapper r m)
      (hcmp : r.compareRange arg1 (roundUp (arg1 + arg2)) = .eq) :
      Change p (.syscall (.unmmapPage arg1 arg2)) { p with pageMapper := m }
  | newThread {a entryPoint stack kstack p' : _}
      (hnew : p.newThread entryPoint stack kstack = some p')
      : Change p a p'
  | dropThread {tid r p' : _} (hdrop : p.dropThread tid = some (r, p')) :
      Change p (.dropThread tid) p'

theorem change_of_step {a : Action} (ho : p.RangesOrdered) (h : p.step a = some p') :
    Change p a p' := by
  cases a with
  | syscall call =>
    obtain ⟨reply, hreply, rfl⟩ := map_eq_some_iff.1 h
    cases call with
    | mmapPage arg1 arg2 =>
      obtain rfl | ⟨base, m, hins, rfl⟩ := mmapPageHandler_spec ho hreply
      · exact .same
      · have hbase : base % 0x1000 = 0 := hins.aligned
        have hsize : roundUp arg2 % 0x1000 = 0 := roundUp_mod
        exact .insert hins (by dsimp only; omega) fun _ hs => Nat.lt_add_of_pos_right
          (Nat.lt_of_lt_of_le (Nat.pos_of_ne_zero hs) le_roundUp)
    | mmapPage32 =>
      obtain ⟨-, rfl⟩ | ⟨q, m, -, hmap, rfl⟩ := mmapPage32Handler_spec hreply
      · exact .same
      · obtain ⟨-, -, hnone, rfl⟩ := map_eq_ok_iff.1 hmap
        exact .map hnone
    | unmmapPage arg1 arg2 =>
      obtain rfl | ⟨r, m, hrem, hcmp, rfl⟩ := unmmapPageHandler_spec hreply
      · exact .same
      · refine .remove ?_ hrem hcmp
        by_contra hhigh
        simp [syscall, unmmapPageHandler, Nat.lt_of_not_le hhigh] at hreply
    | spawnThread =>
      obtain ⟨p', hnew, rfl⟩ := map_eq_some_iff.1 hreply
      exact .newThread hnew
  | pageFault =>
    obtain ⟨r, m, -, hm, rfl⟩ := pageFault_spec h
    obtain rfl | ⟨hnone, -, rfl⟩ := mapFault_eq_some hm
    · exact .same
    · exact .map hnone
  | dropThread =>
    obtain ⟨⟨r, q⟩, hdrop, rfl⟩ := map_eq_some_iff.1 h
    exact .dropThread hdrop
  | loadSegment =>
    obtain ⟨m, hins, rfl⟩ := loadSegment_spec ho h
    exact .insert hins segment_aligned fun _ hs =>
      Nat.lt_add_of_pos_right (Nat.pos_of_ne_zero hs)

theorem step_ordered {a : Action} (ho : p.RangesOrdered) (h : p.step a = some p') :
    p'.RangesOrdered := by
  cases change_of_step ho h with
  | same | map => exact ho
  | insert hins halign => exact hins.ordered halign
  | remove _ hrem => exact ho.sublist hrem.sublist
  | newThread hnew =>
    obtain ⟨m, m', -, hm', -, rfl⟩ := newThread_spec ho hnew
    exact hm'.ordered (kstackRange_aligned ..)
  | dropThread hdrop =>
    obtain ⟨m, -, hrem, -, rfl⟩ := dropThread_spec hdrop
    exact ho.sublist hrem.sublist

theorem reachable_ordered {p0 : Process} (hnew : Process.new privilege hpet = some p0)
    (hreach : Lts.Reachable Process.step p0 p) : p.RangesOrdered :=
  hreach.invariant (fun _ _ _ ho hstep => step_ordered ho hstep) (new_ordered hnew)

/-- `SPAWN_THREAD` by a user process, with a kernel stack in the physical pages from `frame` on. -/
def spawn (frame : Nat) : Call :=
  .spawnThread 0x400000 ⟨2, replicate 32 none⟩ ⟨3, (Span.span 0x1000 frame 16).map some⟩

end Process

end Fioxa.Paging
