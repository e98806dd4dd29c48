import Fioxa.Paging.ProcessSteps

/-! # The mappings that the kernel needs

Interrupts are acknowledged through the page of the local APIC, timers are read through that of the
HPET, and the destructor of a thread unwraps the result of freeing its stack. All of these are
ordinary elements of the list of ranges, and the program can remove them. They stay as long as no
`UNMMAP_PAGE` names exactly one of them and no empty range is inserted: an empty range counts as
smaller than any other, so that `free_mapping` misses ranges before it. -/

namespace Fioxa.Paging

open PageMapperManager List Option Function Lts

namespace Process

/-- The mappings of the local APIC and the HPET and the stacks of the threads are there, the
    registers of the APIC are mapped, and the stacks can be freed. -/
structure KernelMapped (hpet : Option Nat) (p : Process) : Prop where
  apic : apicRange ∈ p.pageMapper.mappings
  hpet : ∀ base, hpet = some base → hpetRange base ∈ p.pageMapper.mappings
  threadStacks : ∀ tid ∈ p.threads, ∃ object, stackRange tid object ∈ p.pageMapper.mappings
  acknowledge : p.pageMapper.pageMapper 0xfee00000 = some (0xfee00000, .onlyWriteable)
  freed : ∀ tid ∈ p.threads, ∃ r m,
    p.pageMapper.freeMapping (stackBase tid) (stackBase tid + stackSize) = some (.ok (r, m))

end Process

/-! ## Inserting and removing -/

/-- What holds of the ranges and the table of a process with these threads. -/
structure Keeps (hpet : Option Nat) (threads : List Nat) (m : PageMapperManager) : Prop where
  ordered : Ordered m.mappings
  nonempty : ∀ r ∈ m.mappings, r.start < r.stop
  apic : apicRange ∈ m.mappings
  hpet : ∀ base, hpet = some base → hpetRange base ∈ m.mappings
  threadStacks : ∀ tid ∈ threads, ∃ object, stackRange tid object ∈ m.mappings
  acknowledge : m.pageMapper 0xfee00000 = some (0xfee00000, .onlyWriteable)

namespace Keeps

variable {hpet : Option Nat} {threads threads' : List Nat} {m m' : PageMapperManager}
  {r : MappedRange}

theorem inserts {pages : List (Nat × Nat)} (h : Keeps hpet threads m)
    (hins : Inserts m r pages m') (hr : r.start < r.stop) (halign : r.stop % 0x1000 = 0) :
    Keeps hpet threads m' where
  ordered := hins.ordered halign
  nonempty x hx := by
    rcases (hins.mem_iff x).1 hx with rfl | hx
    · exact hr
    · exact h.nonempty x hx
  apic := (hins.mem_iff _).2 (.inr h.apic)
  hpet base hbase := (hins.mem_iff _).2 (.inr (h.hpet base hbase))
  threadStacks tid htid := by
    obtain ⟨object, hmem⟩ := h.threadStacks tid htid
    exact ⟨object, (hins.mem_iff _).2 (.inr hmem)⟩
  acknowledge := hins.keeps h.acknowledge

theorem map {v : Nat} {e : Nat × MemoryMappingFlags} (h : Keeps hpet threads m)
    (hv : m.pageMapper v = none) :
    Keeps hpet threads { m with pageMapper := update m.pageMapper v (some e) } where
  ordered := h.ordered
  nonempty := h.nonempty
  apic := h.apic
  hpet := h.hpet
  threadStacks := h.threadStacks
  acknowledge := by
    have hne : 0xfee00000 ≠ v := by
      rintro rfl
      rw [h.acknowledge] at hv
      cases hv
    show update m.pageMapper v (some e) 0xfee00000 = _
    rw [update_of_ne hne]
    exact h.acknowledge

theorem removes (h : Keeps hpet threads m) (hrem : Removes m r m') (hsub : threads' ⊆ threads)
    (hspare : (r.start, r.stop) ∉ kernelRanges hpet threads') : Keeps hpet threads' m' := by
  simp only [kernelRanges, cons_append, mem_cons, mem_append, List.mem_map,
    Option.mem_toList, not_or, not_exists, not_and] at hspare
  obtain ⟨hapic, hhpet, hstacks⟩ := hspare
  have hne : apicRange ≠ r := by
    rintro rfl
    exact hapic rfl
  refine ⟨h.ordered.sublist hrem.sublist, fun x hx => h.nonempty x (hrem.sublist.subset hx),
    (hrem.kept _ h.apic).resolve_left hne, ?_, ?_, ?_⟩
  · intro base hbase
    refine (hrem.kept _ (h.hpet base hbase)).resolve_left ?_
    rintro rfl
    exact hhpet base hbase rfl
  · intro tid htid
    obtain ⟨object, hmem⟩ := h.threadStacks tid (hsub htid)
    refine ⟨object, (hrem.kept _ hmem).resolve_left ?_⟩
    rintro rfl
    exact hstacks tid htid rfl
  · -- the range that goes is apart from the page of the APIC
    rw [hrem.table, if_neg, h.acknowledge]
    intro hpage
    have hbounds := bounds_of_mem_pagesOf hpage
    have hapart := h.ordered.apart_of_ne h.apic hrem.mem hne
    have hstart : apicRange.start = 0xfee00000 := rfl
    have hstop : apicRange.stop = 0xfee01000 := rfl
    omega

end Keeps

/-! ## Runs -/

namespace Process

variable {hpet : Option Nat} {p p' : Process} {privilege : ProcessPrivilige}

/-- The invariant. -/
structure Kept (hpet : Option Nat) (p : Process) : Prop where
  keeps : Keeps hpet p.threads p.pageMapper
  nodup : p.threads.Nodup
  below : ∀ tid ∈ p.threads, tid < p.threadNextId
  low : ∀ tid ∈ p.threads, stackBase tid + stackSize < 0x800000000000

theorem Kept.kernelMapped (h : Kept hpet p) : KernelMapped hpet p where
  apic := h.keeps.apic
  hpet := h.keeps.hpet
  threadStacks := h.keeps.threadStacks
  acknowledge := h.keeps.acknowledge
  freed tid htid := by
    obtain ⟨object, hmem⟩ := h.keeps.threadStacks tid htid
    have hpages := pagesOf_stack_ok (h.low tid htid)
    obtain ⟨m, hm⟩ := exists_freeMapping h.keeps.ordered h.keeps.nonempty hmem hpages
    exact ⟨_, m, hm⟩

theorem new_kept (h : Process.new privilege hpet = some p) : Kept hpet p := by
  obtain ⟨m, hm, hcase⟩ := new_spec h
  have hkeeps : Keeps none [] m := by
    refine ⟨hm.ordered (by decide), ?_, (hm.mem_iff _).2 (.inl rfl), by simp, by simp,
      hm.mapped _ _ (mem_singleton_self _)⟩
    intro r hr
    obtain rfl | hr := (hm.mem_iff r).1 hr
    · decide
    · cases hr
  obtain ⟨rfl, rfl⟩ | ⟨base, m', rfl, hm', rfl⟩ := hcase
  · exact ⟨hkeeps, nodup_nil, by simp, by simp⟩
  · have hkeeps' := hkeeps.inserts hm' (Nat.lt_add_of_pos_right (by decide)) (hpetRange_aligned hm')
    refine ⟨{ hkeeps' with hpet := ?_ }, nodup_nil, by simp, by simp⟩
    rintro b ⟨⟩
    exact (hm'.mem_iff _).2 (.inl rfl)

theorem Kept.newThread {entryPoint : Nat} {stack kstack : NewPages} (h : Kept hpet p)
    (hnew : p.newThread entryPoint stack kstack = some p') : Kept hpet p' := by
  obtain ⟨m, m', hm, hm', hbelow, rfl⟩ := newThread_spec h.keeps.ordered hnew
  have hstack := h.keeps.inserts hm (Nat.lt_add_of_pos_right (by decide)) (stackRange_aligned ..)
  have hkstack := hstack.inserts hm' (Nat.lt_add_of_pos_right (by decide)) (kstackRange_aligned ..)
  refine ⟨{ hkstack with threadStacks := ?_ }, ?_, ?_, ?_⟩
  · intro tid htid
    rcases mem_cons.1 htid with rfl | htid
    · exact ⟨stack.object, (hm'.mem_iff _).2 (.inr ((hm.mem_iff _).2 (.inl rfl)))⟩
    · exact hkstack.threadStacks tid htid
  · refine nodup_cons.2 ⟨?_, h.nodup⟩
    intro hmem
    exact absurd (h.below _ hmem) (Nat.lt_irrefl _)
  · intro tid htid
    rcases mem_cons.1 htid with rfl | htid
    · exact Nat.lt_succ_self _
    · exact Nat.lt_succ_of_lt (h.below tid htid)
  · intro tid htid
    rcases mem_cons.1 htid with rfl | htid
    · exact stack_low hbelow
    · exact h.low tid htid

/-- No range is empty, so that one which compares equal has the same bounds. -/
theorem Kept.range_eq {r : MappedRange} {start stop : Nat} (h : Kept hpet p)
    (hr : r ∈ p.pageMapper.mappings) (hcmp : r.compareRange start stop = .eq) :
    (r.start, r.stop) = (start, stop) := by
  have hne := h.keeps.nonempty r hr
  obtain ⟨hstart, hstop⟩ | hempty := MappedRange.compareRange_eq.1 hcmp
  · rw [hstart, hstop]
  · omega

theorem Kept.dropThread {tid : Nat} {r : MappedRange} (h : Kept hpet p)
    (hdrop : p.dropThread tid = some (r, p')) : Kept hpet p' := by
  obtain ⟨m, htid, hrem, hcmp, rfl⟩ := dropThread_spec hdrop
  have hrange := h.range_eq hrem.mem hcmp
  have hsub : (p.threads.erase tid).Sublist p.threads := erase_sublist
  refine ⟨h.keeps.removes hrem hsub.subset ?_, h.nodup.sublist hsub,
    fun t ht => h.below t (hsub.subset ht), fun t ht => h.low t (hsub.subset ht)⟩
  rw [hrange]
  simp only [kernelRanges, cons_append, mem_cons, mem_append, List.mem_map,
    Option.mem_toList, Prod.mk.injEq, not_or, not_exists, not_and]
  refine ⟨?_, ?_, ?_⟩
  · have := stackBase_eq tid
    omega
  · intro base _ hbase hsize
    simp only [stackSize] at hsize
    omega
  · intro t ht heq _
    have hne : t ≠ tid := (h.nodup.mem_erase_iff.1 ht).1
    rw [stackBase_eq, stackBase_eq] at heq
    omega

theorem Kept.step {a : Action} (h : Kept hpet p) (hs : p.Spares hpet a)
    (hstep : p.step a = some p') : Kept hpet p' := by
  cases change_of_step h.keeps.ordered hstep with
  | same => exact h
  | map hnone => exact ⟨h.keeps.map hnone, h.nodup, h.below, h.low⟩
  | insert hins halign hpos =>
    exact ⟨h.keeps.inserts hins (hpos _ hs) halign, h.nodup, h.below, h.low⟩
  | remove _ hrem hcmp =>
    have hrange := h.range_eq hrem.mem hcmp
    exact ⟨h.keeps.removes hrem (Subset.refl _) (hrange ▸ hs), h.nodup, h.below, h.low⟩
  | newThread hnew => exact h.newThread hnew
  | dropThread hdrop => exact h.dropThread hdrop

/-- The mappings of the kernel stay through every history in which no call removes exactly one of
    them and no empty range is inserted. -/
theorem kernel_mappings_survive {as : List Action} (hnew : Process.new privilege hpet = some p)
    (hspares : Lts.Guarded Process.step (Spares hpet) p as) :
    Lts.Always Process.step (KernelMapped hpet) p as :=
  always_of_guarded (fun _ h => h.kernelMapped) (fun _ _ _ h hs hstep => h.step hs hstep)
    (new_kept hnew) hspares

/-! ### A program with one thread -/

/-- A program is loaded and started, maps and unmaps memory, and its thread ends. -/
def ordinaryRun : List Action :=
  [.loadSegment 0x400000 0x1500 4 .all, .syscall (spawn 0x200000), .syscall (.mmapPage 0 0x3000 5),
    .pageFault 0x403800 0x210000, .syscall (.mmapPage32 (some 0x50000)),
    .syscall (.unmmapPage 0x403000 0x3000), .dropThread 0]

theorem kernel_mappings_survive_ordinaryRun :
    ∃ p q, Process.new .user (some 0xfed00000) = some p ∧
      run Process.step p ordinaryRun = some q ∧
      Lts.Guarded Process.step (Spares (some 0xfed00000)) p ordinaryRun ∧
      Lts.Always Process.step (KernelMapped (some 0xfed00000)) p ordinaryRun := by
  have hrun : ∃ p ∈ Process.new .user (some 0xfed00000),
      Lts.Guarded Process.step (Spares (some 0xfed00000)) p ordinaryRun ∧
      ∃ q ∈ run Process.step p ordinaryRun, q.threads = [] := by decide
  obtain ⟨p, hnew, hguarded, q, hq, -⟩ := hrun
  exact ⟨p, q, hnew, hq, hguarded, kernel_mappings_survive hnew hguarded⟩

/-- A program removes the page of the APIC. Another one inserts an empty range behind its stack, and
    then the destructor of its thread would panic: the search goes past the empty range and misses
    the stack. -/
theorem unmmap_page_removes_apic :
    (∃ p q, Process.new .user (some 0xfed00000) = some p ∧
      run Process.step p
        [.syscall (spawn 0x200000), .syscall (.unmmapPage 0xfee00000 0x1000)] = some q ∧
      q.pageMapper.pageMapper 0xfee00000 = none ∧ ¬ KernelMapped (some 0xfed00000) q) ∧
    ∃ p q, Process.new .user (some 0xfed00000) = some p ∧
      run Process.step p
        [.syscall (spawn 0x200000), .syscall (.mmapPage 0x200000000000 0 5)] = some q ∧
      0 ∈ q.threads ∧ ¬ KernelMapped (some 0xfed00000) q := by
  constructor
  · have hrun : ∃ p ∈ Process.new .user (some 0xfed00000), ∃ q ∈ run Process.step p
        [.syscall (spawn 0x200000), .syscall (.unmmapPage 0xfee00000 0x1000)],
        apicRange ∉ q.pageMapper.mappings ∧ q.pageMapper.pageMapper 0xfee00000 = none := by decide
    obtain ⟨p, hp, q, hq, hgone, hnone⟩ := hrun
    exact ⟨p, q, hp, hq, hnone, fun h => hgone h.apic⟩
  · have hrun : ∃ p ∈ Process.new .user (some 0xfed00000), ∃ q ∈ run Process.step p
        [.syscall (spawn 0x200000), .syscall (.mmapPage 0x200000000000 0 5)],
        0 ∈ q.threads ∧ found q.pageMapper.mappings
          (·.compareRange (stackBase 0) (stackBase 0 + stackSize)) = none := by decide
    obtain ⟨p, hp, q, hq, hthread, hmiss⟩ := hrun
    refine ⟨p, q, hp, hq, hthread, fun h => ?_⟩
    obtain ⟨r, m, hfree⟩ := h.freed 0 hthread
    simp [freeMapping, hmiss] at hfree

end Process

/-! ## Stacks of threads that are gone -/

/-- `Drop for Thread` frees the stack of a thread and leaves its kernel stack, which nothing else
    can free either: the program names addresses of the lower half only. -/
structure KstacksStay (next : Nat) (threads : List Nat) (m : PageMapperManager) : Prop where
  ordered : Ordered m.mappings
  low : ∀ tid ∈ threads, stackBase tid + stackSize < 0x800000000000
  kstacks : ∀ tid < next, ∃ object, kstackRange tid object ∈ m.mappings

namespace KstacksStay

variable {next : Nat} {threads threads' : List Nat} {m m' : PageMapperManager} {r : MappedRange}

theorem inserts {pages : List (Nat × Nat)} (h : KstacksStay next threads m)
    (hins : Inserts m r pages m') (halign : r.stop % 0x1000 = 0) : KstacksStay next threads m' where
  ordered := hins.ordered halign
  low := h.low
  kstacks tid htid := by
    obtain ⟨object, hmem⟩ := h.kstacks tid htid
    exact ⟨object, (hins.mem_iff _).2 (.inr hmem)⟩

theorem removes {start stop : Nat} (h : KstacksStay next threads m) (hsub : threads' ⊆ threads)
    (hrem : Removes m r m') (hcmp : r.compareRange start stop = .eq) (hlow : start < kstackAddr) :
    KstacksStay next threads' m' where
  ordered := h.ordered.sublist hrem.sublist
  low tid htid := h.low tid (hsub htid)
  kstacks tid htid := by
    obtain ⟨object, hmem⟩ := h.kstacks tid htid
    refine ⟨object, (hrem.kept _ hmem).resolve_left ?_⟩
    rintro rfl
    have hbounds : (kstackRange tid object).start = kstackAddr + 0x11000 * tid ∧
        (kstackRange tid object).stop = (kstackRange tid object).start + 0x10000 := ⟨rfl, rfl⟩
    have hcases := MappedRange.compareRange_eq.1 hcmp
    omega

end KstacksStay

namespace Process

variable {hpet : Option Nat} {p p' p₀ : Process} {privilege : ProcessPrivilige}

theorem newThread_kstacksStay {entryPoint : Nat} {stack kstack : NewPages}
    (h : KstacksStay p.threadNextId p.threads p.pageMapper)
    (hnew : p.newThread entryPoint stack kstack = some p') :
    KstacksStay p'.threadNextId p'.threads p'.pageMapper := by
  obtain ⟨m, m', hm, hm', hbelow, rfl⟩ := newThread_spec h.ordered hnew
  have hkept := (h.inserts hm (stackRange_aligned ..)).inserts hm' (kstackRange_aligned ..)
  have hmem := (hm'.mem_iff _).2 (.inl rfl)
  refine ⟨hkept.ordered, fun tid htid => ?_, fun tid htid => ?_⟩
  · rcases mem_cons.1 htid with rfl | htid
    · exact stack_low hbelow
    · exact h.low tid htid
  · rcases Nat.lt_succ_iff_lt_or_eq.1 htid with htid | rfl
    · exact hkept.kstacks tid htid
    · exact ⟨_, hmem⟩

theorem step_kstacksStay {a : Action} (h : KstacksStay p.threadNextId p.threads p.pageMapper)
    (hstep : p.step a = some p') : KstacksStay p'.threadNextId p'.threads p'.pageMapper := by
  cases change_of_step h.ordered hstep with
  | same => exact h
  | map => exact ⟨h.ordered, h.low, h.kstacks⟩
  | insert hins halign => exact h.inserts hins halign
  | remove hlow hrem hcmp =>
    exact h.removes (Subset.refl _) hrem hcmp (Nat.lt_of_le_of_lt hlow (by decide))
  | newThread hnew => exact newThread_kstacksStay h hnew
  | dropThread hdrop =>
    obtain ⟨m, htid, hrem, hcmp, rfl⟩ := dropThread_spec hdrop
    have hlow := h.low _ htid
    refine h.removes erase_subset hrem hcmp ?_
    unfold kstackAddr
    omega

/-- Of a thread that has been created, no stack is left behind exactly as long as the thread
    exists: its kernel stack is never freed. -/
theorem stacks_freed_iff (hnew : Process.new privilege hpet = some p₀)
    (hreach : Lts.Reachable Process.step p₀ p) (tid : Nat) (htid : tid < p.threadNextId) :
    (tid ∉ p.threads → ∀ object, stackRange tid object ∉ p.pageMapper.mappings ∧
        kstackRange tid object ∉ p.pageMapper.mappings) ↔ tid ∈ p.threads := by
  have hinit : KstacksStay p₀.threadNextId p₀.threads p₀.pageMapper := by
    have ho := new_ordered hnew
    obtain ⟨m, -, ⟨-, rfl⟩ | ⟨base, m', -, -, rfl⟩⟩ := new_spec hnew
    · exact ⟨ho, by simp, by simp⟩
    · exact ⟨ho, by simp, by simp⟩
  have h := hreach.invariant (I := fun p => KstacksStay p.threadNextId p.threads p.pageMapper)
    (fun _ _ _ h hstep => step_kstacksStay h hstep) hinit
  constructor
  · intro hfreed
    by_contra hgone
    obtain ⟨object, hmem⟩ := h.kstacks tid htid
    exact (hfreed hgone object).2 hmem
  · intro hlive hgone
    exact absurd hlive hgone

theorem stacks_freed_live : ∃ p q, Process.new .user none = some p ∧
    Process.step p (.syscall (spawn 0x200000)) = some q ∧ 0 ∈ q.threads ∧
    (0 ∉ q.threads → ∀ object, stackRange 0 object ∉ q.pageMapper.mappings ∧
      kstackRange 0 object ∉ q.pageMapper.mappings) := by
  have hrun : ∃ p ∈ Process.new .user none, ∃ q ∈ Process.step p (.syscall (spawn 0x200000)),
      0 ∈ q.threads ∧ 0 < q.threadNextId := by decide
  obtain ⟨p, hp, q, hq, hlive, hlt⟩ := hrun
  exact ⟨p, q, hp, hq, hlive, (stacks_freed_iff hp (.single hq) 0 hlt).2 hlive⟩

/-- A thread is created and ends; its kernel stack stays. -/
theorem dropThread_leaves_kstack : ∃ p q, Process.new .user none = some p ∧
    run Process.step p [.syscall (spawn 0x200000), .dropThread 0] = some q ∧
    q.threads = [] ∧ kstackRange 0 3 ∈ q.pageMapper.mappings := by
  have hrun : ∃ p ∈ Process.new .user none, ∃ q ∈ run Process.step p
      [.syscall (spawn 0x200000), .dropThread 0],
      q.threads = [] ∧ kstackRange 0 3 ∈ q.pageMapper.mappings := by decide
  obtain ⟨p, hp, q, hq, hgone, hmem⟩ := hrun
  exact ⟨p, q, hp, hq, hgone, hmem⟩

end Process

end Fioxa.Paging
