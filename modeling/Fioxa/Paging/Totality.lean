import Fioxa.Paging.ProcessSteps

/-! # When the memory calls panic

The arguments of the calls reach assertions, additions, `unwrap` and `expect` without having been
checked. For every process that can come about, `Allowed` is exactly the condition under which a
call returns, be it with an error. Physical memory is assumed to be sufficient: the allocations of
a new thread succeed. -/

namespace Fioxa.Paging

open PageMapperManager List Option Lts
open TableSystem (frameOk)
open PageMapping (newLazyFilled mem_targets)

/-! ## New pages -/

/-- All pages have been allocated. -/
def Filled (pages : List (Option Nat)) : Prop := ∀ x ∈ pages, ∃ f, x = some f ∧ frameOk f = true

section targets

variable {base size v q : Nat} {pages : List (Option Nat)} {m : PageMapperManager}

theorem mem_targets_filled (hlen : pages.length = pageCount size) :
    (v, q) ∈ (newLazyFilled size pages).targets base ↔
      ∃ k, v = base + 0x1000 * k ∧ pages[k]? = some (some q) := by
  have hjoin : ∀ k, (newLazyFilled size pages).pageAt k = pages[k]?.join := fun _ => rfl
  simp only [mem_targets, hjoin, join_eq_some_iff]
  constructor
  · rintro ⟨k, -, hv, hk⟩
    exact ⟨k, hv, hk⟩
  · rintro ⟨k, hv, hk⟩
    have hlt : k < pages.length := (List.getElem?_eq_some_iff.1 hk).1
    exact ⟨k, hlen ▸ hlt, hv, hk⟩

theorem targets_of_none (h : ∀ x ∈ pages, x = none) :
    (newLazyFilled size pages).targets base = [] := by
  rw [eq_nil_iff_forall_not_mem]
  rintro ⟨v, q⟩ hmem
  obtain ⟨k, -, -, hk⟩ := mem_targets.1 hmem
  have hk' : pages[k]? = some (some q) := join_eq_some_iff.1 hk
  cases h _ (mem_of_getElem? hk')

theorem targets_of_filled (hlen : pages.length = pageCount size) (hfull : Filled pages)
    (hok : ∀ v ∈ pagesOf base (base + size), pageOk v = true) :
    (∀ t ∈ (newLazyFilled size pages).targets base,
        pageOk t.1 = true ∧ frameOk t.2 = true ∧ m.pageMapper t.1 = none) ↔
      ∀ v ∈ pagesOf base (base + size), m.pageMapper v = none := by
  have hpage : ∀ k < pages.length, base + 0x1000 * k ∈ pagesOf base (base + size) := by
    intro k hk
    refine Span.mem_span.2 ⟨k, ?_, rfl⟩
    rw [Nat.add_sub_cancel_left, ← hlen]
    exact hk
  constructor
  · intro h v hv
    obtain ⟨k, hk, rfl⟩ := Span.mem_span.1 hv
    rw [Nat.add_sub_cancel_left, ← hlen] at hk
    obtain ⟨f, hf, -⟩ := hfull _ (getElem_mem hk)
    have hget : pages[k]? = some (some f) := by rw [List.getElem?_eq_getElem hk, hf]
    exact (h _ ((mem_targets_filled hlen).2 ⟨k, rfl, hget⟩)).2.2
  · rintro h ⟨v, q⟩ ht
    obtain ⟨k, rfl, hk⟩ := (mem_targets_filled hlen).1 ht
    have hmem := hpage k (List.getElem?_eq_some_iff.1 hk).1
    obtain ⟨f, hf, hframe⟩ := hfull _ (mem_of_getElem? hk)
    cases hf
    exact ⟨hok _ hmem, hframe, h _ hmem⟩

theorem filled_map {frames : List Nat} (h : ∀ f ∈ frames, frameOk f = true) :
    Filled (frames.map some) := by
  intro x hx
  obtain ⟨f, hf, rfl⟩ := List.mem_map.1 hx
  exact ⟨f, rfl, h f hf⟩

theorem Filled.getLast (h : Filled pages) (hpos : 0 < pages.length) :
    ∃ f, pages.getLast?.join = some f := by
  have hne : pages ≠ [] := ne_nil_of_length_pos hpos
  obtain ⟨f, hf, -⟩ := h _ (getLast_mem hne)
  refine ⟨f, ?_⟩
  rw [List.getLast?_eq_some_getLast hne, hf]
  rfl

end targets

namespace Process

/-- Memory is sufficient: the pages that a new thread needs at once are allocated, which for a user
    process are those of the kernel stack. -/
def Supplied (p : Process) : Call → Prop
  | .spawnThread _ stack kstack =>
    stack.pages.length = pageCount stackSize ∧ kstack.pages.length = pageCount kstackSize ∧
      Filled kstack.pages ∧ (p.privilege = .kernel → Filled stack.pages) ∧
      (p.privilege = .user → ∀ x ∈ stack.pages, x = none)
  | _ => True

/-- `MMAP_PAGE` needs room, at a free place or at the given one. A range in the way is reported as
    an error; an empty range at the same address is not. -/
def MmapAllowed (p : Process) (arg1 arg2 : Nat) : Prop :=
  endUserMem < arg1 ∨
    arg2 + 0xFFF < 0x10000000000000000 ∧
      if arg1 = 0 then HasGap (roundUp arg2) p.pageMapper.mappings
      else
        arg1 % 0x1000 = 0 ∧ arg1 + roundUp arg2 < 0x10000000000000000 ∧
          ((∃ r ∈ p.pageMapper.mappings, r.overlaps arg1 (arg1 + roundUp arg2) = true) ∨
            ∀ r ∈ p.pageMapper.mappings, r.start ≠ arg1)

/-- `MMAP_PAGE32` needs a page other than 0 whose address is not in use. -/
def Mmap32Allowed (p : Process) (page : Option Nat) : Prop :=
  ∀ q, page = some q → frameOk q = true ∧ p.pageMapper.pageMapper q = none

/-- `UNMMAP_PAGE` must not find a range with pages that `Page::new` does not accept: page 0, or
    pages between the halves. -/
def UnmmapAllowed (p : Process) (arg1 arg2 : Nat) : Prop :=
  endUserMem < arg1 ∨
    arg1 + arg2 + 0xFFF < 0x10000000000000000 ∧
      ∀ i r, found p.pageMapper.mappings (·.compareRange arg1 (roundUp (arg1 + arg2)))
          = some (i, r) →
        r.start = r.stop ∨ r.start ≠ 0 ∧ r.stop ≤ 0x800000000000

/-- `SPAWN_THREAD` needs an entry point that `VirtAddr::new` accepts, and the places of the next two
    stacks. -/
def SpawnAllowed (p : Process) (entryPoint : Nat) : Prop :=
  let stack := stackBase p.threadNextId
  let kstack := kstackBase p.threadNextId
  virtAddrOk entryPoint = true ∧ p.exited = false ∧ kstack + kstackSize ≤ perCpuMem ∧
    p.pageMapper.Vacant stack stackSize ∧ p.pageMapper.Vacant kstack kstackSize ∧
    (p.privilege = .kernel → ∀ v ∈ pagesOf stack (stack + stackSize),
      p.pageMapper.pageMapper v = none) ∧
    ∀ v ∈ pagesOf kstack (kstack + kstackSize), p.pageMapper.pageMapper v = none

/-- The condition under which a call returns. -/
def Allowed (p : Process) : Call → Prop
  | .mmapPage arg1 arg2 _ => p.MmapAllowed arg1 arg2
  | .mmapPage32 page => p.Mmap32Allowed page
  | .unmmapPage arg1 arg2 => p.UnmmapAllowed arg1 arg2
  | .spawnThread entryPoint _ _ => p.SpawnAllowed entryPoint

variable {p p' : Process} {privilege : ProcessPrivilige} {hpet : Option Nat} {call : Call}
  {arg1 arg2 object tid entryPoint : Nat} {stack kstack : NewPages}

/-! ## Mapping and unmapping -/

theorem mmapPageHandler_isSome_iff (ho : p.RangesOrdered) :
    (p.mmapPageHandler arg1 arg2 object).isSome ↔ p.MmapAllowed arg1 arg2 := by
  unfold mmapPageHandler MmapAllowed
  split
  · rename_i hkernel
    simp [hkernel]
  · rename_i huser
    rw [or_iff_right huser]
    split
    · rename_i hover
      simp only [isSome_none, Bool.false_eq_true, false_iff, not_and]
      omega
    · rename_i hfits
      rw [and_iff_right (by omega)]
      by_cases hzero : arg1 = 0
      · simp only [if_pos hzero, isSome_map, insertMapping]
        exact position_isSome_iff ho
      · simp only [if_neg hzero]
        have hplace :
            (p.pageMapper.insertMappingAt arg1 (.newLazy (roundUp arg2)) object .all).isSome
              = (p.pageMapper.place arg1 (roundUp arg2)).isSome := insertMappingAt_isSome
        rw [← place_isSome_iff ho, ← hplace]
        split <;> simp [*]

theorem mmapPage32Handler_isSome_iff {page : Option Nat} :
    (p.mmapPage32Handler page).isSome ↔ p.Mmap32Allowed page := by
  unfold mmapPage32Handler Mmap32Allowed
  cases page with
  | none => simp
  | some =>
    simp only [Option.some.injEq, forall_eq']
    split
    · rename_i m hmap
      obtain ⟨-, hframe, hnone, -⟩ := map_eq_ok_iff.1 hmap
      simp [hframe, hnone]
    · rename_i hmap
      simp only [isSome_none, Bool.false_eq_true, false_iff]
      rintro ⟨hframe, hnone⟩
      exact hmap _ (map_eq_ok_iff.2 ⟨(frameOk_iff.1 hframe).1, hframe, hnone, rfl⟩)

/-- All pages of a range that starts in user memory are accepted by `Page::new` when the range ends
    in the lower half. -/
theorem pages_ok_iff {r : MappedRange} (hr : r.Valid)
    (hstart : r.start < r.stop → r.start ≤ 0xFFFFFFFFFFFF) :
    (∀ v ∈ pagesOf r.start r.stop, pageOk v = true) ↔
      r.start = r.stop ∨ r.start ≠ 0 ∧ r.stop ≤ 0x800000000000 := by
  have hle := hr.le
  have haligned := hr.start_aligned
  constructor
  · intro h
    by_cases heq : r.start = r.stop
    · exact .inl heq
    · refine .inr ⟨?_, ?_⟩
      · have hfirst := h r.start ((mem_pagesOf haligned haligned).2 ⟨by omega, by omega⟩)
        rw [pageOk_iff] at hfirst
        omega
      · by_contra hhigh
        -- the first page of the range in the gap between the halves
        have hmem : max r.start 0x800000000000 ∈ pagesOf r.start r.stop := by
          refine (mem_pagesOf haligned ?_).2 ⟨by omega, by omega⟩
          rcases Nat.le_total r.start 0x800000000000 with hmax | hmax
          · rw [Nat.max_eq_right hmax]
          · rw [Nat.max_eq_left hmax]
            exact haligned
        have hok := h _ hmem
        rw [pageOk_iff] at hok
        omega
  · intro h v hv
    have hbounds := bounds_of_mem_pagesOf hv
    have hv0 := aligned_of_mem_pagesOf haligned hv
    rw [pageOk_iff]
    omega

theorem unmmapPageHandler_isSome_iff (ho : p.RangesOrdered) :
    (p.unmmapPageHandler arg1 arg2).isSome ↔ p.UnmmapAllowed arg1 arg2 := by
  unfold unmmapPageHandler UnmmapAllowed
  split
  · rename_i hkernel
    simp [hkernel]
  · rename_i huser
    split
    · rename_i hover
      simp only [isSome_none, Bool.false_eq_true, false_iff]
      omega
    · rename_i hfits
      rw [and_iff_right (by omega)]
      have hfree : (p.pageMapper.freeMapping arg1 (roundUp (arg1 + arg2))).isSome ↔ _ :=
        freeMapping_isSome_iff
      have hreturns : (p.pageMapper.freeMapping arg1 (roundUp (arg1 + arg2))).isSome ↔
          ∀ i r, found p.pageMapper.mappings (·.compareRange arg1 (roundUp (arg1 + arg2)))
              = some (i, r) →
            r.start = r.stop ∨ r.start ≠ 0 ∧ r.stop ≤ 0x800000000000 := by
        rw [hfree]
        refine forall_congr' fun i => forall_congr' fun r => imp_congr_right fun hfound => ?_
        obtain ⟨hget, hcmp⟩ := found_eq_some hfound
        apply pages_ok_iff (ho.valid r (mem_of_getElem? hget))
        intro hne
        have heq := MappedRange.compareRange_eq.1 hcmp
        unfold endUserMem at huser
        omega
      rw [← hreturns]
      split <;> simp [*]

/-! ## New threads -/

/-- The pages of a stack can be mapped when the addresses are not in use; those of a user process
    are not mapped yet. -/
theorem stack_targets_iff (hlen : stack.pages.length = pageCount stackSize)
    (hkernel : p.privilege = .kernel → Filled stack.pages)
    (huser : p.privilege = .user → ∀ x ∈ stack.pages, x = none)
    (hlow : stackBase tid + stackSize < 0x800000000000) :
    (∀ t ∈ (newLazyFilled stackSize stack.pages).targets (stackBase tid),
        pageOk t.1 = true ∧ frameOk t.2 = true ∧ p.pageMapper.pageMapper t.1 = none) ↔
      (p.privilege = .kernel → ∀ v ∈ pagesOf (stackBase tid) (stackBase tid + stackSize),
        p.pageMapper.pageMapper v = none) := by
  cases hprivilege : p.privilege with
  | kernel =>
    rw [targets_of_filled hlen (hkernel hprivilege) (pagesOf_stack_ok hlow)]
    simp
  | user =>
    rw [targets_of_none (huser hprivilege)]
    simp

theorem kstack_place_iff {m m' : PageMapperManager} (hm : Inserts m (stackRange tid object)
      ((newLazyFilled stackSize stack.pages).targets (stackBase tid)) m')
    (hlow : stackBase tid + stackSize < 0x800000000000) :
    (m'.Vacant (kstackBase tid) kstackSize ↔ m.Vacant (kstackBase tid) kstackSize) ∧
      ∀ v ∈ pagesOf (kstackBase tid) (kstackBase tid + kstackSize),
        m'.pageMapper v = m.pageMapper v := by
  have hlt : stackBase tid + stackSize < kstackBase tid := by
    have hkbase := kstackBase_eq tid
    omega
  refine ⟨⟨fun h r hr => h r ((hm.mem_iff r).2 (.inr hr)), fun h r hr => ?_⟩, fun v hv => ?_⟩
  · obtain rfl | hr := (hm.mem_iff r).1 hr
    · refine ⟨overlaps_eq_false.2 (.inl (Nat.le_of_lt hlt)), ?_⟩
      show stackBase tid ≠ kstackBase tid
      omega
    · exact h r hr
  · apply hm.others
    intro q hq
    have hstack := bounds_of_mem_pagesOf (PageMapping.mem_pagesOf_of_mem_targets hq)
    have hkstack := bounds_of_mem_pagesOf hv
    simp only [newLazyFilled] at hstack
    omega

theorem exists_insertStack_iff {pages : List (Option Nat)} (ho : p.RangesOrdered) :
    (∃ p', p.insertStack tid object pages = some p') ↔
      stackBase tid + stackSize < 0x10000000000000000 ∧
        p.pageMapper.Vacant (stackBase tid) stackSize ∧
        ∀ t ∈ (newLazyFilled stackSize pages).targets (stackBase tid),
          pageOk t.1 = true ∧ frameOk t.2 = true ∧ p.pageMapper.pageMapper t.1 = none := by
  have halign : stackBase tid % 0x1000 = 0 := by
    rw [stackBase_eq]
    omega
  have hinsert : (∃ m, p.pageMapper.insertMappingAtSet (stackBase tid)
      (.newLazyFilled stackSize pages) object .all = some (some m)) ↔ _ :=
    exists_insertMappingAtSet_iff ho
  rw [and_iff_right halign] at hinsert
  refine Iff.trans ?_ hinsert
  simp only [insertStack, map_eq_some_iff, join_eq_some_iff]
  constructor
  · rintro ⟨p', m, hm, -⟩
    exact ⟨m, hm⟩
  · rintro ⟨m, hm⟩
    exact ⟨_, m, hm, rfl⟩

theorem exists_insertKstack_iff {pages : List (Option Nat)} (ho : p.RangesOrdered)
    (hlast : ∃ f, pages.getLast?.join = some f) :
    (∃ p', p.insertKstack tid entryPoint object pages = some p') ↔
      (kstackBase tid + kstackSize < 0x10000000000000000 ∧
        p.pageMapper.Vacant (kstackBase tid) kstackSize ∧
        ∀ t ∈ (newLazyFilled kstackSize pages).targets (kstackBase tid),
          pageOk t.1 = true ∧ frameOk t.2 = true ∧ p.pageMapper.pageMapper t.1 = none) ∧
      kstackBase tid + kstackSize ≤ perCpuMem ∧ virtAddrOk entryPoint = true ∧
        p.exited = false := by
  have halign : kstackBase tid % 0x1000 = 0 := by
    rw [kstackBase_eq]
    omega
  have hinsert : (∃ m, p.pageMapper.insertMappingAtSet (kstackBase tid)
      (.newLazyFilled kstackSize pages) object .onlyWriteable = some (some m)) ↔ _ :=
    exists_insertMappingAtSet_iff ho
  rw [and_iff_right halign] at hinsert
  obtain ⟨f, hf⟩ := hlast
  constructor
  · rintro ⟨p', h⟩
    simp only [insertKstack, hf] at h
    split at h
    · cases h
    · rename_i m hm
      split at h
      · rename_i hok
        refine ⟨hinsert.1 ⟨m, join_eq_some_iff.1 hm⟩, hok.1, hok.2.1, ?_⟩
        simpa using hok.2.2.2
      · cases h
  · rintro ⟨hplace, hbelow, hentry, hexited⟩
    obtain ⟨m, hm⟩ := hinsert.2 hplace
    have htop : virtAddrOk (stackBase tid + stackSize) = true :=
      decide_eq_true (.inl (Nat.lt_trans (stack_low hbelow) (by decide)))
    simp [insertKstack, hf, hm, hbelow, hentry, htop, hexited]

theorem newThread_isSome_iff (ho : p.RangesOrdered)
    (hsupply : p.Supplied (.spawnThread entryPoint stack kstack)) :
    (p.newThread entryPoint stack kstack).isSome ↔ p.SpawnAllowed entryPoint := by
  obtain ⟨hlen, hklen, hkfull, hkernel, huser⟩ := hsupply
  have hlast := hkfull.getLast (by rw [hklen]; decide)
  have hstack_iff :
      (∃ p1, p.takeId.insertStack p.threadNextId stack.object stack.pages = some p1) ↔ _ :=
    exists_insertStack_iff ho
  constructor
  · intro h
    obtain ⟨p', h⟩ := isSome_iff_exists.1 h
    simp only [newThread] at h
    split at h
    · cases h
    · rename_i p1 hstack
      obtain ⟨-, hvacant, htargets⟩ := hstack_iff.1 ⟨p1, hstack⟩
      obtain ⟨m, hm, rfl⟩ := insertStack_spec (p := p.takeId) ho hstack
      have hom : RangesOrdered { p.takeId with pageMapper := m } :=
        hm.ordered (stackRange_aligned ..)
      obtain ⟨⟨hbound, hkvacant, hktargets⟩, hbelow, hentry, hexited⟩ :=
        (exists_insertKstack_iff hom hlast).1 ⟨p', h⟩
      have hlow := stack_low hbelow
      obtain ⟨hkplace, hktable⟩ := kstack_place_iff hm hlow
      refine ⟨hentry, hexited, hbelow, hvacant, hkplace.1 hkvacant,
        (stack_targets_iff hlen hkernel huser hlow).1 htargets, ?_⟩
      intro v hv
      have hnone := (targets_of_filled hklen hkfull (pagesOf_kstack_ok hbound)).1 hktargets v hv
      exact (hktable v hv).symm.trans hnone
  · rintro ⟨hentry, hexited, hbelow, hvacant, hkvacant, htable, hktable⟩
    have hlow := stack_low hbelow
    have hbound : kstackBase p.threadNextId + kstackSize < 0x10000000000000000 :=
      Nat.lt_of_le_of_lt hbelow (by decide)
    obtain ⟨p1, hstack⟩ := hstack_iff.2 ⟨by omega, hvacant,
      (stack_targets_iff hlen hkernel huser hlow).2 htable⟩
    obtain ⟨m, hm, rfl⟩ := insertStack_spec (p := p.takeId) ho hstack
    have hom : RangesOrdered { p.takeId with pageMapper := m } :=
      hm.ordered (stackRange_aligned ..)
    obtain ⟨hkplace, hsame⟩ := kstack_place_iff hm hlow
    have hktargets := (targets_of_filled hklen hkfull (pagesOf_kstack_ok hbound)).2 fun v hv =>
      (hsame v hv).trans (hktable v hv)
    obtain ⟨p', h⟩ := (exists_insertKstack_iff hom hlast).2
      ⟨⟨hbound, hkplace.2 hkvacant, hktargets⟩, hbelow, hentry, hexited⟩
    simp only [newThread, hstack]
    exact isSome_iff_exists.2 ⟨p', h⟩

/-! ## All calls -/

/-- In every process that can come about, a call returns exactly under the condition `Allowed`. -/
theorem memory_calls_return_iff {p₀ : Process} (hnew : Process.new privilege hpet = some p₀)
    (hreach : Lts.Reachable Process.step p₀ p) (hsupply : p.Supplied call) :
    (p.syscall call).isSome ↔ p.Allowed call := by
  have ho : p.RangesOrdered := reachable_ordered hnew hreach
  cases call with
  | mmapPage => exact mmapPageHandler_isSome_iff ho
  | mmapPage32 => exact mmapPage32Handler_isSome_iff
  | unmmapPage => exact unmmapPageHandler_isSome_iff ho
  | spawnThread entryPoint stack kstack =>
    have hthread := newThread_isSome_iff ho hsupply
    show ((p.newThread entryPoint stack kstack).map _).isSome ↔ p.SpawnAllowed entryPoint
    rw [isSome_map, hthread]

theorem supplied_spawn {frame : Nat} (hp : p.privilege = .user)
    (h : ∀ f ∈ Span.span 0x1000 frame 16, frameOk f = true) : p.Supplied (spawn frame) := by
  refine ⟨by decide, by simp [Span.span, pageCount, kstackSize], filled_map h, ?_, ?_⟩
  · intro hk
    rw [hp] at hk
    cases hk
  · intro _ x hx
    exact eq_of_mem_replicate hx

/-- The second thread of a process. -/
theorem memory_calls_return_second_thread :
    ∃ p₀ p, Process.new .user none = some p₀ ∧
      run Process.step p₀ [.syscall (spawn 0x200000)] = some p ∧ p.Supplied (spawn 0x210000) ∧
      (p.syscall (spawn 0x210000)).isSome ∧ p.Allowed (spawn 0x210000) := by
  have hrun : ∃ p₀ ∈ Process.new .user none,
      ∃ p ∈ run Process.step p₀ [.syscall (spawn 0x200000)],
        p.privilege = .user ∧ (p.syscall (spawn 0x210000)).isSome = true := by decide
  obtain ⟨p₀, hnew, p, hp, hprivilege, hsome⟩ := hrun
  have hsupply : p.Supplied (spawn 0x210000) := supplied_spawn hprivilege (by decide)
  exact ⟨p₀, p, hnew, hp, hsupply, hsome, (memory_calls_return_iff hnew ⟨_, hp⟩ hsupply).1 hsome⟩

/-- Calls that panic, each with the history before it. -/
def panics : List (List Action × Call) :=
  [ -- an address that is not the start of a page
    ([], .mmapPage 0x1001 0x1000 4),
    -- the size overflows when it is rounded up
    ([], .mmapPage 0 0xFFFFFFFFFFFFFFFF 4),
    -- an empty range is at the same place
    ([.syscall (.mmapPage 0x10000 0 4)], .mmapPage 0x10000 0x1000 5),
    -- the end of the range overflows
    ([], .unmmapPage 0x1000 0xFFFFFFFFFFFFF000),
    -- `Page::new` does not accept the pages of the range
    ([.syscall (.mmapPage 0x800000000000 0x1000 4)], .unmmapPage 0x800000000000 0x1000),
    -- `VirtAddr::new` does not accept the entry point
    ([], .spawnThread 0x1000000000000 ⟨2, replicate 32 none⟩
      ⟨3, (Span.span 0x1000 0x200000 16).map some⟩),
    -- the place of the stack is taken
    ([.syscall (.mmapPage (stackBase 0) 0x1000 4)], spawn 0x200000),
    -- the address of the 32-bit page is in use
    ([.syscall (.mmapPage 0x50000 0x1000 4), .pageFault 0x50000 0x200000],
      .mmapPage32 (some 0x50000))]

theorem memory_calls_panic : ∃ p₀, Process.new .user none = some p₀ ∧
    ∀ x ∈ panics, ∃ p, run Process.step p₀ x.1 = some p ∧ p.syscall x.2 = none := by
  have hrun : ∃ p₀ ∈ Process.new .user none, ∀ x ∈ panics,
      ∃ p ∈ run Process.step p₀ x.1, (p.syscall x.2).isNone = true := by decide
  obtain ⟨p₀, hnew, hpanics⟩ := hrun
  refine ⟨p₀, hnew, fun x hx => ?_⟩
  obtain ⟨p, hp, hnone⟩ := hpanics x hx
  exact ⟨p, hp, isNone_iff_eq_none.1 hnone⟩

end Process

end Fioxa.Paging
