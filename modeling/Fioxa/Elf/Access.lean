import Fioxa.Elf.Thread

/-! # What a loaded process can access

The address space that `load_elf` leaves: the segments, the two stacks of the first thread, and the
pages of the local APIC and the HPET. Only the segments and the stack are for user space, so that an
access with the permissions of a segment goes to one of these. -/

namespace Fioxa.Elf.Loading

open Faults Paging PageMapperManager List Option PageMapping

variable {e : Loader} {data : List UInt8} {privilege : ProcessPrivilige} {p0 : Paging.Process}
  {gs : List Segment} {g : Segment} {s s' : Loading} {a k v page entry offset : Nat}
  {r : MappedRange} {b : UInt8} {flags : MemoryMappingFlags}

/-- An address in the stack of the first thread. -/
def InStack (a : Nat) : Prop := stackBase 0 ≤ a ∧ a < stackBase 0 + stackSize

/-- The process with the segments `gs` and its first thread. -/
structure Complete (e : Loader) (data : List UInt8) (gs : List Segment) (s : Loading) : Prop where
  ordered : Ordered s.process.pageMapper.mappings
  segment : ∀ (k : Nat) (g : Segment), gs[k]? = some g →
    g.range (e.objects.length + k) ∈ s.process.pageMapper.mappings
  contents : ∀ (k : Nat) (g : Segment), gs[k]? = some g → ∀ offset < g.size,
    s.peek (e.objects.length + k) offset = some (image g.shift (g.contents data) offset)
  /-- The pages of a segment are mapped by page faults. -/
  unmapped : ∀ g ∈ gs, ∀ v, g.start ≤ v → v < g.stop → s.process.pageMapper.pageMapper v = none
  stack : ∃ object, stackRange 0 object ∈ s.process.pageMapper.mappings ∧
    ∀ offset < stackSize, s.peek object offset = some 0
  stack_table : ∀ v, InStack v → s.process.pageMapper.pageMapper v = none ∨
    ∃ page, s.process.pageMapper.pageMapper v = some (page, .all) ∧
      ∀ i < 0x1000, s.bytes (page + i) = 0
  /-- Everything for user space is a segment or the stack. -/
  user_range : ∀ r ∈ s.process.pageMapper.mappings, r.flags.userspace = true →
    (∃ object, r = stackRange 0 object) ∨ ∃ g ∈ gs, ∃ object, r = g.range object
  user_table : ∀ v page flags, s.process.pageMapper.pageMapper v = some (page, flags) →
    flags.userspace = true → InStack v

/-! ## Addresses -/

theorem InStack.of_pageBase (h : InStack (pageBase a)) : InStack a := by
  have hbase := stackBase_eq 0
  have hsize : stackSize = 0x20000 := rfl
  unfold InStack pageBase at *
  omega

theorem InStack.pageBase (h : InStack a) : InStack (pageBase a) := by
  have hbase := stackBase_eq 0
  have hsize : stackSize = 0x20000 := rfl
  unfold InStack Paging.pageBase at *
  omega

theorem pageOk_pageBase (huser : a ≤ endUserMem) :
    pageOk (pageBase a) = true ↔ 0x1000 ≤ a ∧ a < 0x800000000000 := by
  have hend : endUserMem = 0xFFFFFFFFFFFF := rfl
  rw [pageOk_iff]
  unfold pageBase
  omega

/-! ## Accesses -/

theorem Complete.access_stack (h : Complete e data gs s) (ha : InStack a) :
    s.access a = some (0, .all) := by
  rcases h.stack_table _ ha.pageBase with hnone | ⟨page, hsome, hzero⟩
  · obtain ⟨object, hmem, hpeek⟩ := h.stack
    have hbase := stackBase_eq 0
    have hsize : stackSize = 0x20000 := rfl
    have hend : endUserMem = 0xFFFFFFFFFFFF := rfl
    obtain ⟨hstart, hstop⟩ := ha
    have hfaulting := faulting_of_mem h.ordered hmem hstart hstop (by omega)
    have hok : pageOk (pageBase a) = true := (pageOk_pageBase (by omega)).2 (by omega)
    have hbyte : s.peek (stackRange 0 object).object (a - (stackRange 0 object).start) = some 0 :=
      hpeek _ (by show a - stackBase 0 < stackSize; omega)
    simp only [access, hnone, hfaulting, hok, hbyte, if_true, map_some]
    rfl
  · simp only [access, hsome, hzero _ (Nat.mod_lt a (by decide))]

theorem Complete.access_segment (h : Complete e data gs s) (hk : gs[k]? = some g)
    (hstart : g.start ≤ a) (hstop : a < g.stop) (hlow : 0x1000 ≤ a) (hhigh : a < 0x800000000000) :
    s.access a = some (image g.shift (g.contents data) (a - g.start), g.flags) := by
  have hend : endUserMem = 0xFFFFFFFFFFFF := rfl
  have hbase : g.start ≤ pageBase a ∧ pageBase a < g.stop := by
    have hmod := g.start_mod
    unfold pageBase
    omega
  have hnone := h.unmapped g (mem_of_getElem? hk) (pageBase a) hbase.1 hbase.2
  have hfaulting := faulting_of_mem h.ordered (h.segment k g hk) hstart hstop (by omega)
  have hok : pageOk (pageBase a) = true := (pageOk_pageBase (by omega)).2 ⟨hlow, hhigh⟩
  have hbyte : s.peek (g.range (e.objects.length + k)).object
      (a - (g.range (e.objects.length + k)).start)
        = some (image g.shift (g.contents data) (a - g.start)) := by
    refine h.contents k g hk (a - g.start) ?_
    unfold Segment.size
    omega
  simp only [access, hnone, hfaulting, hok, hbyte, if_true, map_some]
  rfl

theorem Complete.of_access (h : Complete e data gs s) (haccess : s.access a = some (b, flags))
    (huser : flags.userspace = true) :
    InStack a ∨ (∃ g ∈ gs, g.start ≤ a ∧ a < g.stop) ∧ 0x1000 ≤ a ∧ a < 0x800000000000 := by
  unfold access at haccess
  split at haccess
  · rename_i phys flags' htable
    obtain ⟨-, rfl⟩ := Prod.mk.inj (Option.some.inj haccess)
    exact .inl (h.user_table _ _ _ htable huser).of_pageBase
  · split at haccess
    · cases haccess
    · rename_i r hfaulting
      obtain ⟨hmem, hstart, hstop, hle⟩ := faulting_eq_some hfaulting
      split at haccess
      · rename_i hok
        obtain ⟨b', -, hpair⟩ := map_eq_some_iff.1 haccess
        cases hpair
        rcases h.user_range r hmem huser with ⟨object, rfl⟩ | ⟨g, hg, object, rfl⟩
        · exact .inl ⟨hstart, hstop⟩
        · exact .inr ⟨⟨g, hg, hstart, hstop⟩, (pageOk_pageBase hle).1 hok⟩
      · cases haccess

/-! ## After the first thread -/

theorem new_range (hp : Paging.Process.new privilege e.hpet = some p0)
    (hr : r ∈ p0.pageMapper.mappings) : r.flags.userspace = false := by
  obtain ⟨m, hm, ⟨-, rfl⟩ | ⟨base, m', -, hm', rfl⟩⟩ := Paging.Process.new_spec hp
  · rcases (hm.mem_iff r).1 hr with rfl | hr
    · rfl
    · cases hr
  · rcases (hm'.mem_iff r).1 hr with rfl | hr
    · rfl
    · rcases (hm.mem_iff r).1 hr with rfl | hr
      · rfl
      · cases hr

theorem bounds_of_mem_targets {size base q : Nat} {pages : List (Option Nat)}
    (h : (v, q) ∈ (newLazyFilled size pages).targets base) :
    base ≤ v ∧ v < base + size :=
  bounds_of_mem_pagesOf (mem_pagesOf_of_mem_targets h)

theorem Allocated.cleared_of_usedPages {t n m : Nat} (h : Allocated s m s') (ht : t ≤ m)
    (hpage : some page ∈ usedPages s.supply t n) : ∀ i < 0x1000, s'.bytes (page + i) = 0 := by
  intro i hi
  have hmem := mem_take_of_mem_usedPages hpage
  have hsub : page ∈ s.supply.take m := (take_subset_take_left _ ht) hmem
  exact h.cleared page hsub (page + i) (by omega) (by omega)

theorem peek_eq_zero {object n : Nat} {pages : List (Option Nat)}
    (hget : s.objects[object]? = some ⟨n, .lazyMapping pages⟩)
    (hlen : offset / 0x1000 < pages.length)
    (hzero : ∀ page, some page ∈ pages → ∀ i < 0x1000, s.bytes (page + i) = 0) :
    s.peek object offset = some 0 := by
  have hslot := List.getElem?_eq_getElem hlen
  simp only [peek, hget, hslot]
  split
  · rename_i heq
    cases heq
  · rfl
  · rename_i page heq
    rw [hzero page (mem_of_getElem? (hslot.trans heq)) _ (Nat.mod_lt _ (by decide))]

theorem Holds.complete (h : Holds e data p0 gs s)
    (hp : Paging.Process.new privilege e.hpet = some p0)
    (hclear : ∀ g ∈ gs, ∀ v, g.start ≤ v → v < g.stop → p0.pageMapper.pageMapper v = none)
    (hfits : ThreadFits e data privilege gs) (hthread : s.newThread entry = .ok s') :
    Complete e data gs s' := by
  obtain ⟨s1, p, halloc, -, hnew, rfl⟩ := newThread_eq_ok.1 hthread
  have hid : s.process.threadNextId = 0 := by
    rw [h.process]
    exact (new_fields hp).2.1
  obtain ⟨m, m', hm, hm', -, rfl⟩ := Paging.Process.newThread_spec h.ordered hnew
  rw [hid] at hm hm'
  have hordered : Ordered m'.mappings := hm'.ordered (kstackRange_aligned ..)
  have hranges : ∀ x, x ∈ m'.mappings ↔ x = kstackRange 0 s.firstKstack.object ∨
      x = stackRange 0 s.firstStack.object ∨ x ∈ s.process.pageMapper.mappings := by
    intro x
    rw [hm'.mem_iff, hm.mem_iff]
  -- outside the two stacks the table is that of the new process
  have htable : ∀ v, ¬ InStack v → (v < kstackBase 0 ∨ kstackBase 0 + kstackSize ≤ v) →
      m'.pageMapper v = p0.pageMapper.pageMapper v := by
    intro v hstack hkstack
    rw [hm'.others v, hm.others v, h.table]
    · intro q hq
      exact hstack (bounds_of_mem_targets hq)
    · intro q hq
      have hbounds := bounds_of_mem_targets hq
      omega
  have hzero : ∀ page, some page ∈ s.firstStack.pages → ∀ i < 0x1000, s1.bytes (page + i) = 0 :=
    fun page hpage => halloc.cleared_of_usedPages (Nat.le_add_right ..) hpage
  exact
    { ordered := hordered
      segment := fun k g hk => (hranges _).2 (.inr (.inr ((h.ranges _).2 (.inr ⟨k, g, hk, rfl⟩))))
      contents := by
        intro k g hk offset hoffset
        obtain ⟨pages, hget, -, hmem⟩ := h.pages k g hk
        have hlt : k < gs.length := (List.getElem?_eq_some_iff.1 hk).1
        rw [← h.contents k g hk offset hoffset]
        have hcount := h.count
        have hold : (s.objects ++ [newLazyFilled stackSize s.firstStack.pages,
            .newLazyFilled kstackSize s.firstKstack.pages])[e.objects.length + k]?
              = some ⟨g.size, .lazyMapping pages⟩ :=
          (List.getElem?_append_left (by omega)).trans hget
        refine peek_congr hget hold fun page hpage i hi => halloc.others _ fun q hq => ?_
        exact h.apart (hmem page hpage) (mem_of_mem_take hq) hi
      unmapped := by
        intro g hg v hstart hstop
        have hmem : (g.start, g.stop) ∈ taken e.hpet gs :=
          mem_append_right _ (List.mem_map.2 ⟨g, hg, rfl⟩)
        have hstack := (hfits.stack _ hmem).1
        have hkstack := (hfits.kstack _ hmem).1
        simp only at hstack hkstack
        refine (htable v ?_ (by omega)).trans (hclear g hg v hstart hstop)
        unfold InStack
        omega
      stack := by
        refine ⟨_, (hranges _).2 (.inr (.inl rfl)), fun offset hoffset => ?_⟩
        have hget : (s.objects ++ [newLazyFilled stackSize s.firstStack.pages,
            .newLazyFilled kstackSize s.firstKstack.pages])[s.objects.length]?
              = some ⟨stackSize, .lazyMapping s.firstStack.pages⟩ := by
          rw [List.getElem?_append_right (Nat.le_refl _), Nat.sub_self]
          rfl
        have hlen : s.firstStack.pages.length = pageCount stackSize := length_usedPages
        refine peek_eq_zero hget ?_ hzero
        have hsize : stackSize = 0x20000 := rfl
        rw [hlen]
        unfold pageCount
        omega
      stack_table := by
        intro v hv
        have hkstack : ∀ q, (v, q) ∉ (newLazyFilled kstackSize
            s.firstKstack.pages).targets (kstackBase 0) := by
          intro q hq
          have hbounds := bounds_of_mem_targets hq
          have hbase := stackBase_eq 0
          have hkbase := kstackBase_eq 0
          have hsize : stackSize = 0x20000 := rfl
          unfold InStack at hv
          omega
        have hsame : m'.pageMapper v = m.pageMapper v := hm'.others v hkstack
        by_cases hmem : ∃ q, (v, q) ∈ (newLazyFilled stackSize
            s.firstStack.pages).targets (stackBase 0)
        · obtain ⟨q, hq⟩ := hmem
          obtain ⟨k, -, -, hpage⟩ := mem_targets.1 hq
          refine .inr ⟨q, hsame.trans (hm.mapped v q hq), hzero q ?_⟩
          exact mem_of_getElem? (join_eq_some_iff.1 hpage)
        · refine .inl (hsame.trans ((hm.others v (not_exists.1 hmem)).trans ?_))
          exact h.unmapped_of_free hp hfits.stack hv.1 hv.2
      user_range := by
        intro r hr huser
        rcases (hranges r).1 hr with rfl | rfl | hr
        · cases huser
        · exact .inl ⟨_, rfl⟩
        · rcases (h.ranges r).1 hr with hr | ⟨k, g, hk, rfl⟩
          · rw [new_range hp hr] at huser
            cases huser
          · exact .inr ⟨g, mem_of_getElem? hk, _, rfl⟩
      user_table := by
        intro v page flags hv huser
        have hv' : m'.pageMapper v = some (page, flags) := hv
        by_contra hstack
        by_cases hkstack : ∃ q, (v, q) ∈ (newLazyFilled kstackSize
            s.firstKstack.pages).targets (kstackBase 0)
        · obtain ⟨q, hq⟩ := hkstack
          rw [hm'.mapped v q hq] at hv'
          obtain ⟨-, rfl⟩ := Prod.mk.inj (Option.some.inj hv')
          cases huser
        · have hold : m'.pageMapper v = p0.pageMapper.pageMapper v := by
            rw [hm'.others v (not_exists.1 hkstack), hm.others v, h.table]
            intro q hq
            exact hstack (bounds_of_mem_targets hq)
          rw [hold] at hv'
          have honly := (new_table hp (by rw [hv']; exact some_ne_none _)).2
          rw [hv'] at honly
          obtain ⟨-, rfl⟩ := Prod.mk.inj (Option.some.inj honly)
          cases huser }

end Fioxa.Elf.Loading
