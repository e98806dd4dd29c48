import Fioxa.Elf.Segments

/-! # The first thread

`load_elf` ends with `new_thread`, which inserts the two stacks of the thread next to the segments.
Nothing has kept the segments away from their places, and every failure is unwrapped. -/

namespace Fioxa.Elf

open Faults Paging PageMapperManager List
open TableSystem (frameOk)

/-- The pages that are allocated for the stack of a thread. -/
def stackCount : ProcessPrivilige → Nat
  | .kernel => pageCount stackSize
  | .user => 0

/-- The pages that are allocated for both stacks of a thread. -/
def threadPages (privilege : ProcessPrivilige) : Nat :=
  stackCount privilege + pageCount kstackSize

/-- The first thread can be created after the segments `gs` have been loaded. -/
structure ThreadFits (e : Loader) (data : List UInt8) (privilege : ProcessPrivilige)
    (gs : List Segment) : Prop where
  entry : virtAddrOk (Elf64Ehdr.eEntry.value data 0) = true
  stack : Free (taken e.hpet gs) (stackBase 0) (stackBase 0 + stackSize)
  kstack : Free (taken e.hpet gs) (kstackBase 0) (kstackBase 0 + kstackSize)
  pages : usedBy gs + threadPages privilege ≤ e.supply.length

namespace Loading

variable {e : Loader} {data : List UInt8} {privilege : ProcessPrivilige} {p0 : Paging.Process}
  {gs : List Segment} {s s' : Loading} {n a page entry : Nat}

/-! ## Pages -/

variable {supply : List Nat}

theorem usedPages_cons :
    usedPages (page :: supply) (n + 1) (n + 1) = some page :: usedPages supply n n := by
  simp only [usedPages, range_succ_eq_map, map_cons, map_map]
  refine congrArg₂ _ (by simp) (map_congr_left fun k _ => ?_)
  simp

theorem usedPages_nil : usedPages [] (n + 1) (n + 1) = none :: usedPages [] n n := by
  simp only [usedPages, range_succ_eq_map, map_cons, map_map]
  refine congrArg₂ _ (by simp) (map_congr_left fun k _ => ?_)
  simp

/-- What the allocation of `n` pages leaves. -/
structure Allocated (s : Loading) (n : Nat) (s' : Loading) : Prop where
  supply : s'.supply = s.supply.drop n
  objects : s'.objects = s.objects
  process : s'.process = s.process
  others : ∀ a, (∀ page ∈ s.supply.take n, a < page ∨ page + 0x1000 ≤ a) → s'.bytes a = s.bytes a
  cleared : ∀ page ∈ s.supply.take n, ∀ a, page ≤ a → a < page + 0x1000 → s'.bytes a = 0

theorem newPages_spec :
    (newPages n s).1 = usedPages s.supply n n ∧ Allocated s n (newPages n s).2 := by
  induction n generalizing s with
  | zero =>
    refine ⟨rfl, rfl, rfl, rfl, fun _ _ => rfl, fun page hpage => ?_⟩
    cases hpage
  | succ n ih =>
    rw [newPages, allocatePage]
    cases hsupply : s.supply with
    | nil =>
      obtain ⟨hpages, hstate⟩ := ih (s := s)
      rw [hsupply] at hpages
      refine ⟨by rw [usedPages_nil, ← hpages], ?_, hstate.objects, hstate.process, ?_, ?_⟩
      · show (newPages n s).2.supply = _
        rw [hstate.supply, hsupply]
        simp
      · intro a _
        apply hstate.others
        simp [hsupply]
      · simp [hsupply]
    | cons page supply =>
      obtain ⟨hpages, hstate⟩ := ih (s := { s with
        bytes := fun a => if page ≤ a ∧ a < page + 0x1000 then 0 else s.bytes a
        supply := supply })
      refine ⟨by rw [usedPages_cons, ← hpages], ?_, hstate.objects, hstate.process, ?_, ?_⟩
      · show _ = s.supply.drop (n + 1)
        rw [hsupply]
        exact hstate.supply
      · intro a ha
        rw [hsupply] at ha
        have hpage := ha page mem_cons_self
        refine (hstate.others a fun q hq => ha q (.tail _ hq)).trans ?_
        exact if_neg (by omega)
      · intro q hq a hle hlt
        rw [hsupply] at hq
        by_cases hmem : ∃ q' ∈ supply.take n, q' ≤ a ∧ a < q' + 0x1000
        · obtain ⟨q', hq', hle', hlt'⟩ := hmem
          exact hstate.cleared q' hq' a hle' hlt'
        · -- the page is cleared now, and not written to by the rest
          have hrest := hstate.others a fun q' hq' => by
            by_contra hcon
            exact hmem ⟨q', hq', by omega, by omega⟩
          rcases mem_cons.1 hq with rfl | hq
          · exact hrest.trans (if_pos ⟨hle, hlt⟩)
          · exact absurd ⟨q, hq, hle, hlt⟩ hmem

theorem length_usedPages {t : Nat} : (usedPages supply t n).length = n := by
  simp [usedPages]

theorem filled_usedPages (hn : n ≤ supply.length) (hok : ∀ page ∈ supply, frameOk page = true) :
    Paging.Filled (usedPages supply n n) := by
  intro x hx
  obtain ⟨k, hk, rfl⟩ := mem_map.1 hx
  have hk' := mem_range.1 hk
  have hget := List.getElem?_eq_getElem (Nat.lt_of_lt_of_le hk' hn)
  exact ⟨_, by rw [if_pos hk', hget], hok _ (getElem_mem _)⟩

theorem getLast_usedPages (hn : supply.length < n) :
    (usedPages supply n n).getLast?.join = none := by
  have hlast : (usedPages supply n n).getLast? = some none := by
    rw [List.getLast?_eq_getElem?, length_usedPages, getElem?_usedPages (by omega),
      if_pos (by omega), List.getElem?_eq_none (by omega)]
  rw [hlast]
  rfl

theorem Allocated.trans {m : Nat} {s1 : Loading} (h : Allocated s n s1) (h' : Allocated s1 m s') :
    Allocated s (n + m) s' := by
  have htake : s.supply.take (n + m) = s.supply.take n ++ s1.supply.take m := by
    rw [take_add, h.supply]
  refine ⟨?_, h'.objects.trans h.objects, h'.process.trans h.process, ?_, ?_⟩
  · rw [h'.supply, h.supply, drop_drop]
  · intro a ha
    rw [htake] at ha
    rw [h'.others a fun page hpage => ha page (mem_append_right _ hpage),
      h.others a fun page hpage => ha page (mem_append_left _ hpage)]
  · intro page hpage a hle hlt
    rw [htake] at hpage
    by_cases hmem : ∃ q ∈ s1.supply.take m, q ≤ a ∧ a < q + 0x1000
    · obtain ⟨q, hq, hle', hlt'⟩ := hmem
      exact h'.cleared q hq a hle' hlt'
    · have hsame := h'.others a fun q hq => by
        by_contra hcon
        exact hmem ⟨q, hq, by omega, by omega⟩
      rcases mem_append.1 hpage with hpage | hpage
      · rw [hsame]
        exact h.cleared page hpage a hle hlt
      · exact absurd ⟨page, hpage, hle, hlt⟩ hmem

theorem stackPages_spec : s.stackPages.1 = usedPages s.supply (stackCount s.process.privilege)
      (pageCount stackSize) ∧
    Allocated s (stackCount s.process.privilege) s.stackPages.2 := by
  unfold stackPages stackCount
  cases s.process.privilege with
  | kernel => exact newPages_spec
  | user =>
    refine ⟨usedPages_zero.symm, rfl, rfl, rfl, fun _ _ => rfl, fun page hpage => ?_⟩
    cases hpage

/-! ## The thread -/

/-- The stack of the first thread, as far as it has been allocated. -/
def firstStack (s : Loading) : Paging.Process.NewPages where
  object := s.objects.length
  pages := usedPages s.supply (stackCount s.process.privilege) (pageCount stackSize)

def firstKstack (s : Loading) : Paging.Process.NewPages where
  object := s.objects.length + 1
  pages := usedPages (s.supply.drop (stackCount s.process.privilege)) (pageCount kstackSize)
    (pageCount kstackSize)

theorem newThread_eq_ok : s.newThread entry = .ok s' ↔
    ∃ s1 p, Allocated s (threadPages s.process.privilege) s1 ∧
      (newPages (pageCount kstackSize) s.stackPages.2).2 = s1 ∧
      s.process.newThread entry s.firstStack s.firstKstack = some p ∧
      s' = { s1 with
        objects := s.objects ++ [.newLazyFilled stackSize s.firstStack.pages,
          .newLazyFilled kstackSize s.firstKstack.pages]
        process := p } := by
  obtain ⟨hstack, halloc⟩ := stackPages_spec (s := s)
  obtain ⟨hkstack, halloc'⟩ := newPages_spec (n := pageCount kstackSize) (s := s.stackPages.2)
  have hboth := halloc.trans halloc'
  rw [halloc.supply] at hkstack
  have hobjects : (newPages (pageCount kstackSize) s.stackPages.2).2.objects = s.objects :=
    hboth.objects
  have hprocess : (newPages (pageCount kstackSize) s.stackPages.2).2.process = s.process :=
    hboth.process
  simp only [newThread, unwrap_bind_eq_ok, hstack, hkstack, hobjects, hprocess]
  constructor
  · rintro ⟨p, hp, hs'⟩
    exact ⟨_, p, hboth, rfl, hp, (Except.ok.inj hs').symm⟩
  · rintro ⟨s1, p, -, rfl, hp, rfl⟩
    exact ⟨p, hp, rfl⟩

theorem sound_newThread : Sound (s.newThread entry) ↔ ∃ s', s.newThread entry = .ok s' := by
  unfold newThread
  simp only [sound_unwrap_bind, unwrap_bind_eq_ok]
  constructor
  · rintro ⟨p, hp, -⟩
    exact ⟨_, p, hp, rfl⟩
  · rintro ⟨s', p, hp, -⟩
    exact ⟨p, hp, sound_pure⟩

theorem new_table {v : Nat} (hp : Paging.Process.new privilege e.hpet = some p0)
    (hv : p0.pageMapper.pageMapper v ≠ none) :
    (v, v + 0x1000) ∈ kernelRanges e.hpet [] ∧
      p0.pageMapper.pageMapper v = some (v, .onlyWriteable) := by
  obtain ⟨m, hm, ⟨hnone, rfl⟩ | ⟨base, m', hsome, hm', rfl⟩⟩ := Paging.Process.new_spec hp
  · by_cases hapic : v = 0xfee00000
    · subst hapic
      exact ⟨by simp [kernelRanges], hm.mapped _ _ mem_cons_self⟩
    · refine absurd (hm.others v fun q hq => ?_) hv
      exact hapic (Prod.mk.inj (mem_singleton.1 hq)).1
  · by_cases hbase : v = base
    · subst hbase
      exact ⟨by simp [kernelRanges, hsome], hm'.mapped _ _ mem_cons_self⟩
    · have hsame := hm'.others v fun q hq =>
        hbase (Prod.mk.inj (mem_singleton.1 hq)).1
      by_cases hapic : v = 0xfee00000
      · subst hapic
        exact ⟨by simp [kernelRanges], hsame.trans (hm.mapped _ _ mem_cons_self)⟩
      · refine absurd (hsame.trans (hm.others v fun q hq => ?_)) hv
        exact hapic (Prod.mk.inj (mem_singleton.1 hq)).1

theorem Holds.unmapped_of_free (h : Holds e data p0 gs s)
    (hp : Paging.Process.new privilege e.hpet = some p0) {start stop v : Nat}
    (hfree : Free (taken e.hpet gs) start stop) (hstart : start ≤ v) (hstop : v < stop) :
    s.process.pageMapper.pageMapper v = none := by
  by_contra hmapped
  rw [h.table] at hmapped
  have hmem := (new_table hp hmapped).1
  have hapart := (hfree _ (mem_append_left _ hmem)).1
  omega

theorem new_fields (hp : Paging.Process.new privilege e.hpet = some p0) :
    p0.privilege = privilege ∧ p0.threadNextId = 0 ∧ p0.threads = [] ∧ p0.exited = false := by
  obtain ⟨m, -, ⟨-, rfl⟩ | ⟨base, m', -, -, rfl⟩⟩ := Paging.Process.new_spec hp <;>
  exact ⟨rfl, rfl, rfl, rfl⟩

theorem Holds.spawnAllowed_iff (h : Holds e data p0 gs s)
    (hp : Paging.Process.new privilege e.hpet = some p0) :
    s.process.SpawnAllowed entry ↔ virtAddrOk entry = true ∧
      Free (taken e.hpet gs) (stackBase 0) (stackBase 0 + stackSize) ∧
      Free (taken e.hpet gs) (kstackBase 0) (kstackBase 0 + kstackSize) := by
  obtain ⟨-, hid, -, hexited⟩ := new_fields hp
  have hid' : s.process.threadNextId = 0 := by rw [h.process]; exact hid
  have hexited' : s.process.exited = false := by rw [h.process]; exact hexited
  simp only [Paging.Process.SpawnAllowed, hid', hexited', h.free_iff hp]
  constructor
  · rintro ⟨hentry, -, -, hstack, hkstack, -, -⟩
    exact ⟨hentry, hstack, hkstack⟩
  · rintro ⟨hentry, hstack, hkstack⟩
    refine ⟨hentry, trivial, by decide, hstack, hkstack, fun _ v hv => ?_, fun v hv => ?_⟩
    · obtain ⟨hstart, hstop⟩ := bounds_of_mem_pagesOf hv
      exact h.unmapped_of_free hp hstack hstart hstop
    · obtain ⟨hstart, hstop⟩ := bounds_of_mem_pagesOf hv
      exact h.unmapped_of_free hp hkstack hstart hstop

/-- The first thread can be created exactly when `ThreadFits` holds. -/
theorem Holds.newThread_iff (h : Holds e data p0 gs s)
    (hp : Paging.Process.new privilege e.hpet = some p0) :
    (∃ s', s.newThread (Elf64Ehdr.eEntry.value data 0) = .ok s') ↔
      ThreadFits e data privilege gs := by
  have hprivilege : s.process.privilege = privilege := by
    rw [h.process]
    exact (new_fields hp).1
  have hlen := h.length_supply
  have henough := h.enough
  have hok : ∀ page ∈ s.supply, frameOk page = true := fun page hpage => by
    rw [h.supply] at hpage
    exact e.supply_ok page (mem_of_mem_drop hpage)
  have hthread : (∃ s', s.newThread (Elf64Ehdr.eEntry.value data 0) = .ok s') ↔
      (s.process.newThread (Elf64Ehdr.eEntry.value data 0) s.firstStack s.firstKstack).isSome := by
    simp only [newThread_eq_ok, Option.isSome_iff_exists]
    constructor
    · rintro ⟨s', s1, p, -, -, hp, -⟩
      exact ⟨p, hp⟩
    · rintro ⟨p, hp⟩
      have halloc := (stackPages_spec (s := s)).2.trans
        (newPages_spec (n := pageCount kstackSize) (s := s.stackPages.2)).2
      exact ⟨_, _, p, halloc, rfl, hp, rfl⟩
  rw [hthread]
  by_cases hsupply : threadPages privilege ≤ s.supply.length
  · have hsupplied : s.process.Supplied
        (.spawnThread (Elf64Ehdr.eEntry.value data 0) s.firstStack s.firstKstack) := by
      refine ⟨length_usedPages, length_usedPages, ?_, ?_, ?_⟩
      · apply filled_usedPages
        · rw [length_drop, hprivilege]
          unfold threadPages at hsupply
          omega
        · exact fun page hpage => hok page (mem_of_mem_drop hpage)
      · intro hkernel
        have hcount : stackCount s.process.privilege = pageCount stackSize := by rw [hkernel]; rfl
        show Paging.Filled (usedPages s.supply (stackCount s.process.privilege) _)
        rw [hcount]
        refine filled_usedPages ?_ hok
        rw [hprivilege] at hcount
        unfold threadPages at hsupply
        omega
      · intro huser x hx
        have hx' : x ∈ usedPages s.supply (stackCount s.process.privilege) (pageCount stackSize) :=
          hx
        rw [huser] at hx'
        have hzero : stackCount .user = 0 := rfl
        rw [hzero, usedPages_zero] at hx'
        exact eq_of_mem_replicate hx'
    rw [Paging.Process.newThread_isSome_iff h.ordered hsupplied, h.spawnAllowed_iff hp]
    exact ⟨fun hc => ⟨hc.1, hc.2.1, hc.2.2, by omega⟩, fun hc => ⟨hc.entry, hc.stack, hc.kstack⟩⟩
  · -- the kernel stack lacks its last page
    have hlast : s.firstKstack.pages.getLast?.join = none := by
      apply getLast_usedPages
      rw [length_drop, hprivilege]
      unfold threadPages at hsupply
      have hpos : 0 < pageCount kstackSize := by decide
      omega
    have hnone : s.process.newThread (Elf64Ehdr.eEntry.value data 0) s.firstStack s.firstKstack
        = none := by
      unfold Paging.Process.newThread
      simp only
      split
      · rfl
      · simp only [Paging.Process.insertKstack, hlast]
    rw [hnone]
    constructor
    · intro hc
      cases hc
    · intro hc
      have hpages := hc.pages
      omega

end Loading

end Fioxa.Elf
