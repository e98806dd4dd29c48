import Fioxa.Paging.ProcessSteps

/-! # Mapping at an address, and unmapping

A new range may be inserted exactly if it has no address in common with the ranges of the list
(`Room`). The test for overlaps also refuses a range that ends where another one starts, and an
empty range, which has no address, is in the way as well (`Clear`). `free_mapping` is meant to
remove the one range with the given bounds (`FreesExactly`); this is so for all bounds exactly if
the list has no empty range, because the search takes empty ranges for smaller than all others and
for equal among each other. -/

namespace Fioxa.Paging

open BinarySearch PageMapperManager List Option Lts
open TableSystem (frameOk)

variable {m m' : PageMapperManager} {mapping : PageMapping} {base size object start stop : Nat}
  {flags : MemoryMappingFlags} {r : MappedRange} {privilege : ProcessPrivilige} {hpet : Option Nat}
  {p p₀ : Process}

namespace PageMapperManager

/-! ## Inserting at an address -/

/-- No address of the new range is in another one. -/
def Room (m : PageMapperManager) (base size : Nat) : Prop :=
  ∀ r ∈ m.mappings, ∀ a, base ≤ a → a < base + size → ¬ (r.start ≤ a ∧ a < r.stop)

/-- The new range ends in memory, and no range starts in it or right behind it. -/
def Clear (m : PageMapperManager) (base size : Nat) : Prop :=
  base + size < 0x10000000000000000 ∧ ∀ r ∈ m.mappings, r.start < base ∨ base + size < r.start

section

variable (ho : Ordered m.mappings)
include ho

theorem vacant_iff (hbase : base % 0x1000 = 0) (hsize : 0 < size) :
    (base % 0x1000 = 0 ∧ base + size < 0x10000000000000000 ∧ m.Vacant base size) ↔
      m.Room base size ∧ m.Clear base size := by
  constructor
  · rintro ⟨-, hbound, hvacant⟩
    refine ⟨fun r hr a hle hlt => ?_, hbound, fun r hr => ?_⟩
    · have hfree := overlaps_eq_false.1 (hvacant r hr).1
      omega
    · have hfree := overlaps_eq_false.1 (hvacant r hr).1
      have hstart := (hvacant r hr).2
      have hle := (ho.valid r hr).le
      omega
  · rintro ⟨hroom, hbound, hclear⟩
    refine ⟨hbase, hbound, fun r hr => ?_⟩
    have hfirst := hroom r hr base (Nat.le_refl _) (by omega)
    have hstart := hclear r hr
    exact ⟨overlaps_eq_false.2 (by omega), by omega⟩

theorem exists_insertMappingAt_iff (hbase : base % 0x1000 = 0) (hsize : 0 < mapping.size) :
    (∃ m', m.insertMappingAt base mapping object flags = some (some m')) ↔
      m.Room base mapping.size ∧ m.Clear base mapping.size := by
  rw [← vacant_iff ho hbase hsize, ← exists_place_iff ho]
  unfold insertMappingAt
  split <;> simp [*]

theorem exists_insertMappingAtSet_room (hbase : base % 0x1000 = 0) (hsize : 0 < mapping.size) :
    (∃ m', m.insertMappingAtSet base mapping object flags = some (some m')) ↔
      m.Room base mapping.size ∧ m.Clear base mapping.size ∧ ∀ t ∈ mapping.targets base,
        pageOk t.1 = true ∧ frameOk t.2 = true ∧ m.pageMapper t.1 = none := by
  rw [exists_insertMappingAtSet_iff ho, ← and_assoc (b := Clear ..), ← vacant_iff ho hbase hsize]
  simp only [and_assoc]

/-- Of two mappings next to each other, the lower one cannot be inserted last. -/
theorem insertMappingAt_below {upper : PageMapping} {object' : Nat} {flags' : MemoryMappingFlags}
    (hbase : base % 0x1000 = 0) (hsize : 0 < mapping.size)
    (h : m.insertMappingAt (base + mapping.size) upper object' flags' = some (some m')) :
    m'.insertMappingAt base mapping object flags = some none := by
  have hmem := ((insertMappingAt_inserts ho h).mem_iff _).2 (.inl rfl)
  have hbound : base + mapping.size + upper.size < 0x10000000000000000 := by
    unfold insertMappingAt at h
    split at h
    · cases h
    · cases h
    · rename_i hplace
      exact (place_eq_some_some ho hplace).2.1
  have hnone : m'.place base mapping.size = some none := by
    refine place_eq_some_none.2 ⟨hbase, by omega, _, hmem, decide_eq_true ⟨?_, Nat.le_refl _⟩⟩
    show base < base + mapping.size + upper.size
    omega
  rw [insertMappingAt, hnone]

end

end PageMapperManager

namespace Process

/-- A mapping can be inserted exactly where there is room, if no range starts in the new one or
    right behind it. One that is inserted with its pages needs pages that are not mapped yet. Of two
    mappings next to each other, the lower one has to be inserted first. -/
theorem insertMappingAt_room_iff (hnew : Process.new privilege hpet = some p₀)
    (hreach : Lts.Reachable Process.step p₀ p) (base : Nat) (hbase : base % 0x1000 = 0)
    (mapping : PageMapping) (hsize : 0 < mapping.size) (object : Nat) (flags : MemoryMappingFlags) :
    (((∃ m, p.pageMapper.insertMappingAt base mapping object flags = some (some m)) ↔
        p.pageMapper.Room base mapping.size) ↔
      (p.pageMapper.Room base mapping.size → p.pageMapper.Clear base mapping.size)) ∧
    (((∃ m, p.pageMapper.insertMappingAtSet base mapping object flags = some (some m)) ↔
        p.pageMapper.Room base mapping.size) ↔
      (p.pageMapper.Room base mapping.size → p.pageMapper.Clear base mapping.size ∧
        ∀ t ∈ mapping.targets base,
          pageOk t.1 = true ∧ frameOk t.2 = true ∧ p.pageMapper.pageMapper t.1 = none)) ∧
    ∀ upper object' flags' m,
      p.pageMapper.insertMappingAt (base + mapping.size) upper object' flags' = some (some m) →
        m.insertMappingAt base mapping object flags = some none := by
  have ho : Ordered p.pageMapper.mappings := reachable_ordered hnew hreach
  refine ⟨?_, ?_, fun upper object' flags' m h => insertMappingAt_below ho hbase hsize h⟩
  · rw [exists_insertMappingAt_iff ho hbase hsize]
    exact and_iff_left_iff_imp
  · rw [exists_insertMappingAtSet_room ho hbase hsize]
    exact and_iff_left_iff_imp

/-- Nothing but the local APIC is mapped, far above. -/
theorem insertMappingAt_room_lower : ∃ p m, Process.new .user none = some p ∧
    p.pageMapper.Room 0x400000 0x1000 ∧
    p.pageMapper.insertMappingAt 0x400000 (.newLazy 0x1000) 2 .all = some (some m) := by
  have hrun : ∃ p ∈ Process.new .user none, p.pageMapper.mappings = [apicRange] := by decide
  obtain ⟨p, hp, hlist⟩ := hrun
  have hroom : p.pageMapper.Room 0x400000 0x1000 := by
    intro r hr a hle hlt
    rw [hlist, mem_singleton] at hr
    subst hr
    show ¬ (0xfee00000 ≤ a ∧ a < 0xfee01000)
    omega
  have hclear : p.pageMapper.Clear 0x400000 0x1000 := by
    refine ⟨by decide, ?_⟩
    rw [hlist]
    decide
  obtain ⟨m, hm⟩ := ((insertMappingAt_room_iff hp (.refl _) 0x400000 (by decide) (.newLazy 0x1000)
    (by decide) 2 .all).1.2 fun _ => hclear).2 hroom
  exact ⟨p, m, hp, hroom, hm⟩

/-- The pages at `0x400000` and `0x401000` can be mapped in this order, but not in the other one,
    and not at all with an empty range between them. -/
theorem insertMappingAt_refuses_neighbour : ∃ p, Process.new .user none = some p ∧
    (∃ q, run Process.step p [.syscall (.mmapPage 0x400000 0x1000 2),
      .syscall (.mmapPage 0x401000 0x1000 3)] = some q ∧ q.pageMapper.mappings.length = 3) ∧
    (∃ q, run Process.step p [.syscall (.mmapPage 0x401000 0x1000 3)] = some q ∧
      q.pageMapper.Room 0x400000 0x1000 ∧
      q.pageMapper.insertMappingAt 0x400000 (.newLazy 0x1000) 2 .all = some none) ∧
    ∃ q, run Process.step p [.syscall (.mmapPage 0x400000 0 2)] = some q ∧
      q.pageMapper.Room 0x400000 0x1000 ∧
      q.pageMapper.insertMappingAt 0x400000 (.newLazy 0x1000) 2 .all = none := by
  have hrun : ∃ p ∈ Process.new .user none,
      (∃ q ∈ run Process.step p [.syscall (.mmapPage 0x400000 0x1000 2),
        .syscall (.mmapPage 0x401000 0x1000 3)], q.pageMapper.mappings.length = 3) ∧
      (∃ q ∈ run Process.step p [.syscall (.mmapPage 0x401000 0x1000 3)],
        q.pageMapper.mappings = [⟨0x401000, 0x402000, 3, .all⟩, apicRange]) ∧
      ∃ q ∈ run Process.step p [.syscall (.mmapPage 0x400000 0 2)],
        q.pageMapper.mappings = [⟨0x400000, 0x400000, 2, .all⟩, apicRange] := by decide
  obtain ⟨p, hp, horder, ⟨q, hq, hlist⟩, q', hq', hlist'⟩ := hrun
  have hroom : ∀ {m : PageMapperManager} {r : MappedRange}, m.mappings = [r, apicRange] →
      r.stop ≤ 0x400000 ∨ 0x401000 ≤ r.start → m.Room 0x400000 0x1000 := by
    intro m r hm hr x hx a hle hlt
    have hstart : apicRange.start = 0xfee00000 := rfl
    rw [hm, mem_cons, mem_singleton] at hx
    rcases hx with rfl | rfl <;> omega
  refine ⟨p, hp, horder, ⟨q, hq, hroom hlist (by decide), ?_⟩, q', hq',
    hroom hlist' (by decide), ?_⟩
  · simp only [insertMappingAt, place, hlist]
    rfl
  · simp only [insertMappingAt, place, hlist']
    rfl

end Process

/-! ## Unmapping -/

namespace PageMapperManager

/-- `free_mapping` removes the range with these bounds if there is one, and its pages. -/
def FreesExactly (m : PageMapperManager) (start stop : Nat) : Prop :=
  ((∃ r m', m.freeMapping start stop = some (.ok (r, m'))) ↔
    ∃ r ∈ m.mappings, r.start = start ∧ r.stop = stop) ∧
  ∀ r m', m.freeMapping start stop = some (.ok (r, m')) →
    (r.start = start ∧ r.stop = stop) ∧
    (∃ before after, m.mappings = before ++ r :: after ∧ m'.mappings = before ++ after) ∧
    ∀ v, v % 0x1000 = 0 →
      m'.pageMapper v = if start ≤ v ∧ v < stop then none else m.pageMapper v

theorem freeMapping_eq_ok : m.freeMapping start stop = some (.ok (r, m')) ↔
    ∃ i, found m.mappings (·.compareRange start stop) = some (i, r) ∧
      { m with mappings := m.mappings.eraseIdx i }.unmapAll (pagesOf r.start r.stop) = some m' := by
  unfold freeMapping
  split
  · rename_i hnone
    simp [hnone]
  · rename_i i x hsome
    simp only [hsome, map_eq_some_iff, Except.ok.injEq, Prod.mk.injEq, Option.some.injEq]
    constructor
    · rintro ⟨m1, hm1, rfl, rfl⟩
      exact ⟨i, ⟨rfl, rfl⟩, hm1⟩
    · rintro ⟨i, ⟨rfl, rfl⟩, hm1⟩
      exact ⟨m', hm1, rfl, rfl⟩

/-- What is found for one empty range is found for all of them. -/
theorem found_empty (start start' : Nat) :
    found m.mappings (·.compareRange start start) = found m.mappings (·.compareRange start' start')
    := by
  simp [MappedRange.compareRange]

theorem nonempty_of_freesExactly (ho : Ordered m.mappings)
    (h : ∀ start stop, m.FreesExactly start stop) (hr : r ∈ m.mappings) : r.start < r.stop := by
  by_contra hempty
  have hstop : r.start = r.stop := Nat.le_antisymm (ho.valid r hr).le (Nat.not_lt.1 hempty)
  obtain ⟨x, m', hfree⟩ := (h r.start r.stop).1.2 ⟨r, hr, rfl, rfl⟩
  obtain ⟨⟨hx, -⟩, -⟩ := (h r.start r.stop).2 x m' hfree
  -- the same range would be removed for any other empty one
  obtain ⟨i, hfound, hunmap⟩ := freeMapping_eq_ok.1 hfree
  rw [← hstop, found_empty r.start (r.start + 1)] at hfound
  obtain ⟨⟨hx', -⟩, -⟩ := (h _ _).2 x m' (freeMapping_eq_ok.2 ⟨i, hfound, hunmap⟩)
  omega

theorem freesExactly_iff (ho : Ordered m.mappings) :
    (∀ start stop, m.FreesExactly start stop) ↔
      ∀ r ∈ m.mappings, r.start < r.stop ∧ ∀ v ∈ pagesOf r.start r.stop, pageOk v = true := by
  constructor
  · intro h r hr
    refine ⟨nonempty_of_freesExactly ho h hr, ?_⟩
    obtain ⟨x, m', hfree⟩ := (h r.start r.stop).1.2 ⟨r, hr, rfl, rfl⟩
    obtain ⟨⟨hstart, hstop⟩, -⟩ := (h r.start r.stop).2 x m' hfree
    obtain ⟨i, -, hunmap⟩ := freeMapping_eq_ok.1 hfree
    rw [← hstart, ← hstop]
    exact unmapAll_isSome_iff.1 (isSome_iff_exists.2 ⟨m', hunmap⟩)
  · intro h start stop
    have hne : ∀ x ∈ m.mappings, x.start < x.stop := fun x hx => (h x hx).1
    have hbounds : ∀ r m', m.freeMapping start stop = some (.ok (r, m')) →
        r ∈ m.mappings ∧ r.start = start ∧ r.stop = stop := by
      intro r m' hfree
      obtain ⟨hrem, hcmp⟩ := freeMapping_removes hfree
      have hlt := hne r hrem.mem
      refine ⟨hrem.mem, (MappedRange.compareRange_eq.1 hcmp).resolve_right ?_⟩
      omega
    refine ⟨⟨?_, ?_⟩, fun r m' hfree => ?_⟩
    · rintro ⟨r, m', hfree⟩
      exact ⟨r, hbounds r m' hfree⟩
    · rintro ⟨r, hr, rfl, rfl⟩
      obtain ⟨m', hm'⟩ := exists_freeMapping ho hne hr (h r hr).2
      exact ⟨r, m', hm'⟩
    · obtain ⟨hr, rfl, rfl⟩ := hbounds r m' hfree
      obtain ⟨i, hfound, hunmap⟩ := freeMapping_eq_ok.1 hfree
      obtain ⟨hi, rfl⟩ := List.getElem?_eq_some_iff.1 (found_eq_some hfound).1
      obtain ⟨hmappings, htable⟩ := unmapAll_eq_some hunmap
      refine ⟨⟨rfl, rfl⟩, ⟨m.mappings.take i, m.mappings.drop (i + 1), ?_, ?_⟩, fun v hv => ?_⟩
      · rw [getElem_cons_drop, take_append_drop]
      · rw [hmappings, eraseIdx_eq_take_drop_succ]
      · rw [htable]
        simp only [mem_pagesOf (ho.valid _ hr).start_aligned hv]

end PageMapperManager

namespace Process

/-- Unmapping is exact for all bounds as long as no range is empty, and all of them consist of pages
    that the page table can have. -/
theorem freeMapping_exact_iff (hnew : Process.new privilege hpet = some p₀)
    (hreach : Lts.Reachable Process.step p₀ p) :
    (∀ start stop, p.pageMapper.FreesExactly start stop) ↔ ∀ r ∈ p.pageMapper.mappings,
      r.start < r.stop ∧ ∀ v ∈ pagesOf r.start r.stop, pageOk v = true :=
  freesExactly_iff (reachable_ordered hnew hreach)

theorem freeMapping_exact_segment : ∃ p q, Process.new .user none = some p ∧
    Process.step p (.loadSegment 0x400000 0x1500 2 .all) = some q ∧
    ∀ start stop, q.pageMapper.FreesExactly start stop := by
  have hrun : ∃ p ∈ Process.new .user none, ∃ q ∈ Process.step p (.loadSegment 0x400000 0x1500 2
      .all), q.pageMapper.mappings = [⟨0x400000, 0x402000, 2, .all⟩, apicRange] := by decide
  obtain ⟨p, hp, q, hq, hlist⟩ := hrun
  refine ⟨p, q, hp, hq, (freeMapping_exact_iff hp (.single hq)).2 ?_⟩
  rw [hlist]
  decide

/-- A mapping of length 0 hides the one before it, and another one of length 0 is removed in its
    place. -/
theorem freeMapping_misses : ∃ p q, Process.new .user none = some p ∧
    run Process.step p
      [.syscall (.mmapPage 0x400000 0x1000 2), .syscall (.mmapPage 0x500000 0 3)] = some q ∧
    ⟨0x400000, 0x401000, 2, .all⟩ ∈ q.pageMapper.mappings ∧
    q.pageMapper.freeMapping 0x400000 0x401000 = some (.error (.memNotMapped 0x400000)) ∧
    ∃ m, q.pageMapper.freeMapping 0x600000 0x600000
      = some (.ok (⟨0x500000, 0x500000, 3, .all⟩, m)) := by
  have hrun : ∃ p ∈ Process.new .user none, ∃ q ∈ run Process.step p
      [.syscall (.mmapPage 0x400000 0x1000 2), .syscall (.mmapPage 0x500000 0 3)],
      q.pageMapper.mappings
        = [⟨0x400000, 0x401000, 2, .all⟩, ⟨0x500000, 0x500000, 3, .all⟩, apicRange] := by decide
  obtain ⟨p, hp, q, hq, hlist⟩ := hrun
  refine ⟨p, q, hp, hq, by simp [hlist], ?_, ?_⟩
  · rw [freeMapping, hlist]
    rfl
  · rw [freeMapping, hlist]
    exact ⟨_, rfl⟩

end Process

end Fioxa.Paging
