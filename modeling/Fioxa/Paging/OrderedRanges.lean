import Mathlib.Data.List.Nodup
import Mathlib.Data.List.Pairwise
import Fioxa.Paging.Mapper

/-! # The ranges of a process are ordered

`mappings` "should always be ordered": the ranges are sorted, apart from each other and made of
whole pages (`Ordered`). This is what the binary searches rely on. For each function of the manager,
one specification says what it does to the list and to the page table (`Inserts`, `Removes`), and
one equivalence says when it does not panic. -/

namespace Fioxa.Paging

open Span BinarySearch List Option Prod Function

/-! ## Pages and sizes -/

variable {n a b start stop base size v p idx object address phys : Nat}
  {flags fl : MemoryMappingFlags}

theorem roundUp_mod : roundUp n % 0x1000 = 0 := Nat.mul_mod_left ..

theorem le_roundUp : n ≤ roundUp n := by
  unfold roundUp pageCount
  omega

theorem and_mask (n : Nat) : n &&& 0xFFF = n % 0x1000 := Nat.and_two_pow_sub_one_eq_mod n 12

theorem bounds_of_mem_pagesOf (h : v ∈ pagesOf start stop) : start ≤ v ∧ v < stop := by
  obtain ⟨k, hk, rfl⟩ := mem_span.1 h
  unfold pageCount at hk
  omega

theorem mem_pagesOf (hs : start % 0x1000 = 0) (hv : v % 0x1000 = 0) :
    v ∈ pagesOf start stop ↔ start ≤ v ∧ v < stop := by
  refine ⟨bounds_of_mem_pagesOf, fun h => mem_span.2 ⟨(v - start) / 0x1000, ?_, ?_⟩⟩
  · unfold pageCount
    omega
  · omega

theorem aligned_of_mem_pagesOf (hs : start % 0x1000 = 0) (h : v ∈ pagesOf start stop) :
    v % 0x1000 = 0 := by
  obtain ⟨k, -, rfl⟩ := mem_span.1 h
  omega

namespace PageMapping

variable {mapping : PageMapping}

theorem mem_targets : (v, p) ∈ mapping.targets base ↔
    ∃ k < pageCount mapping.size, v = base + 0x1000 * k ∧ mapping.pageAt k = some p := by
  simp only [targets, mem_filterMap, mem_range, map_eq_some_iff, Prod.mk.injEq]
  constructor
  · rintro ⟨k, hk, q, hq, rfl, rfl⟩
    exact ⟨k, hk, rfl, hq⟩
  · rintro ⟨k, hk, rfl, hp⟩
    exact ⟨k, hk, p, hp, rfl, rfl⟩

theorem mem_pagesOf_of_mem_targets (h : (v, p) ∈ mapping.targets base) :
    v ∈ pagesOf base (base + mapping.size) := by
  obtain ⟨k, hk, rfl, -⟩ := mem_targets.1 h
  refine mem_span.2 ⟨k, ?_, rfl⟩
  rw [Nat.add_sub_cancel_left]
  exact hk

theorem nodup_targets : ((mapping.targets base).map fst).Nodup := by
  unfold targets
  rw [map_filterMap]
  apply nodup_range.filterMap
  intro k k' v hv hv'
  simp only [Option.map_map, mem_def, map_eq_some_iff, comp_apply] at hv hv'
  obtain ⟨q, -, rfl⟩ := hv
  obtain ⟨q', -, heq⟩ := hv'
  omega

end PageMapping

/-! ## Ordered lists -/

namespace MappedRange

structure Valid (r : MappedRange) : Prop where
  le : r.start ≤ r.stop
  start_aligned : r.start % 0x1000 = 0
  stop_aligned : r.stop % 0x1000 = 0
  bound : r.stop < 0x10000000000000000

variable {r : MappedRange}

theorem compareAddress_eq : r.compareAddress a = .eq ↔ r.start ≤ a ∧ a < r.stop := by
  unfold compareAddress
  split
  · simp
    omega
  · split
    · simp
      omega
    · simp
      omega

theorem compareAddress_lt : r.compareAddress a = .lt ↔ r.start ≤ a ∧ r.stop ≤ a := by
  unfold compareAddress
  split
  · simp
    omega
  · split <;> simp <;> omega

theorem compareAddress_gt : r.compareAddress a = .gt ↔ a < r.start := by
  unfold compareAddress
  split
  · simpa using ‹a < r.start›
  · split <;> simp <;> omega

theorem compareRange_eq : r.compareRange start stop = .eq ↔
    (r.start = start ∧ r.stop = stop) ∨ (r.stop ≤ r.start ∧ stop ≤ start) := by
  unfold compareRange
  split
  · split
    · simp [Ordering.then_eq_eq]
      omega
    · simp
      omega
  · split
    · simp
      omega
    · simp
      omega

end MappedRange

structure Ordered (l : List MappedRange) : Prop where
  valid : ∀ r ∈ l, r.Valid
  apart : l.Pairwise fun x y => x.stop ≤ y.start

namespace Ordered

variable {l : List MappedRange} {r x : MappedRange}

section

variable (h : Ordered l)
include h

theorem sublist {l' : List MappedRange} (hsub : l'.Sublist l) : Ordered l' :=
  ⟨fun r hr => h.valid r (hsub.subset hr), h.apart.sublist hsub⟩

theorem insert {i : Nat} (hr : r.Valid)
    (hbefore : ∀ x ∈ l.take i, x.stop ≤ r.start) (hafter : ∀ x ∈ l.drop i, r.stop ≤ x.start) :
    Ordered (l.take i ++ r :: l.drop i) := by
  rw [← take_append_drop i l] at h
  obtain ⟨htake, hdrop, hcross⟩ := pairwise_append.1 h.apart
  constructor
  · intro x hx
    rcases mem_append.1 hx with hx | hx
    · exact h.valid x (mem_append_left _ hx)
    · rcases mem_cons.1 hx with rfl | hx
      · exact hr
      · exact h.valid x (mem_append_right _ hx)
  · refine pairwise_append.2 ⟨htake, pairwise_cons.2 ⟨hafter, hdrop⟩, ?_⟩
    intro x hx y hy
    rcases mem_cons.1 hy with rfl | hy
    · exact hbefore x hx
    · exact hcross x hx y hy

theorem partitioned_start : Partitioned (fun r => compare r.start base) l := by
  apply h.apart.imp_of_mem
  intro x y hx hy hxy
  have hle : x.start ≤ y.start := Nat.le_trans (h.valid x hx).le hxy
  simp only [Nat.compare_eq_lt, Nat.compare_eq_gt]
  omega

theorem partitioned_address : Partitioned (·.compareAddress a) l := by
  apply h.apart.imp_of_mem
  intro x y hx hy hxy
  have hxle := (h.valid x hx).le
  simp only [MappedRange.compareAddress_lt, MappedRange.compareAddress_gt]
  omega

theorem partitioned_range (hne : ∀ r ∈ l, r.start < r.stop) :
    Partitioned (·.compareRange start stop) l := by
  apply h.apart.imp_of_mem
  intro x y hx hy hxy
  have hlt : x.start < y.start := Nat.lt_of_lt_of_le (hne x hx) hxy
  simp only [MappedRange.compareRange, if_pos (hne x hx), if_pos (hne y hy)]
  split
  · simp only [Ordering.then_eq_lt, Ordering.then_eq_gt, Nat.compare_eq_lt, Nat.compare_eq_gt,
      Nat.compare_eq_eq]
    omega
  · simp

theorem apart_of_ne (hr : r ∈ l) (hx : x ∈ l) (hne : r ≠ x) :
    r.stop ≤ x.start ∨ x.stop ≤ r.start := by
  have hpairs : l.Pairwise fun x y => x.stop ≤ y.start ∨ y.stop ≤ x.start :=
    h.apart.imp fun hxy => .inl hxy
  have hsymm : Std.Symm fun x y : MappedRange => x.stop ≤ y.start ∨ y.stop ≤ x.start :=
    ⟨fun _ _ => Or.symm⟩
  exact hpairs.forall hr hx hne

/-- No two ranges have an address in common. -/
theorem eq_of_shared (hr : r ∈ l) (hx : x ∈ l) (hra : r.start ≤ a ∧ a < r.stop)
    (hxa : x.start ≤ a ∧ a < x.stop) : r = x := by
  by_contra hne
  rcases h.apart_of_ne hr hx hne with hapart | hapart <;> omega

end

end Ordered

namespace PageMapperManager

variable {m m' : PageMapperManager} {r x : MappedRange} {mapping : PageMapping}

/-! ## The page table -/

open TableSystem (frameOk)

theorem frameOk_iff : frameOk p = true ↔ pageOk p = true ∧ p < 0x10000000000000 :=
  decide_eq_true_iff

theorem map_eq_ok_iff : m.map v p flags = some (.ok m') ↔
    pageOk v = true ∧ frameOk p = true ∧ m.pageMapper v = none ∧
      m' = { m with pageMapper := update m.pageMapper v (some (p, flags)) } := by
  rw [frameOk_iff]
  unfold map
  split
  · rename_i hok
    split
    · rename_i hsome
      simp [hsome]
    · rename_i hnone
      split
      · rename_i hp
        simp [hok, hnone, hp, eq_comm]
      · rename_i hp
        simp [hp]
  · rename_i hok
    simp only [reduceCtorEq, false_iff]
    rintro ⟨hv, ⟨hp, -⟩, -⟩
    exact hok ⟨hv, hp⟩

/-- What mapping a list of pages does. -/
structure MapsAll (m : PageMapperManager) (flags : MemoryMappingFlags) (pages : List (Nat × Nat))
    (m' : PageMapperManager) : Prop where
  mappings : m'.mappings = m.mappings
  mapped : ∀ v p, (v, p) ∈ pages → m'.pageMapper v = some (p, flags)
  others : ∀ v, (∀ p, (v, p) ∉ pages) → m'.pageMapper v = m.pageMapper v
  /-- The pages have not been mapped before. -/
  fresh : ∀ v p, (v, p) ∈ pages → m.pageMapper v = none
  ok : ∀ v p, (v, p) ∈ pages → frameOk p = true

variable {pages : List (Nat × Nat)}

theorem mapAll_eq_some (h : m.mapAll flags pages = some m') : MapsAll m flags pages m' := by
  induction pages generalizing m with
  | nil =>
    cases h
    exact ⟨rfl, by simp, fun _ _ => rfl, by simp, by simp⟩
  | cons t rest ih =>
    obtain ⟨w, q⟩ := t
    simp only [mapAll] at h
    split at h
    · rename_i m1 hmap
      obtain ⟨-, hq, hnone, rfl⟩ := map_eq_ok_iff.1 hmap
      have hrest := ih h
      -- a page that is mapped now cannot be mapped again by the rest
      have hw : ∀ p, (w, p) ∉ rest := by
        intro p hp
        have := hrest.fresh w p hp
        simp at this
      refine ⟨hrest.mappings, ?_, ?_, ?_, ?_⟩
      · intro v p hvp
        rcases mem_cons.1 hvp with heq | hvp
        · cases heq
          rw [hrest.others _ hw]
          simp
        · exact hrest.mapped v p hvp
      · intro v hv
        have hne : v ≠ w := by
          rintro rfl
          exact hv q (.head _)
        rw [hrest.others v fun p hp => hv p (.tail _ hp)]
        simp [hne]
      · intro v p hvp
        rcases mem_cons.1 hvp with heq | hmem
        · cases heq
          exact hnone
        · have hne : v ≠ w := by
            rintro rfl
            exact hw p hmem
          have hfresh := hrest.fresh v p hmem
          simpa [hne] using hfresh
      · intro v p hvp
        rcases mem_cons.1 hvp with heq | hmem
        · cases heq
          exact hq
        · exact hrest.ok v p hmem
    · cases h

theorem mapAll_isSome_iff (hn : (pages.map fst).Nodup) :
    (m.mapAll flags pages).isSome ↔
      ∀ t ∈ pages, pageOk t.1 = true ∧ frameOk t.2 = true ∧ m.pageMapper t.1 = none := by
  induction pages generalizing m with
  | nil => simp [mapAll]
  | cons t rest ih =>
    obtain ⟨w, q⟩ := t
    obtain ⟨hw, hrest⟩ := nodup_cons.1 hn
    rw [forall_mem_cons, mapAll]
    split
    · rename_i m1 hmap
      obtain ⟨hok, hq, hnone, rfl⟩ := map_eq_ok_iff.1 hmap
      have hne : ∀ t ∈ rest, t.1 ≠ w := fun t ht heq => hw (List.mem_map.2 ⟨t, ht, heq⟩)
      rw [ih hrest]
      constructor
      · intro h
        refine ⟨⟨hok, hq, hnone⟩, fun t ht => ?_⟩
        simpa [hne t ht] using h t ht
      · rintro ⟨-, h⟩ t ht
        simpa [hne t ht] using h t ht
    · rename_i hmap
      simp only [isSome_none, Bool.false_eq_true, false_iff]
      rintro ⟨⟨hok, hq, hnone⟩, -⟩
      exact hmap _ (map_eq_ok_iff.2 ⟨hok, hq, hnone, rfl⟩)

theorem unmapAll_eq_some {pages : List Nat} (h : m.unmapAll pages = some m') :
    m'.mappings = m.mappings ∧
      ∀ v, m'.pageMapper v = if v ∈ pages then none else m.pageMapper v := by
  induction pages generalizing m with
  | nil =>
    cases h
    simp
  | cons w rest ih =>
    simp only [unmapAll, unmap] at h
    split at h
    · cases h
    · rename_i m1 hunmap
      split at hunmap
      · cases hunmap
        obtain ⟨hmappings, htable⟩ := ih h
        refine ⟨hmappings, fun v => ?_⟩
        rw [htable v]
        by_cases hv : v ∈ rest
        · simp [hv]
        · by_cases hvw : v = w <;> simp [hv, hvw]
      · cases hunmap

theorem unmapAll_isSome_iff {pages : List Nat} :
    (m.unmapAll pages).isSome ↔ ∀ v ∈ pages, pageOk v = true := by
  induction pages generalizing m with
  | nil => simp [unmapAll]
  | cons w rest ih =>
    rw [forall_mem_cons, unmapAll, unmap]
    by_cases hw : pageOk w = true
    · simp only [hw, if_true, true_and]
      exact ih
    · simp [hw]

/-! ## Inserting -/

/-- No range is in the way of a new one, not even an empty one at its start. -/
def Vacant (m : PageMapperManager) (base size : Nat) : Prop :=
  ∀ r ∈ m.mappings, r.overlaps base (base + size) = false ∧ r.start ≠ base

theorem overlaps_eq_false : r.overlaps base stop = false ↔ r.stop ≤ base ∨ stop < r.start := by
  rw [MappedRange.overlaps, decide_eq_false_iff_not]
  omega

theorem place_eq_some_none : m.place base size = some none ↔
    base % 0x1000 = 0 ∧ base + size < 0x10000000000000000 ∧
      ∃ r ∈ m.mappings, r.overlaps base (base + size) = true := by
  unfold place
  rw [and_mask]
  split
  · simp
    omega
  · rename_i hok
    have hok' : base % 0x1000 = 0 ∧ base + size < 0x10000000000000000 := by omega
    split
    · rename_i hany
      simpa [hok'] using hany
    · rename_i hany
      split <;> simpa [hok'] using hany

theorem place_eq_some_some (ho : Ordered m.mappings) (h : m.place base size = some (some idx)) :
    base % 0x1000 = 0 ∧ base + size < 0x10000000000000000 ∧ m.Vacant base size ∧
      (∀ x ∈ m.mappings.take idx, x.stop ≤ base) ∧
      ∀ x ∈ m.mappings.drop idx, base + size ≤ x.start := by
  unfold place at h
  rw [and_mask] at h
  split at h
  · cases h
  · split at h
    · cases h
    · rename_i hok hany
      split at h
      · cases h
      · rename_i i hsearch
        cases h
        have hfree : ∀ r ∈ m.mappings, r.stop ≤ base ∨ base + size < r.start := by
          intro r hr
          rw [← overlaps_eq_false]
          simpa using fun hov => hany (List.any_eq_true.2 ⟨r, hr, hov⟩)
        obtain ⟨hlt, hgt⟩ := search_error ho.partitioned_start hsearch
        simp only [Nat.compare_eq_lt, Nat.compare_eq_gt] at hlt hgt
        refine ⟨by omega, by omega, ?_, ?_, ?_⟩
        · intro r hr
          refine ⟨overlaps_eq_false.2 (hfree r hr), ?_⟩
          rw [← take_append_drop idx m.mappings] at hr
          rcases mem_append.1 hr with hr | hr
          · exact Nat.ne_of_lt (hlt r hr)
          · exact Nat.ne_of_gt (hgt r hr)
        · intro x hx
          have hstart := hlt x hx
          rcases hfree x (mem_of_mem_take hx) with hstop | hstop <;> omega
        · intro x hx
          have hstart := hgt x hx
          have hle := (ho.valid x (mem_of_mem_drop hx)).le
          rcases hfree x (mem_of_mem_drop hx) with hstop | hstop <;> omega

theorem exists_place_iff (ho : Ordered m.mappings) :
    (∃ idx, m.place base size = some (some idx)) ↔
      base % 0x1000 = 0 ∧ base + size < 0x10000000000000000 ∧ m.Vacant base size := by
  constructor
  · rintro ⟨idx, h⟩
    obtain ⟨halign, hbound, hvacant, -⟩ := place_eq_some_some ho h
    exact ⟨halign, hbound, hvacant⟩
  · rintro ⟨halign, hbound, hvacant⟩
    have hany : ¬ m.mappings.any (·.overlaps base (base + size)) = true := by
      intro hany
      obtain ⟨r, hr, hov⟩ := List.any_eq_true.1 hany
      simp [(hvacant r hr).1] at hov
    cases hsearch : search (fun r : MappedRange => compare r.start base) m.mappings with
    | ok =>
      obtain ⟨r, hr, heq⟩ := search_ok hsearch
      exact absurd (Nat.compare_eq_eq.1 heq) (hvacant r (mem_of_getElem? hr)).2
    | error i =>
      refine ⟨i, ?_⟩
      unfold place
      rw [and_mask, if_neg (by omega), if_neg hany, hsearch]

/-- What inserting a range does: these pages of it are mapped at once. -/
structure Inserts (m : PageMapperManager) (r : MappedRange) (pages : List (Nat × Nat))
    (m' : PageMapperManager) : Prop where
  aligned : r.start % 0x1000 = 0
  mem_iff : ∀ x, x ∈ m'.mappings ↔ x = r ∨ x ∈ m.mappings
  ordered : r.stop % 0x1000 = 0 → Ordered m'.mappings
  mapped : ∀ v p, (v, p) ∈ pages → m'.pageMapper v = some (p, r.flags)
  others : ∀ v, (∀ p, (v, p) ∉ pages) → m'.pageMapper v = m.pageMapper v
  fresh : ∀ v p, (v, p) ∈ pages → m.pageMapper v = none
  ok : ∀ v p, (v, p) ∈ pages → frameOk p = true

theorem Inserts.keeps {e : Nat × MemoryMappingFlags} (h : Inserts m r pages m')
    (hv : m.pageMapper v = some e) : m'.pageMapper v = some e := by
  rw [h.others v, hv]
  intro p hp
  rw [h.fresh v p hp] at hv
  cases hv

theorem mem_insert : x ∈ (m.insert idx r).mappings ↔ x = r ∨ x ∈ m.mappings := by
  show x ∈ m.mappings.take idx ++ r :: m.mappings.drop idx ↔ _
  rw [mem_append, mem_cons, or_left_comm, ← mem_append, take_append_drop]

theorem MapsAll.inserts {base size idx : Nat} (h : MapsAll m flags pages m')
    (ho : Ordered m.mappings) (halign : base % 0x1000 = 0)
    (hbound : base + size < 0x10000000000000000)
    (hbefore : ∀ x ∈ m.mappings.take idx, x.stop ≤ base)
    (hafter : ∀ x ∈ m.mappings.drop idx, base + size ≤ x.start) :
    Inserts m ⟨base, base + size, object, flags⟩ pages
      (m'.insert idx ⟨base, base + size, object, flags⟩) where
  aligned := halign
  mem_iff x := by rw [mem_insert, h.mappings]
  ordered hr := by
    show Ordered (m'.mappings.take idx ++ _ :: m'.mappings.drop idx)
    rw [h.mappings]
    exact ho.insert ⟨Nat.le_add_right _ _, halign, hr, hbound⟩ hbefore hafter
  mapped := h.mapped
  others := h.others
  fresh := h.fresh
  ok := h.ok

theorem insertMappingAt_inserts (ho : Ordered m.mappings)
    (h : m.insertMappingAt base mapping object flags = some (some m')) :
    Inserts m ⟨base, base + mapping.size, object, flags⟩ [] m' := by
  unfold insertMappingAt at h
  split at h
  · cases h
  · cases h
  · rename_i hplace
    cases h
    have hnone : MapsAll m flags [] m := mapAll_eq_some rfl
    obtain ⟨halign, hbound, -, hbefore, hafter⟩ := place_eq_some_some ho hplace
    exact hnone.inserts ho halign hbound hbefore hafter

theorem insertMappingAtSet_inserts (ho : Ordered m.mappings)
    (h : m.insertMappingAtSet base mapping object flags = some (some m')) :
    Inserts m ⟨base, base + mapping.size, object, flags⟩ (mapping.targets base) m' := by
  unfold insertMappingAtSet at h
  split at h
  · cases h
  · cases h
  · rename_i hplace
    obtain ⟨m1, hmap, heq⟩ := map_eq_some_iff.1 h
    cases heq
    obtain ⟨halign, hbound, -, hbefore, hafter⟩ := place_eq_some_some ho hplace
    exact (mapAll_eq_some hmap).inserts ho halign hbound hbefore hafter

theorem place_isSome_iff (ho : Ordered m.mappings) :
    (m.place base size).isSome ↔
      base % 0x1000 = 0 ∧ base + size < 0x10000000000000000 ∧
        ((∃ r ∈ m.mappings, r.overlaps base (base + size) = true) ∨
          ∀ r ∈ m.mappings, r.start ≠ base) := by
  constructor
  · intro h
    cases hplace : m.place base size with
    | none => simp [hplace] at h
    | some result =>
      cases result with
      | none =>
        obtain ⟨halign, hbound, hov⟩ := place_eq_some_none.1 hplace
        exact ⟨halign, hbound, .inl hov⟩
      | some =>
        obtain ⟨halign, hbound, hvacant, -⟩ := place_eq_some_some ho hplace
        exact ⟨halign, hbound, .inr fun r hr => (hvacant r hr).2⟩
  · rintro ⟨halign, hbound, hcase⟩
    by_cases hov : ∃ r ∈ m.mappings, r.overlaps base (base + size) = true
    · rw [place_eq_some_none.2 ⟨halign, hbound, hov⟩]
      rfl
    · have hstart := hcase.resolve_left hov
      have hvacant : m.Vacant base size := by
        intro r hr
        refine ⟨?_, hstart r hr⟩
        rw [← Bool.not_eq_true]
        exact fun h => hov ⟨r, hr, h⟩
      obtain ⟨idx, hplace⟩ := (exists_place_iff ho).2 ⟨halign, hbound, hvacant⟩
      rw [hplace]
      rfl

theorem insertMappingAt_isSome :
    (m.insertMappingAt base mapping object flags).isSome = (m.place base mapping.size).isSome := by
  unfold insertMappingAt
  split <;> simp [*]

theorem exists_insertMappingAtSet_iff (ho : Ordered m.mappings) :
    (∃ m', m.insertMappingAtSet base mapping object flags = some (some m')) ↔
      base % 0x1000 = 0 ∧ base + mapping.size < 0x10000000000000000 ∧
        m.Vacant base mapping.size ∧
        ∀ t ∈ mapping.targets base,
          pageOk t.1 = true ∧ frameOk t.2 = true ∧ m.pageMapper t.1 = none := by
  have hmapAll : (m.mapAll flags (mapping.targets base)).isSome ↔ _ :=
    mapAll_isSome_iff PageMapping.nodup_targets
  rw [← hmapAll]
  constructor
  · rintro ⟨m', h⟩
    unfold insertMappingAtSet at h
    split at h
    · cases h
    · cases h
    · rename_i hplace
      obtain ⟨m1, hmap, -⟩ := map_eq_some_iff.1 h
      obtain ⟨halign, hbound, hvacant, -⟩ := place_eq_some_some ho hplace
      exact ⟨halign, hbound, hvacant, isSome_iff_exists.2 ⟨m1, hmap⟩⟩
  · rintro ⟨halign, hbound, hvacant, hmap⟩
    obtain ⟨idx, hplace⟩ := (exists_place_iff ho).2 ⟨halign, hbound, hvacant⟩
    obtain ⟨m1, hmap⟩ := isSome_iff_exists.1 hmap
    refine ⟨m1.insert idx ⟨base, base + mapping.size, object, flags⟩, ?_⟩
    simp only [insertMappingAtSet, hplace, hmap, map_some]

/-! ### At a free place -/

/-- Between two ranges that follow each other there is room, with a page of padding. -/
def HasGap (size : Nat) (l : List MappedRange) : Prop :=
  ∃ before left right after, l = before ++ left :: right :: after ∧
    left.stop + 0x1000 + size ≤ right.start

variable {l : List MappedRange}

theorem position_eq_some {i : Nat} (h : position size i l = some (idx, base)) :
    ∃ before left right after, l = before ++ left :: right :: after ∧
      idx = i + before.length ∧ base = left.stop + 0x1000 ∧ base + size ≤ right.start := by
  induction l generalizing i with
  | nil => cases h
  | cons left l ih =>
    cases l with
    | nil => cases h
    | cons right rest =>
      simp only [position] at h
      split at h
      · cases h
      · split at h
        · rename_i hroom
          cases h
          exact ⟨[], left, right, rest, rfl, rfl, rfl, hroom⟩
        · obtain ⟨before, x, y, after, heq, hidx, hbase, hroom⟩ := ih h
          refine ⟨left :: before, x, y, after, by rw [heq]; rfl, ?_, hbase, hroom⟩
          rw [length_cons]
          omega

theorem position_isSome_iff {i : Nat} (ho : Ordered l) :
    (position size i l).isSome ↔ HasGap size l := by
  constructor
  · intro h
    obtain ⟨⟨idx, base⟩, h⟩ := isSome_iff_exists.1 h
    obtain ⟨before, left, right, after, heq, -, rfl, hroom⟩ := position_eq_some h
    exact ⟨before, left, right, after, heq, hroom⟩
  · rintro ⟨before, left, right, after, rfl, hroom⟩
    induction before generalizing i with
    | nil =>
      have hbound := (ho.valid right (by simp)).bound
      have hle := (ho.valid right (by simp)).le
      rw [nil_append, position, if_neg (by omega), if_pos hroom]
      rfl
    | cons x before ih =>
      have htail := ih (ho.sublist (sublist_cons_self ..)) (i := i + 1)
      -- the ranges before the gap end earlier, so that the sum does not overflow there either
      have hx : x.stop ≤ left.stop := by
        have hapart := (pairwise_cons.1 ho.apart).1 left (by simp)
        exact Nat.le_trans hapart (ho.valid left (by simp)).le
      have hbound := (ho.valid right (by simp)).bound
      have hle := (ho.valid right (by simp)).le
      cases before with
      | nil =>
        rw [cons_append, nil_append, position, if_neg (by omega)]
        split
        · rfl
        · exact htail
      | cons =>
        rw [cons_append, cons_append, position, if_neg (by omega)]
        split
        · rfl
        · exact htail

theorem position_room (ho : Ordered l) (h : position size 0 l = some (idx, base)) :
    base % 0x1000 = 0 ∧ base + size < 0x10000000000000000 ∧
      (∀ x ∈ l.take (idx + 1), x.stop ≤ base) ∧ ∀ x ∈ l.drop (idx + 1), base + size ≤ x.start := by
  obtain ⟨before, left, right, after, hl, rfl, rfl, hroom⟩ := position_eq_some h
  have hleft := ho.valid left (by simp [hl])
  have hright := ho.valid right (by simp [hl])
  have hsplit : l = (before ++ [left]) ++ right :: after := by simp [hl]
  have hlen : 0 + before.length + 1 = (before ++ [left]).length := by simp
  have hpair := ho.apart
  rw [hsplit, pairwise_append] at hpair
  obtain ⟨hbefore, hafter, -⟩ := hpair
  have hend := hleft.stop_aligned
  have hbound := hright.bound
  have hle := hright.le
  rw [hsplit, hlen, take_left, drop_left]
  refine ⟨by omega, by omega, fun x hx => ?_, fun x hx => ?_⟩
  · rcases mem_append.1 hx with hx | hx
    · have hxl := (pairwise_append.1 hbefore).2.2 x hx left (by simp)
      have hle := hleft.le
      omega
    · obtain rfl := mem_singleton.1 hx
      omega
  · rcases mem_cons.1 hx with rfl | hx
    · exact hroom
    · have hxr := (pairwise_cons.1 hafter).1 x hx
      omega

theorem insertMapping_inserts (ho : Ordered m.mappings)
    (h : m.insertMapping mapping object flags = some (base, m')) :
    Inserts m ⟨base, base + mapping.size, object, flags⟩ [] m' := by
  obtain ⟨⟨idx, b⟩, hpos, heq⟩ := map_eq_some_iff.1 h
  cases heq
  have hnone : MapsAll m flags [] m := mapAll_eq_some rfl
  obtain ⟨halign, hbound, hbefore, hafter⟩ := position_room ho hpos
  exact hnone.inserts ho halign hbound hbefore hafter

theorem insertMappingSet_inserts (ho : Ordered m.mappings)
    (h : m.insertMappingSet mapping object flags = some (base, m')) :
    Inserts m ⟨base, base + mapping.size, object, flags⟩ (mapping.targets base) m' := by
  unfold insertMappingSet at h
  split at h
  · cases h
  · rename_i hpos
    obtain ⟨m1, hmap, heq⟩ := map_eq_some_iff.1 h
    cases heq
    obtain ⟨halign, hbound, hbefore, hafter⟩ := position_room ho hpos
    exact (mapAll_eq_some hmap).inserts ho halign hbound hbefore hafter

/-! ## Page faults and removing -/

theorem found_eq_some {f : MappedRange → Ordering} (h : found l f = some (idx, r)) :
    l[idx]? = some r ∧ f r = .eq := by
  unfold found at h
  split at h
  · cases h
  · rename_i i hsearch
    obtain ⟨x, hx, heq⟩ := map_eq_some_iff.1 h
    cases heq
    obtain ⟨y, hy, hfy⟩ := search_ok hsearch
    rw [hx, Option.some.injEq] at hy
    exact ⟨hx, hy ▸ hfy⟩

theorem faulting_eq_some (h : m.faulting address = some r) :
    r ∈ m.mappings ∧ r.start ≤ address ∧ address < r.stop ∧ address ≤ endUserMem := by
  unfold faulting at h
  split at h
  · cases h
  · rename_i hle
    obtain ⟨⟨idx, x⟩, hx, heq⟩ := map_eq_some_iff.1 h
    cases heq
    obtain ⟨hget, hcmp⟩ := found_eq_some hx
    obtain ⟨hstart, hstop⟩ := MappedRange.compareAddress_eq.1 hcmp
    exact ⟨mem_of_getElem? hget, hstart, hstop, by omega⟩

theorem faulting_of_mem (ho : Ordered m.mappings) (hr : r ∈ m.mappings) (hstart : r.start ≤ address)
    (hstop : address < r.stop) (huser : address ≤ endUserMem) : m.faulting address = some r := by
  have hself : r.compareAddress address = .eq := MappedRange.compareAddress_eq.2 ⟨hstart, hstop⟩
  obtain ⟨i, hsearch⟩ := exists_search_ok ho.partitioned_address hr hself
  obtain ⟨x, hx, hcmp⟩ := search_ok hsearch
  obtain rfl := ho.eq_of_shared (mem_of_getElem? hx) hr (MappedRange.compareAddress_eq.1 hcmp)
    ⟨hstart, hstop⟩
  simp only [faulting, if_neg (Nat.not_lt.2 huser), found, hsearch, hx, map_some]

theorem mapFault_eq_some_iff : m.mapFault address r phys = some m' ↔
    (pageOk (pageBase address) = true ∧ pageOk phys = true) ∧
      ((m.pageMapper (pageBase address)).isSome ∧ m' = m ∨
        m.pageMapper (pageBase address) = none ∧ phys < 0x10000000000000 ∧ m' = { m with
          pageMapper :=
            update m.pageMapper (pageBase address) (some (phys, r.flags)) }) := by
  unfold mapFault map
  by_cases hok : pageOk (pageBase address) = true ∧ pageOk phys = true
  · rw [if_pos hok]
    cases hv : m.pageMapper (pageBase address) with
    | some => simp [hok, eq_comm]
    | none =>
      by_cases hp : phys < 0x10000000000000
      · simp [hok, hp, eq_comm]
      · simp [hp]
  · simp [hok]

theorem mapFault_eq_some (h : m.mapFault address r phys = some m') :
    m' = m ∨ m.pageMapper (pageBase address) = none ∧ frameOk phys = true ∧
      m' = { m with
        pageMapper := update m.pageMapper (pageBase address) (some (phys, r.flags)) } := by
  obtain ⟨⟨-, hp⟩, ⟨-, rfl⟩ | ⟨hnone, hlt, rfl⟩⟩ := mapFault_eq_some_iff.1 h
  · exact .inl rfl
  · exact .inr ⟨hnone, frameOk_iff.2 ⟨hp, hlt⟩, rfl⟩

/-- What removing a range does. -/
structure Removes (m : PageMapperManager) (r : MappedRange) (m' : PageMapperManager) : Prop where
  mem : r ∈ m.mappings
  sublist : m'.mappings.Sublist m.mappings
  kept : ∀ x ∈ m.mappings, x = r ∨ x ∈ m'.mappings
  table : ∀ v, m'.pageMapper v = if v ∈ pagesOf r.start r.stop then none else m.pageMapper v

theorem freeMapping_removes (h : m.freeMapping start stop = some (.ok (r, m'))) :
    Removes m r m' ∧ r.compareRange start stop = .eq := by
  unfold freeMapping at h
  split at h
  · cases h
  · rename_i i x hfound
    obtain ⟨m1, hunmap, heq⟩ := map_eq_some_iff.1 h
    cases heq
    obtain ⟨hget, hcmp⟩ := found_eq_some hfound
    obtain ⟨hmappings, htable⟩ := unmapAll_eq_some hunmap
    refine ⟨⟨mem_of_getElem? hget, ?_, ?_, htable⟩, hcmp⟩
    · rw [hmappings]
      exact eraseIdx_sublist ..
    · intro y hy
      rw [hmappings]
      obtain ⟨j, hj, rfl⟩ := mem_iff_getElem.1 hy
      by_cases hij : j = i
      · subst hij
        rw [List.getElem?_eq_getElem hj, Option.some.injEq] at hget
        exact .inl hget
      · exact .inr (mem_eraseIdx_iff_getElem.2 ⟨j, hj, hij, rfl⟩)

theorem freeMapping_isSome_iff : (m.freeMapping start stop).isSome ↔
    ∀ i r, found m.mappings (·.compareRange start stop) = some (i, r) →
      ∀ v ∈ pagesOf r.start r.stop, pageOk v = true := by
  unfold freeMapping
  split
  · rename_i hnone
    simp [hnone]
  · rename_i i r hsome
    rw [isSome_map, unmapAll_isSome_iff, hsome]
    constructor
    · intro h j x hx
      cases hx
      exact h
    · intro h
      exact h i r rfl

theorem exists_freeMapping (ho : Ordered m.mappings) (hne : ∀ x ∈ m.mappings, x.start < x.stop)
    (hr : r ∈ m.mappings) (hok : ∀ v ∈ pagesOf r.start r.stop, pageOk v = true) :
    ∃ m', m.freeMapping r.start r.stop = some (.ok (r, m')) := by
  have hself : r.compareRange r.start r.stop = .eq := MappedRange.compareRange_eq.2 (by simp)
  obtain ⟨i, hsearch⟩ := exists_search_ok (ho.partitioned_range hne) hr hself
  obtain ⟨x, hx, hcmp⟩ := search_ok hsearch
  -- the two ranges share their first address
  have hxr : x = r := by
    by_contra hxr
    have hx' := mem_of_getElem? hx
    have hlt := hne x hx'
    have hlt' := hne r hr
    have heq := MappedRange.compareRange_eq.1 hcmp
    rcases ho.apart_of_ne hx' hr hxr with h | h <;> omega
  subst hxr
  obtain ⟨m', hm'⟩ := isSome_iff_exists.1 ((unmapAll_isSome_iff
    (m := { m with mappings := m.mappings.eraseIdx i })).2 hok)
  refine ⟨m', ?_⟩
  simp only [freeMapping, found, hsearch, hx, map_some, hm']

end PageMapperManager

end Fioxa.Paging
