import Fioxa.Paging.OrderedRanges

/-! # Entries are backed by ranges

What holds of the address space of one process (`SpaceOk`): every entry of its page table points to
the page that the mapping of one of its ranges has at the same offset, or to a page that the process
owns itself. Inserting, mapping and removing ranges keep this, and so does a change to the mappings
that leaves alone the pages they have. -/

namespace Fioxa.Paging

open PageMapperManager Function PageMapping

namespace PageMapping

/-- The mapping keeps its size and the pages it has. -/
structure Extends (mapping mapping' : PageMapping) : Prop where
  size : mapping'.size = mapping.size
  pages : ∀ k page, mapping.pageAt k = some page → mapping'.pageAt k = some page

theorem Extends.refl (mapping : PageMapping) : mapping.Extends mapping :=
  ⟨rfl, fun _ _ h => h⟩

variable {size k page : Nat} {pages : List (Option Nat)}

theorem pageAt_set (hk : k < pages.length) :
    pageAt ⟨size, .lazyMapping (pages.set k (some page))⟩ k = some page := by
  show (pages.set k (some page))[k]?.join = some page
  rw [List.getElem?_set_self hk]
  rfl

theorem Extends.set (hk : pages[k]? = some none) :
    Extends ⟨size, .lazyMapping pages⟩ ⟨size, .lazyMapping (pages.set k (some page))⟩ where
  size := rfl
  pages j q hj := by
    have hj : pages[j]?.join = some q := hj
    show (pages.set k (some page))[j]?.join = some q
    rw [List.getElem?_set_ne, hj]
    rintro rfl
    rw [hk] at hj
    cases hj

end PageMapping

/-- A range of the manager covers the address, and its mapping has this page at the same offset. -/
def BackedBy (objects : List PageMapping) (m : PageMapperManager) (v page : Nat) : Prop :=
  ∃ r ∈ m.mappings, r.start ≤ v ∧ v < r.stop ∧
    ∃ mapping, objects[r.object]? = some mapping ∧
      mapping.pageAt ((v - r.start) / 0x1000) = some page

structure SpaceOk (objects : List PageMapping) (m : PageMapperManager) (owned32 : List Nat) :
    Prop where
  ordered : Ordered m.mappings
  sized : ∀ r ∈ m.mappings, ∃ mapping, objects[r.object]? = some mapping ∧
    r.stop = r.start + mapping.size
  aligned : ∀ v e, m.pageMapper v = some e → v % 0x1000 = 0
  backed : ∀ v page flags, m.pageMapper v = some (page, flags) →
    page ∈ owned32 ∨ BackedBy objects m v page

namespace SpaceOk

variable {objects objects' : List PageMapping} {m m' : PageMapperManager} {owned32 : List Nat}
  {r : MappedRange} {mapping : PageMapping} {pages : List (Nat × Nat)}

theorem empty : SpaceOk objects ⟨fun _ => none, []⟩ owned32 where
  ordered := ⟨by simp, List.Pairwise.nil⟩
  sized := by simp
  aligned := by simp
  backed := by simp

variable (h : SpaceOk objects m owned32)
include h

theorem extend (hobjects : ∀ r ∈ m.mappings, ∀ mapping, objects[r.object]? = some mapping →
      ∃ mapping', objects'[r.object]? = some mapping' ∧ mapping.Extends mapping') :
    SpaceOk objects' m owned32 where
  ordered := h.ordered
  sized r hr := by
    obtain ⟨mapping, hmapping, hstop⟩ := h.sized r hr
    obtain ⟨mapping', hmapping', hext⟩ := hobjects r hr mapping hmapping
    exact ⟨mapping', hmapping', by rw [hstop, hext.size]⟩
  aligned := h.aligned
  backed v page flags hv := by
    refine (h.backed v page flags hv).imp_right ?_
    rintro ⟨r, hr, hstart, hstop, mapping, hmapping, hpage⟩
    obtain ⟨mapping', hmapping', hext⟩ := hobjects r hr mapping hmapping
    exact ⟨r, hr, hstart, hstop, mapping', hmapping', hext.pages _ _ hpage⟩

theorem inserts (hins : Inserts m r pages m') (hmapping : objects[r.object]? = some mapping)
    (hstop : r.stop = r.start + mapping.size) (halign : r.stop % 0x1000 = 0)
    (hpages : pages ⊆ mapping.targets r.start) :
    SpaceOk objects m' owned32 := by
  -- an entry of the new table is an old one or belongs to the new range
  have hcases : ∀ v page flags, m'.pageMapper v = some (page, flags) →
      (v, page) ∈ mapping.targets r.start ∨ m.pageMapper v = some (page, flags) := by
    intro v page flags hv
    by_cases hmem : ∃ p, (v, p) ∈ pages
    · obtain ⟨p, hp⟩ := hmem
      rw [hins.mapped v p hp, Option.some.injEq, Prod.mk.injEq] at hv
      exact .inl (hv.1 ▸ hpages hp)
    · rw [hins.others v fun p hp => hmem ⟨p, hp⟩] at hv
      exact .inr hv
  have haligned := hins.aligned
  refine ⟨hins.ordered halign, ?_, ?_, ?_⟩
  · intro x hx
    obtain rfl | hx := (hins.mem_iff x).1 hx
    · exact ⟨mapping, hmapping, hstop⟩
    · exact h.sized x hx
  · rintro v ⟨page, flags⟩ hv
    rcases hcases v page flags hv with htarget | hold
    · obtain ⟨k, -, rfl, -⟩ := mem_targets.1 htarget
      omega
    · exact h.aligned v _ hold
  · intro v page flags hv
    rcases hcases v page flags hv with htarget | hold
    · have hbounds := bounds_of_mem_pagesOf (mem_pagesOf_of_mem_targets htarget)
      obtain ⟨k, -, rfl, hpage⟩ := mem_targets.1 htarget
      refine .inr ⟨r, (hins.mem_iff r).2 (.inl rfl), hbounds.1, hstop ▸ hbounds.2, mapping,
        hmapping, ?_⟩
      have hk : (r.start + 0x1000 * k - r.start) / 0x1000 = k := by omega
      rw [hk]
      exact hpage
    · refine (h.backed v page flags hold).imp_right ?_
      rintro ⟨x, hx, hback⟩
      exact ⟨x, (hins.mem_iff x).2 (.inr hx), hback⟩

theorem removes (hrem : Removes m r m') : SpaceOk objects m' owned32 := by
  have hold : ∀ v e, m'.pageMapper v = some e →
      v ∉ pagesOf r.start r.stop ∧ m.pageMapper v = some e := by
    intro v e hv
    rw [hrem.table] at hv
    split at hv
    · cases hv
    · rename_i hnot
      exact ⟨hnot, hv⟩
  refine ⟨h.ordered.sublist hrem.sublist, fun x hx => h.sized x (hrem.sublist.subset hx),
    fun v e hv => h.aligned v e (hold v e hv).2, ?_⟩
  intro v page flags hv
  obtain ⟨hnot, hv⟩ := hold v _ hv
  refine (h.backed v page flags hv).imp_right ?_
  rintro ⟨x, hx, hstart, hstop, hback⟩
  refine ⟨x, (hrem.kept x hx).resolve_left ?_, hstart, hstop, hback⟩
  -- the entries of the range that goes are gone
  rintro rfl
  apply hnot
  exact (mem_pagesOf (h.ordered.valid x hx).start_aligned (h.aligned v _ hv)).2 ⟨hstart, hstop⟩

theorem map {v page : Nat} {flags : MemoryMappingFlags} (hv : v % 0x1000 = 0)
    (hpage : page ∈ owned32 ∨ BackedBy objects m v page) :
    SpaceOk objects { m with pageMapper := Function.update m.pageMapper v (some (page, flags)) }
      owned32 where
  ordered := h.ordered
  sized := h.sized
  aligned w e hw := by
    have hw : Function.update m.pageMapper v (some (page, flags)) w = some e := hw
    by_cases hwv : w = v
    · exact hwv ▸ hv
    · rw [update_of_ne hwv] at hw
      exact h.aligned w e hw
  backed w q fl hw := by
    have hw : Function.update m.pageMapper v (some (page, flags)) w = some (q, fl) := hw
    by_cases hwv : w = v
    · subst hwv
      rw [update_self, Option.some.injEq, Prod.mk.injEq] at hw
      exact hw.1 ▸ hpage
    · rw [update_of_ne hwv] at hw
      exact h.backed w q fl hw

theorem mono {owned32' : List Nat} (hsub : owned32 ⊆ owned32') :
    SpaceOk objects m owned32' where
  ordered := h.ordered
  sized := h.sized
  aligned := h.aligned
  backed v page flags hv := (h.backed v page flags hv).imp_left fun hmem => hsub hmem

end SpaceOk

end Fioxa.Paging
