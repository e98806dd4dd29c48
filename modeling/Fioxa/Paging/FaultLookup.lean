import Fioxa.Paging.BackedPages

/-! # Page faults find their range

A `PageMapperManager` together with the `PageMapping`s that its ranges refer to, under any sequence
of its calls. The list of ranges stays ordered and every entry of the page table stays backed by its
range, so that a page fault finds the range of its address, and an entry that is there already has
the page that the mapping has. What remains is that the page can be mapped: `Page::containing`
panics for the first page of memory, and for physical addresses that are none. -/

namespace Fioxa.Paging

open PageMapperManager List Option Function Lts
open TableSystem (frameOk)
open PageMapping (pageAt newLazy)

/-- What the constructors of `PageMapping` make, for whole pages. -/
structure PageMapping.WellFormed (mapping : PageMapping) : Prop where
  size : mapping.size % 0x1000 = 0
  base : ∀ b, mapping.mapping = .mmap b → b % 0x1000 = 0
  slots : ∀ pages, mapping.mapping = .lazyMapping pages → pages.length = pageCount mapping.size

structure ManagedSpace where
  manager : PageMapperManager
  objects : List PageMapping

namespace ManagedSpace

variable {s t : ManagedSpace} {r : MappedRange} {mapping : PageMapping}
  {object offset address phys : Nat} {page : Option Nat} {objects : List PageMapping}
  {m : PageMapperManager}

/-- The physical page at an offset of a mapping; `page` is what the allocator returns if the mapping
    has none yet. -/
def faultPage (s : ManagedSpace) (object offset : Nat) (page : Option Nat) :
    Option (Nat × List PageMapping) :=
  match s.objects[object]? with
  | none => none
  | some ⟨_, .mmap baseAddress⟩ => some (pageBase (baseAddress + offset), s.objects)
  | some ⟨size, .lazyMapping pages⟩ =>
    match pages[offset / 0x1000]? with
    | none => none
    | some (some page) => some (page, s.objects)
    | some none => page.map fun page =>
        (page, s.objects.set object ⟨size, .lazyMapping (pages.set (offset / 0x1000) (some page))⟩)

/-- The inner option is the result of the function. -/
def pageFaultHandler (s : ManagedSpace) (address : Nat) (page : Option Nat) :
    Option (Option ManagedSpace) :=
  match s.manager.faulting address with
  | none => some none
  | some r =>
    match s.faultPage r.object (address - r.start) page with
    | none => none
    | some (phys, objects) => (s.manager.mapFault address r phys).map fun m => some ⟨m, objects⟩

inductive Call where
  | insertMappingAt (base object : Nat) (flags : MemoryMappingFlags)
  | insertMappingAtSet (base object : Nat) (flags : MemoryMappingFlags)
  | insertMapping (object : Nat) (flags : MemoryMappingFlags)
  | insertMappingSet (object : Nat) (flags : MemoryMappingFlags)
  | freeMapping (start stop : Nat)
  | pageFaultHandler (address : Nat) (page : Option Nat)

/-- A call with a reference to a mapping. -/
def withMapping (s : ManagedSpace) (object : Nat)
    (f : PageMapping → Option (Option PageMapperManager)) : Option ManagedSpace :=
  s.objects[object]?.bind fun mapping =>
    (f mapping).map fun m => { s with manager := m.getD s.manager }

def step (s : ManagedSpace) : Call → Option ManagedSpace
  | .insertMappingAt base object flags => s.withMapping object fun mapping =>
      s.manager.insertMappingAt base mapping object flags
  | .insertMappingAtSet base object flags => s.withMapping object fun mapping =>
      s.manager.insertMappingAtSet base mapping object flags
  | .insertMapping object flags => s.withMapping object fun mapping =>
      (s.manager.insertMapping mapping object flags).map fun x => some x.2
  | .insertMappingSet object flags => s.withMapping object fun mapping =>
      (s.manager.insertMappingSet mapping object flags).map fun x => some x.2
  | .freeMapping start stop => (s.manager.freeMapping start stop).map fun
      | .ok (_, m) => { s with manager := m }
      | .error _ => s
  | .pageFaultHandler address page => (s.pageFaultHandler address page).map (·.getD s)

/-- A new manager; the mappings exist outside of it. -/
def new (objects : List PageMapping) : ManagedSpace := ⟨⟨fun _ => none, []⟩, objects⟩

/-! ## The invariant -/

structure Inv (s : ManagedSpace) : Prop where
  space : SpaceOk s.objects s.manager []
  wellFormed : ∀ mapping ∈ s.objects, mapping.WellFormed
  frames : ∀ v page flags, s.manager.pageMapper v = some (page, flags) → frameOk page = true

/-- The page that the mapping of a range has for an address. -/
def frameAt (s : ManagedSpace) (r : MappedRange) (address : Nat) : Option Nat :=
  s.objects[r.object]?.bind (·.pageAt ((address - r.start) / 0x1000))

namespace Inv

variable (h : s.Inv)
include h

theorem inserts {pages : List (Nat × Nat)} {base : Nat} {flags : MemoryMappingFlags}
    (hmapping : s.objects[object]? = some mapping) (hpages : pages ⊆ mapping.targets base)
    (hins : Inserts s.manager ⟨base, base + mapping.size, object, flags⟩ pages m) :
    Inv { s with manager := m } where
  space := by
    have hbase : base % 0x1000 = 0 := hins.aligned
    have hsize := (h.wellFormed mapping (mem_of_getElem? hmapping)).size
    have hstop : (base + mapping.size) % 0x1000 = 0 := by omega
    exact h.space.inserts hins hmapping rfl hstop hpages
  wellFormed := h.wellFormed
  frames v page fl hv := by
    by_cases hmem : ∃ p, (v, p) ∈ pages
    · obtain ⟨p, hp⟩ := hmem
      obtain ⟨rfl, -⟩ := Prod.mk.inj (Option.some.inj ((hins.mapped v p hp).symm.trans hv))
      exact hins.ok v p hp
    · exact h.frames v page fl (hins.others v (fun p hp => hmem ⟨p, hp⟩) ▸ hv)

theorem withMapping {f : PageMapping → Option (Option PageMapperManager)}
    (hf : ∀ mapping m, s.objects[object]? = some mapping → f mapping = some (some m) →
      Inv { s with manager := m })
    (hstep : s.withMapping object f = some t) : t.Inv := by
  obtain ⟨mapping, hmapping, hstep⟩ := bind_eq_some_iff.1 hstep
  obtain ⟨result, hresult, rfl⟩ := map_eq_some_iff.1 hstep
  cases result with
  | none => exact h
  | some m => exact hf mapping m hmapping hresult

section

variable (hr : r ∈ s.manager.mappings)
include hr

/-- A range that has the address has the mapping for it. -/
theorem backing (hstart : r.start ≤ address)
    (hstop : address < r.stop) : ∃ mapping, s.objects[r.object]? = some mapping ∧
      mapping.WellFormed ∧ (address - r.start) / 0x1000 < pageCount mapping.size := by
  obtain ⟨mapping, hmapping, heq⟩ := h.space.sized r hr
  refine ⟨mapping, hmapping, h.wellFormed mapping (mem_of_getElem? hmapping), ?_⟩
  unfold pageCount
  omega

/-- The page is that of the mapping, or the one of the allocator if it has none. -/
theorem faultPage_iff (hstart : r.start ≤ address) (hstop : address < r.stop) :
    (∃ objects, s.faultPage r.object (address - r.start) page = some (phys, objects)) ↔
      (s.frameAt r address).or page = some phys := by
  obtain ⟨⟨size, mapping⟩, hmapping, hwf, hlt⟩ := h.backing hr hstart hstop
  simp only [faultPage, frameAt, hmapping, bind_some]
  cases mapping with
  | mmap b =>
    have hb := hwf.base b rfl
    have hpage : pageBase (b + (address - r.start)) = b + 0x1000 * ((address - r.start) / 0x1000) :=
      by unfold pageBase; omega
    simp [pageAt, hpage]
  | lazyMapping pages =>
    have hslots := hwf.slots pages rfl
    have hget := List.getElem?_eq_getElem (hslots ▸ hlt)
    cases hslot : pages[(address - r.start) / 0x1000] with
    | some => simp [pageAt, hget, hslot]
    | none => simp [pageAt, hget, hslot]

/-- The mapping has the page afterwards, and another one only if it has been missing. -/
theorem faultPage (hstart : r.start ≤ address) (hstop : address < r.stop)
    (hfault : s.faultPage r.object (address - r.start) page = some (phys, objects)) :
    Inv ⟨s.manager, objects⟩ ∧ frameAt ⟨s.manager, objects⟩ r address = some phys ∧
      ((s.frameAt r address).isSome → objects = s.objects) := by
  have hphys := (h.faultPage_iff hr hstart hstop).1 ⟨objects, hfault⟩
  obtain ⟨⟨size, mapping⟩, hmapping, hwf, -⟩ := h.backing hr hstart hstop
  have hsame : (s.frameAt r address).isSome → objects = s.objects →
      Inv ⟨s.manager, objects⟩ ∧ frameAt ⟨s.manager, objects⟩ r address = some phys ∧
        ((s.frameAt r address).isSome → objects = s.objects) := by
    rintro hsome rfl
    obtain ⟨q, hq⟩ := isSome_iff_exists.1 hsome
    rw [hq, some_or] at hphys
    exact ⟨h, hq.trans hphys, fun _ => rfl⟩
  simp only [ManagedSpace.faultPage, hmapping] at hfault
  cases mapping with
  | mmap b =>
    cases hfault
    exact hsame (by simp [frameAt, hmapping, pageAt]) rfl
  | lazyMapping pages =>
    dsimp only at hfault
    split at hfault
    · cases hfault
    · rename_i hget
      cases hfault
      exact hsame (by simp [frameAt, hmapping, pageAt, hget]) rfl
    · rename_i hget
      obtain ⟨q, -, heq⟩ := map_eq_some_iff.1 hfault
      cases heq
      have hk := (List.getElem?_eq_some_iff.1 hget).1
      have hlt := (List.getElem?_eq_some_iff.1 hmapping).1
      refine ⟨⟨h.space.extend fun x hx mapping hx' => ?_, fun mapping hmem => ?_, h.frames⟩, ?_, ?_⟩
      · by_cases hxr : x.object = r.object
        · rw [hxr] at hx' ⊢
          cases hmapping.symm.trans hx'
          exact ⟨_, List.getElem?_set_self hlt, .set hget⟩
        · exact ⟨mapping, by rw [List.getElem?_set_ne (Ne.symm hxr), hx'], .refl _⟩
      · rcases mem_or_eq_of_mem_set hmem with hmem | rfl
        · exact h.wellFormed mapping hmem
        · refine ⟨hwf.size, by simp, ?_⟩
          rintro _ ⟨⟩
          rw [length_set]
          exact hwf.slots pages rfl
      · simp only [frameAt, List.getElem?_set_self hlt, bind_some]
        exact PageMapping.pageAt_set hk
      · simp [frameAt, hmapping, pageAt, hget]

/-- A range that has an address has its page, and no other range has it. -/
theorem page_of_mem (hstart : r.start ≤ address)
    (hstop : address < r.stop) : r.start ≤ pageBase address ∧ pageBase address < r.stop ∧
      (pageBase address - r.start) / 0x1000 = (address - r.start) / 0x1000 := by
  have halign := (h.space.ordered.valid r hr).start_aligned
  unfold pageBase
  omega

theorem frameAt_of_entry {q : Nat} {flags : MemoryMappingFlags}
    (hstart : r.start ≤ address) (hstop : address < r.stop)
    (hentry : s.manager.pageMapper (pageBase address) = some (q, flags)) :
    s.frameAt r address = some q := by
  obtain ⟨hle, hlt, hoffset⟩ := h.page_of_mem hr hstart hstop
  obtain ⟨x, hx, hxle, hxlt, mapping, hmapping, hpage⟩ :=
    (h.space.backed _ q flags hentry).resolve_left not_mem_nil
  obtain rfl := h.space.ordered.eq_of_shared hx hr ⟨hxle, hxlt⟩ ⟨hle, hlt⟩
  rw [frameAt, hmapping, bind_some, ← hoffset]
  exact hpage

end

/-- What a page fault that returns has done. -/
theorem pageFault (hfault : s.pageFaultHandler address page = some (some t)) :
    t.Inv ∧ ∃ r ∈ s.manager.mappings, r.start ≤ address ∧ address < r.stop ∧
      (0 < pageBase address ∧ ∃ frame, (s.frameAt r address).or page = some frame ∧
        frameOk frame = true) ∧
      (∃ frame flags, t.manager.pageMapper (pageBase address) = some (frame, flags) ∧
        t.frameAt r address = some frame) ∧
      ((s.frameAt r address).isSome → t.objects = s.objects) ∧
      t.manager.mappings = s.manager.mappings ∧
      ∀ v, v ≠ pageBase address → t.manager.pageMapper v = s.manager.pageMapper v := by
  unfold pageFaultHandler at hfault
  split at hfault
  · cases hfault
  · rename_i r hfaulting
    split at hfault
    · cases hfault
    · rename_i phys objects hpage
      obtain ⟨m, hm, heq⟩ := map_eq_some_iff.1 hfault
      cases heq
      obtain ⟨hr, hstart, hstop, -⟩ := faulting_eq_some hfaulting
      obtain ⟨hinv, hframe, hsame⟩ := h.faultPage hr hstart hstop hpage
      have hphys := (h.faultPage_iff hr hstart hstop).1 ⟨objects, hpage⟩
      obtain ⟨⟨hv, hp⟩, ⟨hsome, rfl⟩ | ⟨hnone, hlt, rfl⟩⟩ := mapFault_eq_some_iff.1 hm
      · obtain ⟨⟨q, flags⟩, hentry⟩ := isSome_iff_exists.1 hsome
        have hq := hinv.frameAt_of_entry hr hstart hstop hentry
        obtain rfl := Option.some.inj (hframe.symm.trans hq)
        exact ⟨hinv, r, hr, hstart, hstop,
          ⟨(pageOk_iff.1 hv).2.1, phys, hphys, h.frames _ _ _ hentry⟩, ⟨phys, flags, hentry, hq⟩,
          hsame, rfl, fun _ _ => rfl⟩
      · have hok : frameOk phys = true := frameOk_iff.2 ⟨hp, hlt⟩
        obtain ⟨hle, hlt, hoffset⟩ := h.page_of_mem hr hstart hstop
        obtain ⟨mapping, hmapping, hpageAt⟩ := bind_eq_some_iff.1 hframe
        have hbacked : BackedBy objects s.manager (pageBase address) phys :=
          ⟨r, hr, hle, hlt, mapping, hmapping, hoffset ▸ hpageAt⟩
        refine ⟨⟨hinv.space.map (pageOk_iff.1 hv).1 (.inr hbacked), hinv.wellFormed, ?_⟩, r, hr,
          hstart, hstop, ⟨(pageOk_iff.1 hv).2.1, phys, hphys, hok⟩,
          ⟨phys, r.flags, update_self .., hframe⟩, hsame, rfl,
          fun v hv => update_of_ne hv _ _⟩
        intro v q flags hq
        by_cases hvp : v = pageBase address
        · subst hvp
          cases (update_self ..).symm.trans hq
          exact hok
        · exact h.frames v q flags ((update_of_ne hvp _ _).symm.trans hq)

theorem step {call : Call} (hstep : s.step call = some t) : t.Inv := by
  have ho := h.space.ordered
  cases call with
  | insertMappingAt =>
    exact h.withMapping (fun mapping m hmapping hm =>
      h.inserts hmapping (nil_subset _) (insertMappingAt_inserts ho hm)) hstep
  | insertMappingAtSet =>
    exact h.withMapping (fun mapping m hmapping hm =>
      h.inserts hmapping (Subset.refl _) (insertMappingAtSet_inserts ho hm)) hstep
  | insertMapping =>
    refine h.withMapping (fun mapping m hmapping hm => ?_) hstep
    obtain ⟨⟨base, m⟩, hins, heq⟩ := map_eq_some_iff.1 hm
    cases heq
    exact h.inserts hmapping (nil_subset _) (insertMapping_inserts ho hins)
  | insertMappingSet =>
    refine h.withMapping (fun mapping m hmapping hm => ?_) hstep
    obtain ⟨⟨base, m⟩, hins, heq⟩ := map_eq_some_iff.1 hm
    cases heq
    exact h.inserts hmapping (Subset.refl _) (insertMappingSet_inserts ho hins)
  | freeMapping =>
    obtain ⟨result, hfree, rfl⟩ := map_eq_some_iff.1 hstep
    cases result with
    | error => exact h
    | ok x =>
      obtain ⟨hrem, -⟩ := freeMapping_removes hfree
      refine ⟨h.space.removes hrem, h.wellFormed, fun v q flags hv => ?_⟩
      have hv : x.2.pageMapper v = some (q, flags) := hv
      rw [hrem.table] at hv
      split at hv
      · cases hv
      · exact h.frames v q flags hv
  | pageFaultHandler =>
    obtain ⟨result, hfault, rfl⟩ := map_eq_some_iff.1 hstep
    cases result with
    | none => exact h
    | some => exact (h.pageFault hfault).1

end Inv

theorem inv_new (hobjects : ∀ mapping ∈ objects, mapping.WellFormed) : (new objects).Inv :=
  ⟨.empty, hobjects, by simp [new]⟩

/-! ## Page faults -/

/-- A page fault returns exactly if a range has its address. Then the page of the address is mapped
    to the page that the mapping has for it, which is allocated only if the mapping has had none;
    other pages are mapped as before. -/
structure FaultRight (s : ManagedSpace) (address : Nat) (page : Option Nat) : Prop where
  returns : (∃ t, s.pageFaultHandler address page = some (some t)) ↔
    ∃ r ∈ s.manager.mappings, r.start ≤ address ∧ address < r.stop
  maps : ∀ t, s.pageFaultHandler address page = some (some t) →
    ∀ r ∈ s.manager.mappings, r.start ≤ address → address < r.stop →
      (∃ frame flags, t.manager.pageMapper (pageBase address) = some (frame, flags) ∧
        t.frameAt r address = some frame) ∧
      ((s.frameAt r address).isSome → t.objects = s.objects)
  others : ∀ t, s.pageFaultHandler address page = some (some t) →
    t.manager.mappings = s.manager.mappings ∧
      ∀ v, v ≠ pageBase address → t.manager.pageMapper v = s.manager.pageMapper v

/-- The ranges stay ordered and apart. A page fault is handled as it should be exactly if the
    address, if a range has it, is not in the first page of memory, and its mapping has a frame for
    it or is given one. -/
theorem pageFault_right_iff (hobjects : ∀ mapping ∈ objects, mapping.WellFormed)
    (hreach : Lts.Reachable step (new objects) s) : Ordered s.manager.mappings ∧
      ∀ address < 0x800000000000, ∀ page, s.FaultRight address page ↔
        ∀ r ∈ s.manager.mappings, r.start ≤ address → address < r.stop →
          0x1000 ≤ address ∧ ∃ frame, (s.frameAt r address).or page = some frame ∧
            frameOk frame = true := by
  have h : s.Inv := hreach.invariant (fun _ _ _ h hstep => h.step hstep) (inv_new hobjects)
  refine ⟨h.space.ordered, fun address hlow page => ⟨fun hright r hr hstart hstop => ?_, ?_⟩⟩
  · obtain ⟨t, ht⟩ := hright.returns.2 ⟨r, hr, hstart, hstop⟩
    obtain ⟨-, x, hx, hxstart, hxstop, ⟨hpos, hframe⟩, -⟩ := h.pageFault ht
    obtain rfl := h.space.ordered.eq_of_shared hx hr ⟨hxstart, hxstop⟩ ⟨hstart, hstop⟩
    refine ⟨?_, hframe⟩
    unfold pageBase at hpos
    omega
  · intro hcond
    refine ⟨⟨?_, ?_⟩, fun t ht r hr hstart hstop => ?_, fun t ht => ?_⟩
    · rintro ⟨t, ht⟩
      obtain ⟨-, r, hr, hstart, hstop, -⟩ := h.pageFault ht
      exact ⟨r, hr, hstart, hstop⟩
    · rintro ⟨r, hr, hstart, hstop⟩
      obtain ⟨hle, frame, hframe, hok⟩ := hcond r hr hstart hstop
      obtain ⟨objects', hpage⟩ := (h.faultPage_iff hr hstart hstop).2 hframe
      obtain ⟨hp, hlt⟩ := frameOk_iff.1 hok
      have hv : pageOk (pageBase address) = true := by
        rw [pageOk_iff]
        unfold pageBase
        omega
      have hfaulting := faulting_of_mem h.space.ordered hr hstart hstop
        (Nat.le_trans (Nat.le_of_lt hlow) (by decide))
      obtain ⟨m, hm⟩ : ∃ m, s.manager.mapFault address r frame = some m := by
        cases hentry : s.manager.pageMapper (pageBase address) with
        | some => exact ⟨_, mapFault_eq_some_iff.2 ⟨⟨hv, hp⟩, .inl ⟨by rw [hentry]; rfl, rfl⟩⟩⟩
        | none => exact ⟨_, mapFault_eq_some_iff.2 ⟨⟨hv, hp⟩, .inr ⟨hentry, hlt, rfl⟩⟩⟩
      exact ⟨⟨m, objects'⟩, by simp only [pageFaultHandler, hfaulting, hpage, hm, map_some]⟩
    · obtain ⟨-, x, hx, hxstart, hxstop, -, hmaps, hsame, -⟩ := h.pageFault ht
      obtain rfl := h.space.ordered.eq_of_shared hx hr ⟨hxstart, hxstop⟩ ⟨hstart, hstop⟩
      exact ⟨hmaps, hsame⟩
    · obtain ⟨-, -, -, -, -, -, -, -, hmappings, hothers⟩ := h.pageFault ht
      exact ⟨hmappings, hothers⟩

theorem newLazy_wellFormed {size : Nat} (hsize : size % 0x1000 = 0) :
    (newLazy size).WellFormed := by
  refine ⟨hsize, by simp [newLazy], ?_⟩
  rintro _ ⟨⟩
  exact length_replicate

/-- The first fault in a page is given a frame. -/
theorem pageFault_right_lazy : ∃ s, run step (new [.newLazy 0x1000])
    [.insertMappingAt 0x400000 0 ⟨true, true⟩] = some s ∧
    s.FaultRight 0x400800 (some 0x5000) := by
  have hrun : ∃ s ∈ run step (new [.newLazy 0x1000]) [.insertMappingAt 0x400000 0 ⟨true, true⟩],
      s.manager.mappings = [⟨0x400000, 0x401000, 0, ⟨true, true⟩⟩] ∧
        s.objects = [.newLazy 0x1000] := by decide
  obtain ⟨s, hs, hlist, hobjects⟩ := hrun
  have hwf : ∀ mapping ∈ [newLazy 0x1000], mapping.WellFormed :=
    forall_mem_singleton.2 (newLazy_wellFormed (by decide))
  refine ⟨s, hs, ((pageFault_right_iff hwf ⟨_, hs⟩).2 _ (by decide) _).2 fun r hr _ _ => ?_⟩
  rw [hlist, mem_singleton] at hr
  subst hr
  refine ⟨by decide, 0x5000, ?_, by decide⟩
  rw [frameAt, hobjects]
  rfl

/-- A range at address 0 has the address, and a fault there panics. -/
theorem pageFault_first_page : ∃ s, run step (new [.newLazy 0x1000])
    [.insertMappingAt 0 0 ⟨true, true⟩] = some s ∧
    s.manager.mappings = [⟨0, 0x1000, 0, ⟨true, true⟩⟩] ∧
    s.pageFaultHandler 0x800 (some 0x5000) = none := by
  have hrun : ∃ s ∈ run step (new [.newLazy 0x1000]) [.insertMappingAt 0 0 ⟨true, true⟩],
      s.manager.mappings = [⟨0, 0x1000, 0, ⟨true, true⟩⟩] ∧
        (s.pageFaultHandler 0x800 (some 0x5000)).isNone := by decide
  obtain ⟨s, hs, hlist, hnone⟩ := hrun
  exact ⟨s, hs, hlist, isNone_iff_eq_none.1 hnone⟩

end ManagedSpace

end Fioxa.Paging
