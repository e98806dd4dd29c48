import Fioxa.Lib.Shares
import Fioxa.Paging.BackedPages
import Fioxa.Paging.OwnedPages
import Fioxa.Paging.ProcessSteps

/-! # Address spaces are isolated

The invariant of all address spaces together (`World.Inv`): the entries of every process are backed,
and all pages that have an owner are handed out, each of them to one owner. Ranges are removed
together with their entries, and the pages of a mapping are freed only when no range refers to it
any more, so that no entry is left behind. Therefore no entry points to a free page, and two
processes share a page only through a mapping that both refer to. -/

namespace Fioxa.Paging

open PageMapperManager PageFrameAllocator List Paging.Process PageMapping Lts Shares
open Option (bind_eq_bind bind_eq_some_iff)

namespace PageMapping

variable {size k page : Nat} {pages : List (Option Nat)}

theorem owned_set (size page : Nat) (hk : pages[k]? = some none) :
    (owned ⟨size, .lazyMapping (pages.set k (some page))⟩).Perm
      (page :: owned ⟨size, .lazyMapping pages⟩) := by
  show ((pages.set k (some page)).filterMap id).Perm (page :: pages.filterMap id)
  rw [filterMap_eq_flatMap_toList, filterMap_eq_flatMap_toList]
  obtain ⟨rest, hold, hset⟩ := perm_flatMap_set (g := Option.toList) hk
  exact (hset (some page)).trans (hold.symm.cons page)

end PageMapping

/-- The registers of the devices are whole pages and not part of the memory that is handed out. -/
structure DevicesApart (mmap : List MemoryDescriptor) (hpet : Nat) : Prop where
  apic_notMem : 0xfee00000 ∉ conventionalPages mmap
  hpet_notMem : hpet ∉ conventionalPages mmap
  aligned : hpet % 0x1000 = 0

namespace World

variable {C : Type} {mmap : List MemoryDescriptor} {w w' : World C}
  {pool pool' held held' : List Nat} {pid pid' object : Nat} {p p' : Process}
  {mapping : PageMapping}

/-! ## Processes and mappings by their number -/

theorem process_eq_some : w.process pid = some p ↔ w.processes[pid]? = some (some p) :=
  Option.join_eq_some_iff

theorem process_setProcess (hp : w.process pid = some p) (q : Option Process) :
    (w.setProcess pid q).process pid' = if pid' = pid then q else w.process pid' := by
  have hlt : pid < w.processes.length := (List.getElem?_eq_some_iff.1 (process_eq_some.1 hp)).1
  show (w.processes.set pid q)[pid']?.join = _
  rw [List.getElem?_set]
  by_cases heq : pid' = pid
  · subst heq
    simp [hlt]
  · simp [heq, Ne.symm heq, process]

theorem owned_setProcess (hp : w.process pid = some p) : ∃ rest,
    w.owned.Perm (p.owned32Pages ++ rest) ∧
      ∀ q, (w.setProcess pid q).owned.Perm (owned32 q ++ rest) := by
  obtain ⟨rest, hl, hset⟩ := perm_flatMap_set (g := owned32) (process_eq_some.1 hp)
  refine ⟨w.objects.flatMap PageMapping.owned ++ rest, ?_, fun q => ?_⟩
  · exact (hl.append_left _).trans (perm_append_comm_assoc ..)
  · exact ((hset q).append_left _).trans (perm_append_comm_assoc ..)

/-- The number of pages for 32-bit devices that processes own. -/
def count32 (w : World C) : Nat := (w.processes.flatMap owned32).length

theorem count32_setProcess (hp : w.process pid = some p) (q : Option Process) :
    (w.setProcess pid q).count32 + p.owned32Pages.length = w.count32 + (owned32 q).length := by
  obtain ⟨rest, hl, hset⟩ := perm_flatMap_set (g := owned32) (process_eq_some.1 hp)
  have hold : w.count32 = (p.owned32Pages ++ rest).length := hl.length_eq
  have hnew : (w.setProcess pid q).count32 = (owned32 q ++ rest).length := (hset q).length_eq
  rw [length_append] at hold hnew
  omega

theorem owned_setObject (ho : w.objects[object]? = some mapping) : ∃ rest,
    w.owned.Perm (mapping.owned ++ rest) ∧ ∀ mapping',
      ({ w with objects := w.objects.set object mapping' } : World C).owned.Perm
        (mapping'.owned ++ rest) := by
  obtain ⟨rest, hl, hset⟩ := perm_flatMap_set (g := PageMapping.owned) ho
  refine ⟨rest ++ w.processes.flatMap owned32, ?_, fun mapping' => ?_⟩
  · rw [← append_assoc]
    exact hl.append_right _
  · rw [← append_assoc]
    exact (hset mapping').append_right _

theorem owned_addObject : (w.addObject mapping).owned.Perm (mapping.owned ++ w.owned) := by
  show ((w.objects ++ [mapping]).flatMap PageMapping.owned ++ _).Perm _
  rw [flatMap_append, flatMap_singleton, append_assoc]
  exact perm_append_comm_assoc ..

variable {page : Nat}

theorem mem_owned_of_process (hp : w.process pid = some p) (hpage : page ∈ p.owned32Pages) :
    page ∈ w.processes.flatMap owned32 :=
  mem_flatMap.2 ⟨some p, mem_of_getElem? (process_eq_some.1 hp), hpage⟩

theorem mem_owned_of_object (hobject : w.objects[object]? = some mapping)
    (hpage : page ∈ mapping.owned) : page ∈ w.objects.flatMap PageMapping.owned :=
  mem_flatMap.2 ⟨mapping, mem_of_getElem? hobject, hpage⟩

/-! ## The invariant -/

/-- How the mappings may change: those with `P` keep their pages, fixed memory stays what it is, and
    no new fixed memory comes in. -/
structure Grows (P : Nat → Prop) (objects objects' : List PageMapping) : Prop where
  extend : ∀ o (mapping : PageMapping), P o → objects[o]? = some mapping →
    ∃ mapping', objects'[o]? = some mapping' ∧ mapping.Extends mapping'
  fixed : ∀ (o : Nat) (mapping : PageMapping) base, objects[o]? = some mapping →
    mapping.mapping = .mmap base →
    objects'[o]? = some mapping
  old : ∀ mapping ∈ objects', ∀ base, mapping.mapping = .mmap base → mapping ∈ objects

theorem Grows.refl (objects : List PageMapping) : Grows (fun _ => True) objects objects :=
  ⟨fun _ mapping _ h => ⟨mapping, h, .refl mapping⟩, fun _ _ _ h _ => h, fun _ h _ _ => h⟩

theorem Grows.append {objects : List PageMapping} (hlazy : ∀ base, mapping.mapping ≠ .mmap base) :
    Grows (fun _ => True) objects (objects ++ [mapping]) where
  extend o m _ h := ⟨m, (List.getElem?_append_left (List.getElem?_eq_some_iff.1 h).1).trans h,
    .refl m⟩
  fixed o m base h _ := (List.getElem?_append_left (List.getElem?_eq_some_iff.1 h).1).trans h
  old m hm base hbase := by
    rcases mem_append.1 hm with hm | hm
    · exact hm
    · rw [mem_singleton.1 hm] at hbase
      exact absurd hbase (hlazy base)

theorem Grows.set {P : Nat → Prop} {objects : List PageMapping} {size : Nat}
    {pages pages' : List (Option Nat)}
    (hobject : objects[object]? = some ⟨size, .lazyMapping pages⟩)
    (hext : P object → PageMapping.Extends ⟨size, .lazyMapping pages⟩ ⟨size, .lazyMapping pages'⟩) :
    Grows P objects (objects.set object ⟨size, .lazyMapping pages'⟩) where
  extend o mapping hP hmapping := by
    by_cases ho : o = object
    · subst ho
      rw [hobject, Option.some.injEq] at hmapping
      subst hmapping
      have hlt := (List.getElem?_eq_some_iff.1 hobject).1
      exact ⟨_, List.getElem?_set_self hlt, hext hP⟩
    · exact ⟨mapping, (List.getElem?_set_ne (Ne.symm ho)).trans hmapping, .refl mapping⟩
  fixed o mapping base hmapping hbase := by
    rw [List.getElem?_set_ne, hmapping]
    rintro rfl
    rw [hobject, Option.some.injEq] at hmapping
    subst hmapping
    cases hbase
  old mapping hmem base hbase := by
    rcases mem_or_eq_of_mem_set hmem with hmem | rfl
    · exact hmem
    · cases hbase

/-- The invariant; `held` are pages that have an owner outside of the state, `pool` those for 32-bit
    devices. -/
structure Inv [PageContent C] (mmap : List MemoryDescriptor) (pool held : List Nat) (w : World C) :
    Prop where
  holds : Holds mmap pool w.frames (held ++ w.owned)
  devices : ∀ mapping ∈ w.objects, ∀ base, mapping.mapping = .mmap base →
    mapping.size = 0x1000 ∧ base % 0x1000 = 0 ∧ base ∉ conventionalPages mmap
  apic : w.objects[apicLocation]? = some ⟨0x1000, .mmap 0xfee00000⟩
  hpet : w.objects[hpetLocation]? = some ⟨0x1000, .mmap w.hpet⟩
  spaces : ∀ pid p, w.process pid = some p → SpaceOk w.objects p.pageMapper p.owned32Pages

variable [PageContent C]

section

variable (h : Inv mmap pool held w)
include h

theorem Inv.next {P : Nat → Prop}
    (hholds : Holds mmap pool' w'.frames (held' ++ w'.owned)) (hhpet : w'.hpet = w.hpet)
    (hgrows : Grows P w.objects w'.objects)
    (hspaces : ∀ pid p, w'.process pid = some p →
      SpaceOk w'.objects p.pageMapper p.owned32Pages ∨
        w.process pid = some p ∧ ∀ r ∈ p.pageMapper.mappings, P r.object) :
    Inv mmap pool' held' w' where
  holds := hholds
  devices mapping hmem base hbase :=
    h.devices mapping (hgrows.old mapping hmem base hbase) base hbase
  apic := hgrows.fixed _ _ _ h.apic rfl
  hpet := hhpet ▸ hgrows.fixed _ _ _ h.hpet rfl
  spaces pid p hp := by
    obtain hok | ⟨hold, hP⟩ := hspaces pid p hp
    · exact hok
    · exact (h.spaces pid p hold).extend fun r hr mapping => hgrows.extend _ mapping (hP r hr)

theorem Inv.setFrames {frames : FrameSystem C}
    (hholds : Holds mmap pool' frames (held' ++ w.owned)) :
    Inv mmap pool' held' { w with frames := frames } :=
  h.next hholds rfl (Grows.refl _) fun _ _ hp => .inr ⟨hp, fun _ _ => trivial⟩

theorem Inv.setProcess {q : Option Process} (hp : w.process pid = some p)
    (howned : (held' ++ owned32 q).Perm (held ++ p.owned32Pages))
    (hspace : ∀ p', q = some p' → SpaceOk w.objects p'.pageMapper p'.owned32Pages) :
    Inv mmap pool held' (w.setProcess pid q) := by
  obtain ⟨rest, hold, hnew⟩ := owned_setProcess hp
  have hperm : (held' ++ (w.setProcess pid q).owned).Perm (held ++ w.owned) := by
    refine ((hnew q).append_left held').trans (.trans ?_ (hold.symm.append_left held))
    rw [← append_assoc, ← append_assoc]
    exact howned.append_right rest
  refine h.next (h.holds.perm hperm) rfl (Grows.refl _) ?_
  intro pid' p' hp'
  rw [process_setProcess hp] at hp'
  split at hp'
  · exact .inl (hspace p' hp')
  · exact .inr ⟨hp', fun _ _ => trivial⟩

theorem Inv.setSpace (hp : w.process pid = some p) (howned : p'.owned32Pages = p.owned32Pages)
    (hspace : SpaceOk w.objects p'.pageMapper p'.owned32Pages) :
    Inv mmap pool held (w.setProcess pid (some p')) := by
  apply h.setProcess hp
  · show (held ++ p'.owned32Pages).Perm _
    rw [howned]
  · intro q hq
    cases hq
    exact hspace

end

theorem Inv.addObject (h : Inv mmap pool (mapping.owned ++ held) w)
    (hlazy : ∀ base, mapping.mapping ≠ .mmap base) : Inv mmap pool held (w.addObject mapping) := by
  have hperm : (held ++ (w.addObject mapping).owned).Perm (mapping.owned ++ held ++ w.owned) := by
    rw [append_assoc]
    exact (owned_addObject.append_left held).trans (perm_append_comm_assoc ..)
  refine h.next (h.holds.perm hperm) rfl (Grows.append hlazy) ?_
  intro pid q hq
  exact .inr ⟨hq, fun _ _ => trivial⟩

theorem Inv.insert {r : MappedRange} {pages : List (Nat × Nat)}
    (h : Inv mmap pool (mapping.owned ++ held) w) (hlazy : ∀ base, mapping.mapping ≠ .mmap base)
    (hp : w.process pid = some p) (hins : Inserts p.pageMapper r pages p'.pageMapper)
    (howned : p'.owned32Pages = p.owned32Pages) (hobject : r.object = w.objects.length)
    (hstop : r.stop = r.start + mapping.size) (halign : r.stop % 0x1000 = 0)
    (hpages : pages ⊆ mapping.targets r.start) :
    Inv mmap pool held ((w.addObject mapping).setProcess pid (some p')) := by
  have hadd : Inv mmap pool held (w.addObject mapping) := h.addObject hlazy
  apply hadd.setSpace hp howned
  rw [howned]
  have hget : (w.addObject mapping).objects[r.object]? = some mapping := by
    rw [hobject]
    exact List.getElem?_concat_length
  exact (hadd.spaces pid p hp).inserts hins hget hstop halign hpages

theorem Inv.release (h : Inv mmap pool held w) (object : Nat) :
    Inv mmap pool held (w.release object) := by
  unfold World.release
  split
  · rename_i size pages hobject
    split
    · exact h
    · rename_i hfree
      obtain ⟨rest, hold, hnew⟩ := owned_setObject hobject
      have hdrop : Holds mmap pool ((pages.filterMap id).foldl FrameSystem.dropPage w.frames)
          (held ++ rest) := by
        apply Holds.dropPages
        apply h.holds.perm
        exact ((hold.append_left held).trans (perm_append_comm_assoc ..)).symm
      refine h.next (P := fun o => w.referenced o = true)
        (hdrop.perm ((hnew _).append_left held)) rfl
        (Grows.set hobject fun href => absurd href hfree) ?_
      intro pid p hp
      refine .inr ⟨hp, fun r hr => ?_⟩
      refine any_eq_true.2 ⟨some p, mem_of_getElem? (process_eq_some.1 hp), ?_⟩
      exact any_eq_true.2 ⟨r, hr, beq_self_eq_true _⟩
  · exact h

theorem Inv.faultPage {offset : Nat} (h : Inv mmap pool held w)
    (hfault : w.faultPage object offset = some (page, w')) :
    Inv mmap pool held w' ∧ w'.processes = w.processes ∧
      ∃ mapping, w'.objects[object]? = some mapping ∧
        mapping.pageAt (offset / 0x1000) = some page := by
  unfold World.faultPage at hfault
  split at hfault
  · cases hfault
  · rename_i size base hobject
    cases hfault
    refine ⟨h, rfl, _, hobject, ?_⟩
    obtain ⟨-, hbase, -⟩ := h.devices _ (mem_of_getElem? hobject) base rfl
    show some (base + 0x1000 * (offset / 0x1000)) = some (pageBase (base + offset))
    unfold pageBase
    congr 1
    omega
  · rename_i size pages hobject
    split at hfault
    · cases hfault
    · rename_i q hget
      cases hfault
      refine ⟨h, rfl, _, hobject, ?_⟩
      show pages[offset / 0x1000]?.join = some page
      rw [hget]
      rfl
    · rename_i hget
      simp only [bind_eq_bind, bind_eq_some_iff] at hfault
      obtain ⟨⟨q, frames⟩, hnew, q, rfl, heq⟩ := hfault
      cases heq
      obtain ⟨rest, hold, hset⟩ := owned_setObject hobject
      refine ⟨h.next (P := fun _ => True) ?_ rfl (Grows.set hobject fun _ => .set hget) ?_, rfl, ?_⟩
      · refine (h.holds.newPage hnew).perm (((hset _).append_left held).trans ?_)
        refine .trans ?_ ((hold.append_left held).cons page).symm
        have howned := PageMapping.owned_set size page hget
        refine ((howned.append_right rest).append_left held).trans ?_
        exact perm_middle
      · intro pid p hp
        exact .inr ⟨hp, fun _ _ => trivial⟩
      · have hlt := (List.getElem?_eq_some_iff.1 hobject).1
        refine ⟨_, List.getElem?_set_self hlt, ?_⟩
        exact pageAt_set (List.getElem?_eq_some_iff.1 hget).1

/-! ## Steps -/

variable {flags : MemoryMappingFlags}

theorem Inv.insertLazy {base size : Nat} (h : Inv mmap pool held w) (hp : w.process pid = some p)
    (howned : p'.owned32Pages = p.owned32Pages)
    (hins : Inserts p.pageMapper ⟨base, base + size, w.objects.length, flags⟩ [] p'.pageMapper)
    (halign : (base + size) % 0x1000 = 0) :
    Inv mmap pool held ((w.addObject (.newLazy size)).setProcess pid (some p')) := by
  have hnone : (newLazy size).owned = [] := by
    show (replicate (pageCount size) none).filterMap id = []
    simp
  have hheld : Inv mmap pool ((newLazy size).owned ++ held) w := by
    rw [hnone]
    exact h
  exact hheld.insert (fun _ => PageMappingType.noConfusion) hp hins howned rfl rfl halign
    (nil_subset _)

section

variable (h : Inv mmap pool [] w)
include h

theorem Inv.mmapPage {arg1 arg2 : Nat}
    (hstep : w.mmapPage pid arg1 arg2 = some w') : Inv mmap pool [] w' := by
  simp only [World.mmapPage, bind_eq_bind, bind_eq_some_iff] at hstep
  obtain ⟨p, hp, reply, hreply, hstep⟩ := hstep
  have ho : p.RangesOrdered := (h.spaces pid p hp).ordered
  obtain rfl | ⟨base, m, hins, rfl⟩ := mmapPageHandler_spec ho hreply
  · cases hstep
  · cases hstep
    refine h.insertLazy hp rfl hins ?_
    have hbase : base % 0x1000 = 0 := hins.aligned
    unfold roundUp
    omega

theorem Inv.mmapPage32 (hstep : w.mmapPage32 pid = some w') :
    ∃ pool', Inv mmap pool' [] w' ∧ pool'.length + w'.count32 = pool.length + w.count32 := by
  simp only [World.mmapPage32, bind_eq_bind, bind_eq_some_iff] at hstep
  obtain ⟨p, hp, ⟨page, frames⟩, hnew, reply, hreply, heq⟩ := hstep
  cases heq
  obtain ⟨pool', rfl, hholds⟩ := h.holds.newPage32 hnew
  have hframes : Inv mmap pool' page.toList { w with frames := frames } := h.setFrames hholds
  have hcount : ∀ q, ({ w with frames := frames }.setProcess pid q).count32 +
      p.owned32Pages.length = w.count32 + (owned32 q).length :=
    count32_setProcess (w := { w with frames := frames }) hp
  obtain ⟨rfl, rfl⟩ | ⟨q, m, rfl, hmap, rfl⟩ := mmapPage32Handler_spec hreply
  · refine ⟨pool', hframes.setSpace hp rfl (h.spaces pid p hp), ?_⟩
    exact congrArg _ (Nat.add_right_cancel (hcount (some p)))
  · have hspace := h.spaces pid p hp
    obtain ⟨hok, -, -, rfl⟩ := map_eq_ok_iff.1 hmap
    refine ⟨pool', hframes.setProcess hp ?_ ?_, ?_⟩
    · show (p.owned32Pages ++ [q]).Perm ([q] ++ p.owned32Pages)
      exact perm_append_comm
    · intro p' hp'
      cases hp'
      refine (hspace.mono (subset_append_left ..)).map ?_ (.inl ?_)
      · exact (pageOk_iff.1 hok).1
      · simp
    · rw [Nat.eq_sub_of_add_eq (hcount _)]
      simp only [owned32, Option.toList_some, length_append, length_singleton]
      omega

theorem Inv.unmmapPage {arg1 arg2 : Nat}
    (hstep : w.unmmapPage pid arg1 arg2 = some w') : Inv mmap pool [] w' := by
  simp only [World.unmmapPage, bind_eq_bind, bind_eq_some_iff] at hstep
  obtain ⟨p, hp, reply, hreply, object, hobject, heq⟩ := hstep
  cases heq
  obtain rfl | ⟨r, m, hrem, -, rfl⟩ := unmmapPageHandler_spec hreply
  · cases hobject
  · apply Inv.release
    exact h.setSpace hp rfl ((h.spaces pid p hp).removes hrem)

theorem Inv.newStack (hstep : w.newStack pid = some w') : Inv mmap pool [] w' := by
  simp only [World.newStack, bind_eq_bind, bind_eq_some_iff] at hstep
  obtain ⟨p, hp, ⟨pages, frames⟩, hpages, p', hp', heq⟩ := hstep
  cases heq
  have hholds : Holds mmap pool frames (pages.filterMap id ++ w.owned) := h.holds.stackPages hpages
  have ho : p.takeId.RangesOrdered := (h.spaces pid p hp).ordered
  obtain ⟨m, hins, rfl⟩ := insertStack_spec ho hp'
  have hheld : Inv mmap pool ((newLazyFilled stackSize pages).owned ++ [])
      { w with frames := frames } := by
    rw [append_nil]
    exact h.setFrames hholds
  exact hheld.insert (fun _ => PageMappingType.noConfusion) hp hins rfl rfl rfl
    (stackRange_aligned ..) (Subset.refl _)

theorem Inv.newKstack {tid entryPoint : Nat}
    (hstep : w.newKstack pid tid entryPoint = some w') : Inv mmap pool [] w' := by
  obtain ⟨p, hp, hstep⟩ := bind_eq_some_iff.1 hstep
  obtain ⟨-, -, hstep⟩ := bind_eq_some_iff.1 hstep
  obtain ⟨⟨pages0, frames0⟩, hpages, hstep⟩ := bind_eq_some_iff.1 hstep
  obtain ⟨⟨pages, frames⟩, htop, hstep⟩ := bind_eq_some_iff.1 hstep
  obtain ⟨p', hp', heq⟩ := bind_eq_some_iff.1 hstep
  cases heq
  have hholds : Holds mmap pool frames (pages.filterMap id ++ w.owned) :=
    (h.holds.newPages hpages).baseTopStack htop
  obtain ⟨m, hins, -, -, -, rfl⟩ := insertKstack_spec (h.spaces pid p hp).ordered hp'
  have hheld : Inv mmap pool ((newLazyFilled kstackSize pages).owned ++ [])
      { w with frames := frames } := by
    rw [append_nil]
    exact h.setFrames hholds
  exact hheld.insert (fun _ => PageMappingType.noConfusion) hp hins rfl rfl rfl
    (kstackRange_aligned ..) (Subset.refl _)

theorem Inv.pageFault {address : Nat}
    (hstep : w.pageFault pid address = some w') : Inv mmap pool [] w' := by
  simp only [World.pageFault, bind_eq_bind, bind_eq_some_iff] at hstep
  obtain ⟨p, hp, r, hr, ⟨phys, w1⟩, hfault, p', hp', heq⟩ := hstep
  cases heq
  obtain ⟨hinv, hprocesses, mapping, hmapping, hpage⟩ := h.faultPage hfault
  have hp1 : w1.process pid = some p := by
    unfold World.process
    rw [hprocesses]
    exact hp
  have hspace := hinv.spaces pid p hp1
  obtain ⟨r', m, hr', hm, rfl⟩ := pageFault_spec hp'
  rw [hr, Option.some.injEq] at hr'
  subst hr'
  obtain rfl | ⟨-, -, rfl⟩ := mapFault_eq_some hm
  · exact hinv.setSpace hp1 rfl hspace
  · obtain ⟨hmem, hstart, hstop, -⟩ := faulting_eq_some hr
    have haligned := (hspace.ordered.valid r hmem).start_aligned
    refine hinv.setSpace hp1 rfl (hspace.map ?_ (.inr ⟨r, hmem, ?_, ?_, mapping, hmapping, ?_⟩))
    · exact Nat.mul_mod_left ..
    · unfold pageBase
      omega
    · unfold pageBase
      omega
    · have hoffset : (pageBase address - r.start) / 0x1000 = (address - r.start) / 0x1000 := by
        unfold pageBase
        omega
      rw [hoffset]
      exact hpage

end

theorem Inv.new {privilege : ProcessPrivilige} {hpet : Option Nat} (h : Inv mmap pool held w)
    (hhpet : ∀ base, hpet = some base → base = w.hpet)
    (hnew : Process.new privilege hpet = some p) :
    p.owned32Pages = [] ∧ SpaceOk w.objects p.pageMapper p.owned32Pages := by
  have htargets : ∀ base, [(base, base)] ⊆ targets ⟨0x1000, .mmap base⟩ base := by
    intro base
    rw [targets_mmap]
    exact Subset.refl _
  obtain ⟨m, hm, hcases⟩ := new_spec hnew
  have hspace : SpaceOk w.objects m [] :=
    SpaceOk.empty.inserts hm h.apic rfl (by decide) (htargets _)
  obtain ⟨-, rfl⟩ | ⟨base, m', hbase, hm', rfl⟩ := hcases
  · exact ⟨rfl, hspace⟩
  · have hobject : w.objects[hpetLocation]? = some ⟨0x1000, .mmap base⟩ := by
      rw [hhpet base hbase]
      exact h.hpet
    exact ⟨rfl, hspace.inserts hm' hobject rfl (hpetRange_aligned hm') (htargets _)⟩

section

variable (h : Inv mmap pool [] w)
include h

theorem Inv.newProcess {privilege : ProcessPrivilige} {hpetReady : Bool}
    (hstep : w.newProcess privilege hpetReady = some w') : Inv mmap pool [] w' := by
  simp only [World.newProcess, bind_eq_bind, bind_eq_some_iff] at hstep
  obtain ⟨p, hp, heq⟩ := hstep
  cases heq
  have hhpet : ∀ base, (if hpetReady = true then some w.hpet else none) = some base →
      base = w.hpet := by
    intro base hbase
    split at hbase
    · cases hbase
      rfl
    · cases hbase
  obtain ⟨hnone, hspace⟩ := h.new hhpet hp
  refine h.next ?_ rfl (Grows.refl _) ?_
  · have howned : owned { w with processes := w.processes ++ [some p] } = w.owned := by
      simp [owned, owned32, hnone]
    rw [howned]
    exact h.holds
  · intro pid q hq
    have hq : (w.processes ++ [some p])[pid]? = some (some q) := process_eq_some.1 hq
    rw [List.getElem?_append] at hq
    split at hq
    · exact .inr ⟨process_eq_some.2 hq, fun _ _ => trivial⟩
    · have hmem := mem_of_getElem? hq
      rw [mem_singleton, Option.some.injEq] at hmem
      exact .inl (hmem ▸ hspace)

theorem Inv.loadSegment {loader vaddr memsz : Nat}
    (hstep : w.loadSegment loader pid vaddr memsz flags = some w') : Inv mmap pool [] w' := by
  simp only [World.loadSegment, bind_eq_bind, bind_eq_some_iff] at hstep
  obtain ⟨p, hp, p', hp', l, hl, ⟨base, m⟩, hm, heq⟩ := hstep
  cases heq
  obtain ⟨m', hins, rfl⟩ := loadSegment_spec (h.spaces pid p hp).ordered hp'
  have hinv :
      Inv mmap pool [] ((w.addObject _).setProcess pid (some { p with pageMapper := m' })) :=
    h.insertLazy hp rfl hins segment_aligned
  have hspace := hinv.spaces loader l hl
  have hins' := insertMapping_inserts hspace.ordered hm
  refine hinv.setSpace hl rfl (hspace.inserts hins' List.getElem?_concat_length rfl ?_
    (nil_subset _))
  -- the size is that of the segment, in whole pages
  have hbase : base % 0x1000 = 0 := hins'.aligned
  have hvaddr : pageBase vaddr % 0x1000 = 0 := hins.aligned
  have hsize : (pageBase vaddr + (Process.segment vaddr memsz).2) % 0x1000 = 0 :=
    segment_aligned
  show (base + (Process.segment vaddr memsz).2) % 0x1000 = 0
  omega

theorem Inv.unloadSegment {loader start stop : Nat}
    (hstep : w.unloadSegment loader start stop = some w') : Inv mmap pool [] w' := by
  simp only [World.unloadSegment, bind_eq_bind, bind_eq_some_iff] at hstep
  obtain ⟨l, hl, reply, hreply, hstep⟩ := hstep
  split at hstep
  · cases hstep
  · rename_i r m
    cases hstep
    have hspace := (h.spaces loader l hl).removes (freeMapping_removes hreply).1
    apply Inv.release
    exact h.setSpace hl rfl hspace

theorem Inv.dropThread {tid : Nat}
    (hstep : w.dropThread pid tid = some w') : Inv mmap pool [] w' := by
  simp only [World.dropThread, bind_eq_bind, bind_eq_some_iff] at hstep
  obtain ⟨p, hp, ⟨r, p'⟩, hp', heq⟩ := hstep
  cases heq
  obtain ⟨m, -, hrem, -, rfl⟩ := dropThread_spec hp'
  apply Inv.release
  exact h.setSpace hp rfl ((h.spaces pid p hp).removes hrem)

end

theorem Inv.releases (h : Inv mmap pool held w) (ranges : List MappedRange) :
    Inv mmap pool held (ranges.foldl (fun w r => w.release r.object) w) := by
  induction ranges generalizing w with
  | nil => exact h
  | cons r ranges ih => exact ih (h.release r.object)

theorem Inv.dropProcess (h : Inv mmap pool [] w) (hstep : w.dropProcess pid = some w') :
    Inv mmap pool [] w' := by
  obtain ⟨p, hp, hstep⟩ := bind_eq_some_iff.1 hstep
  obtain ⟨-, -, heq⟩ := bind_eq_some_iff.1 hstep
  cases heq
  have hgone : Inv mmap pool p.owned32Pages (w.setProcess pid none) := by
    apply h.setProcess hp
    · show (p.owned32Pages ++ []).Perm p.owned32Pages
      rw [append_nil]
    · intro p' hp'
      cases hp'
  have hreleased := hgone.releases p.pageMapper.mappings
  exact hreleased.setFrames hreleased.holds.dropPages

theorem Inv.kernel {a : FrameSystem.Action C} (h : Inv mmap pool [] w)
    (hstep : w.kernel a = some w') : Inv mmap pool [] w' := by
  obtain ⟨_, hguard, hstep⟩ := bind_eq_some_iff.1 hstep
  obtain ⟨frames, hframes, heq⟩ := bind_eq_some_iff.1 hstep
  cases heq
  unfold guard at hguard
  split at hguard
  · rename_i hkept
    refine h.setFrames (h.holds.step hframes fun page hpage => ?_)
    refine FrameSystem.mem_out_of_step hframes (h.holds.out page hpage) fun hfreed => ?_
    exact hkept (page, 1) hfreed page hpage rfl
  · cases hguard

theorem Inv.step {a : Action C} (h : Inv mmap pool [] w) (hstep : w.step a = some w') :
    ∃ pool, Inv mmap pool [] w' := by
  cases a with
  | mmapPage32 => exact (h.mmapPage32 hstep).imp fun _ => And.left
  | mmapPage => exact ⟨pool, h.mmapPage hstep⟩
  | unmmapPage => exact ⟨pool, h.unmmapPage hstep⟩
  | newStack => exact ⟨pool, h.newStack hstep⟩
  | newKstack => exact ⟨pool, h.newKstack hstep⟩
  | pageFault => exact ⟨pool, h.pageFault hstep⟩
  | newProcess => exact ⟨pool, h.newProcess hstep⟩
  | loadSegment => exact ⟨pool, h.loadSegment hstep⟩
  | unloadSegment => exact ⟨pool, h.unloadSegment hstep⟩
  | dropThread => exact ⟨pool, h.dropThread hstep⟩
  | dropProcess => exact ⟨pool, h.dropProcess hstep⟩
  | kernel => exact ⟨pool, h.kernel hstep⟩

theorem Inv.boot {mem : Nat → C} {frames : PageFrameAllocator C} {hpet : Nat} (hmap : ValidMap mmap)
    (hdevices : DevicesApart mmap hpet)
    (hfirst : ∀ p, (pooledPages (mmap.filter (·.conventional)) 0).head? = some p →
      PageContent.next32 (mem p) = none)
    (hnew : PageFrameAllocator.new mmap mem = some frames) :
    ∃ pool, Inv mmap pool [] (boot frames hpet) := by
  obtain ⟨managed, pool, f, hd, ha⟩ := new_dealt hmap hfirst hnew
  refine ⟨pool, ⟨⟨managed, _, f, hd, ha⟩, nodup_nil, fun _ => not_mem_nil.elim⟩, ?_,
    rfl, rfl, fun pid p hp => ?_⟩
  · intro mapping hmem base hbase
    rcases mem_pair.1 hmem with rfl | rfl
    · cases hbase
      exact ⟨rfl, rfl, hdevices.apic_notMem⟩
    · cases hbase
      exact ⟨rfl, hdevices.aligned, hdevices.hpet_notMem⟩
  · cases process_eq_some.1 hp

/-! ## Isolation -/

/-- An entry in the page table of the process points to the page. -/
def Reaches (w : World C) (pid page : Nat) : Prop :=
  ∃ p, w.process pid = some p ∧ ∃ v flags, p.pageMapper.pageMapper v = some (page, flags)

/-- The process has a range with this mapping. -/
def Refers (w : World C) (pid object : Nat) : Prop :=
  ∃ p, w.process pid = some p ∧ ∃ r ∈ p.pageMapper.mappings, r.object = object

/-- Address spaces are isolated. The page of a mapping at an offset is the one that has been
    allocated for it, or the matching page of fixed memory (`PageMapping.pageAt`). -/
structure Isolated (w : World C) : Prop where
  backed : ∀ pid p v page flags, w.process pid = some p →
    p.pageMapper.pageMapper v = some (page, flags) →
      page ∈ p.owned32Pages ∨ BackedBy w.objects p.pageMapper v page
  /-- No entry points to a page on a free list or in the pool for 32-bit devices. -/
  notFree : ∃ f pool, w.frames.frames.Lists f ∧
    Intrusive.Threaded (fun p => PageContent.next32 (w.frames.frames.mem p))
      w.frames.frames.reserved32Bit pool ∧
    ∀ page ∈ freeFrames f ++ pool, ∀ pid, ¬ w.Reaches pid page
  /-- Processes that reach a page of a mapping all refer to this mapping. -/
  shared : ∀ pid pid' page object mapping, w.Reaches pid page → w.Reaches pid' page →
    w.objects[object]? = some mapping → page ∈ mapping.owned →
      w.Refers pid object ∧ w.Refers pid' object

/-- What an entry points to: a page of the process, a page of a mapping that the process refers to,
    or a device. -/
theorem Inv.target {v : Nat} (h : Inv mmap pool held w) (hp : w.process pid = some p)
    (hv : p.pageMapper.pageMapper v = some (page, flags)) :
    page ∈ p.owned32Pages ∨
      (∃ r ∈ p.pageMapper.mappings, ∃ mapping, w.objects[r.object]? = some mapping ∧
        page ∈ mapping.owned) ∨
      page ∉ conventionalPages mmap := by
  have hspace := h.spaces pid p hp
  refine (hspace.backed v page flags hv).imp_right ?_
  rintro ⟨r, hr, hstart, hstop, mapping, hmapping, hpage⟩
  match mapping, hmapping, hpage with
  | ⟨size, .mmap base⟩, hmapping, hpage =>
    -- a device has one page, so that the offset is that of its base
    obtain ⟨hsize, -, hbase⟩ := h.devices _ (mem_of_getElem? hmapping) base rfl
    obtain ⟨mapping', hmapping', hend⟩ := hspace.sized r hr
    rw [hmapping, Option.some.injEq] at hmapping'
    rw [← hmapping', hsize] at hend
    have hoffset : (v - r.start) / 0x1000 = 0 := by omega
    have hpage : some (base + 0x1000 * ((v - r.start) / 0x1000)) = some page := hpage
    rw [hoffset, Nat.mul_zero, Nat.add_zero, Option.some.injEq] at hpage
    exact .inr (hpage ▸ hbase)
  | ⟨size, .lazyMapping pages⟩, hmapping, hpage =>
    refine .inl ⟨r, hr, _, hmapping, ?_⟩
    have hget : pages[(v - r.start) / 0x1000]? = some (some page) :=
      Option.join_eq_some_iff.1 hpage
    exact mem_filterMap.2 ⟨some page, mem_of_getElem? hget, rfl⟩

theorem Inv.refers (h : Inv mmap pool [] w) (hreach : w.Reaches pid page)
    (hobject : w.objects[object]? = some mapping) (hpage : page ∈ mapping.owned) :
    w.Refers pid object := by
  obtain ⟨p, hp, v, flags, hv⟩ := hreach
  have howned := mem_owned_of_object hobject hpage
  have hholds : Holds mmap pool w.frames (w.objects.flatMap PageMapping.owned ++
      w.processes.flatMap owned32) := h.holds
  have hnodup := hholds.nodup
  rw [nodup_append'] at hnodup
  obtain h32 | ⟨r, hr, mapping', hmapping', hpage'⟩ | hnot := h.target hp hv
  · exact (hnodup.2.2 howned (mem_owned_of_process hp h32)).elim
  · exact ⟨p, hp, r, hr, index_eq_of_mem hnodup.1 hmapping' hobject hpage' hpage⟩
  · exact absurd (hholds.conventional (mem_append_left _ howned)) hnot

theorem Inv.isolated (h : Inv mmap pool [] w) : w.Isolated where
  backed pid p v page flags hp hv := (h.spaces pid p hp).backed v page flags hv
  notFree := by
    have hholds : Holds mmap pool w.frames (w.objects.flatMap PageMapping.owned ++
        w.processes.flatMap owned32) := h.holds
    obtain ⟨f, pool, hlists, hpool, hfree⟩ := hholds.exists_lists
    refine ⟨f, pool, hlists, hpool, ?_⟩
    rintro page hpage pid ⟨p, hp, v, flags, hv⟩
    obtain ⟨hconventional, hnotOwned⟩ := hfree page hpage
    obtain h32 | ⟨r, hr, mapping, hmapping, hmem⟩ | hnot := h.target hp hv
    · exact hnotOwned (mem_append_right _ (mem_owned_of_process hp h32))
    · exact hnotOwned (mem_append_left _ (mem_owned_of_object hmapping hmem))
    · exact hnot hconventional
  shared pid pid' page object mapping hreach hreach' hobject hpage :=
    ⟨h.refers hreach hobject hpage, h.refers hreach' hobject hpage⟩

/-- Whatever the processes do, their address spaces stay isolated, if the page that the pool for
    32-bit devices starts with holds no stale link. -/
theorem address_spaces_isolated {mem : Nat → C} {frames : PageFrameAllocator C} {hpet : Nat}
    (hmap : ValidMap mmap) (hdevices : DevicesApart mmap hpet)
    (hfirst : ∀ p, (pooledPages (mmap.filter (·.conventional)) 0).head? = some p →
      PageContent.next32 (mem p) = none)
    (hnew : PageFrameAllocator.new mmap mem = some frames)
    (hreach : Lts.Reachable World.step (World.boot frames hpet) w) : w.Isolated := by
  have hw := hreach.invariant (I := fun w => ∃ pool, Inv mmap pool [] w)
    (fun _ _ _ ⟨_, h⟩ hstep => h.step hstep) (Inv.boot hmap hdevices hfirst hnew)
  obtain ⟨pool, hinv⟩ := hw
  exact hinv.isolated

/-- Two processes map and use pages. The first one unmaps its page, which the second one gets
    then. -/
def exchange : List (Action RawPage) :=
  [.newProcess .user true, .newProcess .user true, .mmapPage 0 0x400000 0x2000,
    .pageFault 0 0x401234, .mmapPage32 0, .mmapPage 1 0x400000 0x1000,
    .unmmapPage 0 0x400000 0x2000, .pageFault 1 0x400000]

theorem address_spaces_isolated_exchange :
    ∃ frames w, PageFrameAllocator.new region (regionMem (.next32 none)) = some frames ∧
      run World.step (World.boot frames 0xfed00000) exchange = some w ∧
      w.Reaches 1 0x120000 ∧ w.Isolated := by
  have hrun : ∃ frames ∈ PageFrameAllocator.new region (regionMem (.next32 none)),
      ∃ w ∈ run World.step (World.boot frames 0xfed00000) exchange,
        ∃ p ∈ w.process 1, p.pageMapper.pageMapper 0x400000 = some (0x120000, .all) := by
    decide +kernel
  obtain ⟨frames, hnew, w, hw, p, hp, hv⟩ := hrun
  refine ⟨frames, w, hnew, hw, ⟨p, hp, _, _, hv⟩, ?_⟩
  refine address_spaces_isolated validMap_region ⟨by decide, by decide, rfl⟩ ?_ hnew ⟨_, hw⟩
  rintro p ⟨⟩
  rfl

/-- When the first page of the pool holds a stale link to a free page, a process that has been given
    all pages of the pool gets this page next, while it is the first one on a free list. -/
theorem free_page_mapped_from_pool :
    ∃ frames w, ValidMap region ∧ DevicesApart region 0xfed00000 ∧
      PageFrameAllocator.new region (regionMem (.next32 (some 0x120000))) = some frames ∧
      run World.step (World.boot frames 0xfed00000)
        (.newProcess .user true :: replicate 33 (.mmapPage32 0)) = some w ∧
      ¬ w.Isolated := by
  have hrun : ∃ frames ∈ PageFrameAllocator.new region (regionMem (.next32 (some 0x120000))),
      ∃ w ∈ run World.step (World.boot frames 0xfed00000)
          (.newProcess .user true :: replicate 33 (.mmapPage32 0)),
        w.frames.frames.freeLists 3 = some 0x120000 ∧
          ∃ p ∈ w.process 0, p.pageMapper.pageMapper 0x120000 = some (0x120000, .all) := by
    decide +kernel
  obtain ⟨frames, hnew, w, hw, hhead, p, hp, hv⟩ := hrun
  refine ⟨frames, w, validMap_region, ⟨by decide, by decide, rfl⟩, hnew, hw, fun hisolated => ?_⟩
  obtain ⟨f, pool, hlists, -, hfree⟩ := hisolated.notFree
  have hthreaded := hlists 3 (by decide)
  rw [hhead] at hthreaded
  have hmem : 0x120000 ∈ f 3 := List.mem_of_mem_head? hthreaded.head_eq.symm
  have hpage : 0x120000 ∈ freeFrames f := mem_freeFrames (by decide) hmem
  exact hfree 0x120000 (mem_append_left _ hpage) 0 ⟨p, hp, _, _, hv⟩

end World

end Fioxa.Paging
