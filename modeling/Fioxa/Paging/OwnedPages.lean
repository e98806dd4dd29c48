import Fioxa.Paging.AddressSpaces
import Fioxa.Paging.FrameSafety

/-! # Pages with an owner

The pages that mappings and processes own are handed out by the allocator, each of them once
(`Holds`). Allocating a page adds one that was not owned before, and freeing takes it away; so an
owned page is never on a free list. -/

namespace Fioxa.Paging

open Span Intrusive PageContent PageFrameAllocator List Option

variable {C : Type} [PageContent C] {mmap : List MemoryDescriptor} {s t : FrameSystem C}
  {managed pool owned owned' : List Nat} {captured : Bool} {f : Nat → List Nat} {page : Nat}

/-- The owned pages are different pages that the allocator has handed out one by one, and these
    pages are in the pool. -/
structure Holds (mmap : List MemoryDescriptor) (pool : List Nat) (s : FrameSystem C)
    (owned : List Nat) : Prop where
  accounted : ∃ managed captured f, FrameSystem.Dealt mmap managed pool captured ∧
    FrameSystem.Accounted managed pool captured s f
  nodup : owned.Nodup
  out : ∀ page ∈ owned, (page, 1) ∈ s.out

namespace FrameSystem

theorem Accounted.allocatePage32bit {frames : PageFrameAllocator C}
    (hd : Dealt mmap managed pool captured) (h : Accounted managed pool captured s f)
    (halloc : s.frames.allocatePage32bit = some (some page, frames)) :
    ∃ pool', pool = page :: pool' ∧ Dealt mmap (page :: managed) pool' captured ∧
      Accounted (page :: managed) pool' captured ⟨frames, (page, 1) :: s.out⟩ f := by
  unfold PageFrameAllocator.allocatePage32bit at halloc
  split at halloc
  · cases halloc
  · rename_i block hblock
    unfold handOut at halloc
    split at halloc
    · cases halloc
      have hpool := h.pool
      rw [hblock] at hpool
      obtain ⟨rest, rfl, hrest⟩ := hpool.pop
      have hperm : (page :: managed ++ rest).Perm (managed ++ page :: rest) :=
        perm_middle.symm
      have hnodup : (page :: managed ++ rest).Nodup := hperm.nodup_iff.2 hd.nodup
      have hnot : page ∉ managed ++ rest := (nodup_cons.1 hnodup).1
      have hzero : ∀ p ∈ managed ++ rest,
          zeroPages s.frames.mem (span 0x1000 page 1) p = s.frames.mem p := by
        intro p hp
        apply if_neg
        rw [span_one, mem_singleton]
        rintro rfl
        exact hnot hp
      refine ⟨rest, rfl, ⟨hnodup, ?_, ?_⟩, ⟨?_, ?_, ?_, h.captured⟩⟩
      · intro p hp
        exact hd.conventional p (hperm.mem_iff.1 hp)
      · intro hc hmem
        exact hd.captured hc (hperm.mem_iff.1 hmem)
      · refine h.lists.congr rfl ?_
        intro p hp
        exact hzero p (mem_append_left _ (h.pages.mem_iff.1 (mem_append_right _ hp)))
      · exact h.pages.cons page
      · apply hrest.congr
        intro p hp
        show next32 (zeroPages s.frames.mem (span 0x1000 page 1) p) = next32 (s.frames.mem p)
        rw [hzero p (mem_append_right _ hp)]
    · cases halloc

theorem eq_of_allocatePage32bit_none {frames : PageFrameAllocator C}
    (h : s.frames.allocatePage32bit = some (none, frames)) : frames = s.frames := by
  unfold PageFrameAllocator.allocatePage32bit handOut at h
  split at h
  · cases h
    rfl
  · split at h <;> cases h

variable {b : Nat × Nat}

theorem mem_out_of_step {a : Action C} (ht : step s a = some t) (hb : b ∈ s.out)
    (hne : a.freed ≠ some b) : b ∈ t.out := by
  cases a with
  | requestPageOfOrder | allocatePage | allocatePages =>
    simp only [step, allocated] at ht
    split at ht
    · cases ht
    · cases ht
      exact hb
    · cases ht
      exact .tail _ hb
  | freePage | freePages | freePageOfOrder =>
    simp only [step] at ht
    split at ht
    · unfold freed at ht
      split at ht
      · cases ht
      · cases ht
        exact (mem_erase_of_ne fun heq => hne (congrArg some heq.symm)).2 hb
    · cases ht
  | write =>
    simp only [step] at ht
    split at ht
    · cases ht
      exact hb
    · cases ht

theorem step_allocatePage {page : Option Nat} (h : s.newPage = some (page, t)) :
    FrameSystem.step s .allocatePage = some t ∧
      t.out = (page.toList.map fun page => (page, 1)) ++ s.out := by
  have hstep : FrameSystem.step s .allocatePage = s.allocated 1 s.frames.allocatePage := rfl
  unfold newPage granted at h
  split at h
  · cases h
  · rename_i hpage
    rw [hstep, hpage]
    cases h
    exact ⟨rfl, rfl⟩
  · rename_i hpage
    rw [hstep, hpage]
    cases h
    exact ⟨rfl, rfl⟩

end FrameSystem

namespace Holds

open FrameSystem

section

variable (h : Holds mmap pool s owned)
include h

theorem exists_lists : ∃ f pool, s.frames.Lists f ∧
    Threaded (fun p => next32 (s.frames.mem p)) s.frames.reserved32Bit pool ∧
    ∀ p ∈ freeFrames f ++ pool, p ∈ conventionalPages mmap ∧ p ∉ owned := by
  obtain ⟨managed, captured, f, hd, ha⟩ := h.accounted
  have hperm : (covered 0x1000 s.out ++ (freeFrames f ++ pool)).Perm (managed ++ pool) := by
    rw [← append_assoc]
    exact ha.pages.append_right pool
  refine ⟨f, pool, ha.lists, ha.pool, fun p hp => ⟨?_, fun howned => ?_⟩⟩
  · exact hd.conventional p (hperm.mem_iff.1 (mem_append_right _ hp))
  · have hout : p ∈ covered 0x1000 s.out := base_mem_covered (h.out p howned) Nat.one_pos
    exact (nodup_append'.1 (hperm.nodup_iff.2 hd.nodup)).2.2 hout hp

theorem conventional (hp : page ∈ owned) : page ∈ conventionalPages mmap := by
  obtain ⟨managed, captured, f, hd, ha⟩ := h.accounted
  have hout : page ∈ covered 0x1000 s.out := base_mem_covered (h.out page hp) Nat.one_pos
  have hmanaged := ha.pages.mem_iff.1 (mem_append_left _ hout)
  exact hd.conventional page (mem_append_left _ hmanaged)

theorem perm (hperm : owned'.Perm owned) : Holds mmap pool s owned' :=
  ⟨h.accounted, hperm.nodup_iff.2 h.nodup, fun p hp => h.out p (hperm.mem_iff.1 hp)⟩

theorem step {a : FrameSystem.Action C} (hstep : s.step a = some t)
    (hout : ∀ p ∈ owned, (p, 1) ∈ t.out) : Holds mmap pool t owned := by
  obtain ⟨managed, captured, f, hd, ha⟩ := h.accounted
  obtain ⟨g, hg⟩ := ha.step hd hstep
  exact ⟨⟨managed, captured, g, hd, hg⟩, h.nodup, hout⟩

theorem cons {pool' : List Nat} (hout : t.out = (page, 1) :: s.out)
    (hd : Dealt mmap managed pool' captured) (ha : Accounted managed pool' captured t f) :
    Holds mmap pool' t (page :: owned) := by
  have hnodup := (nodup_append'.1 (ha.nodup hd)).1
  rw [hout] at hnodup
  have hcovered : covered 0x1000 ((page, 1) :: s.out) = page :: covered 0x1000 s.out := rfl
  rw [hcovered, nodup_cons] at hnodup
  refine ⟨⟨_, _, _, hd, ha⟩, nodup_cons.2 ⟨fun hmem => hnodup.1 ?_, h.nodup⟩, ?_⟩
  · exact base_mem_covered (h.out page hmem) Nat.one_pos
  · intro p hp
    rw [hout]
    rcases mem_cons.1 hp with rfl | hp
    · exact .head _
    · exact .tail _ (h.out p hp)

theorem newPage {page : Option Nat} (hnew : s.newPage = some (page, t)) :
    Holds mmap pool t (page.toList ++ owned) := by
  obtain ⟨hstep, hout⟩ := step_allocatePage hnew
  cases page with
  | none => exact h.step hstep fun p hp => hout ▸ h.out p hp
  | some =>
    obtain ⟨managed, captured, f, hd, ha⟩ := h.accounted
    obtain ⟨g, hg⟩ := ha.step hd hstep
    exact h.cons hout hd hg

theorem newPage32 {page : Option Nat} (hnew : s.newPage32 = some (page, t)) :
    ∃ pool', pool = page.toList ++ pool' ∧ Holds mmap pool' t (page.toList ++ owned) := by
  unfold FrameSystem.newPage32 granted at hnew
  split at hnew
  · cases hnew
  · rename_i frames heq
    cases hnew
    rw [FrameSystem.eq_of_allocatePage32bit_none heq]
    exact ⟨pool, rfl, h⟩
  · rename_i p frames heq
    cases hnew
    obtain ⟨managed, captured, f, hd, ha⟩ := h.accounted
    obtain ⟨pool', hpool, hd', ha'⟩ := ha.allocatePage32bit hd heq
    exact ⟨pool', hpool, h.cons rfl hd' ha'⟩

end

variable {pages : List (Option Nat)}

theorem newPages {n : Nat} (h : Holds mmap pool s owned)
    (hnew : FrameSystem.newPages n s = some (pages, t)) :
    Holds mmap pool t (pages.filterMap id ++ owned) := by
  induction n generalizing s owned pages with
  | zero =>
    cases hnew
    exact h
  | succ n ih =>
    simp only [FrameSystem.newPages, bind_eq_bind, bind_eq_some_iff] at hnew
    obtain ⟨⟨page, s1⟩, hpage, ⟨rest, s2⟩, hrest, heq⟩ := hnew
    cases heq
    apply (ih (h.newPage hpage) hrest).perm
    cases page with
    | none => exact List.Perm.refl _
    | some => exact perm_middle.symm

theorem stackPages {privilege : ProcessPrivilige} (h : Holds mmap pool s owned)
    (hnew : s.stackPages privilege = some (pages, t)) :
    Holds mmap pool t (pages.filterMap id ++ owned) := by
  cases privilege with
  | kernel => exact h.newPages hnew
  | user =>
    cases hnew
    simpa using h

theorem baseTopStack {pages' : List (Option Nat)}
    (h : Holds mmap pool s (pages.filterMap id ++ owned))
    (htop : FrameSystem.baseTopStack pages s = some (pages', t)) :
    Holds mmap pool t (pages'.filterMap id ++ owned) := by
  unfold FrameSystem.baseTopStack at htop
  split at htop
  · rename_i hlast
    simp only [bind_eq_bind, bind_eq_some_iff] at htop
    obtain ⟨⟨page, s1⟩, hpage, page, rfl, heq⟩ := htop
    cases heq
    obtain ⟨front, rfl⟩ := List.getLast?_eq_some_iff.1 hlast
    apply (h.newPage hpage).perm
    have hold : (front ++ [none]).filterMap id = front.filterMap id := by simp
    have hnew : (front ++ [some page]).filterMap id = front.filterMap id ++ [page] := by simp
    rw [dropLast_concat, hold, hnew, append_assoc]
    exact perm_middle
  · cases htop
    exact h

theorem dropPage (h : Holds mmap pool s (page :: owned)) :
    Holds mmap pool (s.dropPage page) owned := by
  have hmem : (page, 1) ∈ s.out := h.out page (.head _)
  have hstep : s.step (.freePage page) = some (s.dropPage page) := if_pos hmem
  obtain ⟨hnot, hnodup⟩ := nodup_cons.1 h.nodup
  have hrest : Holds mmap pool s owned :=
    ⟨h.accounted, hnodup, fun p hp => h.out p (.tail _ hp)⟩
  apply hrest.step hstep
  intro p hp
  refine (mem_erase_of_ne ?_).2 (hrest.out p hp)
  intro heq
  cases heq
  exact hnot hp

theorem dropPages {pages : List Nat} (h : Holds mmap pool s (pages ++ owned)) :
    Holds mmap pool (pages.foldl FrameSystem.dropPage s) owned := by
  induction pages generalizing s with
  | nil => exact h
  | cons page pages ih => exact ih h.dropPage

end Holds

end Fioxa.Paging
