import Mathlib.Data.List.Flatten
import Fioxa.Paging.FrameLists

/-! # No frame is handed out twice

The argument is about pages only. The pages that are handed out and those in free blocks are, up to
their order, the same list in every state: an allocation moves a span from the free blocks to its
owner, a block that is freed goes back, and splitting a block keeps its pages. This list has no
repetitions, and the pool for 32-bit devices is apart from it, because `new` deals out the pages of
a map whose regions are disjoint. -/

namespace Fioxa.Paging

open Span Intrusive PageContent List Function
variable {C : Type} [PageContent C]

open PageFrameAllocator

def conventionalPages (mmap : List MemoryDescriptor) : List Nat :=
  (mmap.filter (·.conventional)).flatMap (·.pages)

/-! ## Allocation histories -/

namespace FrameSystem

variable {s t : FrameSystem C} {f : Nat → List Nat} {managed pool : List Nat} {captured : Bool}
  {mmap : List MemoryDescriptor}

/-- The blocks in the free lists, those handed out and the pages of the pool are pairwise disjoint,
    consist of conventional pages, and leave out a captured page `0x8000`. -/
def Safe (mmap : List MemoryDescriptor) (s : FrameSystem C) : Prop :=
  ∃ f pool, s.frames.Lists f ∧
    Threaded (fun p => next32 (s.frames.mem p)) s.frames.reserved32Bit pool ∧
    ((s.out ++ freeBlocks f ++ pool.map (·, 1)).Pairwise fun (a b : Nat × Nat) =>
      (span 0x1000 a.1 a.2).Disjoint (span 0x1000 b.1 b.2)) ∧
    ∀ a ∈ s.out ++ freeBlocks f ++ pool.map (·, 1), ∀ p ∈ span 0x1000 a.1 a.2,
      p ∈ conventionalPages mmap ∧ (s.frames.captured0x8000 = true → p ≠ 0x8000)

/-- How `new` has dealt out the pages of the map: those that are managed in blocks, and the pool. -/
structure Dealt (mmap : List MemoryDescriptor) (managed pool : List Nat) (captured : Bool) :
    Prop where
  nodup : (managed ++ pool).Nodup
  conventional : ∀ p ∈ managed ++ pool, p ∈ conventionalPages mmap
  captured : captured = true → 0x8000 ∉ managed ++ pool

/-- The managed pages are handed out or free, and the pool is as it was. -/
structure Accounted (managed pool : List Nat) (captured : Bool) (s : FrameSystem C)
    (f : Nat → List Nat) : Prop where
  lists : s.frames.Lists f
  pages : (covered 0x1000 s.out ++ freeFrames f).Perm managed
  pool : Threaded (fun p => next32 (s.frames.mem p)) s.frames.reserved32Bit pool
  captured : s.frames.captured0x8000 = captured

omit [PageContent C] in
theorem span_one (p : Nat) : span 0x1000 p 1 = [p] := rfl

section

variable (hd : Dealt mmap managed pool captured) (h : Accounted managed pool captured s f)
include hd h

theorem Accounted.safe : Safe mmap s := by
  have hpool : covered 0x1000 (pool.map (·, 1)) = pool := by
    simp only [covered, flatMap_map, span_one, flatMap_singleton']
  have hall : (covered 0x1000 (s.out ++ freeBlocks f ++ pool.map (·, 1))).Perm
      (managed ++ pool) := by
    have happend : covered 0x1000 (s.out ++ freeBlocks f ++ pool.map (·, 1))
        = covered 0x1000 s.out ++ freeFrames f ++ covered 0x1000 (pool.map (·, 1)) := by
      simp only [covered, freeFrames, flatMap_append]
    rw [happend, hpool]
    exact h.pages.append_right pool
  refine ⟨f, pool, h.lists, h.pool, ?_, ?_⟩
  · exact (nodup_flatMap.1 (hall.nodup_iff.2 hd.nodup)).2
  · intro a ha p hp
    have hmem : p ∈ managed ++ pool := hall.mem_iff.1 (mem_flatMap.2 ⟨a, ha, hp⟩)
    refine ⟨hd.conventional p hmem, ?_⟩
    rintro hc rfl
    exact hd.captured (h.captured ▸ hc) hmem

theorem Accounted.of_within {frames : PageFrameAllocator C} {out : List (Nat × Nat)}
    {g : Nat → List Nat} {pages : List Nat} (hwithin : Within pages s.frames frames)
    (hsub : pages ⊆ managed) (hlists : frames.Lists g)
    (hpages : (covered 0x1000 out ++ freeFrames g).Perm (covered 0x1000 s.out ++ freeFrames f)) :
    Accounted managed pool captured ⟨frames, out⟩ g where
  lists := hlists
  pages := hpages.trans h.pages
  pool := by
    show Threaded _ frames.reserved32Bit pool
    rw [hwithin.reserved]
    apply h.pool.congr
    intro p hp
    show next32 (frames.mem p) = next32 (s.frames.mem p)
    rw [hwithin.mem p]
    intro hmem
    exact (nodup_append'.1 hd.nodup).2.2 (hsub hmem) hp
  captured := hwithin.captured.trans h.captured

theorem Accounted.nodup : (covered 0x1000 s.out ++ freeFrames f).Nodup :=
  h.pages.nodup_iff.2 (nodup_append'.1 hd.nodup).1

theorem Accounted.allocated {count : Nat} {r : Option (Option Nat × PageFrameAllocator C)}
    (hgrants : ∀ x, r = some x → Grants count s.frames f x) (ht : s.allocated count r = some t) :
    ∃ g, Accounted managed pool captured t g := by
  unfold FrameSystem.allocated at ht
  split at ht
  · cases ht
  · cases ht
    rw [(hgrants _ rfl).eq_self]
    exact ⟨f, h⟩
  · cases ht
    rename_i base frames
    obtain ⟨hwithin, g, hg, hperm⟩ := (hgrants _ rfl).takes
    refine ⟨g, h.of_within hd hwithin ?_ hg ?_⟩
    · intro p hp
      exact h.pages.mem_iff.1 (mem_append_right _ hp)
    · show (span 0x1000 base count ++ covered 0x1000 s.out ++ freeFrames g).Perm _
      rw [append_assoc]
      exact (perm_append_comm_assoc ..).trans (hperm.symm.append_left _)

end

theorem Accounted.freed {base count : Nat} {r : Option (PageFrameAllocator C)}
    (hd : Dealt mmap managed pool captured) (h : Accounted managed pool captured s f)
    (hb : (base, count) ∈ s.out)
    (hadds : (span 0x1000 base count ++ freeFrames f).Nodup →
      ∀ x, r = some x → Adds (span 0x1000 base count) s.frames f x)
    (ht : s.freed base count r = some t) : ∃ g, Accounted managed pool captured t g := by
  have hout : (covered 0x1000 s.out ++ freeFrames f).Perm
      (span 0x1000 base count ++ (covered 0x1000 (s.out.erase (base, count)) ++ freeFrames f)) := by
    rw [← append_assoc]
    exact ((perm_cons_erase hb).flatMap_right _).append_right _
  have hnodup := hout.nodup_iff.1 (h.nodup hd)
  have hfree := hnodup.sublist ((sublist_append_right ..).append_left _)
  unfold FrameSystem.freed at ht
  split at ht
  · cases ht
  · cases ht
    rename_i frames
    obtain ⟨hwithin, g, hg, hperm⟩ := hadds hfree frames rfl
    refine ⟨g, h.of_within hd hwithin ?_ hg ?_⟩
    · intro p hp
      exact h.pages.mem_iff.1 (hout.mem_iff.2 (mem_append_left _ hp))
    · exact (hperm.append_left _).trans ((perm_append_comm_assoc ..).trans hout.symm)

theorem Accounted.step {a : Action C} (hd : Dealt mmap managed pool captured)
    (h : Accounted managed pool captured s f) (ht : step s a = some t) :
    ∃ g, Accounted managed pool captured t g := by
  have hf : (freeFrames f).Nodup := (nodup_append'.1 (h.nodup hd)).2.1
  cases a with
  | requestPageOfOrder =>
    exact h.allocated hd (fun r hr => requestPageOfOrder_grants h.lists hf hr) ht
  | allocatePage => exact h.allocated hd (fun r hr => allocatePage_grants h.lists hf hr) ht
  | allocatePages =>
    exact h.allocated hd (fun r hr => allocatePages_grants h.lists hf hr) ht
  | freePage =>
    simp only [FrameSystem.step] at ht
    split at ht
    · rename_i hmem
      refine h.freed hd hmem ?_ ht
      rintro hfree frames ⟨⟩
      exact insertFreeOfOrder_adds h.lists (Nat.zero_le _) hfree
    · cases ht
  | freePages =>
    simp only [FrameSystem.step] at ht
    split at ht
    · rename_i hmem
      exact h.freed hd hmem (fun hfree _ hr => freePages_adds h.lists hfree hr) ht
    · cases ht
  | freePageOfOrder =>
    simp only [FrameSystem.step] at ht
    split at ht
    · rename_i hmem
      refine h.freed hd hmem.1 ?_ ht
      rintro hfree frames ⟨⟩
      exact insertFreeOfOrder_adds h.lists hmem.2 hfree
    · cases ht
  | write page content =>
    simp only [FrameSystem.step] at ht
    split at ht
    · rename_i hmem
      cases ht
      have hne : ∀ p, p ∉ [page] →
          Function.update s.frames.mem page content p = s.frames.mem p := by
        intro p hp
        exact update_of_ne (fun heq => hp (mem_singleton.2 heq)) _ _
      have hwithin : Within [page] s.frames
          { s.frames with mem := Function.update s.frames.mem page content } := ⟨rfl, rfl, hne⟩
      refine ⟨f, h.of_within hd hwithin ?_ (h.lists.congr rfl ?_) (List.Perm.refl _)⟩
      · intro p hp
        rw [mem_singleton.1 hp]
        exact h.pages.mem_iff.1 (mem_append_left _ hmem)
      · intro p hp
        apply hne
        intro heq
        rw [mem_singleton.1 heq] at hp
        exact (nodup_append'.1 (h.nodup hd)).2.2 hmem hp
    · cases ht

end FrameSystem

/-! ## Setting up -/

/-- A memory map as the bootloader passes it on: page-aligned regions, sorted by address and
    disjoint. -/
structure ValidMap (mmap : List MemoryDescriptor) : Prop where
  aligned : ∀ e ∈ mmap, e.physStart % 0x1000 = 0
  sorted : mmap.Pairwise fun a b => a.physStart ≤ b.physStart ∧ a.pages.Disjoint b.pages

/-- The pages that go to the pool from these regions, in the order in which they are found. -/
def pooledPages : List MemoryDescriptor → Nat → List Nat
  | [], _ => []
  | e :: rest, found =>
    e.pooled found ++
      if found + e.taken found = reserved32BitMemPages then []
      else pooledPages rest (found + e.taken found)

namespace MemoryDescriptor

variable {e e' : MemoryDescriptor} {found : Nat}

theorem contains0x8000_iff : e.contains0x8000 = true ↔
    e.physStart ≤ 0x8000 ∧ 0x8000 < e.physStart + e.pageCount * 0x1000 :=
  decide_eq_true_iff

theorem taken_le : e.taken found ≤ e.pageCount := by
  unfold taken
  split <;> omega

/-- What is left of the region behind the pages that are taken. -/
def remainder (e : MemoryDescriptor) (found : Nat) : List Nat :=
  span 0x1000 (e.physStart + e.taken found * 0x1000) (e.pageCount - e.taken found)

theorem pages_eq : e.pages = span 0x1000 e.physStart (e.taken found) ++ e.remainder found := by
  rw [pages, span_of_le taken_le, remainder, Nat.mul_comm 0x1000]

theorem pooled_remainder_sublist : (e.pooled found ++ e.remainder found).Sublist e.pages := by
  rw [pages_eq]
  exact filter_sublist.append_right _

theorem mem_pages_of_contains (ha : e.physStart % 0x1000 = 0) (hc : e.contains0x8000 = true) :
    0x8000 ∈ e.pages := by
  rw [contains0x8000_iff] at hc
  refine mem_span.2 ⟨(0x8000 - e.physStart) / 0x1000, ?_, ?_⟩ <;> omega

theorem limit_le (ha : e.physStart % 0x1000 = 0) (ha' : e'.physStart % 0x1000 = 0)
    (hle : e.physStart ≤ e'.physStart) (hdisj : e.pages.Disjoint e'.pages)
    (hpos : 0 < e'.pageCount) : e.limit ≤ e'.physStart := by
  by_contra hlt
  rw [limit] at hlt
  have hmem : e'.physStart ∈ e.pages := by
    refine mem_span.2 ⟨(e'.physStart - e.physStart) / 0x1000, ?_, ?_⟩ <;> omega
  exact hdisj hmem (base_mem_span hpos)

end MemoryDescriptor

/-- The pages of these regions that are in free blocks or in the pool in the end. A region that is
    used up for the pool is not asked for what is left of it. -/
def keptPages : List MemoryDescriptor → Nat → List Nat
  | [], _ => []
  | e :: rest, found =>
    e.pooled found ++
      if found + e.taken found = reserved32BitMemPages then
        e.remainder found ++ rest.flatMap (·.pages)
      else keptPages rest (found + e.taken found)

/-- Page `0x8000` is captured. -/
def captures : List MemoryDescriptor → Nat → Bool
  | [], _ => false
  | e :: rest, found =>
    e.contains0x8000 ||
      if found + e.taken found = reserved32BitMemPages then false
      else captures rest (found + e.taken found)

section

open MemoryDescriptor

variable {entries : List MemoryDescriptor} {e : MemoryDescriptor} {found p : Nat}

theorem ValidMap.tail (h : ValidMap (e :: entries)) : ValidMap entries :=
  ⟨fun e' he' => h.aligned e' (.tail e he'), (pairwise_cons.1 h.sorted).2⟩

theorem ValidMap.notMem (h : ValidMap (e :: entries)) (hp : p ∈ e.pages) :
    p ∉ entries.flatMap (·.pages) := by
  intro hmem
  obtain ⟨e', he', hp'⟩ := mem_flatMap.1 hmem
  exact ((pairwise_cons.1 h.sorted).1 e' he').2 hp hp'

theorem notMem_pooled : 0x8000 ∉ e.pooled found := by
  simp [pooled]

theorem keptPages_sublist : (keptPages entries found).Sublist (entries.flatMap (·.pages)) := by
  induction entries generalizing found with
  | nil => exact Sublist.refl _
  | cons e rest ih =>
    rw [keptPages, flatMap_cons]
    split
    · rw [← append_assoc]
      exact pooled_remainder_sublist.append_right _
    · exact ((sublist_append_left ..).trans pooled_remainder_sublist).append ih

theorem notMem_keptPages (hmap : ValidMap entries)
    (hfound : ∀ e ∈ entries, 0 < e.pageCount → found * 0x1000 ≤ e.physStart)
    (hcaptured : captures entries found = true) : 0x8000 ∉ keptPages entries found := by
  induction entries generalizing found with
  | nil => exact not_mem_nil
  | cons e rest ih =>
    have ha : e.physStart % 0x1000 = 0 := hmap.aligned e (.head _)
    intro hmem
    rcases mem_append.1 hmem with hmem | hmem
    · exact notMem_pooled hmem
    by_cases hc : e.contains0x8000 = true
    · have hlater := hmap.notMem (mem_pages_of_contains ha hc)
      split at hmem
      · rename_i hfull
        have hpos : 0 < e.pageCount := by
          rw [contains0x8000_iff] at hc
          omega
        rcases mem_append.1 hmem with hmem | hmem
        · -- the first nine pages are left behind only if the pool took them all and needs more
          have hle := hfound e (.head _) hpos
          obtain ⟨k, hk, heq⟩ := mem_span.1 hmem
          simp only [taken, hc, if_true, reserved32BitMemPages] at hk heq hfull
          rw [contains0x8000_iff] at hc
          omega
        · exact hlater hmem
      · exact hlater (keptPages_sublist.subset hmem)
    · rw [captures, Bool.or_eq_true] at hcaptured
      have hrest := hcaptured.resolve_left hc
      split at hrest
      · cases hrest
      · rename_i hmore
        rw [if_neg hmore] at hmem
        refine ih hmap.tail ?_ hrest hmem
        -- the pages found so far lie below the regions that follow
        intro e' he' hpos
        obtain ⟨hle, hdisj⟩ := (pairwise_cons.1 hmap.sorted).1 e' he'
        have hlimit : e.limit ≤ e'.physStart :=
          limit_le ha (hmap.aligned e' (.tail e he')) hle hdisj hpos
        have htaken : e.taken found ≤ e.pageCount := taken_le
        by_cases hzero : e.pageCount = 0
        · rw [hzero] at htaken
          rw [Nat.le_zero.1 htaken]
          exact hfound e' (.tail e he') hpos
        · have hhere := hfound e (.head _) (Nat.pos_of_ne_zero hzero)
          calc (found + e.taken found) * 0x1000
              = found * 0x1000 + e.taken found * 0x1000 := Nat.add_mul ..
            _ ≤ e.physStart + e.pageCount * 0x1000 :=
                Nat.add_le_add hhere (Nat.mul_le_mul_right _ htaken)
            _ ≤ e'.physStart := hlimit

end

namespace PageFrameAllocator

open MemoryDescriptor

variable {s t : PageFrameAllocator C} {f : Nat → List Nat} {all pool left : List Nat}
  {found page : Nat} {entries : List MemoryDescriptor}

/-- The state while these pages (`all`) are dealt out: `left` are those that are still to come. -/
structure Dealing (all left : List Nat) (s : PageFrameAllocator C) (f : Nat → List Nat)
    (pool : List Nat) : Prop where
  lists : s.Lists f
  threaded : Threaded (fun p => next32 (s.mem p)) s.reserved32Bit pool
  pages : (freeFrames f ++ pool ++ left).Perm all

theorem captured_free32BitReservedPage :
    (s.free32BitReservedPage page).captured0x8000 = s.captured0x8000 := by
  unfold free32BitReservedPage
  split <;> rfl

theorem captured_foldl {ps : List Nat} :
    (ps.foldl free32BitReservedPage s).captured0x8000 = s.captured0x8000 := by
  induction ps generalizing s with
  | nil => rfl
  | cons p ps ih => exact ih.trans captured_free32BitReservedPage

section

variable (hall : all.Nodup)
include hall

theorem Dealing.free32BitReservedPage (h : Dealing all (page :: left) s f pool)
    (hfirst : pool = [] → next32 (s.mem page) = none) :
    Dealing all left (s.free32BitReservedPage page) f (page :: pool) := by
  have hperm : (freeFrames f ++ (page :: pool) ++ left).Perm
      (freeFrames f ++ pool ++ (page :: left)) := by
    rw [append_assoc, append_assoc]
    exact perm_middle.symm.append_left _
  have hpages := hperm.trans h.pages
  have hnodup := hpages.nodup_iff.2 hall
  refine ⟨?_, h.threaded.free32BitReservedPage ?_ ?_, hpages⟩
  · unfold PageFrameAllocator.free32BitReservedPage
    split
    · refine h.lists.congr rfl ?_
      intro p hp
      apply update_of_ne
      rintro rfl
      rw [append_assoc] at hnodup
      exact (nodup_append'.1 hnodup).2.2 hp (.head _)
    · exact h.lists
  · have htail := (nodup_append'.1 (nodup_append'.1 hnodup).1).2.1
    exact (nodup_cons.1 htail).1
  · intro hnone
    have hthread := h.threaded
    rw [hnone] at hthread
    exact hfirst hthread.eq_nil

theorem Dealing.foldl {ps : List Nat} (h : Dealing all (ps ++ left) s f pool)
    (hfirst : pool = [] → ∀ p, ps.head? = some p → next32 (s.mem p) = none) :
    Dealing all left (ps.foldl PageFrameAllocator.free32BitReservedPage s) f
      (ps.reverse ++ pool) := by
  induction ps generalizing s pool with
  | nil => exact h
  | cons p ps ih =>
    have hpush := h.free32BitReservedPage hall fun hnil => hfirst hnil p rfl
    rw [reverse_cons, append_assoc]
    exact ih hpush fun hnil => by cases hnil

theorem Dealing.insertFreeOfRange {start count : Nat}
    (h : Dealing all (span 0x1000 start count ++ left) s f pool)
    (hins : s.insertFreeOfRange start count = some t) :
    (∃ g, Dealing all left t g pool) ∧ t.captured0x8000 = s.captured0x8000 := by
  have hfront : (span 0x1000 start count ++ freeFrames f ++ (pool ++ left)).Perm all := by
    refine Perm.trans ?_ h.pages
    rw [append_assoc, append_assoc]
    refine (perm_append_comm_assoc ..).trans (Perm.append_left _ ?_)
    exact perm_append_comm_assoc ..
  have hnodup := hfront.nodup_iff.2 hall
  obtain ⟨hwithin, g, hg, hperm⟩ :=
    insertFreeOfRange_adds h.lists (nodup_append'.1 hnodup).1 hins
  refine ⟨⟨g, hg, ?_, ?_⟩, hwithin.captured⟩
  · rw [hwithin.reserved]
    apply h.threaded.congr
    intro p hp
    show next32 (t.mem p) = next32 (s.mem p)
    rw [hwithin.mem p]
    intro hspan
    exact (nodup_append'.1 hnodup).2.2 (mem_append_left _ hspan) (mem_append_left _ hp)
  · rw [append_assoc]
    exact (hperm.append_right _).trans hfront

theorem insertAll_dealing
    (h : Dealing all (entries.flatMap (·.pages)) s f pool) (hins : insertAll entries s = some t) :
    (∃ g, Dealing all [] t g pool) ∧ t.captured0x8000 = s.captured0x8000 := by
  induction entries generalizing s f with
  | nil =>
    cases hins
    exact ⟨⟨f, h⟩, rfl⟩
  | cons e entries ih =>
    simp only [insertAll] at hins
    split at hins
    · cases hins
    · split at hins
      · cases hins
      · rename_i u hu
        obtain ⟨⟨g, hg⟩, hcaptured⟩ := h.insertFreeOfRange hall hu
        rw [← hcaptured]
        exact ih hg hins

theorem reserve_dealing {rest : List MemoryDescriptor}
    (h : Dealing all (keptPages entries found) s f pool)
    (hfirst : pool = [] → ∀ p, (pooledPages entries found).head? = some p →
      next32 (s.mem p) = none)
    (hres : reserve entries s found = some (t, rest)) :
    (∃ g pool', Dealing all (rest.flatMap (·.pages)) t g pool') ∧
      t.captured0x8000 = (s.captured0x8000 || captures entries found) := by
  induction entries generalizing s pool found with
  | nil => cases hres
  | cons e entries ih =>
    have hfirst' : pool = [] → ∀ p, (e.pooled found).head? = some p →
        next32 (s.mem p) = none := by
      intro hnil p hp
      apply hfirst hnil
      rw [pooledPages, List.head?_append, hp]
      rfl
    have hpool : Dealing all (keptPages (e :: entries) found)
        { s with captured0x8000 := s.captured0x8000 || e.contains0x8000 } f pool :=
      ⟨h.lists, h.threaded, h.pages⟩
    rw [keptPages] at hpool
    have hpart := hpool.foldl hall hfirst'
    simp only [reserve] at hres
    rw [captures]
    split at hres
    · cases hres
    · split at hres
      · -- the pool is full, and the rest of the region becomes free blocks
        rename_i hfull
        obtain ⟨u, hu, heq⟩ := Option.map_eq_some_iff.1 hres
        cases heq
        rw [if_pos hfull] at hpart ⊢
        obtain ⟨⟨g, hg⟩, hcaptured⟩ := hpart.insertFreeOfRange hall hu
        rw [hcaptured, captured_foldl, Bool.or_false]
        exact ⟨⟨g, _, hg⟩, rfl⟩
      · rename_i hmore
        rw [if_neg hmore] at hpart ⊢
        have hnext := ih hpart (fun hnil p hp => by
          -- a pool that is still empty has not written to any page
          obtain ⟨hrev, hnone⟩ := append_eq_nil_iff.1 hnil
          rw [reverse_eq_nil_iff] at hrev
          rw [hrev]
          apply hfirst hnone
          rw [pooledPages, if_neg hmore, hrev]
          exact hp) hres
        rw [hnext.2, captured_foldl, Bool.or_assoc]
        exact ⟨hnext.1, rfl⟩

end

end PageFrameAllocator

variable {mmap : List MemoryDescriptor} {mem : Nat → C} {frames : PageFrameAllocator C}

theorem ValidMap.filter (h : ValidMap mmap) (keep : MemoryDescriptor → Bool) :
    ValidMap (mmap.filter keep) where
  aligned e he := h.aligned e (mem_of_mem_filter he)
  sorted := h.sorted.filter keep

theorem ValidMap.nodup (h : ValidMap mmap) : (mmap.flatMap (·.pages)).Nodup := by
  refine nodup_flatMap.2 ⟨fun e _ => nodup_span (by decide), ?_⟩
  exact h.sorted.imp fun hab => hab.2

section

variable (hmap : ValidMap mmap)
  (hfirst : ∀ p, (pooledPages (mmap.filter (·.conventional)) 0).head? = some p →
    next32 (mem p) = none)
  (hnew : PageFrameAllocator.new mmap mem = some frames)
include hmap hfirst hnew

theorem new_keeps : ∃ f pool, frames.Lists f ∧
    Threaded (fun p => next32 (frames.mem p)) frames.reserved32Bit pool ∧
    (freeFrames f ++ pool).Perm (keptPages (mmap.filter (·.conventional)) 0) ∧
    frames.captured0x8000 = captures (mmap.filter (·.conventional)) 0 := by
  have hall : (keptPages (mmap.filter (·.conventional)) 0).Nodup :=
    (hmap.filter (·.conventional)).nodup.sublist keptPages_sublist
  have hempty : Dealing (keptPages (mmap.filter (·.conventional)) 0)
      (keptPages (mmap.filter (·.conventional)) 0) ⟨fun _ => none, none, false, mem⟩
      (fun _ => []) [] :=
    ⟨fun o _ => Threaded.nil, Threaded.nil, List.Perm.refl _⟩
  unfold PageFrameAllocator.new at hnew
  split at hnew
  · cases hnew
  · rename_i s rest hres
    obtain ⟨⟨g, pool, hg⟩, hcaptured⟩ := reserve_dealing hall hempty (fun _ => hfirst) hres
    obtain ⟨⟨k, hk⟩, hcaptured'⟩ := insertAll_dealing hall hg hnew
    have hpages := hk.pages
    rw [append_nil] at hpages
    exact ⟨k, pool, hk.lists, hk.threaded, hpages, hcaptured'.trans hcaptured⟩

theorem new_dealt : ∃ managed pool f, FrameSystem.Dealt mmap managed pool frames.captured0x8000 ∧
      FrameSystem.Accounted managed pool frames.captured0x8000 ⟨frames, []⟩ f := by
  obtain ⟨f, pool, hlists, hpool, hpages, hcaptured⟩ := new_keeps hmap hfirst hnew
  have hconv := hmap.filter (·.conventional)
  refine ⟨freeFrames f, pool, f, ⟨?_, ?_, ?_⟩, ⟨hlists, List.Perm.refl _, hpool, rfl⟩⟩
  · exact hpages.nodup_iff.2 (hconv.nodup.sublist keptPages_sublist)
  · exact fun p hp => keptPages_sublist.subset (hpages.mem_iff.1 hp)
  · rw [hcaptured]
    exact fun hc hp => notMem_keptPages hconv (by simp) hc (hpages.mem_iff.1 hp)

end

/-- Whatever is allocated and freed after `new`, no page is in two blocks, and every block is made
    of conventional pages other than a captured `0x8000`. `free_32bit_reserved_page` does not write
    the link of the first page of the pool, so this page has to hold an empty link already. -/
theorem frames_disjoint {mmap : List MemoryDescriptor} {mem : Nat → C}
    {frames : PageFrameAllocator C} {s : FrameSystem C} (hmap : ValidMap mmap)
    (hfirst : ∀ p, (pooledPages (mmap.filter (·.conventional)) 0).head? = some p →
      next32 (mem p) = none)
    (hnew : PageFrameAllocator.new mmap mem = some frames)
    (hreach : Lts.Reachable FrameSystem.step ⟨frames, []⟩ s) : s.Safe mmap := by
  obtain ⟨managed, pool, f, hdealt, hstart⟩ := new_dealt hmap hfirst hnew
  have hinv : ∃ g, FrameSystem.Accounted managed pool frames.captured0x8000 s g := by
    refine hreach.invariant (I := fun t => ∃ g,
      FrameSystem.Accounted managed pool frames.captured0x8000 t g) ?_ ⟨f, hstart⟩
    rintro t a u ⟨g, hg⟩ hstep
    exact hg.step hdealt hstep
  obtain ⟨g, hg⟩ := hinv
  exact hg.safe hdealt

/-! ### One region of forty pages -/

/-- A page that holds one of the two records at a time. -/
inductive RawPage where
  | node (m : PageMetadata)
  | next32 (next : Option Nat)

instance : PageContent RawPage where
  node
    | .node m => m
    | .next32 next => ⟨0, none, next⟩
  withNode m _ := .node m
  next32
    | .node m => m.nextNode
    | .next32 next => next
  withNext32 next _ := .next32 next
  zeroed := .next32 none
  node_withNode _ _ := rfl
  next32_withNext32 _ _ := rfl

def region : List MemoryDescriptor := [⟨true, 0x100000, 40⟩]

theorem validMap_region : ValidMap region where
  aligned := by decide
  sorted := pairwise_singleton ..

/-- Memory in which the first page of the region holds `first`. -/
def regionMem (first : RawPage) : Nat → RawPage :=
  Function.update (fun _ => .next32 none) 0x100000 first

/-- Three pages are split off a block of eight, and the fourth page is handed out on its own. -/
theorem frames_disjoint_split :
    ∃ frames s, PageFrameAllocator.new region (regionMem (.next32 none)) = some frames ∧
      Lts.run FrameSystem.step ⟨frames, []⟩ [.allocatePages 3, .allocatePage] = some s ∧
      s.out = [(0x123000, 1), (0x120000, 3)] ∧ s.Safe region := by
  have hrun : ∃ frames ∈ PageFrameAllocator.new region (regionMem (.next32 none)),
      ∃ s ∈ Lts.run FrameSystem.step ⟨frames, []⟩ [.allocatePages 3, .allocatePage],
        s.out = [(0x123000, 1), (0x120000, 3)] := by decide
  obtain ⟨frames, hnew, s, hs, hout⟩ := hrun
  refine ⟨frames, s, hnew, hs, hout, frames_disjoint validMap_region ?_ hnew ⟨_, hs⟩⟩
  rintro p ⟨⟩
  rfl

/-- When the first page of the pool holds a stale link, the pool goes on into page `0x8000`, which
    is not even conventional here. -/
theorem pool_follows_stale_link :
    ∃ frames, ValidMap region ∧
      PageFrameAllocator.new region (regionMem (.next32 (some 0x8000))) = some frames ∧
      ¬ (FrameSystem.mk frames []).Safe region := by
  have hnew : ∃ frames ∈ PageFrameAllocator.new region (regionMem (.next32 (some 0x8000))),
      follow (fun p => next32 (frames.mem p)) 32 frames.reserved32Bit = some 0x8000 := by decide
  obtain ⟨frames, hframes, hfollow⟩ := hnew
  refine ⟨frames, validMap_region, hframes, ?_⟩
  rintro ⟨f, pool, -, hpool, -, hconv⟩
  have hmem : 0x8000 ∈ pool := hpool.mem_of_follow hfollow
  have hblock : ((0x8000, 1) : Nat × Nat) ∈
      (FrameSystem.mk frames []).out ++ freeBlocks f ++ pool.map (·, 1) :=
    mem_append_right _ (mem_map.2 ⟨0x8000, hmem, rfl⟩)
  exact absurd (hconv _ hblock 0x8000 (mem_singleton_self _)).1 (by decide)

end Fioxa.Paging
