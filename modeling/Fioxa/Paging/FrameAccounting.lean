import Fioxa.Paging.Isolation

/-! # The frame allocator accounts for every page

A request fails only when no list has a block that is large enough, and takes exactly the pages that
it returns out of the free blocks. `new` deals out all conventional pages, unless the region with
page `0x8000` is used up for the pool; the pool is a stack, as long as a page that goes to an empty
pool ends the list as it is. -/

namespace Fioxa.Paging

open Span Intrusive PageContent PageFrameAllocator List Option Prod Lts Function

variable {C : Type} [PageContent C]

/-! ## Requests -/

namespace PageFrameAllocator

variable {s t : PageFrameAllocator C} {start count fuel order : Nat}

theorem insertLoop_returns (hstart : start / 0x1000 ≠ 0) (hfuel : count ≤ fuel) :
    ∃ t, insertLoop fuel s start count = some t := by
  induction fuel generalizing s start count with
  | zero => exact ⟨s, if_pos (Nat.le_zero.1 hfuel)⟩
  | succ fuel ih =>
    simp only [insertLoop, if_neg hstart]
    split
    · exact ⟨s, rfl⟩
    · generalize min (min _ _) maxOrder = order
      have hpos : 0 < pagesInOrder order := pagesInOrder_pos
      exact ih (by omega) (by omega)

theorem requestLoop_none (hnone : ∀ o, order ≤ o → o < order + fuel → s.freeLists o = none) :
    requestLoop fuel s order = some (none, s) := by
  induction fuel generalizing order with
  | zero => rfl
  | succ fuel ih =>
    have hhead := hnone order (Nat.le_refl _) (by omega)
    have hlarge : requestLoop fuel s (order + 1) = some (none, s) :=
      ih fun o ho hlt => hnone o (by omega) (by omega)
    simp only [requestLoop, hhead, hlarge]

theorem requestLoop_some {o : Nat} (hle : order ≤ o) (hlt : o < order + fuel)
    (ho : s.freeLists o ≠ none) : ∃ base t, requestLoop fuel s order = some (some base, t) := by
  induction fuel generalizing order with
  | zero => omega
  | succ fuel ih =>
    rw [requestLoop]
    cases hhead : s.freeLists order with
    | some block => exact ⟨block, _, rfl⟩
    | none =>
      have hne : order ≠ o := by
        rintro rfl
        exact ho hhead
      obtain ⟨base, u, hu⟩ : ∃ base u, requestLoop fuel s (order + 1) = some (some base, u) :=
        ih (by omega) (by omega)
      have hpos : 0 < pagesInOrder order := pagesInOrder_pos
      obtain ⟨t, ht⟩ : ∃ t, u.insertFreeOfRange (base + pagesInOrder order * 0x1000)
          (pagesInOrder (order + 1) - pagesInOrder order) = some t :=
        insertLoop_returns (by omega) (Nat.le_refl _)
      exact ⟨base, t, by simp only [hu, ht, map_some]⟩

/-- A request of an order is refused exactly when all lists from that order on are empty. Otherwise
    it takes the pages of the block that it returns out of the free ones, and no others; so does an
    allocation of several pages. -/
def Answers (s : PageFrameAllocator C) : Prop :=
  ∃ f, s.Lists f ∧ (freeFrames f).Nodup ∧
    (∀ order, maxOrder < order ∨ (∀ o, order ≤ o → o ≤ maxOrder → s.freeLists o = none) →
      s.requestPageOfOrder order = some (none, s)) ∧
    (∀ order o, order ≤ o → o ≤ maxOrder → s.freeLists o ≠ none → ∃ base t,
      s.requestPageOfOrder order = some (some base, t) ∧
        Takes (span 0x1000 base (pagesInOrder order)) s f t) ∧
    ∀ count base t, s.allocatePages count = some (some base, t) →
      Takes (span 0x1000 base count) s f t

theorem Lists.answers {f : Nat → List Nat} (h : s.Lists f) (hf : (freeFrames f).Nodup) :
    s.Answers := by
  refine ⟨f, h, hf, fun order horder => ?_, fun order o hle ho hne => ?_, fun count base t ht => ?_⟩
  · apply requestLoop_none
    intro o hle hlt
    rcases horder with hmax | hnone
    · omega
    · exact hnone o hle (by omega)
  · obtain ⟨base, t, ht⟩ : ∃ base t, s.requestPageOfOrder order = some (some base, t) :=
      requestLoop_some hle (by omega) hne
    exact ⟨base, t, ht, (requestPageOfOrder_grants h hf ht).takes⟩
  · exact (allocatePages_grants h hf ht).takes

end PageFrameAllocator

/-- The calls of `FrameSystem`, and `allocate_page_32bit`. -/
inductive FrameCall (C : Type) where
  | ordinary (a : FrameSystem.Action C)
  | allocatePage32bit

def FrameSystem.call (s : FrameSystem C) : FrameCall C → Option (FrameSystem C)
  | .ordinary a => s.step a
  | .allocatePage32bit => s.newPage32.map snd

variable {mmap : List MemoryDescriptor} {s : FrameSystem C}

theorem Holds.answers {pool : List Nat} (h : Holds mmap pool s []) : s.frames.Answers := by
  obtain ⟨managed, captured, f, hd, ha⟩ := h.accounted
  exact ha.lists.answers (nodup_append'.1 (ha.nodup hd)).2.1

theorem Holds.call {a : FrameCall C} {t : FrameSystem C} {pool : List Nat}
    (h : Holds mmap pool s []) (hcall : s.call a = some t) : ∃ pool, Holds mmap pool t [] := by
  cases a with
  | ordinary => exact ⟨pool, h.step hcall (by simp)⟩
  | allocatePage32bit =>
    obtain ⟨⟨page, u⟩, hnew, rfl⟩ := map_eq_some_iff.1 hcall
    obtain ⟨pool', -, h'⟩ := h.newPage32 hnew
    exact ⟨pool', h'.accounted, nodup_nil, by simp⟩

/-- In every state that calls lead to, requests are answered as `Answers` says, if the first page of
    the pool holds an empty link when the system starts. -/
theorem requests_answered {mem : Nat → C} {frames : PageFrameAllocator C} (hmap : ValidMap mmap)
    (hfirst : ∀ p, (pooledPages (mmap.filter (·.conventional)) 0).head? = some p →
      next32 (mem p) = none)
    (hnew : PageFrameAllocator.new mmap mem = some frames)
    (hreach : Lts.Reachable FrameSystem.call ⟨frames, []⟩ s) : s.frames.Answers := by
  obtain ⟨managed, pool, f, hd, ha⟩ := new_dealt hmap hfirst hnew
  have hs := hreach.invariant (I := fun t => ∃ pool, Holds mmap pool t [])
    (fun t a u ⟨pool, ht⟩ hcall => ht.call hcall)
    ⟨pool, ⟨managed, _, f, hd, ha⟩, nodup_nil, by simp⟩
  obtain ⟨pool', h⟩ := hs
  exact h.answers

/-- The block of eight pages that is left of the region is there, and no larger one. -/
theorem requests_answered_region : ∃ frames,
    PageFrameAllocator.new region (regionMem (.next32 none)) = some frames ∧
      frames.freeLists 3 = some 0x120000 ∧ frames.Answers := by
  have hnew : ∃ frames ∈ PageFrameAllocator.new region (regionMem (.next32 none)),
      frames.freeLists 3 = some 0x120000 := by decide
  obtain ⟨frames, hnew, hhead⟩ := hnew
  refine ⟨frames, hnew, hhead, ?_⟩
  refine requests_answered validMap_region ?_ hnew (Reachable.refl _)
  rintro p ⟨⟩
  rfl

/-- A stale link in the first page of the pool leads to the block in the free list. When its first
    page is handed out and written to by its owner, the block can be handed out twice. -/
theorem stale_link_repeats_block : ∃ frames s,
    PageFrameAllocator.new region (regionMem (.next32 (some 0x120000))) = some frames ∧
      Lts.run FrameSystem.call ⟨frames, []⟩ (replicate 33 .allocatePage32bit ++
        [.ordinary (.write 0x120000 (.node ⟨3, none, some 0x120000⟩))]) = some s ∧
      ¬ s.frames.Answers := by
  have hrun : ∃ frames ∈ PageFrameAllocator.new region (regionMem (.next32 (some 0x120000))),
      ∃ s ∈ Lts.run FrameSystem.call ⟨frames, []⟩ (replicate 33 .allocatePage32bit ++
          [.ordinary (.write 0x120000 (.node ⟨3, none, some 0x120000⟩))]),
        s.frames.freeLists 3 = some 0x120000 ∧
          ∃ r ∈ s.frames.requestPageOfOrder 3, r.1 = some 0x120000 ∧
            r.2.freeLists 3 = some 0x120000 := by
    decide +kernel
  obtain ⟨frames, hnew, s, hs, hhead, r, hr, hbase, hhead'⟩ := hrun
  refine ⟨frames, s, hnew, hs, ?_⟩
  rintro ⟨f, -, hf, -, hsome, -⟩
  obtain ⟨base, t, ht, -, g, hg, hperm⟩ := hsome 3 3 (Nat.le_refl _) (by decide) (by simp [hhead])
  obtain rfl := Option.some.inj (Eq.trans (Eq.symm hr) ht)
  obtain rfl := Option.some.inj hbase
  have hlist := hg 3 (by decide)
  rw [hhead'] at hlist
  obtain ⟨l, hl, -⟩ := hlist.pop
  have hblock : 0x120000 ∈ g 3 := hl ▸ .head _
  have hmem := mem_freeFrames (by decide) hblock
  exact (nodup_append'.1 (hperm.nodup_iff.1 hf)).2.2 (base_mem_span pagesInOrder_pos) hmem

/-! ## Setting up -/

/-- With the region that contains page `0x8000` there are more pages than the pool needs, or page
    `0x8000` is its last one; `found` pages are in the regions before. -/
def KeepsAll : List MemoryDescriptor → Nat → Prop
  | [], _ => True
  | e :: rest, found =>
    (e.contains0x8000 = true →
      e.limit = 0x9000 ∨ reserved32BitMemPages < found + e.pageCount) ∧
    KeepsAll rest (found + e.pageCount)

section

open MemoryDescriptor

variable {entries : List MemoryDescriptor} {e : MemoryDescriptor} {found p : Nat}

theorem contains_of_mem (hp : 0x8000 ∈ e.pages) : e.contains0x8000 = true := by
  obtain ⟨k, hk, heq⟩ := mem_span.1 hp
  rw [contains0x8000_iff]
  omega

/-- Only one region contains the page. -/
theorem keepsAll_of_contains (hmap : ValidMap (e :: entries)) (hc : e.contains0x8000 = true)
    (n : Nat) : KeepsAll entries n := by
  have hmem := mem_pages_of_contains (hmap.aligned e (.head _)) hc
  have hnot := hmap.notMem hmem
  have haligned := hmap.tail.aligned
  clear hmap hmem hc
  induction entries generalizing n with
  | nil => trivial
  | cons e' rest ih =>
    rw [flatMap_cons, mem_append, not_or] at hnot
    refine ⟨fun hc' => absurd (mem_pages_of_contains (haligned e' (.head _)) hc') hnot.1, ?_⟩
    exact ih _ hnot.2 fun e he => haligned e (.tail _ he)

theorem keepsAll_of_le {n : Nat} (hn : reserved32BitMemPages ≤ n) : KeepsAll entries n := by
  induction entries generalizing n with
  | nil => trivial
  | cons e rest ih =>
    refine ⟨fun hc => .inr ?_, ih (by omega)⟩
    have hpos := contains0x8000_iff.1 hc
    omega

theorem mem_pages_cases (found : Nat) (hp : p ∈ e.pages) :
    p ∈ e.pooled found ∨ p ∈ e.remainder found ∨ p = 0x8000 ∧ e.contains0x8000 = true := by
  by_cases h8 : p = 0x8000
  · subst h8
    exact .inr (.inr ⟨rfl, contains_of_mem hp⟩)
  · have hsplit : e.pages = _ ++ e.remainder found := pages_eq
    rw [hsplit, mem_append] at hp
    refine hp.imp (fun hp => ?_) .inl
    simpa [pooled, h8] using hp

/-- A page is left behind only in the region of page `0x8000`, and it is the last one. -/
theorem eq_of_mem_remainder (hfound : found < reserved32BitMemPages)
    (hmore : found + e.taken found ≠ reserved32BitMemPages)
    (hkeep : e.contains0x8000 = true → e.limit = 0x9000 ∨
      reserved32BitMemPages < found + e.pageCount) (hp : p ∈ e.remainder found) :
    p = 0x8000 ∧ e.contains0x8000 = true := by
  obtain ⟨k, hk, rfl⟩ := mem_span.1 hp
  by_cases hc : e.contains0x8000 = true
  · have hlast := hkeep hc
    rw [taken, if_pos hc] at hmore hk ⊢
    rw [limit] at hlast
    refine ⟨?_, hc⟩
    omega
  · rw [taken, if_neg hc] at hmore hk
    omega

/-- A page that is not kept is the captured one. -/
theorem mem_keptPages (hmap : ValidMap entries) (hfound : found < reserved32BitMemPages)
    (hkeep : KeepsAll entries found) (hp : p ∈ entries.flatMap (·.pages)) :
    p ∈ keptPages entries found ∨ p = 0x8000 ∧ captures entries found = true := by
  induction entries generalizing found with
  | nil => cases hp
  | cons e rest ih =>
    rw [keptPages, captures, mem_append, Bool.or_eq_true]
    by_cases hfull : found + e.taken found = reserved32BitMemPages
    · rw [if_pos hfull, if_pos hfull, mem_append]
      rcases mem_append.1 hp with hp | hp
      · rcases mem_pages_cases found hp with hp | hp | ⟨hp, hc⟩
        · exact .inl (.inl hp)
        · exact .inl (.inr (.inl hp))
        · exact .inr ⟨hp, .inl hc⟩
      · exact .inl (.inr (.inr hp))
    · rw [if_neg hfull, if_neg hfull]
      rcases mem_append.1 hp with hp | hp
      · rcases mem_pages_cases found hp with hp | hp | ⟨hp, hc⟩
        · exact .inl (.inl hp)
        · obtain ⟨hp, hc⟩ := eq_of_mem_remainder hfound hfull hkeep.1 hp
          exact .inr ⟨hp, .inl hc⟩
        · exact .inr ⟨hp, .inl hc⟩
      · have hle : e.taken found ≤ reserved32BitMemPages - found := Nat.min_le_right _ _
        have hrest : KeepsAll rest (found + e.taken found) := by
          by_cases hc : e.contains0x8000 = true
          · exact keepsAll_of_contains hmap hc _
          · have htaken : e.taken found = e.pageCount := by
              rw [taken, if_neg hc] at hfull ⊢
              omega
            rw [htaken]
            exact hkeep.2
        exact (ih hmap.tail (by omega) hrest hp).imp .inr fun h => ⟨h.1, .inr h.2⟩

/-- A region that is used up for the pool, with page `0x8000` in it, loses its last page. -/
theorem exists_lost (hmap : ValidMap entries) (hkeep : ¬ KeepsAll entries found) :
    ∃ p ∈ entries.flatMap (·.pages), p ≠ 0x8000 ∧ p ∉ keptPages entries found := by
  induction entries generalizing found with
  | nil => exact absurd trivial hkeep
  | cons e rest ih =>
    have ha := hmap.aligned e (.head _)
    by_cases hc : e.contains0x8000 = true
    · have hrest := keepsAll_of_contains hmap hc (found + e.pageCount)
      have hsmall : ¬ (e.limit = 0x9000 ∨ reserved32BitMemPages < found + e.pageCount) :=
        fun h => hkeep ⟨fun _ => h, hrest⟩
      have hmem := contains0x8000_iff.1 hc
      have htaken : e.taken found = e.pageCount - 1 := by
        rw [taken, if_pos hc]
        omega
      have hmore : found + e.taken found ≠ reserved32BitMemPages := by omega
      rw [limit] at hsmall
      have hlast : e.physStart + 0x1000 * (e.pageCount - 1) ∈ e.pages :=
        mem_span.2 ⟨_, by omega, rfl⟩
      refine ⟨_, mem_append_left _ hlast, by omega, ?_⟩
      rw [keptPages, if_neg hmore, mem_append]
      rintro (hp | hp)
      · obtain ⟨k, hk, heq⟩ := mem_span.1 (mem_of_mem_filter hp)
        omega
      · exact hmap.notMem hlast (keptPages_sublist.subset hp)
    · have hrest : ¬ KeepsAll rest (found + e.pageCount) :=
        fun h => hkeep ⟨fun hc' => absurd hc' hc, h⟩
      have hless : found + e.pageCount < reserved32BitMemPages := by
        by_contra hle
        exact hrest (keepsAll_of_le (by omega))
      have htaken : e.taken found = e.pageCount := by
        rw [taken, if_neg hc]
        omega
      obtain ⟨p, hp, hne, hnot⟩ := ih hmap.tail hrest
      refine ⟨p, mem_append_right _ hp, hne, ?_⟩
      rw [keptPages, htaken, if_neg (by omega), mem_append]
      rintro (hp' | hp')
      · refine hmap.notMem ?_ hp
        exact pooled_remainder_sublist.subset (mem_append_left _ hp')
      · exact hnot hp'

end

/-- Every conventional page, apart from a captured `0x8000`, is in one free block or in the pool. -/
def LosesNothing (mmap : List MemoryDescriptor) (s : PageFrameAllocator C) : Prop :=
  ∃ f pool, s.Lists f ∧ Threaded (fun p => next32 (s.mem p)) s.reserved32Bit pool ∧
    (freeFrames f ++ pool).Nodup ∧
    ∀ p ∈ conventionalPages mmap, ¬ (p = 0x8000 ∧ s.captured0x8000 = true) →
      p ∈ freeFrames f ++ pool

theorem not_losesNothing {mem : Nat → C} {frames : PageFrameAllocator C} (hmap : ValidMap mmap)
    (hfirst : ∀ p, (pooledPages (mmap.filter (·.conventional)) 0).head? = some p →
      next32 (mem p) = none)
    (hnew : PageFrameAllocator.new mmap mem = some frames)
    (hkeep : ¬ KeepsAll (mmap.filter (·.conventional)) 0) : ¬ LosesNothing mmap frames := by
  obtain ⟨f, pool, hf, hpool, hperm, -⟩ := new_keeps hmap hfirst hnew
  obtain ⟨p, hp, hne, hnot⟩ := exists_lost (hmap.filter _) hkeep
  rintro ⟨f', pool', hf', hpool', -, hall⟩
  have hmem := hall p hp fun h => hne h.1
  rw [hf'.freeFrames_eq hf, hpool'.unique hpool] at hmem
  exact hnot (hperm.mem_iff.1 hmem)

/-- With an empty link in the first page of the pool, `new` loses no page exactly if the region of
    page `0x8000` is not used up for the pool, or has `0x8000` as its last page. -/
theorem new_losesNothing_iff {mem : Nat → C} {frames : PageFrameAllocator C} (hmap : ValidMap mmap)
    (hfirst : ∀ p, (pooledPages (mmap.filter (·.conventional)) 0).head? = some p →
      next32 (mem p) = none)
    (hnew : PageFrameAllocator.new mmap mem = some frames) :
    LosesNothing mmap frames ↔ KeepsAll (mmap.filter (·.conventional)) 0 := by
  constructor
  · intro h
    by_contra hkeep
    exact not_losesNothing hmap hfirst hnew hkeep h
  · intro hkeep
    have hconv := hmap.filter (·.conventional)
    obtain ⟨f, pool, hf, hpool, hperm, hcaptured⟩ := new_keeps hmap hfirst hnew
    refine ⟨f, pool, hf, hpool, ?_, fun p hp hne => hperm.mem_iff.2 ?_⟩
    · exact hperm.nodup_iff.2 (hconv.nodup.sublist keptPages_sublist)
    · rcases mem_keptPages hconv (by decide) hkeep hp with hp | ⟨rfl, hc⟩
      · exact hp
      · exact absurd ⟨rfl, hcaptured.trans hc⟩ hne

/-- Pages `0x1000` to `0x9000` go to the pool, apart from `0x8000` and the last one. -/
def lowRegion : List MemoryDescriptor := [⟨true, 0x1000, 9⟩, ⟨true, 0x100000, 40⟩]

theorem validMap_lowRegion : ValidMap lowRegion where
  aligned := by decide
  sorted := by
    refine pairwise_pair.2 ⟨by decide, fun p hp hp' => ?_⟩
    obtain ⟨j, hj, rfl⟩ := mem_span.1 hp
    obtain ⟨k, hk, heq⟩ := mem_span.1 hp'
    dsimp only at hj heq
    omega

theorem lowRegion_loses : ValidMap lowRegion ∧ ∃ frames,
    PageFrameAllocator.new lowRegion (fun _ => RawPage.next32 none) = some frames ∧
      ¬ LosesNothing lowRegion frames := by
  have hnew : (PageFrameAllocator.new lowRegion (fun _ => RawPage.next32 none)).isSome := by
    decide
  obtain ⟨frames, hnew⟩ := isSome_iff_exists.1 hnew
  refine ⟨validMap_lowRegion, frames, hnew,
    not_losesNothing validMap_lowRegion (fun _ _ => rfl) hnew ?_⟩
  rintro ⟨hkeep, -⟩
  exact absurd (hkeep (by decide)) (by decide)

/-- A region without page `0x8000`. -/
theorem region_losesNothing : ∃ frames,
    PageFrameAllocator.new region (regionMem (.next32 none)) = some frames ∧
      LosesNothing region frames := by
  have hnew : (PageFrameAllocator.new region (regionMem (.next32 none))).isSome := by decide
  obtain ⟨frames, hnew⟩ := isSome_iff_exists.1 hnew
  refine ⟨frames, hnew, (new_losesNothing_iff validMap_region ?_ hnew).2 ⟨?_, trivial⟩⟩
  · rintro p ⟨⟩
    rfl
  · intro hc
    cases hc

/-! ## The pool -/

/-- The pool on its own, with all pages that it has been given and those that are handed out. -/
structure PoolSystem (C : Type) where
  frames : PageFrameAllocator C
  freed : List Nat
  out : List Nat

namespace PoolSystem

inductive Action (C : Type) where
  | free (page : Nat)
  | allocate
  /-- The owner of a page writes to it. -/
  | write (page : Nat) (content : C)

/-- A page is freed if it is handed out or new to the pool. -/
def step (s : PoolSystem C) : Action C → Option (PoolSystem C)
  | .free page =>
    if page ∈ s.out then
      some ⟨s.frames.free32BitReservedPage page, s.freed, s.out.erase page⟩
    else if pageOk page = true ∧ page ∉ s.freed then
      some ⟨s.frames.free32BitReservedPage page, page :: s.freed, s.out⟩
    else none
  | .allocate =>
    s.frames.allocatePage32bit.map fun r => ⟨r.2, s.freed, r.1.toList ++ s.out⟩
  | .write page content =>
    if page ∈ s.out then
      some { s with frames :=
        { s.frames with mem := update s.frames.mem page content } }
    else none

/-- The pages that are handed out are different and have been freed before, and an allocation finds
    no page exactly if all are handed out. -/
structure Proper (s : PoolSystem C) : Prop where
  nodup : s.out.Nodup
  freed : ∀ p ∈ s.out, p ∈ s.freed
  returns : s.frames.allocatePage32bit.isSome
  exhausted : (∃ frames, s.frames.allocatePage32bit = some (none, frames)) ↔
    ∀ p ∈ s.freed, p ∈ s.out

/-- A page that goes to an empty pool holds an empty link. -/
def Ends (s : PoolSystem C) : Action C → Prop
  | .free page => s.frames.reserved32Bit = none → next32 (s.frames.mem page) = none
  | .allocate => True
  | .write _ _ => True

instance decidableEnds (s : PoolSystem C) : ∀ a, Decidable (s.Ends a)
  | .free page => inferInstanceAs
      (Decidable (s.frames.reserved32Bit = none → next32 (s.frames.mem page) = none))
  | .allocate | .write _ _ => inferInstanceAs (Decidable True)

/-- The pages that are not handed out are linked. -/
structure Stacked (s : PoolSystem C) (pool : List Nat) : Prop where
  threaded : Threaded (fun p => next32 (s.frames.mem p)) s.frames.reserved32Bit pool
  pages : (pool ++ s.out).Perm s.freed
  nodup : s.freed.Nodup
  ok : ∀ p ∈ s.freed, pageOk p = true

variable {s t : PoolSystem C} {pool : List Nat}

theorem Stacked.proper (h : s.Stacked pool) : s.Proper := by
  have hnodup := nodup_append'.1 (h.pages.nodup_iff.2 h.nodup)
  have hthread := h.threaded
  refine ⟨hnodup.2.1, fun p hp => h.pages.mem_iff.1 (mem_append_right _ hp), ?_, ?_⟩
  · unfold allocatePage32bit
    split
    · rfl
    · rename_i block hblock
      rw [hblock] at hthread
      obtain ⟨rest, rfl, -⟩ := hthread.pop
      rw [handOut, if_pos (h.ok block (h.pages.mem_iff.1 (.head _)))]
      rfl
  · constructor
    · rintro ⟨frames, hnone⟩ p hp
      rcases mem_append.1 (h.pages.mem_iff.2 hp) with hp | hp
      · unfold allocatePage32bit handOut at hnone
        split at hnone
        · rename_i hempty
          rw [hempty] at hthread
          rw [hthread.eq_nil] at hp
          cases hp
        · split at hnone <;> cases hnone
      · exact hp
    · intro hall
      cases hblock : s.frames.reserved32Bit with
      | none => exact ⟨s.frames, by rw [allocatePage32bit, hblock]⟩
      | some block =>
        rw [hblock] at hthread
        obtain ⟨rest, rfl, -⟩ := hthread.pop
        have hin := hall block (h.pages.mem_iff.1 (.head _))
        exact absurd hin fun hin => hnodup.2.2 (.head _) hin

theorem Stacked.step {a : Action C} (h : s.Stacked pool) (hends : s.Ends a)
    (hstep : step s a = some t) : ∃ pool, t.Stacked pool := by
  have hnodup := h.pages.nodup_iff.2 h.nodup
  cases a with
  | free page =>
    simp only [PoolSystem.step] at hstep
    split at hstep
    · rename_i hout
      cases hstep
      have hnot : page ∉ pool := fun hp => (nodup_append'.1 hnodup).2.2 hp hout
      refine ⟨page :: pool, h.threaded.free32BitReservedPage hnot hends, ?_, h.nodup, h.ok⟩
      refine Perm.trans ?_ h.pages
      exact perm_middle.symm.trans ((perm_cons_erase hout).symm.append_left pool)
    · split at hstep
      · rename_i hnew
        cases hstep
        have hnot : page ∉ pool :=
          fun hp => hnew.2 (h.pages.mem_iff.1 (mem_append_left _ hp))
        refine ⟨page :: pool, h.threaded.free32BitReservedPage hnot hends, h.pages.cons page,
          nodup_cons.2 ⟨hnew.2, h.nodup⟩, fun p hp => ?_⟩
        rcases mem_cons.1 hp with rfl | hp
        · exact hnew.1
        · exact h.ok p hp
      · cases hstep
  | allocate =>
    obtain ⟨r, hr, rfl⟩ := map_eq_some_iff.1 hstep
    unfold allocatePage32bit handOut at hr
    split at hr
    · cases hr
      exact ⟨pool, h⟩
    · rename_i block hblock
      split at hr
      · cases hr
        have hthread := h.threaded
        rw [hblock] at hthread
        obtain ⟨rest, rfl, hrest⟩ := hthread.pop
        have hnot := (nodup_cons.1 (nodup_append'.1 hnodup).1).1
        refine ⟨rest, hrest.congr fun p hp => ?_, perm_middle.trans h.pages, h.nodup, h.ok⟩
        have hne : p ∉ span 0x1000 block 1 := by
          rw [FrameSystem.span_one, mem_singleton]
          exact fun heq => hnot (heq ▸ hp)
        show next32 (zeroPages s.frames.mem (span 0x1000 block 1) p) = _
        rw [zeroPages, if_neg hne]
      · cases hr
  | write page content =>
    simp only [PoolSystem.step] at hstep
    split at hstep
    · rename_i hout
      cases hstep
      refine ⟨pool, h.threaded.congr fun p hp => ?_, h.pages, h.nodup, h.ok⟩
      have hne : p ≠ page := fun heq => (nodup_append'.1 hnodup).2.2 hp (heq ▸ hout)
      show next32 (update s.frames.mem page content p) = _
      rw [update_of_ne hne]
    · cases hstep

/-- If every page that goes to an empty pool holds an empty link, the pool is a stack throughout. -/
theorem pool_proper (lists : Nat → Option Nat) (captured : Bool) (mem : Nat → C)
    (as : List (Action C))
    (hends : Guarded step Ends ⟨⟨lists, none, captured, mem⟩, [], []⟩ as) :
    Always step Proper ⟨⟨lists, none, captured, mem⟩, [], []⟩ as := by
  refine always_of_guarded (I := fun s => ∃ pool, s.Stacked pool) ?_ ?_ ?_ hends
  · exact fun s ⟨pool, h⟩ => h.proper
  · exact fun s a t ⟨pool, h⟩ ha hstep => h.step ha hstep
  · exact ⟨[], Threaded.nil, List.Perm.refl _, nodup_nil, by simp⟩

/-- Two pages are freed and handed out again. -/
theorem pool_proper_two : Always step Proper
    ⟨⟨fun _ => none, none, false, fun _ => RawPage.next32 none⟩, [], []⟩
    [.free 0x1000, .free 0x2000, .allocate, .allocate] :=
  pool_proper _ _ _ _ (by decide)

/-- The link that the first page holds is followed after the page has been handed out. -/
theorem pool_leaves_pages : ∃ s, Lts.run step
    ⟨⟨fun _ => none, none, false, fun _ => RawPage.next32 (some 0x5000)⟩, [], []⟩
    [.free 0x1000, .allocate] = some s ∧ ¬ s.Proper := by
  have hrun : ∃ s ∈ Lts.run step
      ⟨⟨fun _ => none, none, false, fun _ => RawPage.next32 (some 0x5000)⟩, [], []⟩
      [.free 0x1000, .allocate], s.freed = [0x1000] ∧ s.out = [0x1000] ∧
        s.frames.allocatePage32bit.map fst = some (some 0x5000) := by
    decide
  obtain ⟨s, hs, hfreed, hout, halloc⟩ := hrun
  refine ⟨s, hs, fun h => ?_⟩
  obtain ⟨frames, hnone⟩ := h.exhausted.2 (by rw [hfreed, hout]; exact fun p hp => hp)
  rw [hnone] at halloc
  cases halloc

end PoolSystem

/-! ## The pool and the processes -/

namespace World

variable {w w' : World C} {pool : List Nat} {pid n : Nat}

/-- The pages in the pool and those that processes own are `n` together. -/
def PoolConserved (n : Nat) (w : World C) : Prop :=
  ∃ pool, Threaded (fun p => next32 (w.frames.frames.mem p)) w.frames.frames.reserved32Bit pool ∧
    pool.length + w.count32 = n

/-- Processes are created, call `mmap_page32` and are destroyed. -/
def UsesPool : Action C → Prop
  | .newProcess _ _ | .mmapPage32 _ | .dropProcess _ => True
  | _ => False

/-- A process that is destroyed owns no pages for 32-bit devices. -/
def OwnsNone (w : World C) : Action C → Prop
  | .dropProcess pid => ∀ p ∈ w.process pid, p.owned32Pages = []
  | _ => True

instance decidableOwnsNone (w : World C) : ∀ a, Decidable (w.OwnsNone a)
  | .dropProcess pid => inferInstanceAs (Decidable (∀ p ∈ w.process pid, p.owned32Pages = []))
  | .mmapPage .. | .mmapPage32 _ | .unmmapPage .. | .newStack _ | .newKstack .. | .pageFault ..
  | .newProcess .. | .loadSegment .. | .unloadSegment .. | .dropThread .. | .kernel _ =>
    inferInstanceAs (Decidable True)

theorem Inv.threaded {held : List Nat} (h : Inv mmap pool held w) :
    Threaded (fun p => next32 (w.frames.frames.mem p)) w.frames.frames.reserved32Bit pool := by
  obtain ⟨managed, captured, f, -, ha⟩ := h.holds.accounted
  exact ha.pool

theorem processes_releases (ranges : List MappedRange) :
    (ranges.foldl (fun w r => w.release r.object) w).processes = w.processes := by
  induction ranges generalizing w with
  | nil => rfl
  | cons r ranges ih =>
    refine ih.trans ?_
    show (w.release r.object).processes = _
    unfold release
    split
    · split <;> rfl
    · rfl

omit [PageContent C] in
theorem count32_newProcess {privilege : ProcessPrivilige} {hpetReady : Bool}
    (hstep : w.newProcess privilege hpetReady = some w') : w'.count32 = w.count32 := by
  obtain ⟨p, hp, heq⟩ := bind_eq_some_iff.1 hstep
  cases heq
  have hnone : p.owned32Pages = [] := by
    obtain ⟨m, -, ⟨-, rfl⟩ | ⟨base, m', -, -, rfl⟩⟩ := Process.new_spec hp <;> rfl
  simp [count32, owned32, hnone]

/-- The pages of a process that is destroyed do not go back to the pool. -/
theorem count32_dropProcess {p : Process} (hp : w.process pid = some p)
    (hstep : w.dropProcess pid = some w') : w'.count32 + p.owned32Pages.length = w.count32 := by
  obtain ⟨p', hp', hstep⟩ := bind_eq_some_iff.1 hstep
  obtain rfl : p = p' := Option.some.inj (hp.symm.trans hp')
  obtain ⟨-, -, heq⟩ := bind_eq_some_iff.1 hstep
  cases heq
  rw [count32, processes_releases]
  exact count32_setProcess hp none

theorem Inv.conserved_iff {as : List (Action C)} (h : Inv mmap pool [] w)
    (hcount : pool.length + w.count32 = n) (huses : ∀ a ∈ as, UsesPool a) :
    Always World.step (PoolConserved n) w as ↔ Guarded World.step OwnsNone w as := by
  refine always_iff_guarded_within (D := fun _ => UsesPool)
    (I := fun w => ∃ pool, Inv mmap pool [] w ∧ pool.length + w.count32 = n) ?_ ?_ ?_
    ⟨pool, h, hcount⟩ (guarded_of_forall (fun _ => huses) w)
  · exact fun w ⟨pool, h, hcount⟩ => ⟨pool, h.threaded, hcount⟩
  · rintro w a w' ⟨pool, h, hcount⟩ huse hnone hstep
    cases a with
    | newProcess => exact ⟨pool, h.newProcess hstep, count32_newProcess hstep ▸ hcount⟩
    | mmapPage32 =>
      obtain ⟨pool', h', hcount'⟩ := h.mmapPage32 hstep
      exact ⟨pool', h', hcount'.trans hcount⟩
    | dropProcess pid =>
      obtain ⟨p, hp, -⟩ := bind_eq_some_iff.1 hstep
      have hless := count32_dropProcess hp hstep
      rw [hnone p hp, length_nil, Nat.add_zero] at hless
      exact ⟨pool, h.dropProcess hstep, hless ▸ hcount⟩
    | _ => exact huse.elim
  · rintro w a w' ⟨pool, h, hcount⟩ huse hstep ⟨pool', hpool', hcount'⟩
    cases a with
    | dropProcess pid =>
      intro p hp
      have hless := count32_dropProcess hp hstep
      rw [hpool'.unique (h.dropProcess hstep).threaded] at hcount'
      exact length_eq_zero_iff.1 (by omega)
    | _ => trivial

/-- The pool with its `n` pages is conserved exactly as long as no process is destroyed that owns
    pages for 32-bit devices. -/
theorem pool_conserved_iff {mem : Nat → C} {frames : PageFrameAllocator C} {hpet : Nat}
    (hmap : ValidMap mmap) (hdevices : DevicesApart mmap hpet)
    (hfirst : ∀ p, (pooledPages (mmap.filter (·.conventional)) 0).head? = some p →
      next32 (mem p) = none)
    (hnew : PageFrameAllocator.new mmap mem = some frames)
    (hn : PoolConserved n (World.boot frames hpet)) (as : List (Action C))
    (huses : ∀ a ∈ as, UsesPool a) :
    Always World.step (PoolConserved n) (World.boot frames hpet) as ↔
      Guarded World.step OwnsNone (World.boot frames hpet) as := by
  obtain ⟨pool, h⟩ := Inv.boot hmap hdevices hfirst hnew
  obtain ⟨pool', hpool', hcount⟩ := hn
  exact h.conserved_iff (h.threaded.unique hpool' ▸ hcount) huses

theorem exists_boot_region : ∃ frames pool,
    PageFrameAllocator.new region (regionMem (.next32 none)) = some frames ∧
      Inv region pool [] (World.boot frames 0xfed00000) := by
  have hnew : (PageFrameAllocator.new region (regionMem (.next32 none))).isSome := by decide
  obtain ⟨frames, hnew⟩ := isSome_iff_exists.1 hnew
  obtain ⟨pool, h⟩ : ∃ pool, Inv region pool [] (World.boot frames 0xfed00000) :=
    Inv.boot validMap_region ⟨by decide, by decide, rfl⟩ (by rintro p ⟨⟩; rfl) hnew
  exact ⟨frames, pool, hnew, h⟩

/-- A driver takes a page, and a process without any is destroyed. -/
theorem pool_conserved_driver : ∃ frames n,
    PageFrameAllocator.new region (regionMem (.next32 none)) = some frames ∧
      Always World.step (PoolConserved n) (World.boot frames 0xfed00000)
        [.newProcess .user true, .newProcess .user true, .mmapPage32 0, .dropProcess 1] := by
  obtain ⟨frames, pool, hnew, h⟩ := exists_boot_region
  refine ⟨frames, _, hnew, (pool_conserved_iff validMap_region ⟨by decide, by decide, rfl⟩ ?_ hnew
    ⟨pool, h.threaded, rfl⟩ _ (by simp [UsesPool])).2 ?_⟩
  · rintro p ⟨⟩
    rfl
  · have hguard : ∀ frames ∈ PageFrameAllocator.new region (regionMem (.next32 none)),
        Guarded World.step OwnsNone (World.boot frames 0xfed00000)
          [.newProcess .user true, .newProcess .user true, .mmapPage32 0, .dropProcess 1] := by
      decide +kernel
    exact hguard frames hnew

/-- The page of a process that is destroyed goes to the free lists. -/
theorem pool_loses_page : ∃ frames n,
    PageFrameAllocator.new region (regionMem (.next32 none)) = some frames ∧
      PoolConserved n (World.boot frames 0xfed00000) ∧
      ¬ Always World.step (PoolConserved n) (World.boot frames 0xfed00000)
        [.newProcess .user true, .mmapPage32 0, .dropProcess 0] := by
  obtain ⟨frames, pool, hnew, h⟩ := exists_boot_region
  refine ⟨frames, _, hnew, ⟨pool, h.threaded, rfl⟩, fun halways => ?_⟩
  have hguard : ∀ frames ∈ PageFrameAllocator.new region (regionMem (.next32 none)),
      ¬ Guarded World.step OwnsNone (World.boot frames 0xfed00000)
        [.newProcess .user true, .mmapPage32 0, .dropProcess 0] := by
    decide +kernel
  exact hguard frames hnew ((h.conserved_iff rfl (by simp [UsesPool])).1 halways)

end World

end Fioxa.Paging
