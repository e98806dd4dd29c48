import Fioxa.Lib.IntrusiveQueue
import Fioxa.Paging.FrameAllocator

/-! # The free lists of the frame allocator

The free lists live in the free pages, so that what they are depends on nobody else writing to a
page that is free. `Lists s f` says that, read through memory, they are the lists `f`. One
specification for each function says which pages it moves: `Adds` for the functions that put pages
into free blocks, `Takes` and `Grants` for those that take them out. All of them write only to pages
that they move or that are free (`Within`). -/

namespace Fioxa.Paging

open Span Intrusive PageContent List Function Nat

variable {C : Type} [PageContent C]

namespace PageFrameAllocator

variable {s t u : PageFrameAllocator C} {f g : Nat → List Nat} {pages : List Nat}
  {base order start count fuel : Nat}

/-! ## The free lists -/

def orders : List Nat := List.range (maxOrder + 1)

def freeBlocks (f : Nat → List Nat) : List (Nat × Nat) := blocks pagesInOrder orders f

def freeFrames (f : Nat → List Nat) : List Nat := covered 0x1000 (freeBlocks f)

/-- Read through memory, the free lists are `f`. -/
def Lists (s : PageFrameAllocator C) (f : Nat → List Nat) : Prop :=
  ∀ o ≤ maxOrder, Threaded (fun p => (node (s.mem p)).nextNode) (s.freeLists o) (f o)

/-- From `s` to `t` only these pages are written, and the pool stays where it is. -/
structure Within (pages : List Nat) (s t : PageFrameAllocator C) : Prop where
  reserved : t.reserved32Bit = s.reserved32Bit
  captured : t.captured0x8000 = s.captured0x8000
  mem : ∀ p, p ∉ pages → t.mem p = s.mem p

omit [PageContent C] in
theorem Within.refl : Within pages s s := ⟨rfl, rfl, fun _ _ => rfl⟩

omit [PageContent C] in
theorem Within.trans {qs rs : List Nat} (h : Within pages s t) (h' : Within qs t u)
    (hps : pages ⊆ rs) (hqs : qs ⊆ rs) : Within rs s u where
  reserved := h'.reserved.trans h.reserved
  captured := h'.captured.trans h.captured
  mem p hp := (h'.mem p fun hmem => hp (hqs hmem)).trans (h.mem p fun hmem => hp (hps hmem))

theorem mem_orders : order ∈ orders ↔ order ≤ maxOrder := by
  rw [orders, mem_range, Nat.lt_succ_iff]

theorem pagesInOrder_pos : 0 < pagesInOrder order := by
  rw [pagesInOrder, one_shiftLeft]
  exact Nat.two_pow_pos order

theorem mem_freeFrames {b : Nat} (ho : order ≤ maxOrder) (hb : b ∈ f order) : b ∈ freeFrames f :=
  base_mem_covered (mem_blocks (mem_orders.2 ho) hb) pagesInOrder_pos

theorem Lists.congr (h : Lists s f) (hheads : t.freeLists = s.freeLists)
    (hmem : ∀ p ∈ freeFrames f, t.mem p = s.mem p) : Lists t f := by
  intro o ho
  rw [hheads]
  apply (h o ho).congr
  intro b hb
  show (node (t.mem b)).nextNode = (node (s.mem b)).nextNode
  rw [hmem b (mem_freeFrames ho hb)]

theorem Lists.freeFrames_eq (h : Lists s f) (h' : Lists s g) : freeFrames f = freeFrames g := by
  have heq : ∀ o ∈ orders, f o = g o := fun o ho =>
    (h o (mem_orders.1 ho)).unique (h' o (mem_orders.1 ho))
  unfold freeFrames freeBlocks blocks
  rw [flatMap_congr fun o ho => by rw [heq o ho]]

/-! ## Inserting a block -/

theorem writeNode_of_ne {mem : Nat → C} {page p : Nat} {change : PageMetadata → PageMetadata}
    (h : p ≠ page) : writeNode mem page change p = mem p :=
  update_of_ne h _ _

theorem node_writeNode_self {mem : Nat → C} {page : Nat} {change : PageMetadata → PageMetadata} :
    node (writeNode mem page change page) = change (node (mem page)) := by
  rw [writeNode, update_self, node_withNode]

theorem last_mem_span : base + (pagesInOrder order - 1) * 0x1000 ∈
    span 0x1000 base (pagesInOrder order) := by
  refine mem_span.2 ⟨pagesInOrder order - 1, ?_, ?_⟩
  · have hpos : 0 < pagesInOrder order := pagesInOrder_pos
    omega
  · rw [Nat.mul_comm]

theorem insertFreeOfOrder_within :
    Within (span 0x1000 base (pagesInOrder order)) s (s.insertFreeOfOrder base order) where
  reserved := rfl
  captured := rfl
  mem p hp := by
    have hbase : p ≠ base := fun heq => hp (heq ▸ base_mem_span pagesInOrder_pos)
    have hlast : p ≠ base + (pagesInOrder order - 1) * 0x1000 := fun heq => hp (heq ▸ last_mem_span)
    simp only [insertFreeOfOrder]
    rw [writeNode_of_ne hbase]
    split
    · rw [writeNode_of_ne hlast, writeNode_of_ne hbase]
    · rw [writeNode_of_ne hbase]

theorem Lists.insertFreeOfOrder (h : Lists s f) (ho : order ≤ maxOrder)
    (hfree : (span 0x1000 base (pagesInOrder order) ++ freeFrames f).Nodup) :
    Lists (s.insertFreeOfOrder base order) (update f order (base :: f order)) := by
  intro o ho'
  -- the pages that are written are not free yet
  have hkeep : ∀ b ∈ f o, (s.insertFreeOfOrder base order).mem b = s.mem b := by
    intro b hb
    apply insertFreeOfOrder_within.mem
    intro hspan
    exact (nodup_append'.1 hfree).2.2 hspan (mem_freeFrames ho' hb)
  by_cases heq : o = order
  · subst heq
    show Threaded _ (update s.freeLists o (some base) o) _
    rw [update_self, update_self]
    apply (h o ho').push (by simp only [insertFreeOfOrder, node_writeNode_self])
    intro b hb
    show (node ((s.insertFreeOfOrder base o).mem b)).nextNode = _
    rw [hkeep b hb]
  · show Threaded _ (update s.freeLists order (some base) o) _
    rw [update_of_ne heq, update_of_ne heq]
    apply (h o ho').congr
    intro b hb
    show (node ((s.insertFreeOfOrder base order).mem b)).nextNode = _
    rw [hkeep b hb]

/-- `t` is `s`, whose free lists are `f`, with these pages added to the free blocks. -/
def Adds (pages : List Nat) (s : PageFrameAllocator C) (f : Nat → List Nat)
    (t : PageFrameAllocator C) : Prop :=
  Within pages s t ∧ ∃ g, Lists t g ∧ (freeFrames g).Perm (pages ++ freeFrames f)

theorem Adds.refl (h : Lists s f) : Adds [] s f s :=
  ⟨Within.refl, f, h, List.Perm.refl _⟩

theorem Adds.trans {qs : List Nat} (h : Adds pages s f t)
    (h' : ∀ g, Lists t g → (freeFrames g).Perm (pages ++ freeFrames f) → Adds qs t g u) :
    Adds (pages ++ qs) s f u := by
  obtain ⟨hwithin, g, hg, hperm⟩ := h
  obtain ⟨hwithin', k, hk, hperm'⟩ := h' g hg hperm
  refine ⟨hwithin.trans hwithin' (subset_append_left ..) (subset_append_right ..), k, hk, ?_⟩
  calc (freeFrames k).Perm (qs ++ freeFrames g) := hperm'
    _ |>.Perm (qs ++ (pages ++ freeFrames f)) := hperm.append_left qs
    _ |>.Perm (pages ++ (qs ++ freeFrames f)) := perm_append_comm_assoc ..
    _ |>.Perm (pages ++ qs ++ freeFrames f) := by rw [append_assoc]

theorem insertFreeOfOrder_adds (h : Lists s f) (ho : order ≤ maxOrder)
    (hfree : (span 0x1000 base (pagesInOrder order) ++ freeFrames f).Nodup) :
    Adds (span 0x1000 base (pagesInOrder order)) s f (s.insertFreeOfOrder base order) :=
  ⟨insertFreeOfOrder_within, _, h.insertFreeOfOrder ho hfree,
    covered_push nodup_range (mem_orders.2 ho)⟩

theorem pagesInOrder_min_le {pages a b : Nat} (h : pages ≠ 0) :
    pagesInOrder (min (min (Nat.log 2 pages) a) b) ≤ pages := by
  have hle : min (min (Nat.log 2 pages) a) b ≤ Nat.log 2 pages := by omega
  calc pagesInOrder (min (min (Nat.log 2 pages) a) b)
      = 2 ^ min (min (Nat.log 2 pages) a) b := by rw [pagesInOrder, one_shiftLeft]
    _ ≤ 2 ^ Nat.log 2 pages := Nat.pow_le_pow_right (by decide) hle
    _ ≤ pages := pow_log_le_self 2 h

theorem insertLoop_adds (h : Lists s f) (hfree : (span 0x1000 start count ++ freeFrames f).Nodup)
    (hloop : insertLoop fuel s start count = some t) : Adds (span 0x1000 start count) s f t := by
  induction fuel generalizing s f start count with
  | zero =>
    simp only [insertLoop] at hloop
    split at hloop
    · rename_i hzero
      cases hloop
      rw [hzero]
      exact Adds.refl h
    · cases hloop
  | succ fuel ih =>
    simp only [insertLoop] at hloop
    split at hloop
    · rename_i hzero
      cases hloop
      rw [hzero]
      exact Adds.refl h
    · rename_i hpages
      split at hloop
      · cases hloop
      · revert hloop
        generalize horder : min (min (Nat.log 2 count) _) maxOrder = order
        intro hloop
        have ho : order ≤ maxOrder := by omega
        have hfits : pagesInOrder order ≤ count := horder ▸ pagesInOrder_min_le hpages
        -- the first block is cut off the range
        rw [span_of_le hfits, append_assoc] at hfree
        rw [span_of_le hfits]
        have hblock : (span 0x1000 start (pagesInOrder order) ++ freeFrames f).Nodup :=
          hfree.sublist ((sublist_append_right ..).append_left _)
        apply (insertFreeOfOrder_adds h ho hblock).trans
        intro g hg hperm
        rw [Nat.mul_comm 0x1000]
        apply ih hg ?_ hloop
        rw [Nat.mul_comm, (hperm.append_left _).nodup_iff]
        exact (perm_append_comm_assoc ..).nodup_iff.1 hfree

theorem insertFreeOfRange_adds (h : Lists s f)
    (hfree : (span 0x1000 start count ++ freeFrames f).Nodup)
    (hrange : s.insertFreeOfRange start count = some t) : Adds (span 0x1000 start count) s f t :=
  insertLoop_adds h hfree hrange

/-! ## Taking a block -/

/-- `t` is `s`, whose free lists are `f`, with these pages taken out of the free blocks. -/
def Takes (pages : List Nat) (s : PageFrameAllocator C) (f : Nat → List Nat)
    (t : PageFrameAllocator C) : Prop :=
  Within (freeFrames f) s t ∧ ∃ g, Lists t g ∧ (freeFrames f).Perm (pages ++ freeFrames g)

theorem popFree_takes (h : Lists s f) (ho : order ≤ maxOrder)
    (hhead : s.freeLists order = some base) :
    Takes (span 0x1000 base (pagesInOrder order)) s f (s.popFree order base) := by
  have hlist := h order ho
  rw [hhead] at hlist
  obtain ⟨l, hl, htail⟩ := hlist.pop
  -- only a `prev_node` is written, and it belongs to a free block
  have hlinks : ∀ p, (node ((s.popFree order base).mem p)).nextNode
      = (node (s.mem p)).nextNode := by
    intro p
    cases hnext : (node (s.mem base)).nextNode with
    | none => simp only [popFree, hnext]
    | some nxt =>
      simp only [popFree, hnext]
      by_cases hp : p = nxt
      · subst hp
        rw [node_writeNode_self]
      · rw [writeNode_of_ne hp]
  have hmem : ∀ p, p ∉ freeFrames f → (s.popFree order base).mem p = s.mem p := by
    intro p hp
    cases hnext : (node (s.mem base)).nextNode with
    | none => simp only [popFree, hnext]
    | some =>
      simp only [popFree, hnext]
      apply writeNode_of_ne
      rintro rfl
      have hmem : p ∈ l := List.mem_of_mem_head? (htail.head_eq.symm.trans hnext)
      exact hp (mem_freeFrames ho (hl ▸ .tail base hmem))
  refine ⟨⟨rfl, rfl, hmem⟩, update f order l, ?_, ?_⟩
  · intro o ho'
    by_cases heq : o = order
    · subst heq
      show Threaded _ (update s.freeLists o (node (s.mem base)).nextNode o) _
      rw [update_self, update_self]
      exact htail.congr fun b _ => hlinks b
    · show Threaded _ (update s.freeLists order (node (s.mem base)).nextNode o) _
      rw [update_of_ne heq, update_of_ne heq]
      exact (h o ho').congr fun b _ => hlinks b
  · have hpush : update (update f order l) order (base :: update f order l order) = f := by
      rw [update_self, update_idem, ← hl, update_eq_self]
    calc freeFrames f
        = freeFrames (update (update f order l) order
            (base :: update f order l order)) := by rw [hpush]
      _ |>.Perm _ := covered_push nodup_range (mem_orders.2 ho)

theorem Takes.putBack {k n : Nat} (hf : (freeFrames f).Nodup)
    (h : Takes (span 0x1000 base (k + n)) s f t)
    (hback : t.insertFreeOfRange (base + k * 0x1000) n = some u) :
    Takes (span 0x1000 base k) s f u := by
  obtain ⟨hwithin, g, hg, hperm⟩ := h
  rw [span_add, append_assoc] at hperm
  have hnodup := hperm.nodup_iff.1 hf
  rw [Nat.mul_comm] at hback
  obtain ⟨hwithin', k', hk, hperm'⟩ :=
    insertFreeOfRange_adds hg (hnodup.sublist (sublist_append_right ..)) hback
  refine ⟨hwithin.trans hwithin' (Subset.refl _) ?_, k', hk, ?_⟩
  · intro p hp
    refine hperm.mem_iff.2 (mem_append_right _ (mem_append_left _ hp))
  · exact hperm.trans (hperm'.symm.append_left _)

/-- The outcome of an allocation of `count` pages. -/
def Grants (count : Nat) (s : PageFrameAllocator C) (f : Nat → List Nat)
    (r : Option Nat × PageFrameAllocator C) : Prop :=
  r = (none, s) ∨ ∃ b, r.1 = some b ∧ Takes (span 0x1000 b count) s f r.2

theorem Grants.eq_self (h : Grants count s f (none, t)) : t = s := by
  obtain heq | ⟨b, hb, -⟩ := h
  · exact congrArg Prod.snd heq
  · cases hb

theorem Grants.takes (h : Grants count s f (some base, t)) :
    Takes (span 0x1000 base count) s f t := by
  obtain heq | ⟨b, hb, htakes⟩ := h
  · cases heq
  · cases hb
    exact htakes

theorem Takes.grants (h : Takes (span 0x1000 base count) s f t) : Grants count s f (some base, t) :=
  .inr ⟨base, rfl, h⟩

variable {r : Option Nat × PageFrameAllocator C}

theorem requestLoop_grants (h : Lists s f) (hf : (freeFrames f).Nodup)
    (hfuel : order + fuel = maxOrder + 1) (hloop : requestLoop fuel s order = some r) :
    Grants (pagesInOrder order) s f r := by
  induction fuel generalizing order r with
  | zero =>
    cases hloop
    exact .inl rfl
  | succ fuel ih =>
    have ho : order ≤ maxOrder := by omega
    simp only [requestLoop] at hloop
    split at hloop
    · rename_i block hhead
      cases hloop
      exact (popFree_takes h ho hhead).grants
    · split at hloop
      · cases hloop
      · rename_i hlarge
        cases hloop
        rw [(ih (by omega) hlarge).eq_self]
        exact .inl rfl
      · rename_i b s' hlarge
        obtain ⟨u, hback, heq⟩ := Option.map_eq_some_iff.1 hloop
        cases heq
        have htakes := (ih (by omega) hlarge).takes
        have hsplit : pagesInOrder (order + 1)
            = pagesInOrder order + (pagesInOrder (order + 1) - pagesInOrder order) := by
          simp only [pagesInOrder, one_shiftLeft, Nat.pow_succ]
          omega
        rw [hsplit] at htakes
        exact (htakes.putBack hf hback).grants

theorem requestPageOfOrder_grants (h : Lists s f) (hf : (freeFrames f).Nodup)
    (hreq : s.requestPageOfOrder order = some r) :
    Grants (pagesInOrder order) s f r := by
  by_cases ho : order ≤ maxOrder + 1
  · exact requestLoop_grants h hf (by omega) hreq
  · rw [requestPageOfOrder, Nat.sub_eq_zero_of_le (by omega)] at hreq
    cases hreq
    exact .inl rfl

/-! ## Allocating and freeing pages -/

theorem Takes.handOut (hf : (freeFrames f).Nodup) (h : Takes (span 0x1000 base count) s f t)
    (hout : t.handOut base count = some r) :
    Grants count s f r := by
  obtain ⟨hwithin, g, hg, hperm⟩ := h
  simp only [PageFrameAllocator.handOut] at hout
  split at hout
  · cases hout
    have hzero : ∀ p, p ∉ span 0x1000 base count → zeroPages t.mem (span 0x1000 base count) p
        = t.mem p := by
      intro p hp
      exact if_neg hp
    have hclear : Within (span 0x1000 base count) t
        { t with mem := zeroPages t.mem (span 0x1000 base count) } := ⟨rfl, rfl, hzero⟩
    apply Takes.grants
    refine ⟨hwithin.trans hclear (Subset.refl _) ?_, g, hg.congr rfl ?_, hperm⟩
    · intro p hp
      exact hperm.mem_iff.2 (mem_append_left _ hp)
    · intro p hp
      apply hzero
      intro hspan
      exact (nodup_append'.1 (hperm.nodup_iff.1 hf)).2.2 hspan hp
  · cases hout

theorem allocatePage_grants (h : Lists s f) (hf : (freeFrames f).Nodup)
    (halloc : s.allocatePage = some r) : Grants 1 s f r := by
  simp only [allocatePage] at halloc
  split at halloc
  · cases halloc
  · rename_i hreq
    cases halloc
    rw [(requestPageOfOrder_grants h hf hreq).eq_self]
    exact .inl rfl
  · rename_i hreq
    exact (requestPageOfOrder_grants h hf hreq).takes.handOut hf halloc

theorem allocatePages_grants (h : Lists s f) (hf : (freeFrames f).Nodup)
    (halloc : s.allocatePages count = some r) :
    Grants count s f r := by
  simp only [allocatePages] at halloc
  split at halloc
  · cases halloc
  split at halloc
  · -- the count is a block size
    rename_i hsize
    split at halloc
    · cases halloc
    · rename_i hreq
      cases halloc
      rw [(requestPageOfOrder_grants h hf hreq).eq_self]
      exact .inl rfl
    · rename_i hreq
      have htakes := (requestPageOfOrder_grants h hf hreq).takes
      rw [hsize] at htakes
      exact htakes.handOut hf halloc
  · split at halloc
    · cases halloc
    · rename_i hreq
      cases halloc
      rw [(requestPageOfOrder_grants h hf hreq).eq_self]
      exact .inl rfl
    · rename_i hreq
      have htakes := (requestPageOfOrder_grants h hf hreq).takes
      split at halloc
      · cases halloc
      · rename_i hback
        have hle : count ≤ pagesInOrder (Nat.log 2 count + 1) := by
          rw [pagesInOrder, one_shiftLeft]
          exact (lt_pow_succ_log_self (by decide) count).le
        rw [← Nat.add_sub_cancel' hle] at htakes
        exact (htakes.putBack hf hback).handOut hf halloc

theorem freePages_adds (h : Lists s f) (hfree : (span 0x1000 base count ++ freeFrames f).Nodup)
    (hpages : s.freePages base count = some t) : Adds (span 0x1000 base count) s f t := by
  induction count generalizing t with
  | zero =>
    cases hpages
    exact Adds.refl h
  | succ count ih =>
    simp only [freePages] at hpages
    split at hpages
    · cases hpages
    · rename_i u hu
      split at hpages
      · cases hpages
        rw [span_add, append_assoc] at hfree
        rw [span_add]
        have hfirst : (span 0x1000 base count ++ freeFrames f).Nodup :=
          hfree.sublist ((sublist_append_right ..).append_left _)
        apply (ih hfirst hu).trans
        intro g hg hperm
        rw [Nat.mul_comm 0x1000]
        apply insertFreeOfOrder_adds hg (Nat.zero_le _)
        rw [Nat.mul_comm, (hperm.append_left _).nodup_iff]
        exact (perm_append_comm_assoc ..).nodup_iff.1 hfree
      · cases hpages

end PageFrameAllocator

end Fioxa.Paging

namespace Intrusive.Threaded

open Fioxa.Paging PageContent

variable {C : Type} [PageContent C] {s : PageFrameAllocator C} {pool : List Nat} {page : Nat}

/-- A page goes to the pool. The first one has to end the list as it is. -/
theorem free32BitReservedPage
    (h : Threaded (fun p => next32 (s.mem p)) s.reserved32Bit pool) (hpage : page ∉ pool)
    (hfirst : s.reserved32Bit = none → next32 (s.mem page) = none) :
    Threaded (fun p => next32 ((s.free32BitReservedPage page).mem p))
      (s.free32BitReservedPage page).reserved32Bit (page :: pool) := by
  unfold PageFrameAllocator.free32BitReservedPage
  split
  · rename_i q hq
    rw [hq] at h
    refine h.push ?_ ?_
    · show next32 (Function.update s.mem page _ page) = some q
      rw [Function.update_self, next32_withNext32]
    · intro p hp
      have hne : p ≠ page := fun heq => hpage (heq ▸ hp)
      show next32 (Function.update s.mem page _ p) = next32 (s.mem p)
      rw [Function.update_of_ne hne]
  · rename_i hnone
    rw [hnone] at h
    exact h.push (hfirst hnone) fun p hp => rfl

end Intrusive.Threaded
