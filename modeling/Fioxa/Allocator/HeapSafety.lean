import Fioxa.Allocator.HeapTable
import Fioxa.Lib.IntrusiveQueue

/-! # The kernel heap is safe

The blocks that the heap holds are those of its live allocations and those in its free lists. They
are apart from each other and below `base_address`, the free lists are linked through the free
blocks, and exactly the pages of the blocks are mapped. `alloc` and `dealloc` move a block from one
side to the other, or take new pages and give them back. -/

namespace Fioxa.Allocator

open Paging Paging.TableFrames Radix Radix.Tree Span Intrusive List Option Function Heap TableSystem

variable {bs cs : List (Nat × Nat)} {base base' a b n root i : Nat} {w w' : TableFrames}
  {c : Fin 512 → PageTree 2}

/-! ## Blocks below `base_address` -/

structure Placed (bs : List (Nat × Nat)) (base : Nat) : Prop where
  apart : bs.Pairwise Apart
  low : ∀ x ∈ bs, kernelHeap ≤ x.1
  below : ∀ x ∈ bs, x.1 + x.2 ≤ base

namespace Placed

theorem perm (h : Placed bs base) (hperm : cs.Perm bs) : Placed cs base where
  apart := (hperm.pairwise_iff Apart.symm).2 h.apart
  low x hx := h.low x (hperm.mem_iff.1 hx)
  below x hx := h.below x (hperm.mem_iff.1 hx)

theorem append (h : Placed bs base) (hbase : kernelHeap ≤ base) (hapart : cs.Pairwise Apart)
    (hnew : ∀ x ∈ cs, base ≤ x.1 ∧ x.1 + x.2 ≤ base') (hle : base ≤ base') :
    Placed (cs ++ bs) base' where
  apart := pairwise_append.2 ⟨hapart, h.apart, fun x hx y hy =>
    .inr (Nat.le_trans (h.below y hy) (hnew x hx).1)⟩
  low x hx := by
    rcases mem_append.1 hx with hx | hx
    · exact Nat.le_trans hbase (hnew x hx).1
    · exact h.low x hx
  below x hx := by
    rcases mem_append.1 hx with hx | hx
    · exact (hnew x hx).2
    · exact Nat.le_trans (h.below x hx) hle

theorem tail {x : Nat × Nat} (h : Placed (x :: bs) base) : Placed bs base where
  apart := (pairwise_cons.1 h.apart).2
  low y hy := h.low y (.tail _ hy)
  below y hy := h.below y (.tail _ hy)

end Placed

/-! ## Pages of the blocks -/

/-- Exactly the pages of the blocks are mapped, and no two of them are at the same place of their
    slots. -/
structure Backed (w : TableFrames) (root : Nat) (c : Fin 512 → PageTree 2)
    (bs : List (Nat × Nat)) : Prop where
  holds : Holds w root c
  mapped : ∀ a, (mappingAt root c a).isSome ↔ ∃ b, Inside bs b ∧ slotPage b = slotPage a
  slots : ∀ a b, Inside bs a → Inside bs b → slotPage a = slotPage b → a / 0x1000 = b / 0x1000

theorem slotPage_eq (hbase : base % 0x1000 = 0) (hle : base ≤ b) :
    slotPage b = slotPage (base + 0x1000 * ((b - base) / 0x1000)) := by
  unfold slotPage
  congr 1
  omega

theorem exists_slotPage_iff (hbase : base % 0x1000 = 0) :
    (∃ b, (base ≤ b ∧ b < base + 0x1000 * n) ∧ slotPage b = slotPage a) ↔
      ∃ j < n, slotPage a = slotPage (base + 0x1000 * j) := by
  constructor
  · rintro ⟨b, ⟨hle, hlt⟩, heq⟩
    exact ⟨(b - base) / 0x1000, by omega, heq.symm.trans (slotPage_eq hbase hle)⟩
  · rintro ⟨j, hj, heq⟩
    exact ⟨base + 0x1000 * j, ⟨by omega, by omega⟩, heq.symm⟩

namespace Backed

theorem perm (h : Backed w root c bs) (hperm : cs.Perm bs) : Backed w root c cs where
  holds := h.holds
  mapped a := by
    simp only [h.mapped, inside_perm hperm]
  slots a b ha hb := h.slots a b ((inside_perm hperm).1 ha) ((inside_perm hperm).1 hb)

theorem mapPages (h : Backed w root c bs) (hbase : base % 0x1000 = 0)
    (hok : Heap.mapPages root n w base = some w')
    (hcs : ∀ b, Inside cs b ↔ base ≤ b ∧ b < base + 0x1000 * n) :
    ∃ c', Backed w' root c' (cs ++ bs) := by
  obtain ⟨c', hholds, hmap, hfree, hne⟩ := h.holds.mapPages_eq_some hok
  -- a new page has the place of no old one
  have hnew : ∀ a b, Inside cs a → Inside bs b → slotPage a ≠ slotPage b := by
    intro a b ha hb heq
    obtain ⟨j, hj, hpage⟩ := (exists_slotPage_iff hbase).1 ⟨a, (hcs a).1 ha, heq⟩
    have hmapped := (h.mapped (base + 0x1000 * j)).2 ⟨b, hb, hpage⟩
    rw [hfree j hj] at hmapped
    cases hmapped
  refine ⟨c', hholds, fun a => ?_, ?_⟩
  · rw [hmap, h.mapped, ← exists_slotPage_iff hbase, or_comm, ← exists_or]
    refine exists_congr fun b => ?_
    rw [inside_append, hcs, or_and_right]
  · intro a b ha hb heq
    rcases inside_append.1 ha with ha | ha <;> rcases inside_append.1 hb with hb | hb
    · obtain ⟨hle, hlt⟩ := (hcs a).1 ha
      obtain ⟨hle', hlt'⟩ := (hcs b).1 hb
      rw [slotPage_eq hbase hle, slotPage_eq hbase hle'] at heq
      rcases Nat.lt_trichotomy ((a - base) / 0x1000) ((b - base) / 0x1000) with hlt | hsame | hlt
      · exact absurd heq (hne _ _ hlt (by omega))
      · omega
      · exact absurd heq.symm (hne _ _ hlt (by omega))
    · exact absurd heq (hnew a b ha hb)
    · exact absurd heq.symm (hnew b a hb ha)
    · exact h.slots a b ha hb heq

theorem unmapPages (h : Backed w root c ((base, 0x1000 * n) :: bs))
    (hplaced : Placed ((base, 0x1000 * n) :: bs) base') (hbase : base % 0x1000 = 0)
    (hlt : base' ≤ 0x10000000000000000) :
    ∃ w' c', Heap.unmapPages root n w base = some w' ∧ Backed w' root c' bs := by
  have hlow : kernelHeap ≤ base := hplaced.low _ (.head _)
  have hbelow : base + 0x1000 * n ≤ base' := hplaced.below _ (.head _)
  have happart := (pairwise_cons.1 hplaced.apart).1
  have hinside : ∀ j < n, Inside ((base, 0x1000 * n) :: bs) (base + 0x1000 * j) :=
    fun j hj => inside_cons.2 (.inl ⟨by dsimp only; omega, by dsimp only; omega⟩)
  have hpages : ∀ j < n, pageOk (base + 0x1000 * j) = true := by
    intro j hj
    rw [pageOk_iff]
    unfold kernelHeap at hlow
    omega
  obtain ⟨w', c', hunmap, hholds, hmap⟩ := h.holds.unmapPages_eq_some hpages
    (fun j hj => (h.mapped _).2 ⟨_, hinside j hj, rfl⟩)
    (fun i j hij hj heq => by
      have hsame := h.slots _ _ (hinside i (by omega)) (hinside j hj) heq
      omega)
  refine ⟨w', c', hunmap, hholds, fun a => ?_, ?_⟩
  · rw [hmap, h.mapped]
    constructor
    · rintro ⟨⟨b, hb, heq⟩, hne⟩
      rcases inside_cons.1 hb with hb | hb
      · obtain ⟨j, hj, hpage⟩ := (exists_slotPage_iff hbase).1 ⟨b, hb, heq⟩
        exact absurd hpage (hne j hj)
      · exact ⟨b, hb, heq⟩
    · rintro ⟨b, hb, heq⟩
      refine ⟨⟨b, inside_cons.2 (.inr hb), heq⟩, fun j hj hpage => ?_⟩
      -- the address would be in the block that is freed
      have hsame := h.slots _ _ (inside_cons.2 (.inr hb)) (hinside j hj) (heq.trans hpage)
      exact not_inside happart ⟨by dsimp only; omega, by dsimp only; omega⟩ hb
  · intro a b ha hb
    exact h.slots a b (inside_cons.2 (.inr ha)) (inside_cons.2 (.inr hb))

end Backed

/-! ## Free lists -/

/-- Read through memory, the free lists are `f`. -/
def Lists (h : Heap) (f : Nat → List Nat) : Prop :=
  ∀ i < slabSizes.length, Threaded h.next (h.allocator.slabHeads i) (f i)

def freeBlocks (f : Nat → List Nat) : List (Nat × Nat) :=
  blocks slabSize (List.range slabSizes.length) f

/-- The blocks of the live allocations and of the free lists. -/
def held (live : List (Nat × Layout)) (f : Nat → List Nat) : List (Nat × Nat) :=
  live.map (fun x => (x.1, x.2.blockLength)) ++ freeBlocks f

variable {next : Nat → Option Nat} {head : Option Nat}

theorem threaded_update {heads : Nat → Option Nat} {f : Nat → List Nat} {l : List Nat}
    (h : Threaded next head l) (hothers : ∀ j < n, j ≠ i → Threaded next (heads j) (f j)) :
    ∀ j < n, Threaded next (update heads i head j) (update f i l j) := by
  intro j hj
  by_cases hji : j = i
  · subst hji
    rwa [update_self, update_self]
  · rw [update_of_ne hji, update_of_ne hji]
    exact hothers j hj hji

theorem threaded_carve {l new : List Nat} (h : Threaded next head l) (hnodup : new.Nodup)
    (hnew : ∀ b ∈ new, b ∉ l) :
    Threaded (carve next head new).1 (carve next head new).2 (new.reverse ++ l) := by
  induction new generalizing next head l with
  | nil => exact h
  | cons b new ih =>
    obtain ⟨hb, hnodup⟩ := nodup_cons.1 hnodup
    rw [reverse_cons, append_assoc]
    refine ih (h.push (update_self ..) fun y hy => ?_) hnodup fun y hy hmem => ?_
    · apply update_of_ne
      rintro rfl
      exact hnew y (.head _) hy
    · rcases mem_cons.1 hmem with rfl | hmem
      · exact hb hy
      · exact hnew y (.tail _ hy) hmem

theorem carve_of_not_mem {new : List Nat} (h : a ∉ new) : (carve next head new).1 a = next a := by
  induction new generalizing next head with
  | nil => rfl
  | cons b new ih =>
    rw [mem_cons, not_or] at h
    exact (ih h.2).trans (update_of_ne h.1 _ _)

theorem blockSize_eq_some {minSize : Nat} (h : blockSize minSize = some i) :
    i < slabSizes.length ∧ minSize ≤ slabSize i := by
  obtain ⟨hlt, hle, -⟩ := findIdx?_eq_some_iff_getElem.1 h
  have hget : slabSize i = slabSizes[i] := by
    simp [slabSize, getD_eq_getElem?_getD, hlt]
  exact ⟨hlt, hget ▸ of_decide_eq_true hle⟩

theorem slabSize_dvd (hi : i < slabSizes.length) :
    8 ≤ slabSize i ∧ slabSize i * (0x1000 / slabSize i) = 0x1000 := by
  have hall : ∀ i < 9, 8 ≤ slabSize i ∧ slabSize i * (0x1000 / slabSize i) = 0x1000 := by decide
  exact hall i hi

theorem roundUp_pages : 0x1000 * (roundUp n / 0x1000) = roundUp n := by
  unfold roundUp
  omega

theorem size_le_blockLength (layout : Layout) : layout.size ≤ layout.blockLength := by
  have hsize : layout.size ≤ layout.minSize := Nat.le_max_left _ _
  unfold Layout.blockLength
  split
  · rename_i i hi
    exact hsize.trans (blockSize_eq_some hi).2
  · unfold roundUp pageCount
    omega

theorem refill_eq_some {h h' : Heap} {nxt : Nat} (hok : h.refill i = some (nxt, h')) :
    ∃ frames, h.allocator.baseAddress + 0x1000 < 0x10000000000000000 ∧
      mapPage h.frames h.root h.allocator.baseAddress = some frames ∧
      (carve h.next none (span (slabSize i) h.allocator.baseAddress
        (0x1000 / slabSize i))).2 = some nxt ∧
      h' = { h with
        allocator :=
          { slabHeads := update h.allocator.slabHeads i
              ((carve h.next none (span (slabSize i) h.allocator.baseAddress
                (0x1000 / slabSize i))).1 nxt)
            baseAddress := h.allocator.baseAddress + 0x1000 }
        next := update (carve h.next none (span (slabSize i) h.allocator.baseAddress
          (0x1000 / slabSize i))).1 nxt none
        frames := frames } := by
  simp only [Heap.refill] at hok
  split at hok
  · rename_i hlt
    obtain ⟨frames, hframes, hok⟩ := bind_eq_some_iff.1 hok
    split at hok
    · obtain ⟨node, hnode, hok⟩ := bind_eq_some_iff.1 hok
      cases hok
      exact ⟨frames, hlt, hframes, hnode, rfl⟩
    · cases hok
  · cases hok

/-! ## The invariant -/

structure Inv (h : Heap) (live : List (Nat × Layout)) (f : Nat → List Nat)
    (c : Fin 512 → PageTree 2) : Prop where
  lists : Lists h f
  placed : Placed (held live f) h.allocator.baseAddress
  backed : Backed h.frames h.root c (held live f)
  base_low : kernelHeap ≤ h.allocator.baseAddress
  base_lt : h.allocator.baseAddress < 0x10000000000000000
  base_page : h.allocator.baseAddress % 0x1000 = 0
  /-- Large allocations start at a page. -/
  live_page : ∀ x ∈ live, blockSize x.2.minSize = none → x.1 % 0x1000 = 0

namespace Inv

variable {h h' : Heap} {live : List (Nat × Layout)} {f : Nat → List Nat} {layout : Layout}
  {pointer : Nat}

theorem mem_held_of_free (hi : i < slabSizes.length) (hb : b ∈ f i) :
    (b, slabSize i) ∈ held live f :=
  mem_append_right _ (mem_blocks (mem_range.2 hi) hb)

theorem ne_of_mem_free (h : Placed (held ((pointer, layout) :: live) f) base)
    (hsize : 0 < layout.blockLength) (hi : i < slabSizes.length) (hmem : b ∈ f i) :
    b ≠ pointer := by
  rintro rfl
  have hapart : Apart (b, layout.blockLength) (b, slabSize i) :=
    (pairwise_cons.1 h.apart).1 _ (mem_held_of_free hi hmem)
  have hpos := (slabSize_dvd hi).1
  rcases hapart with h | h <;> dsimp only at h <;> omega

theorem blockLength_of_some (hi : blockSize layout.minSize = some i) :
    layout.blockLength = slabSize i := by
  rw [Layout.blockLength, hi]

theorem blockLength_of_none (hnone : blockSize layout.minSize = none) :
    layout.blockLength = roundUp layout.minSize := by
  rw [Layout.blockLength, hnone]

theorem blockLength_pos (hi : blockSize layout.minSize = some i) : 0 < layout.blockLength := by
  rw [blockLength_of_some hi]
  have hslab := (slabSize_dvd (blockSize_eq_some hi).1).1
  omega

theorem held_push (hi : blockSize layout.minSize = some i) :
    (held live (update f i (pointer :: f i))).Perm (held ((pointer, layout) :: live) f) := by
  have hpush : (freeBlocks (update f i (pointer :: f i))).Perm
      ((pointer, slabSize i) :: freeBlocks f) :=
    blocks_push nodup_range (mem_range.2 (blockSize_eq_some hi).1)
  unfold held
  rw [map_cons, blockLength_of_some hi]
  exact (hpush.append_left _).trans perm_middle

theorem pop {node : Nat} (hinv : Inv h live f c) (hi : blockSize layout.minSize = some i)
    (hhead : h.allocator.slabHeads i = some node) :
    ∃ f', Inv
      { h with
        allocator :=
          { h.allocator with
            slabHeads := update h.allocator.slabHeads i (h.next node) }
        next := update h.next node none } ((node, layout) :: live) f' c := by
  obtain ⟨hlt, hle⟩ := blockSize_eq_some hi
  have hlist := hinv.lists i hlt
  rw [hhead] at hlist
  obtain ⟨l, hl, htail⟩ := hlist.pop
  have hf : f = update (update f i l) i (node :: update f i l i) := by
    rw [update_self, update_idem, ← hl, update_eq_self]
  have hperm : (held ((node, layout) :: live) (update f i l)).Perm (held live f) := by
    conv_rhs => rw [hf]
    exact (held_push hi).symm
  have hplaced := hinv.placed.perm hperm
  have hpos := blockLength_pos hi
  refine ⟨update f i l, ?_, hplaced, hinv.backed.perm hperm, hinv.base_low, hinv.base_lt,
    hinv.base_page, ?_⟩
  · have hnext : ∀ j < slabSizes.length, ∀ x ∈ update f i l j,
        update h.next node none x = h.next x :=
      fun j hj x hx => update_of_ne (ne_of_mem_free hplaced hpos hj hx) _ _
    refine threaded_update (htail.congr fun x hx => hnext i hlt x ?_) fun j hj hji =>
      (hinv.lists j hj).congr fun x hx => hnext j hj x ?_
    · rwa [update_self]
    · rwa [update_of_ne hji]
  · intro x hx hnone
    rcases mem_cons.1 hx with rfl | hx
    · rw [hi] at hnone
      cases hnone
    · exact hinv.live_page x hx hnone

theorem push (hinv : Inv h ((pointer, layout) :: live) f c)
    (hi : blockSize layout.minSize = some i) :
    Inv
      { h with
        allocator :=
          { h.allocator with
            slabHeads := update h.allocator.slabHeads i (some pointer) }
        next := update h.next pointer (h.allocator.slabHeads i) }
      live (update f i (pointer :: f i)) c := by
  obtain ⟨hlt, hle⟩ := blockSize_eq_some hi
  have hpos := blockLength_pos hi
  have hperm : (held live (update f i (pointer :: f i))).Perm
      (held ((pointer, layout) :: live) f) := held_push hi
  refine ⟨?_, hinv.placed.perm hperm, hinv.backed.perm hperm, hinv.base_low, hinv.base_lt,
    hinv.base_page, fun x hx => hinv.live_page x (.tail _ hx)⟩
  have hnext : ∀ j < slabSizes.length, ∀ x ∈ f j,
      update h.next pointer (h.allocator.slabHeads i) x = h.next x :=
    fun j hj x hx => update_of_ne (ne_of_mem_free hinv.placed hpos hj hx) _ _
  exact threaded_update ((hinv.lists i hlt).push (update_self ..) (hnext i hlt))
    fun j hj _ => (hinv.lists j hj).congr (hnext j hj)

theorem refill (hinv : Inv h live f c) (hi : blockSize layout.minSize = some i)
    (hhead : h.allocator.slabHeads i = none) (hok : h.refill i = some (pointer, h')) :
    ∃ f' c', Inv h' ((pointer, layout) :: live) f' c' := by
  obtain ⟨frames, hlt, hframes, hnode, rfl⟩ := refill_eq_some hok
  obtain ⟨hi9, -⟩ := blockSize_eq_some hi
  obtain ⟨height, hmul⟩ := slabSize_dvd hi9
  have hpos : 0 < slabSize i := by omega
  have hempty : f i = [] := by
    have hlist := hinv.lists i hi9
    rw [hhead] at hlist
    exact hlist.eq_nil
  generalize hnew : span (slabSize i) h.allocator.baseAddress (0x1000 / slabSize i) = new at *
  have hnodup : new.Nodup := hnew ▸ nodup_span hpos
  have hthreaded : Threaded (carve h.next none new).1 (carve h.next none new).2
      (new.reverse ++ []) := threaded_carve .nil hnodup (by simp)
  rw [hnode, append_nil] at hthreaded
  obtain ⟨l, hl, htail⟩ := hthreaded.pop
  have hinside : ∀ b, Inside (new.map fun b => (b, slabSize i)) b ↔
      h.allocator.baseAddress ≤ b ∧ b < h.allocator.baseAddress + 0x1000 * 1 := by
    intro b
    rw [← hnew, inside_span hpos, hmul]
  -- the blocks that are held now are those of the new page and the old ones
  have hperm : (held ((pointer, layout) :: live) (update f i l)).Perm
      ((new.map fun b => (b, slabSize i)) ++ held live f) := by
    have happend : (freeBlocks (update f i (l ++ f i))).Perm
        ((l.map fun b => (b, slabSize i)) ++ freeBlocks f) :=
      blocks_append nodup_range (mem_range.2 hi9)
    rw [hempty, append_nil] at happend
    have hrev : (new.map fun b => (b, slabSize i)).Perm
        ((pointer, slabSize i) :: l.map fun b => (b, slabSize i)) := by
      have hreverse := (new.reverse_perm.map fun b => (b, slabSize i)).symm
      rwa [hl] at hreverse
    unfold held
    rw [map_cons, blockLength_of_some hi]
    refine Perm.trans ?_ (hrev.symm.append_right _)
    exact ((happend.append_left _).trans (perm_append_comm_assoc _ _ _)).cons _
  have hbounds : ∀ x ∈ new.map fun b => (b, slabSize i), h.allocator.baseAddress ≤ x.1 ∧
      x.1 + x.2 ≤ h.allocator.baseAddress + 0x1000 := by
    intro x hx
    obtain ⟨b, -, rfl⟩ := List.mem_map.1 hx
    have hfirst := (hinside b).1 ⟨_, hx, by dsimp only; omega, by dsimp only; omega⟩
    have hlast := (hinside (b + slabSize i - 1)).1
      ⟨_, hx, by dsimp only; omega, by dsimp only; omega⟩
    omega
  have hplaced : Placed (held ((pointer, layout) :: live) (update f i l))
      (h.allocator.baseAddress + 0x1000) :=
    (hinv.placed.append hinv.base_low (hnew ▸ pairwise_span) hbounds (by omega)).perm hperm
  obtain ⟨c', hbacked⟩ := hinv.backed.mapPages hinv.base_page
    (show Heap.mapPages h.root 1 h.frames _ = some frames by rw [Heap.mapPages, hframes]; rfl)
    hinside
  refine ⟨update f i l, c', ?_, hplaced, hbacked.perm hperm, ?_, hlt, ?_, ?_⟩
  · have hnext : ∀ j < slabSizes.length, ∀ x ∈ update f i l j,
        update (carve h.next none new).1 pointer none x = (carve h.next none new).1 x :=
      fun j hj x hx => update_of_ne (ne_of_mem_free hplaced (blockLength_pos hi) hj hx) _ _
    refine threaded_update (htail.congr fun x hx => hnext i hi9 x ?_) fun j hj hji =>
      (hinv.lists j hj).congr fun x hx => (hnext j hj x ?_).trans (carve_of_not_mem fun hmem => ?_)
    · rwa [update_self]
    · rwa [update_of_ne hji]
    · -- the old blocks are below the new page
      have hbelow := hinv.placed.below _ (mem_held_of_free hj hx)
      have habove := (hbounds _ (List.mem_map.2 ⟨x, hmem, rfl⟩)).1
      have hsize := (slabSize_dvd hj).1
      omega
  · show kernelHeap ≤ h.allocator.baseAddress + 0x1000
    have hlow := hinv.base_low
    omega
  · show (h.allocator.baseAddress + 0x1000) % 0x1000 = 0
    have hpage := hinv.base_page
    omega
  · intro x hx hnone
    rcases mem_cons.1 hx with rfl | hx
    · rw [hi] at hnone
      cases hnone
    · exact hinv.live_page x hx hnone

theorem grow {frames : TableFrames} (hinv : Inv h live f c)
    (hnone : blockSize layout.minSize = none)
    (hlt : h.allocator.baseAddress + roundUp layout.minSize < 0x10000000000000000)
    (hok : Heap.mapPages h.root (roundUp layout.minSize / 0x1000) h.frames h.allocator.baseAddress
      = some frames) :
    ∃ c', Inv
      { h with
        allocator :=
          { h.allocator with
            baseAddress := h.allocator.baseAddress + roundUp layout.minSize }
        frames := frames } ((h.allocator.baseAddress, layout) :: live) f c' := by
  have hheld : held ((h.allocator.baseAddress, layout) :: live) f
      = [(h.allocator.baseAddress, roundUp layout.minSize)] ++ held live f := by
    rw [← blockLength_of_none hnone]
    rfl
  have hlow := hinv.base_low
  have hpage := hinv.base_page
  have hinside : ∀ b, Inside [(h.allocator.baseAddress, roundUp layout.minSize)] b ↔
      h.allocator.baseAddress ≤ b ∧
        b < h.allocator.baseAddress + 0x1000 * (roundUp layout.minSize / 0x1000) := by
    intro b
    rw [roundUp_pages]
    simp [Inside]
  obtain ⟨c', hbacked⟩ := hinv.backed.mapPages hpage hok hinside
  refine ⟨c', hinv.lists, ?_, ?_, Nat.le_add_right_of_le hlow, hlt, ?_, ?_⟩
  · rw [hheld]
    exact hinv.placed.append hlow (pairwise_singleton _ _) (by simp) (Nat.le_add_right _ _)
  · rw [hheld]
    exact hbacked
  · show (h.allocator.baseAddress + roundUp layout.minSize) % 0x1000 = 0
    unfold roundUp
    omega
  · intro x hx hlarge
    rcases mem_cons.1 hx with rfl | hx
    · exact hpage
    · exact hinv.live_page x hx hlarge

theorem shrink (hinv : Inv h ((pointer, layout) :: live) f c)
    (hnone : blockSize layout.minSize = none) :
    ∃ frames c', Heap.unmapPages h.root (roundUp layout.minSize / 0x1000) h.frames pointer
        = some frames ∧ Inv { h with frames := frames } live f c' := by
  have hheld : held ((pointer, layout) :: live) f
      = (pointer, 0x1000 * (roundUp layout.minSize / 0x1000)) :: held live f := by
    rw [roundUp_pages, ← blockLength_of_none hnone]
    rfl
  have hplaced := hinv.placed
  have hbacked := hinv.backed
  rw [hheld] at hplaced hbacked
  obtain ⟨frames, c', hok, hbacked'⟩ := hbacked.unmapPages hplaced
    (hinv.live_page _ (.head _) hnone) (Nat.le_of_lt hinv.base_lt)
  exact ⟨frames, c', hok, hinv.lists, hplaced.tail, hbacked', hinv.base_low, hinv.base_lt,
    hinv.base_page, fun x hx => hinv.live_page x (.tail _ hx)⟩

theorem store {next : Nat → Option Nat} (hinv : Inv h live f c) (hlive : (pointer, layout) ∈ live) :
    Inv (h.store pointer layout.size next) live f c := by
  refine ⟨fun j hj => ?_, hinv.placed, hinv.backed, hinv.base_low, hinv.base_lt, hinv.base_page,
    hinv.live_page⟩
  refine (hinv.lists j hj).congr fun x hx => if_neg fun hoverlap => ?_
  have hapart := (pairwise_append.1 hinv.placed.apart).2.2 _
    (List.mem_map.2 ⟨_, hlive, rfl⟩) _ (mem_blocks (mem_range.2 hj) hx)
  have hsize := (slabSize_dvd hj).1
  have hlength := size_le_blockLength layout
  rcases hapart with h | h <;> dsimp only at h <;> omega

theorem perm {live' : List (Nat × Layout)} (hinv : Inv h live f c) (hperm : live'.Perm live) :
    Inv h live' f c := by
  have hheld : (held live' f).Perm (held live f) := (hperm.map _).append_right _
  exact ⟨hinv.lists, hinv.placed.perm hheld, hinv.backed.perm hheld, hinv.base_low, hinv.base_lt,
    hinv.base_page, fun x hx => hinv.live_page x (hperm.mem_iff.1 hx)⟩

end Inv

/-! ## Translation -/

theorem inSlot_iff : InSlot a ↔ a / 0x8000000000 % 512 = 510 := by
  have hindex : ∀ a, (calculateIndex 4 a).val = a / 0x8000000000 % 512 := by
    intro a
    show (a >>> 39) % 512 = _
    rw [Nat.shiftRight_eq_div_pow]
  unfold InSlot
  rw [Fin.ext_iff, hindex]
  rfl

/-- Below `KernelStart` it is `KERNEL_HEAP_MAP` that translates. -/
theorem translate_eq_some_iff {h : Heap} {r : Nat × Bool × Bool}
    (hholds : Holds h.frames h.root c) (hlt : a < kernelStart) :
    h.translate a = some r ↔ kernelHeap ≤ a ∧
      ∃ m, mappingAt h.root c a = some m ∧ (m.2.1, m.2.2.writeable, m.2.2.userspace) = r := by
  have hpage : slotPage (a / 0x1000 * 0x1000) = slotPage a := by
    unfold slotPage
    omega
  have hheap : InSlot a ∧ pageOk (a / 0x1000 * 0x1000) = true ↔ kernelHeap ≤ a := by
    rw [inSlot_iff, pageOk_iff]
    unfold kernelHeap
    unfold kernelStart at hlt
    omega
  rw [← hheap, ← Holds.mappingAt_congr hpage]
  unfold Heap.translate
  by_cases hslot : InSlot a
  · rw [if_pos hslot]
    by_cases hok : pageOk (a / 0x1000 * 0x1000) = true
    · rw [Page.new, dif_pos hok]
      show h.frames.walk 2 h.root ⟨a / 0x1000 * 0x1000, hok⟩ = some r ↔ _
      rw [hholds.store.stored.walk_eq fun r hr => (hholds.leaf _ r hr).1, map_eq_some_iff]
      simp only [hslot, hok, and_self, true_and]
      rfl
    · rw [Page.new]
      simp [hok]
  · rw [if_neg hslot, if_neg fun hge => absurd hge.1 (Nat.not_le.2 hlt)]
    simp [hslot]

/-- Above the image of the kernel nothing is mapped. -/
theorem translate_eq_none {h : Heap} (hge : kernelStart + h.image.pages * 0x1000 ≤ a)
    (hlt : a < 0x10000000000000000) : h.translate a = none := by
  have hslot : ¬ InSlot a := by
    rw [inSlot_iff]
    unfold kernelStart at hge
    omega
  rw [Heap.translate, if_neg hslot, if_neg]
  unfold kernelStart at hge ⊢
  omega

/-! ## Sequences of calls -/

namespace HeapSystem

variable {s t : HeapSystem} {f : Nat → List Nat} {x y : Nat × Layout}

/-- The byte is in a page that the heap may write to. -/
def Mapped (s : HeapSystem) (a : Nat) : Prop :=
  ∃ frame, s.heap.translate a = some (frame, true, false)

/-- The bytes that an allocation has asked for. -/
def bytes (x : Nat × Layout) : Nat × Nat := (x.1, x.2.size)

theorem apart_bytes {y : Nat × Nat} (h : Apart (x.1, x.2.blockLength) y) : Apart (bytes x) y := by
  have hsize := size_le_blockLength x.2
  rcases h with h | h
  · exact .inl (Nat.le_trans (Nat.add_le_add_left hsize _) h)
  · exact .inr h

structure Safe (s : HeapSystem) : Prop where
  /-- Live allocations have no byte in common. -/
  live_apart : s.live.Pairwise fun x y => Apart (bytes x) (bytes y)
  live_mapped : ∀ x ∈ s.live, ∀ a, x.1 ≤ a → a < x.1 + x.2.size → s.Mapped a
  /-- No two pages of the heap have the same frame. -/
  frames_apart : ∀ a b r, a < kernelStart → b < kernelStart → s.heap.translate a = some r →
    s.heap.translate b = some r → a / 0x1000 = b / 0x1000
  /-- No free block has a byte of a live allocation, or of another free block. -/
  free_apart : ∃ f, Lists s.heap f ∧ (freeBlocks f).Pairwise Apart ∧
    (∀ i < slabSizes.length, (f i).Nodup) ∧
    ∀ x ∈ s.live, ∀ y ∈ freeBlocks f, Apart (bytes x) y

theorem inv_step {a : Action} (hinv : ∃ f c, Inv s.heap s.live f c) (hstep : step s a = some t) :
    ∃ f c, Inv t.heap t.live f c := by
  obtain ⟨f, c, hinv⟩ := hinv
  cases a with
  | alloc layout supply =>
    simp only [step] at hstep
    split at hstep
    · rename_i hfresh
      obtain ⟨⟨pointer, heap⟩, halloc, rfl⟩ := map_eq_some_iff.1 hstep
      have hinv : Inv (s.supplied supply) s.live f c :=
        { hinv with
          backed := { hinv.backed with holds := hinv.backed.holds.withSupply hfresh.1 hfresh.2 } }
      unfold Heap.alloc at halloc
      split at halloc
      · rename_i i hi
        split at halloc
        · rename_i node hhead
          cases halloc
          obtain ⟨f', hinv'⟩ := hinv.pop hi hhead
          exact ⟨f', c, hinv'⟩
        · rename_i hhead
          exact hinv.refill hi hhead halloc
      · rename_i hnone
        dsimp only at halloc
        split at halloc
        · rename_i hlt
          obtain ⟨frames, hframes, heq⟩ := map_eq_some_iff.1 halloc
          cases heq
          obtain ⟨c', hinv'⟩ := hinv.grow hnone hlt hframes
          exact ⟨f, c', hinv'⟩
        · cases halloc
    · cases hstep
  | dealloc =>
    simp only [step] at hstep
    split at hstep
    · rename_i hlive
      obtain ⟨heap, hdealloc, rfl⟩ := map_eq_some_iff.1 hstep
      have hinv := hinv.perm (perm_cons_erase hlive).symm
      unfold Heap.dealloc at hdealloc
      split at hdealloc
      · rename_i i hi
        cases hdealloc
        exact ⟨_, c, hinv.push hi⟩
      · rename_i hnone
        obtain ⟨frames, c', hframes, hinv'⟩ := hinv.shrink hnone
        rw [hframes] at hdealloc
        cases hdealloc
        exact ⟨f, c', hinv'⟩
    · cases hstep
  | write =>
    simp only [step] at hstep
    split at hstep
    · rename_i hlive
      cases hstep
      exact ⟨f, c, hinv.store hlive⟩
    · cases hstep

theorem inv_new {memory : Nat → Fin 512 → PageDirectoryEntry} {next : Nat → Option Nat}
    {root : Page} {image : Image} (hroot : frameOk root.address = true) :
    Inv (new memory next root image).heap [] (fun _ => []) fun _ => .empty := by
  have hlookup : ∀ k, lookup k (.table root.address fun _ => .empty : PageTree 3) = none :=
    fun k => rfl
  have hfree : freeBlocks (fun _ => []) = [] := by decide
  have hheld : held [] (fun _ => []) = [] := hfree
  refine ⟨fun _ _ => .nil, ?_, ⟨?_, ?_, ?_⟩, Nat.le_refl _,
    (show kernelHeap < 0x10000000000000000 by decide), (show kernelHeap % 0x1000 = 0 by decide),
    by simp⟩
  · rw [hheld]
    exact ⟨.nil, by simp, by simp⟩
  · refine
      { store :=
          { stored := fun i => ?_
            apart := by simp
            full := by simp
            nodup := nodup_singleton _
            used := fun f => ?_
            ok := fun f hf => ?_
            separate := ?_
            supply_nodup := .nil
            supply_fresh := by simp [new] }
        unshared := fun k k' m m' hk => ?_
        leaf := fun k m hk => ?_ }
    · show (update memory root.address (fun _ => .zero) root.address i).present = false
      rw [update_self]
      rfl
    · simp [Data, new]
    · obtain rfl := mem_singleton.1 hf
      exact hroot
    · rintro f ⟨k, r, hk, -⟩
      cases (hlookup k).symm.trans hk
    all_goals cases (hlookup k).symm.trans hk
  · intro a
    rw [hheld]
    refine iff_of_false ?_ (by simp [Inside])
    rw [mappingAt]
    rw [show (new memory next root image).heap.root = root.address from rfl]
    simp
  · rw [hheld]
    simp [Inside]

theorem mapped_of_inside {c : Fin 512 → PageTree 2} (hinv : Inv s.heap s.live f c)
    (ha : Inside (held s.live f) a) (hlt : a < kernelStart) : s.Mapped a := by
  have hlow : kernelHeap ≤ a := by
    obtain ⟨x, hx, hle, -⟩ := ha
    exact (hinv.placed.low x hx).trans hle
  obtain ⟨m, hm⟩ := isSome_iff_exists.1 ((hinv.backed.mapped a).2 ⟨a, ha, rfl⟩)
  have hflags := (hinv.backed.holds.leaf _ m hm).2
  refine ⟨m.2.1, (translate_eq_some_iff hinv.backed.holds hlt).2 ⟨hlow, m, hm, ?_⟩⟩
  rw [hflags]

theorem nodup_free {i : Nat} (h : (freeBlocks f).Pairwise Apart) (hi : i < slabSizes.length) :
    (f i).Nodup := by
  have hlist := (pairwise_flatMap.1 h).1 i (mem_range.2 hi)
  refine (pairwise_map.1 hlist).imp ?_
  rintro a b hapart rfl
  have hsize := (slabSize_dvd hi).1
  rcases hapart with h | h <;> dsimp only at h <;> omega

theorem frames_apart {h : Heap} {c : Fin 512 → PageTree 2}
    (hholds : Holds h.frames h.root c) (a b : Nat) (r : Nat × Bool × Bool)
    (hlt : a < kernelStart) (hlt' : b < kernelStart)
    (ha : h.translate a = some r) (hb : h.translate b = some r) : a / 0x1000 = b / 0x1000 := by
  obtain ⟨hle, m, hm, rfl⟩ := (translate_eq_some_iff hholds hlt).1 ha
  obtain ⟨hle', m', hm', heq⟩ := (translate_eq_some_iff hholds hlt').1 hb
  have hslot := agree_addressKey_iff.1
    (hholds.unshared _ _ m m' hm hm' (congrArg Prod.fst heq).symm)
  unfold slotPage at hslot
  unfold kernelHeap at hle hle'
  unfold kernelStart at hlt hlt'
  omega

/-! ## The window -/

theorem mem_of_carve {next : Nat → Option Nat} {node : Option Nat} {l : List Nat}
    (h : (carve next node l).2 = some b) : node = some b ∨ b ∈ l := by
  induction l generalizing next node with
  | nil => exact .inl h
  | cons x l ih =>
    rcases ih h with heq | hmem
    · exact .inr (some.inj heq ▸ .head _)
    · exact .inr (.tail _ hmem)

/-- The bytes of the new pages that `alloc` takes: none if a block is in the list. -/
def taken (s : HeapSystem) (layout : Layout) : Nat :=
  match blockSize layout.minSize with
  | some index => if s.heap.allocator.slabHeads index = none then 0x1000 else 0
  | none => roundUp layout.minSize

/-- What is left of the window is enough for the pages that the call takes. -/
def Room (s : HeapSystem) : Action → Prop
  | .alloc layout _ => s.heap.allocator.baseAddress + s.taken layout ≤ kernelStart
  | _ => True

instance {a : Action} : Decidable (s.Room a) := by
  cases a <;> unfold Room <;> infer_instance

/-- `base_address` is in the window, and all that has been returned is below it. -/
structure Bounded (s : HeapSystem) : Prop where
  inv : ∃ f c, Inv s.heap s.live f c
  below : ∀ x ∈ s.returned, kernelHeap ≤ x.1 ∧ x.1 + x.2.blockLength ≤ s.heap.allocator.baseAddress
  base_le : s.heap.allocator.baseAddress ≤ kernelStart

theorem alloc_base {supply : List Nat} {layout : Layout} {pointer : Nat} {h : Heap}
    (hok : (s.supplied supply).alloc layout = some (pointer, h)) :
    h.allocator.baseAddress = s.heap.allocator.baseAddress + s.taken layout ∧
      (s.taken layout = 0 ∨ s.heap.allocator.baseAddress ≤ pointer) := by
  cases hindex : blockSize layout.minSize with
  | some i =>
    rw [taken, hindex]
    rw [Heap.alloc, hindex] at hok
    dsimp only at hok ⊢
    split at hok
    · rename_i node hhead
      change s.heap.allocator.slabHeads i = some node at hhead
      rw [hhead]
      cases hok
      exact ⟨rfl, .inl rfl⟩
    · rename_i hhead
      change s.heap.allocator.slabHeads i = none at hhead
      rw [if_pos hhead]
      obtain ⟨frames, -, -, hnode, rfl⟩ := refill_eq_some hok
      refine ⟨rfl, .inr ?_⟩
      rcases mem_of_carve hnode with heq | hmem
      · cases heq
      · obtain ⟨k, -, rfl⟩ := mem_span.1 hmem
        exact Nat.le_add_right _ _
  | none =>
    rw [taken, hindex]
    rw [Heap.alloc, hindex] at hok
    dsimp only at hok ⊢
    split at hok
    · obtain ⟨frames, hframes, heq⟩ := map_eq_some_iff.1 hok
      cases heq
      exact ⟨rfl, .inr (Nat.le_refl _)⟩
    · cases hok

theorem dealloc_base {h h' : Heap} {layout : Layout} {pointer : Nat}
    (hok : h.dealloc pointer layout = some h') :
    h'.allocator.baseAddress = h.allocator.baseAddress := by
  unfold Heap.dealloc at hok
  split at hok
  · cases hok
    rfl
  · obtain ⟨frames, -, rfl⟩ := map_eq_some_iff.1 hok
    rfl

theorem Bounded.step {a : Action} (h : s.Bounded) (hroom : s.Room a) (hstep : step s a = some t) :
    t.Bounded := by
  have hinv := inv_step h.inv hstep
  cases a with
  | alloc layout supply =>
    simp only [HeapSystem.step] at hstep
    split at hstep
    · obtain ⟨⟨pointer, heap⟩, halloc, rfl⟩ := map_eq_some_iff.1 hstep
      obtain ⟨f, c, hinv'⟩ := hinv
      have hmem : (pointer, layout.blockLength) ∈ held ((pointer, layout) :: s.live) f := .head _
      have hbase := (alloc_base halloc).1
      refine ⟨⟨f, c, hinv'⟩, fun x hx => ?_, ?_⟩
      · rcases mem_cons.1 hx with rfl | hx
        · exact ⟨hinv'.placed.low _ hmem, hinv'.placed.below _ hmem⟩
        · exact ⟨(h.below x hx).1, (h.below x hx).2.trans (hbase ▸ Nat.le_add_right _ _)⟩
      · exact hbase ▸ hroom
    · cases hstep
  | dealloc =>
    simp only [HeapSystem.step] at hstep
    split at hstep
    · obtain ⟨heap, hdealloc, rfl⟩ := map_eq_some_iff.1 hstep
      have hbase := dealloc_base hdealloc
      exact ⟨hinv, hbase ▸ h.below, hbase ▸ h.base_le⟩
    · cases hstep
  | write =>
    simp only [HeapSystem.step] at hstep
    split at hstep
    · cases hstep
      exact ⟨hinv, h.below, h.base_le⟩
    · cases hstep

theorem Bounded.safe (h : s.Bounded) : s.Safe := by
  obtain ⟨f, c, hinv⟩ := h.inv
  have hlength : ∀ x ∈ s.live, (x.1, x.2.blockLength) ∈ held s.live f :=
    fun x hx => mem_append_left _ (List.mem_map.2 ⟨x, hx, rfl⟩)
  obtain ⟨hlive, hfree, hboth⟩ := pairwise_append.1 hinv.placed.apart
  refine ⟨?_, ?_, frames_apart hinv.backed.holds,
    f, hinv.lists, hfree, fun i hi => nodup_free hfree hi, ?_⟩
  · exact (pairwise_map.1 hlive).imp fun hapart =>
      (apart_bytes (apart_bytes hapart).symm).symm
  · intro x hx a hle hlt
    have hend : a < x.1 + x.2.blockLength :=
      Nat.lt_of_lt_of_le hlt (Nat.add_le_add_left (size_le_blockLength x.2) _)
    refine mapped_of_inside hinv ⟨_, hlength x hx, hle, hend⟩ ?_
    exact Nat.lt_of_lt_of_le hend ((hinv.placed.below _ (hlength x hx)).trans h.base_le)
  · intro x hx y hy
    exact apart_bytes (hboth _ (List.mem_map.2 ⟨x, hx, rfl⟩) y hy)

section

variable {memory : Nat → Fin 512 → PageDirectoryEntry} {next : Nat → Option Nat} {root : Page}
  {image : Image} {as : List Action}

theorem bounded_new (hroot : frameOk root.address = true) :
    (new memory next root image).Bounded :=
  ⟨⟨_, _, inv_new hroot⟩, by simp [new], show kernelHeap ≤ kernelStart by decide⟩

/-- The heap is safe throughout every run in which no call takes pages behind the window. -/
theorem heap_safe_of_room (hroot : frameOk root.address = true)
    (hroom : Lts.Guarded step Room (new memory next root image) as) :
    Lts.Always step Safe (new memory next root image) as :=
  Lts.always_of_guarded (I := Bounded) (fun _ h => h.safe)
    (fun _ _ _ h hroom hstep => h.step hroom hstep) (bounded_new hroot) hroom

end

/-- Frames for a page and two tables. -/
def threeFrames : List Nat := [0x2000, 0x3000, 0x4000]

def rootPage : Page := ⟨0x1000, by decide⟩

/-- The heap of a kernel of 4096 pages. -/
def boot : HeapSystem := new (fun _ _ => .zero) (fun _ => none) rootPage ⟨0x100000, 0x1000⟩

/-- A quarter of a page. -/
def quarterLayout : Layout := ⟨1024, 8, ⟨3, rfl⟩, by decide⟩

/-- One page, which is too large for the free lists. -/
def pageLayout : Layout := ⟨0x1000, 1, ⟨0, rfl⟩, by decide⟩

/-- Two blocks of one page and a page of their own are allocated, and the first one is freed. -/
def shortRun : List Action :=
  [.alloc quarterLayout threeFrames, .alloc quarterLayout [], .alloc pageLayout [0x5000],
    .dealloc (kernelHeap + 0xC00) quarterLayout]

theorem shortRun_room : Lts.Guarded step Room boot shortRun := by decide +kernel

theorem shortRun_safe :
    (Lts.run step boot shortRun).map (·.live) = some
      [(kernelHeap + 0x1000, pageLayout), (kernelHeap + 0x800, quarterLayout)] ∧
    Lts.Always step Safe boot shortRun :=
  ⟨by decide +kernel, heap_safe_of_room (by decide) shortRun_room⟩

end HeapSystem

end Fioxa.Allocator
