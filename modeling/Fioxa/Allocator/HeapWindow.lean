import Fioxa.Allocator.HeapSafety

/-! # The kernel heap and its window

`base_address` only grows: the pages of a large allocation are unmapped when it is freed, but their
addresses are not used again. Whether the blocks that are returned are in the window of the heap,
which ends at `KernelStart`, depends on how many pages have ever been taken, and not on how many are
live. A run that allocates and frees one page again and again leaves the window. -/

namespace Fioxa.Allocator.HeapSystem

open Paging Paging.TableFrames Radix Radix.Tree Span List Option Lts

variable {s t : HeapSystem} {x : Nat × Layout} {n : Nat}

/-- The block of the allocation is in the window of the heap. -/
def InWindow (x : Nat × Layout) : Prop := kernelHeap ≤ x.1 ∧ x.1 + x.2.blockLength ≤ kernelStart

instance : Decidable (InWindow x) := inferInstanceAs (Decidable (_ ∧ _))

theorem taken_cases (s : HeapSystem) (layout : Layout) :
    s.taken layout = 0 ∨ s.taken layout = 0x1000 ∧ 0 < layout.blockLength ∨
      s.taken layout = layout.blockLength := by
  unfold taken
  split
  · rename_i i hi
    split
    · exact .inr (.inl ⟨rfl, Inv.blockLength_pos hi⟩)
    · exact .inl rfl
  · rename_i hnone
    exact .inr (.inr (Inv.blockLength_of_none hnone).symm)

/-- Pages behind the window show in the block that is returned. -/
theorem Bounded.room {a : Action} (h : s.Bounded) (hstep : HeapSystem.step s a = some t)
    (hwindow : ∀ x ∈ t.returned, InWindow x) : s.Room a := by
  cases a with
  | alloc layout supply =>
    simp only [HeapSystem.step] at hstep
    split at hstep
    · obtain ⟨⟨pointer, heap⟩, halloc, rfl⟩ := map_eq_some_iff.1 hstep
      have hend : pointer + layout.blockLength ≤ kernelStart := (hwindow _ (.head _)).2
      obtain ⟨f, c, hinv⟩ := h.inv
      have hpage := hinv.base_page
      have hle := h.base_le
      have hbase := (alloc_base halloc).2
      show s.heap.allocator.baseAddress + s.taken layout ≤ kernelStart
      unfold kernelStart at hle hend ⊢
      rcases taken_cases s layout with hzero | ⟨hone, hpos⟩ | hlarge
      · omega
      · -- both ends of the window are those of pages
        omega
      · omega
    · cases hstep
  | dealloc | write => trivial

/-- Everything that is returned is in the window exactly if each call takes its pages from what is
    left of it. -/
theorem returned_in_window_iff {memory : Nat → Fin 512 → PageDirectoryEntry}
    {next : Nat → Option Nat} {root : Page} {image : Image} {as : List Action}
    (hroot : TableSystem.frameOk root.address = true) :
    Always step (fun s => ∀ x ∈ s.returned, InWindow x) (new memory next root image) as ↔
      Guarded step Room (new memory next root image) as :=
  always_iff_guarded (I := Bounded)
    (fun _ h x hx => ⟨(h.below x hx).1, (h.below x hx).2.trans h.base_le⟩)
    (fun _ _ _ h hroom hstep => h.step hroom hstep) (fun _ _ _ h hstep => h.room hstep)
    (bounded_new hroot)

theorem shortRun_in_window : Guarded step Room boot shortRun ∧
    Always step (fun s => ∀ x ∈ s.returned, InWindow x) boot shortRun :=
  ⟨shortRun_room, (returned_in_window_iff (by decide)).2 shortRun_room⟩

/-! ## A run that leaves the window -/

/-- A page is allocated and freed. -/
def cycle (k : Nat) : List Action :=
  [.alloc pageLayout threeFrames, .dealloc (kernelHeap + 0x1000 * k) pageLayout]

def cycles (n : Nat) : List Action := (List.range n).flatMap cycle

/-- The free lists are empty, and `n` pages have been taken. -/
structure Taken (s : HeapSystem) (live : List (Nat × Layout)) (n : Nat) : Prop where
  inv : ∃ f c, Inv s.heap s.live f c
  live_eq : s.live = live
  heads : s.heap.allocator.slabHeads = fun _ => none
  base : s.heap.allocator.baseAddress = kernelHeap + 0x1000 * n
  root : s.heap.root = 0x1000
  image : s.heap.image = boot.heap.image
  peak : s.peak ≤ 0x1000

theorem Taken.unmapped (h : s.Taken [] n) :
    ∃ f c, Inv s.heap s.live f c ∧ (∀ a, mappingAt s.heap.root c a = none) ∧
      ∀ frame ∈ s.heap.frames.used, frame = 0x1000 := by
  obtain ⟨f, c, hinv⟩ := h.inv
  have hfree : ∀ i < slabSizes.length, f i = [] := by
    intro i hi
    have hlist := hinv.lists i hi
    rw [h.heads] at hlist
    exact hlist.eq_nil
  have hheld : held s.live f = [] := by
    rw [held, h.live_eq, map_nil, nil_append, freeBlocks, blocks, flatMap_eq_nil_iff]
    intro i hi
    rw [hfree i (mem_range.1 hi), map_nil]
  have hnone : ∀ a, mappingAt s.heap.root c a = none := by
    intro a
    rw [← not_isSome_iff_eq_none, hinv.backed.mapped, hheld]
    simp [Inside]
  have hkeys : ∀ k, lookup k (.table s.heap.root c) = none := by
    intro k
    obtain ⟨a, ha⟩ := exists_addressKey k
    rw [(congr_of_agree ha).1]
    exact hnone a
  refine ⟨f, c, hinv, hnone, fun frame hframe => ?_⟩
  rcases (hinv.backed.holds.store.used frame).1 hframe with hmem | ⟨k, m, hk, -⟩
  · rcases (mem_frames_iff_path hinv.backed.holds.store.full).1 hmem with rfl | ⟨k, hk, -⟩
    · exact h.root
    · rw [hkeys] at hk
      cases hk
  · rw [hkeys] at hk
    cases hk

/-- A page is allocated, whatever has been freed before. -/
theorem Taken.alloc (h : s.Taken [] n) (hlt : kernelHeap + 0x1000 * (n + 1) < 0x10000000000000000) :
    ∃ t, step s (.alloc pageLayout threeFrames) = some t ∧
      t.Taken [(kernelHeap + 0x1000 * n, pageLayout)] (n + 1) ∧
      (kernelHeap + 0x1000 * n, pageLayout) ∈ t.returned := by
  obtain ⟨f, c, hinv, hnone, hused⟩ := h.unmapped
  have hfresh : s.Fresh threeFrames := by
    refine ⟨by decide, fun frame hframe => ⟨fun hmem => ?_, ?_⟩⟩
    · rw [hused frame hmem] at hframe
      exact absurd hframe (by decide)
    · exact (by decide : ∀ frame ∈ threeFrames, TableSystem.frameOk frame = true) frame hframe
  have hholds : Holds (s.supplied threeFrames).frames s.heap.root c :=
    hinv.backed.holds.withSupply hfresh.1 hfresh.2
  have hpage : pageOk (kernelHeap + 0x1000 * n) = true := by
    rw [pageOk_iff]
    unfold kernelHeap at hlt ⊢
    omega
  have hmap : ∃ w, Heap.mapPages s.heap.root 1 (s.supplied threeFrames).frames
      (kernelHeap + 0x1000 * n) = some w := by
    rcases hholds.mapPage_cases (v := ⟨_, hpage⟩) with ⟨-, hsome | hshort⟩ | ⟨w, c', hw, -⟩
    · rw [hnone] at hsome
      cases hsome
    · exact absurd hshort (show ¬ threeFrames.length < 3 by decide)
    · refine ⟨w, ?_⟩
      rw [Heap.mapPages, hw]
      rfl
  obtain ⟨w, hw⟩ := hmap
  have halloc : ∃ heap, (s.supplied threeFrames).alloc pageLayout
        = some (kernelHeap + 0x1000 * n, heap) ∧
      heap.allocator.slabHeads = s.heap.allocator.slabHeads ∧
      heap.allocator.baseAddress = kernelHeap + 0x1000 * (n + 1) ∧
      heap.root = s.heap.root ∧ heap.image = s.heap.image := by
    have hbase : (s.supplied threeFrames).allocator.baseAddress = kernelHeap + 0x1000 * n := h.base
    have hsize : blockSize pageLayout.minSize = none := by decide
    have hround : roundUp pageLayout.minSize = 0x1000 := by decide
    rw [Nat.mul_succ, ← Nat.add_assoc] at hlt
    simp only [Heap.alloc, hsize, hround, hbase, hlt, if_true]
    rw [show Heap.mapPages (s.supplied threeFrames).root (0x1000 / 0x1000)
      (s.supplied threeFrames).frames (kernelHeap + 0x1000 * n) = some w from hw]
    exact ⟨_, rfl, rfl, Nat.add_assoc _ _ _, rfl, rfl⟩
  obtain ⟨heap, halloc, hheads, hbase, hroot, himage⟩ := halloc
  have hstep : step s (.alloc pageLayout threeFrames) = some
      ⟨heap, (kernelHeap + 0x1000 * n, pageLayout) :: s.live,
        (kernelHeap + 0x1000 * n, pageLayout) :: s.returned,
        max s.peak (liveSize ((kernelHeap + 0x1000 * n, pageLayout) :: s.live))⟩ := by
    rw [step, if_pos hfresh, halloc]
    rfl
  refine ⟨_, hstep, ⟨inv_step h.inv hstep, ?_, hheads.trans h.heads, hbase, hroot.trans h.root,
    himage.trans h.image, ?_⟩, .head _⟩
  · rw [h.live_eq]
  · rw [h.live_eq]
    exact Nat.max_le.2 ⟨h.peak, Nat.le_refl _⟩

theorem Taken.dealloc (h : s.Taken [(kernelHeap + 0x1000 * n, pageLayout)] (n + 1)) :
    ∃ t, step s (.dealloc (kernelHeap + 0x1000 * n) pageLayout) = some t ∧ t.Taken [] (n + 1) := by
  obtain ⟨f, c, hinv⟩ := h.inv
  rw [h.live_eq] at hinv
  have hsize : blockSize pageLayout.minSize = none := by decide
  obtain ⟨frames, c', hok, -⟩ := hinv.shrink hsize
  have hstep : step s (.dealloc (kernelHeap + 0x1000 * n) pageLayout) = some
      { s with
        heap := { s.heap with frames := frames }
        live := s.live.erase (kernelHeap + 0x1000 * n, pageLayout) } := by
    rw [step, if_pos (h.live_eq ▸ mem_singleton_self _)]
    simp only [Heap.dealloc, hsize, hok]
    rfl
  refine ⟨_, hstep, inv_step h.inv hstep, ?_, h.heads, h.base, h.root, h.image, h.peak⟩
  rw [h.live_eq, erase_cons_head]

theorem run_cycles (hlt : kernelHeap + 0x1000 * n < 0x10000000000000000) :
    ∃ s, run step boot (cycles n) = some s ∧ s.Taken [] n := by
  induction n with
  | zero =>
    exact ⟨boot, rfl, ⟨_, _, inv_new (by decide)⟩, rfl, rfl, rfl, rfl, rfl, Nat.zero_le _⟩
  | succ n ih =>
    obtain ⟨s, hrun, hs⟩ := ih (by omega)
    obtain ⟨t, halloc, ht, -⟩ := hs.alloc hlt
    obtain ⟨u, hdealloc, hu⟩ := ht.dealloc
    refine ⟨u, ?_, hu⟩
    have hcycles : cycles (n + 1) = cycles n ++ cycle n := by
      rw [cycles, range_succ, flatMap_append]
      rfl
    rw [hcycles, run_append, hrun]
    show run step s (cycle n) = some u
    rw [cycle, run_cons, halloc]
    show run step t _ = some u
    rw [run_cons, hdealloc]
    rfl

/-- One page is allocated and freed `n` times, and then allocated once more. -/
def longRun (n : Nat) : List Action := cycles n ++ [.alloc pageLayout threeFrames]

theorem run_longRun (hlt : kernelHeap + 0x1000 * (n + 1) < 0x10000000000000000) :
    ∃ s, run step boot (longRun n) = some s ∧
      s.Taken [(kernelHeap + 0x1000 * n, pageLayout)] (n + 1) ∧
      (kernelHeap + 0x1000 * n, pageLayout) ∈ s.returned := by
  obtain ⟨s, hrun, hs⟩ := run_cycles (n := n) (by omega)
  obtain ⟨t, halloc, ht, hmem⟩ := hs.alloc hlt
  refine ⟨t, ?_, ht, hmem⟩
  rw [longRun, run_append, hrun]
  show run step s [_] = some t
  rw [run_cons, halloc]
  rfl

/-- Although no more than one page was ever live, a block outside of the window is returned once the
    window is used up. -/
theorem heap_leaves_window : ∃ s, run step boot (longRun 0x8000000) = some s ∧ s.peak ≤ 0x1000 ∧
    (kernelStart, pageLayout) ∈ s.returned ∧ ¬ InWindow (kernelStart, pageLayout) := by
  obtain ⟨s, hrun, htaken, hmem⟩ := run_longRun (n := 0x8000000) (by decide)
  exact ⟨s, hrun, htaken.peak, hmem, by decide⟩

/-- The first blocks behind the window are in the image of the kernel, the next one is in no page
    that is mapped. -/
theorem heap_not_safe : ∃ s, run step boot (longRun 0x8001000) = some s ∧
    s.live = [(kernelStart + 0x1000000, pageLayout)] ∧ s.heap.image = ⟨0x100000, 0x1000⟩ ∧
    ¬ s.Mapped (kernelStart + 0x1000000) ∧ ¬ s.Safe := by
  obtain ⟨s, hrun, htaken, -⟩ := run_longRun (n := 0x8001000) (by decide)
  have hlive : s.live = [(kernelStart + 0x1000000, pageLayout)] := htaken.live_eq
  have hunmapped : ¬ s.Mapped (kernelStart + 0x1000000) := by
    rintro ⟨frame, hsome⟩
    rw [translate_eq_none (htaken.image ▸ by decide) (by decide)] at hsome
    cases hsome
  refine ⟨s, hrun, hlive, htaken.image, hunmapped, fun hsafe => hunmapped ?_⟩
  exact hsafe.live_mapped _ (hlive ▸ mem_singleton_self _) _ le_rfl (by decide)

end Fioxa.Allocator.HeapSystem
