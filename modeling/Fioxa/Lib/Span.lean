import Mathlib.Data.List.Nodup
import Mathlib.Data.List.Perm.Basic
import Mathlib.Logic.Function.Basic

/-! # Spans and size classes

A span is a run of equally spaced addresses. An allocator that keeps one free list per size class
holds, for each class, a list of bases; `blocks` lists the blocks this stands for and `covered` the
addresses in them. Pushing a base onto the list of a class adds exactly the span of its block. -/

namespace Span

open List Function Nat

/-- `n` addresses from `base` on, `step` apart. -/
def span (step base n : Nat) : List Nat := (List.range n).map fun k => base + step * k

variable {step base a m n : Nat}

theorem mem_span : a ∈ span step base n ↔ ∃ k < n, a = base + step * k := by
  simp only [span, mem_map, mem_range, eq_comm]

theorem base_mem_span (hn : 0 < n) : base ∈ span step base n :=
  mem_span.2 ⟨0, hn, by simp⟩

theorem nodup_span (hstep : 0 < step) : (span step base n).Nodup := by
  refine nodup_range.map ?_
  intro j k hjk
  have heq : step * j = step * k := by simpa using hjk
  exact Nat.eq_of_mul_eq_mul_left hstep heq

theorem span_add : span step base (m + n) = span step base m ++ span step (base + step * m) n := by
  unfold span
  rw [range_add, map_append, map_map]
  congr 1
  apply map_congr_left
  intro k _
  simp only [comp_apply, Nat.mul_add]
  omega

theorem span_of_le (h : m ≤ n) :
    span step base n = span step base m ++ span step (base + step * m) (n - m) := by
  rw [← span_add, Nat.add_sub_cancel' h]

/-! ## Size classes -/

variable {size : Nat → Nat} {classes : List Nat} {f : Nat → List Nat} {o b : Nat}

/-- The blocks, as bases and sizes, of the lists `f` of the given classes. -/
def blocks (size : Nat → Nat) (classes : List Nat) (f : Nat → List Nat) : List (Nat × Nat) :=
  classes.flatMap fun o => (f o).map fun b => (b, size o)

def covered (step : Nat) (bs : List (Nat × Nat)) : List Nat :=
  bs.flatMap fun x => span step x.1 x.2

theorem mem_blocks (ho : o ∈ classes) (hb : b ∈ f o) : (b, size o) ∈ blocks size classes f :=
  mem_flatMap.2 ⟨o, ho, mem_map.2 ⟨b, hb, rfl⟩⟩

theorem base_mem_covered {bs : List (Nat × Nat)} (hmem : (b, n) ∈ bs) (hn : 0 < n) :
    b ∈ covered step bs :=
  mem_flatMap.2 ⟨(b, n), hmem, base_mem_span hn⟩

theorem blocks_push (hn : classes.Nodup) (ho : o ∈ classes) :
    (blocks size classes (update f o (b :: f o))).Perm ((b, size o) :: blocks size classes f) := by
  induction classes with
  | nil => cases ho
  | cons c classes ih =>
    obtain ⟨hc, hrest⟩ := nodup_cons.1 hn
    simp only [blocks, flatMap_cons]
    rcases mem_cons.1 ho with rfl | ho
    · have hothers : ∀ d ∈ classes, ((update f o (b :: f o)) d).map (fun x => (x, size d))
            = (f d).map (fun x => (x, size d)) := by
        intro d hd
        rw [update_of_ne]
        rintro rfl
        exact hc hd
      rw [update_self, flatMap_congr hothers]
      exact List.Perm.refl _
    · have hne : c ≠ o := by
        rintro rfl
        exact hc ho
      rw [update_of_ne hne]
      exact ((ih hrest ho).append_left _).trans perm_middle

theorem covered_push (hn : classes.Nodup) (ho : o ∈ classes) :
    (covered step (blocks size classes (update f o (b :: f o)))).Perm
      (span step b (size o) ++ covered step (blocks size classes f)) := by
  have hperm : (blocks size classes (update f o (b :: f o))).Perm
      ((b, size o) :: blocks size classes f) := blocks_push hn ho
  have hcovered := hperm.flatMap_right (fun x => span step x.1 x.2)
  simpa only [covered, flatMap_cons] using hcovered

theorem blocks_append {l : List Nat} (hn : classes.Nodup) (ho : o ∈ classes) :
    (blocks size classes (update f o (l ++ f o))).Perm
      ((l.map fun b => (b, size o)) ++ blocks size classes f) := by
  induction l with
  | nil =>
    rw [nil_append, update_eq_self]
    exact List.Perm.refl _
  | cons b l ih =>
    have hpush : (blocks size classes (update (update f o (l ++ f o)) o
        (b :: update f o (l ++ f o) o))).Perm
          ((b, size o) :: blocks size classes (update f o (l ++ f o))) :=
      blocks_push hn ho
    rw [update_self, update_idem] at hpush
    exact hpush.trans (ih.cons _)

/-! ## Blocks that are apart -/

/-- The blocks have no address in common. -/
def Apart (x y : Nat × Nat) : Prop := x.1 + x.2 ≤ y.1 ∨ y.1 + y.2 ≤ x.1

variable {x : Nat × Nat}

theorem Apart.symm {y : Nat × Nat} (h : Apart x y) : Apart y x := Or.symm h

/-- The address is in one of the blocks. -/
def Inside (bs : List (Nat × Nat)) (a : Nat) : Prop := ∃ x ∈ bs, x.1 ≤ a ∧ a < x.1 + x.2

variable {bs cs : List (Nat × Nat)}

theorem inside_append : Inside (bs ++ cs) a ↔ Inside bs a ∨ Inside cs a := by
  simp only [Inside, mem_append, or_and_right, exists_or]

theorem inside_cons : Inside (x :: bs) a ↔ (x.1 ≤ a ∧ a < x.1 + x.2) ∨ Inside bs a := by
  simp only [Inside, mem_cons, or_and_right, exists_or, exists_eq_left]

theorem inside_perm (h : bs.Perm cs) : Inside bs a ↔ Inside cs a := by
  simp only [Inside, h.mem_iff]

/-- A block that is apart from all others shares no address with them. -/
theorem not_inside (h : ∀ y ∈ bs, Apart x y) (ha : x.1 ≤ a ∧ a < x.1 + x.2) : ¬ Inside bs a := by
  rintro ⟨y, hy, hle, hlt⟩
  rcases h y hy with h | h <;> omega

theorem pairwise_span : ((span step base n).map fun b => (b, step)).Pairwise Apart := by
  unfold span
  rw [map_map, pairwise_map]
  refine pairwise_lt_range.imp fun {j k} hlt => .inl ?_
  have hle := Nat.mul_le_mul_left step hlt
  rw [mul_succ] at hle
  show base + step * j + step ≤ base + step * k
  omega

theorem inside_span (hstep : 0 < step) :
    Inside ((span step base n).map fun b => (b, step)) a ↔ base ≤ a ∧ a < base + step * n := by
  constructor
  · rintro ⟨x, hx, hle, hlt⟩
    obtain ⟨b, hb, rfl⟩ := mem_map.1 hx
    obtain ⟨k, hk, rfl⟩ := mem_span.1 hb
    have hmul := Nat.mul_le_mul_left step hk
    rw [mul_succ] at hmul
    exact ⟨by omega, by omega⟩
  · rintro ⟨hle, hlt⟩
    have hdiv := div_add_mod (a - base) step
    have hmod := mod_lt (a - base) hstep
    refine ⟨(base + step * ((a - base) / step), step), mem_map.2 ⟨_, mem_span.2 ⟨_, ?_, rfl⟩,
      rfl⟩, by dsimp only; omega, by dsimp only; omega⟩
    exact Nat.div_lt_of_lt_mul (by omega)

end Span
