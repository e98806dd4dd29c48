import Mathlib.Data.List.Pairwise
import Mathlib.Data.List.Nodup
import Mathlib.Data.List.Flatten

/-! # Shares

A list of holders, each of which has a list of things. What they have together changes with one of
them only in its share, and if it has no thing twice, a thing is in the share of one holder. -/

namespace Shares

open List

variable {α β : Type} {g : α → List β} {l : List α} {i j : Nat} {x y : α}

theorem perm_flatMap_set (h : l[i]? = some x) :
    ∃ rest, (l.flatMap g).Perm (g x ++ rest) ∧ ∀ y, ((l.set i y).flatMap g).Perm (g y ++ rest) := by
  induction l generalizing i with
  | nil => simp at h
  | cons a l ih =>
    cases i with
    | zero =>
      rw [List.getElem?_cons_zero, Option.some.injEq] at h
      subst h
      exact ⟨l.flatMap g, List.Perm.refl _, fun y => List.Perm.refl _⟩
    | succ =>
      obtain ⟨rest, hl, hset⟩ := ih h
      refine ⟨g a ++ rest, ?_, fun y => ?_⟩
      · exact (hl.append_left _).trans (perm_append_comm_assoc ..)
      · exact ((hset y).append_left _).trans (perm_append_comm_assoc ..)

theorem index_eq_of_mem {b : β} (h : (l.flatMap g).Nodup) (hi : l[i]? = some x)
    (hj : l[j]? = some y) (hx : b ∈ g x) (hy : b ∈ g y) : i = j := by
  have hdisjoint := (nodup_flatMap.1 h).2
  rw [pairwise_iff_getElem] at hdisjoint
  obtain ⟨hil, rfl⟩ := List.getElem?_eq_some_iff.1 hi
  obtain ⟨hjl, rfl⟩ := List.getElem?_eq_some_iff.1 hj
  rcases Nat.lt_trichotomy i j with hlt | heq | hgt
  · exact (hdisjoint i j hil hjl hlt hx hy).elim
  · exact heq
  · exact (hdisjoint j i hjl hil hgt hy hx).elim

end Shares
