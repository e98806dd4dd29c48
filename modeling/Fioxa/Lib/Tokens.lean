import Mathlib.Data.List.Count
import Mathlib.Logic.Function.Basic

/-! # One token for every client

A server waits for many clients with one-shot watchers. A client has a key and a place at which it
is watched; two clients may share a place. Its token is a watcher at its place, a notification in
the server's queue, or the fact that the server is busy with it. `Exact` says that every client has
exactly one token and that there are no other tokens; the rules say how tokens move. When the server
is idle and its queue is empty, every client is watched. -/

namespace Tokens

open List Function

variable {K O : Type} [DecidableEq K]

/-- `armed o` are the keys of the watchers at `o`. -/
structure Exact (client : K → O → Prop) (armed : O → List K) (queued busy : List K) : Prop where
  of_armed : ∀ o, ∀ k ∈ armed o, client k o
  of_queued : ∀ k ∈ queued, ∃ o, client k o
  of_busy : ∀ k ∈ busy, ∃ o, client k o
  one : ∀ k o, client k o → (armed o).count k + queued.count k + busy.count k = 1

namespace Exact

variable {client client' : K → O → Prop} {armed : O → List K} {queued busy rest kept fired : List K}
  {k : K} {o : O}

theorem fire [DecidableEq O] (h : Exact client armed queued busy)
    (hfun : ∀ {k o o'}, client k o → client k o' → o = o')
    (hperm : (armed o).Perm (fired ++ kept)) :
    Exact client (update armed o kept) (queued ++ fired) busy where
  of_armed x k hk := by
    by_cases hx : x = o
    · subst hx
      rw [update_self] at hk
      exact h.of_armed x k (hperm.mem_iff.2 (mem_append_right _ hk))
    · rw [update_of_ne hx] at hk
      exact h.of_armed x k hk
  of_queued k hk := by
    rcases mem_append.1 hk with hk | hk
    · exact h.of_queued k hk
    · exact ⟨o, h.of_armed o k (hperm.mem_iff.2 (mem_append_left _ hk))⟩
  of_busy := h.of_busy
  one k x hx := by
    have hone := h.one k x hx
    rw [count_append]
    by_cases hxo : x = o
    · subst hxo
      have hcount := hperm.count_eq k
      rw [count_append] at hcount
      rw [update_self]
      omega
    · have hnone : fired.count k = 0 := by
        refine count_eq_zero.2 fun hk => hxo ?_
        exact hfun hx (h.of_armed o k (hperm.mem_iff.2 (mem_append_left _ hk)))
      rw [update_of_ne hxo]
      omega

theorem take (h : Exact client armed (k :: rest) busy) : Exact client armed rest (k :: busy) where
  of_armed := h.of_armed
  of_queued x hx := h.of_queued x (.tail k hx)
  of_busy x hx := by
    rcases mem_cons.1 hx with rfl | hx
    · exact h.of_queued x (.head _)
    · exact h.of_busy x hx
  one x o hx := by
    have hone := h.one x o hx
    rw [count_cons] at hone ⊢
    omega

/-- The server has been notified at once. -/
theorem requeue (h : Exact client armed queued (k :: busy)) :
    Exact client armed (queued ++ [k]) busy where
  of_armed := h.of_armed
  of_queued x hx := by
    rcases mem_append.1 hx with hx | hx
    · exact h.of_queued x hx
    · rw [mem_singleton.1 hx]
      exact h.of_busy k (.head _)
  of_busy x hx := h.of_busy x (.tail k hx)
  one x o hx := by
    have hone := h.one x o hx
    rw [count_cons] at hone
    rw [count_append, count_singleton]
    omega

theorem arm [DecidableEq O] (h : Exact client armed queued (k :: busy)) (hk : client k o)
    (hfun : ∀ {k o o'}, client k o → client k o' → o = o') :
    Exact client (update armed o (armed o ++ [k])) queued busy where
  of_armed x j hj := by
    by_cases hx : x = o
    · subst hx
      rw [update_self] at hj
      rcases mem_append.1 hj with hj | hj
      · exact h.of_armed x j hj
      · exact mem_singleton.1 hj ▸ hk
    · rw [update_of_ne hx] at hj
      exact h.of_armed x j hj
  of_queued := h.of_queued
  of_busy x hx := h.of_busy x (.tail k hx)
  one j x hj := by
    have hone := h.one j x hj
    rw [count_cons] at hone
    by_cases hx : x = o
    · subst hx
      rw [update_self, count_append, count_singleton]
      omega
    · have hne : (k == j) = false := by
        rw [beq_eq_false_iff_ne]
        rintro rfl
        exact hx (hfun hj hk)
      rw [hne] at hone
      rw [update_of_ne hx]
      exact hone

theorem join (h : Exact client armed queued busy) (hk : ∀ x, ¬ client k x)
    (hclient : ∀ j x, client' j x ↔ client j x ∨ j = k ∧ x = o) :
    Exact client' armed queued (k :: busy) where
  of_armed x j hj := (hclient j x).2 (.inl (h.of_armed x j hj))
  of_queued j hj := (h.of_queued j hj).imp fun x hx => (hclient j x).2 (.inl hx)
  of_busy j hj := by
    rcases mem_cons.1 hj with rfl | hj
    · exact ⟨o, (hclient j o).2 (.inr ⟨rfl, rfl⟩)⟩
    · exact (h.of_busy j hj).imp fun x hx => (hclient j x).2 (.inl hx)
  one j x hj := by
    rw [count_cons]
    rcases (hclient j x).1 hj with hj | ⟨rfl, rfl⟩
    · have hne : (k == j) = false := by
        rw [beq_eq_false_iff_ne]
        rintro rfl
        exact hk x hj
      rw [hne]
      exact h.one j x hj
    · have harmed : (armed x).count j = 0 := count_eq_zero.2 fun hj => hk x (h.of_armed x j hj)
      have hqueued : queued.count j = 0 := count_eq_zero.2 fun hj =>
        (h.of_queued j hj).elim hk
      have hbusy : busy.count j = 0 := count_eq_zero.2 fun hj => (h.of_busy j hj).elim hk
      simp [harmed, hqueued, hbusy]

theorem leave (h : Exact client armed queued (k :: busy))
    (hclient : ∀ j x, client' j x ↔ client j x ∧ j ≠ k) : Exact client' armed queued busy := by
  -- no other token has the key
  have hnone : ∀ x, client k x → (armed x).count k = 0 ∧ queued.count k = 0 ∧ busy.count k = 0 := by
    intro x hx
    have hone := h.one k x hx
    rw [count_cons, beq_self_eq_true, if_pos rfl] at hone
    omega
  refine ⟨fun x j hj => ?_, fun j hj => ?_, fun j hj => ?_, fun j x hj => ?_⟩
  · have hx := h.of_armed x j hj
    refine (hclient j x).2 ⟨hx, ?_⟩
    rintro rfl
    exact count_eq_zero.1 (hnone x hx).1 hj
  · obtain ⟨x, hx⟩ := h.of_queued j hj
    refine ⟨x, (hclient j x).2 ⟨hx, ?_⟩⟩
    rintro rfl
    exact count_eq_zero.1 (hnone x hx).2.1 hj
  · obtain ⟨x, hx⟩ := h.of_busy j (.tail k hj)
    refine ⟨x, (hclient j x).2 ⟨hx, ?_⟩⟩
    rintro rfl
    exact count_eq_zero.1 (hnone x hx).2.2 hj
  · obtain ⟨hx, hne⟩ := (hclient j x).1 hj
    have hone := h.one j x hx
    rw [count_cons, beq_eq_false_iff_ne.2 (Ne.symm hne)] at hone
    exact hone

/-- With an idle server and an empty queue, every client is watched. -/
theorem mem_armed (h : Exact client armed [] []) (hk : client k o) : k ∈ armed o := by
  have hone := h.one k o hk
  rw [count_nil] at hone
  exact count_pos_iff.1 (by omega)

end Exact

end Tokens
