import Mathlib.Data.List.Nodup
import Mathlib.Logic.Function.Basic

/-! # Intrusive FIFO queues

A queue whose links live in its elements: the queue itself keeps only its two ends, and every
element carries a link to the element behind it and a flag that says whether it is queued at all.
Linking an element twice, or linking it while it still has a successor, would corrupt the list, so
`push` has assertions that can fail (`none`).

`Represents q l` is the abstraction: following the links from the head of `q` reads off the list
`l`, without repetitions, and the flags are the membership in `l`. On queues that represent a list
the operations are those of the list, and no assertion fails. -/

namespace Intrusive

open List Function Option

/-- The two ends of the queue and the fields of its elements. -/
structure Queue (T : Type) where
  head : Option T
  tail : Option T
  queued : T → Bool
  next : T → Option T

namespace Queue

variable {T : Type}

/-- No element is queued. -/
def empty : Queue T where
  head := none
  tail := none
  queued _ := false
  next _ := none

variable [DecidableEq T]

/-- Takes the element at the head, together with the queue that is left. -/
def pop (q : Queue T) : Option (T × Queue T) :=
  match q.head with
  | none => none
  | some x =>
    some (x,
      { head := q.next x
        tail := if q.next x = none then none else q.tail
        queued := update q.queued x false
        next := update q.next x none })

/-- Links `x` behind the tail, unless it is queued already; `none` when an assertion fails. -/
def push (q : Queue T) (x : T) : Option (Queue T) :=
  if q.queued x then some q
  else
    match q.head, q.tail with
    | none, none =>
      some { q with head := some x, tail := some x, queued := update q.queued x true }
    | none, some _ => none
    | some _, none => some { q with tail := some x, queued := update q.queued x true }
    | some _, some t =>
      if q.next t = none then
        some { q with
          tail := some x
          queued := update q.queued x true
          next := update q.next t (some x) }
      else none

/-! ## The represented list -/

/-- Every element of the list is linked to the one behind it, the last one to nothing. -/
def Linked (next : T → Option T) : List T → Prop
  | [] => True
  | x :: l => next x = l.head? ∧ Linked next l

/-- The queue is the list `l`. -/
structure Represents (q : Queue T) (l : List T) : Prop where
  head : q.head = l.head?
  tail : q.tail = l.getLast?
  linked : Linked q.next l
  nodup : l.Nodup
  queued : ∀ x, q.queued x = true ↔ x ∈ l
  loose : ∀ x, x ∉ l → q.next x = none

omit [DecidableEq T] in
theorem Represents.empty : (empty : Queue T).Represents [] where
  head := rfl
  tail := rfl
  linked := trivial
  nodup := nodup_nil
  queued x := by simp [Queue.empty]
  loose _ _ := rfl

variable {next : T → Option T} {l : List T}

omit [DecidableEq T] in
theorem Linked.congr {next' : T → Option T} (h : Linked next l) (heq : ∀ x ∈ l, next' x = next x) :
    Linked next' l := by
  induction l with
  | nil => trivial
  | cons x l ih =>
    refine ⟨(heq x (.head _)).trans h.1, ih h.2 fun y hy => ?_⟩
    exact heq y (.tail x hy)

omit [DecidableEq T] in
theorem Linked.last {t : T} (h : Linked next l) (ht : l.getLast? = some t) : next t = none := by
  induction l with
  | nil => cases ht
  | cons x l ih =>
    cases l with
    | nil =>
      rw [List.getLast?_singleton, some.injEq] at ht
      exact ht ▸ h.1
    | cons =>
      rw [List.getLast?_cons_cons] at ht
      exact ih h.2 ht

variable {x : T}

/-- Linking a new element behind the last one extends the list by it. -/
theorem Linked.snoc {t : T} (h : Linked next l) (hn : l.Nodup) (ht : l.getLast? = some t)
    (hx : x ∉ l) (hxn : next x = none) :
    Linked (update next t (some x)) (l ++ [x]) := by
  induction l with
  | nil => cases ht
  | cons y l ih =>
    have hxl : x ∉ l := fun hmem => hx (.tail y hmem)
    cases l with
    | nil =>
      rw [List.getLast?_singleton, some.injEq] at ht
      subst ht
      have hxy : x ≠ y := fun heq => hx (heq ▸ .head _)
      refine ⟨update_self .., ?_, trivial⟩
      rw [update_of_ne hxy, hxn]
      rfl
    | cons z l =>
      rw [List.getLast?_cons_cons] at ht
      -- the link that changes is the last one, and `y` is not the last element
      have htl : t ∈ z :: l := List.mem_of_getLast? ht
      have hyt : y ≠ t := fun heq => (nodup_cons.1 hn).1 (heq ▸ htl)
      refine ⟨?_, ih h.2 (nodup_cons.1 hn).2 ht hxl⟩
      rw [update_of_ne hyt]
      exact h.1

/-! ## The operations on the represented list -/

variable {q : Queue T}

theorem Represents.pop_nil (h : q.Represents []) : q.pop = none := by
  have hhead : q.head = none := h.head
  rw [pop, hhead]

theorem Represents.pop_cons (h : q.Represents (x :: l)) :
    ∃ q', q.pop = some (x, q') ∧ q'.Represents l := by
  have hhead : q.head = some x := h.head
  obtain ⟨hx, hl⟩ := nodup_cons.1 h.nodup
  have hne : ∀ y ∈ l, y ≠ x := fun y hy heq => hx (heq ▸ hy)
  refine ⟨_, by rw [pop, hhead], ?_⟩
  refine
    { head := h.linked.1
      tail := ?_
      linked := h.linked.2.congr fun y hy => update_of_ne (hne y hy) ..
      nodup := hl
      queued := fun y => ?_
      loose := fun y hy => ?_ }
  · have hnext : q.next x = l.head? := h.linked.1
    cases l with
    | nil => simp [hnext]
    | cons => simp [hnext, h.tail]
  · rcases eq_or_ne y x with rfl | hyx
    · simp [hx]
    · simp only [update_of_ne hyx, h.queued y, mem_cons, or_iff_right hyx]
  · rcases eq_or_ne y x with rfl | hyx
    · simp
    · refine (update_of_ne hyx ..).trans ?_
      exact h.loose y fun hmem => (mem_cons.1 hmem).elim hyx hy

/-- What `pop` returns is the first element, and the queue that is left is the rest. -/
theorem Represents.of_pop {q' : Queue T} (h : q.Represents l) (hpop : q.pop = some (x, q')) :
    ∃ l', l = x :: l' ∧ q'.Represents l' := by
  cases l with
  | nil => rw [h.pop_nil] at hpop; cases hpop
  | cons y l' =>
    obtain ⟨q'', hq'', hrep⟩ := h.pop_cons
    rw [hq'', some.injEq, Prod.mk.injEq] at hpop
    obtain ⟨rfl, rfl⟩ := hpop
    exact ⟨l', rfl, hrep⟩

/-- Pushing an element that is not queued succeeds and appends it. -/
theorem Represents.push_new (h : q.Represents l) (hx : x ∉ l) :
    ∃ q', q.push x = some q' ∧ q'.Represents (l ++ [x]) := by
  have hq : q.queued x = false := by rw [← Bool.not_eq_true, h.queued x]; exact hx
  have hnodup : (l ++ [x]).Nodup :=
    h.nodup.append (nodup_singleton x) (disjoint_singleton.2 hx)
  have hqueued : ∀ y, update q.queued x true y = true ↔ y ∈ l ++ [x] := by
    intro y
    rw [mem_append, mem_singleton]
    rcases eq_or_ne y x with rfl | hyx
    · simp
    · rw [update_of_ne hyx, h.queued y, or_iff_left hyx]
  cases l with
  | nil =>
    have hhead : q.head = none := h.head
    have htail : q.tail = none := h.tail
    refine ⟨_, by rw [push, hq, hhead, htail]; rfl, ?_⟩
    refine
      { head := rfl
        tail := rfl
        linked := ⟨h.loose x hx, trivial⟩
        nodup := hnodup
        queued := hqueued
        loose := fun y _ => h.loose y (not_mem_nil) }
  | cons y l =>
    have hhead : q.head = some y := h.head
    obtain ⟨t, ht⟩ : ∃ t, (y :: l).getLast? = some t :=
      ⟨_, List.getLast?_eq_some_getLast (cons_ne_nil y l)⟩
    have htail : q.tail = some t := h.tail.trans ht
    have hnext : q.next t = none := h.linked.last ht
    refine ⟨_, by rw [push, hq, hhead, htail]; simp only [hnext]; rfl, ?_⟩
    refine
      { head := rfl
        tail := List.getLast?_concat.symm
        linked := h.linked.snoc h.nodup ht hx (h.loose x hx)
        nodup := hnodup
        queued := hqueued
        loose := fun z hz => ?_ }
    have hzl : z ∉ y :: l := fun hmem => hz (mem_append_left _ hmem)
    have hzt : z ≠ t := fun heq => hzl (heq ▸ List.mem_of_getLast? ht)
    exact (update_of_ne hzt ..).trans (h.loose z hzl)

end Queue

/-! ## Lists kept by their head alone

A free list is such a list: its elements are pushed and popped at the head, and the links live in
the elements. -/

variable {T : Type} {next next' : T → Option T} {head : Option T} {l : List T} {x : T}

/-- Following the links from `head` reads off `l`. -/
structure Threaded (next : T → Option T) (head : Option T) (l : List T) : Prop where
  head_eq : head = l.head?
  linked : Queue.Linked next l

/-- The element that is `k` links behind `head`. -/
def follow (next : T → Option T) : Nat → Option T → Option T
  | 0, head => head
  | k + 1, head => follow next k (head.bind next)

namespace Threaded

theorem nil : Threaded next none [] := ⟨rfl, trivial⟩

theorem congr (h : Threaded next head l) (heq : ∀ x ∈ l, next' x = next x) :
    Threaded next' head l :=
  ⟨h.head_eq, h.linked.congr heq⟩

theorem push (h : Threaded next head l) (hx : next' x = head) (heq : ∀ y ∈ l, next' y = next y) :
    Threaded next' (some x) (x :: l) :=
  ⟨rfl, hx.trans h.head_eq, h.linked.congr heq⟩

theorem pop (h : Threaded next (some x) l) : ∃ l', l = x :: l' ∧ Threaded next (next x) l' := by
  cases l with
  | nil => cases h.head_eq
  | cons y l' =>
    obtain rfl : x = y := some.inj h.head_eq
    exact ⟨l', rfl, h.linked.1, h.linked.2⟩

theorem eq_nil (h : Threaded next none l) : l = [] :=
  List.head?_eq_none_iff.1 h.head_eq.symm

theorem unique {l' : List T} (h : Threaded next head l) (h' : Threaded next head l') : l = l' := by
  induction l generalizing head l' with
  | nil =>
    cases h.head_eq
    exact h'.eq_nil.symm
  | cons x l ih =>
    cases h.head_eq
    obtain ⟨l1, rfl, h1⟩ := h'.pop
    obtain ⟨l2, heq, h2⟩ := h.pop
    cases heq
    rw [ih h2 h1]

theorem mem_of_follow {k : Nat} (h : Threaded next head l) (hk : follow next k head = some x) :
    x ∈ l := by
  induction k generalizing head l with
  | zero => exact List.mem_of_mem_head? (h.head_eq.symm.trans hk)
  | succ k ih =>
    cases head with
    | none =>
      have hnone : ∀ j, follow next j (none : Option T) = none := by
        intro j
        induction j with
        | zero => rfl
        | succ j ihj => exact ihj
      cases (hnone _).symm.trans hk
    | some y =>
      obtain ⟨l', rfl, htail⟩ := h.pop
      exact .tail y (ih htail hk)

end Threaded

end Intrusive
