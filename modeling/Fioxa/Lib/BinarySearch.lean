import Mathlib.Tactic.Common

/-! # Binary search with a comparator

`search f l` is a binary search without an early exit: `f` says how an element compares with what is
searched for. The window shrinks by halves until one element is left, and only this element is
compared for equality. What is found always compares equal (`search_ok`); that nothing is missed
(`exists_search_ok`) and that a failed search names the place where the element belongs
(`search_error`) needs a list which `f` splits into smaller, equal and greater elements, in this
order (`Partitioned`). -/

namespace BinarySearch

open List Option

variable {α : Type} {f : α → Ordering} {l : List α} {i j fuel size base : Nat} {x y : α}

/-- The loop on the window of `size` elements from `base` on. The window loses an element in every
    turn, so that `size` turns are enough. -/
def narrow (f : α → Ordering) (l : List α) : Nat → Nat → Nat → Nat
  | 0, _, base => base
  | fuel + 1, size, base =>
    if size ≤ 1 then base
    else
      let half := size / 2
      let mid := base + half
      narrow f l fuel (size - half) (if l[mid]?.map f = some .gt then base else mid)

/-- The comparison with the one element that is left. -/
def settle (f : α → Ordering) (l : List α) (base : Nat) : Except Nat Nat :=
  match l[base]?.map f with
  | none => .error 0
  | some .eq => .ok base
  | some .lt => .error (base + 1)
  | some .gt => .error base

/-- The index of an element that compares equal, or else the index at which to insert. -/
def search (f : α → Ordering) (l : List α) : Except Nat Nat :=
  settle f l (narrow f l l.length l.length 0)

theorem search_ok (h : search f l = .ok i) : ∃ x, l[i]? = some x ∧ f x = .eq := by
  unfold search settle at h
  split at h
  · cases h
  · rename_i heq
    cases h
    exact map_eq_some_iff.1 heq
  · cases h
  · cases h

theorem narrow_congr {β : Type} {g : β → Ordering} {l' : List β} (h : l.map f = l'.map g) :
    narrow f l fuel size base = narrow g l' fuel size base := by
  induction fuel generalizing size base with
  | zero => rfl
  | succ fuel ih =>
    unfold narrow
    simp only [← List.getElem?_map, h, ih]

/-- The search sees an element only through the comparator. -/
theorem search_congr {β : Type} {g : β → Ordering} {l' : List β} (h : l.map f = l'.map g) :
    search f l = search g l' := by
  have hlen : l.length = l'.length := by
    rw [← length_map (f := f), h, length_map]
  unfold search settle
  rw [narrow_congr h, hlen]
  simp only [← List.getElem?_map, h]

/-- Smaller elements come first, greater ones last. -/
def Partitioned (f : α → Ordering) (l : List α) : Prop :=
  l.Pairwise fun x y => (f y = .lt → f x = .lt) ∧ (f x = .gt → f y = .gt)

theorem Partitioned.of_le (h : Partitioned f l) (hij : i ≤ j) (hx : l[i]? = some x)
    (hy : l[j]? = some y) : (f y = .lt → f x = .lt) ∧ (f x = .gt → f y = .gt) := by
  obtain rfl | hij := Nat.eq_or_lt_of_le hij
  · rw [hx, Option.some.injEq] at hy
    exact hy ▸ ⟨id, id⟩
  · obtain ⟨hi, rfl⟩ := List.getElem?_eq_some_iff.1 hx
    obtain ⟨hj, rfl⟩ := List.getElem?_eq_some_iff.1 hy
    exact pairwise_iff_getElem.1 h i j hi hj hij

/-- What the loop keeps: the window is inside the list, it starts at an element that is not greater
    (or at the first one), and everything behind it is greater. -/
structure Window (f : α → Ordering) (l : List α) (size base : Nat) : Prop where
  pos : 0 < size
  inside : base + size ≤ l.length
  first : base = 0 ∨ ∃ x, l[base]? = some x ∧ f x ≠ .gt
  behind : ∀ j x, base + size ≤ j → l[j]? = some x → f x = .gt

theorem Window.narrow (hp : Partitioned f l) (hfuel : size ≤ fuel + 1) (h : Window f l size base) :
    Window f l 1 (narrow f l fuel size base) := by
  induction fuel generalizing size base with
  | zero =>
    have hone : size = 1 := by
      have := h.pos
      omega
    exact hone ▸ h
  | succ fuel ih =>
    have hpos := h.pos
    have hinside := h.inside
    unfold BinarySearch.narrow
    split
    · have hone : size = 1 := by omega
      exact hone ▸ h
    · rename_i hsize
      have hmid : base + size / 2 < l.length := by omega
      obtain ⟨y, hy⟩ : ∃ y, l[base + size / 2]? = some y :=
        ⟨_, List.getElem?_eq_getElem hmid⟩
      apply ih (by omega)
      rw [hy]
      split
      · -- the middle element is greater, and so is everything behind it
        rename_i hgt
        refine ⟨by omega, by omega, h.first, ?_⟩
        intro j x hj hx
        exact (hp.of_le (by omega) hy hx).2 (Option.some.inj hgt)
      · rename_i hngt
        refine ⟨by omega, by omega, .inr ⟨y, hy, fun hgt => hngt (congrArg some hgt)⟩, ?_⟩
        intro j x hj hx
        exact h.behind j x (by omega) hx

theorem window_narrow (hp : Partitioned f l) (hpos : 0 < l.length) :
    Window f l 1 (narrow f l l.length l.length 0) := by
  apply Window.narrow hp (Nat.le_succ _)
  refine ⟨hpos, Nat.le_of_eq (Nat.zero_add _), .inl rfl, ?_⟩
  intro j x hj hx
  have hlt : j < l.length := (List.getElem?_eq_some_iff.1 hx).1
  omega

/-- A search that fails splits the list: smaller elements before the index, greater ones from it
    on. -/
theorem search_error (hp : Partitioned f l) (h : search f l = .error i) :
    (∀ x ∈ l.take i, f x = .lt) ∧ ∀ x ∈ l.drop i, f x = .gt := by
  by_cases hlen : l.length = 0
  · obtain rfl := length_eq_zero_iff.1 hlen
    simp
  have hw := window_narrow hp (Nat.pos_of_ne_zero hlen)
  have hinside := hw.inside
  have hbehind := hw.behind
  have hfirst := hw.first
  unfold search settle at h
  generalize narrow f l l.length l.length 0 = base at h hinside hbehind hfirst
  obtain ⟨y, hy⟩ : ∃ y, l[base]? = some y := ⟨_, List.getElem?_eq_getElem (by omega)⟩
  rw [hy] at h
  cases hf : f y with
  | eq => simp [hf] at h
  | lt =>
    simp only [map_some, hf, Except.error.injEq] at h
    subst h
    constructor
    · intro x hx
      obtain ⟨j, hj, rfl⟩ := mem_take_iff_getElem.1 hx
      exact (hp.of_le (by omega) (List.getElem?_eq_getElem (by omega)) hy).1 hf
    · intro x hx
      obtain ⟨j, hj, rfl⟩ := mem_drop_iff_getElem.1 hx
      exact hbehind _ _ (Nat.le_add_right ..) (List.getElem?_eq_getElem (by omega))
  | gt =>
    simp only [map_some, hf, Except.error.injEq] at h
    subst h
    -- only the first element of the list can be greater
    have hzero : base = 0 := by
      obtain hzero | ⟨x, hx, hngt⟩ := hfirst
      · exact hzero
      · rw [hy, Option.some.injEq] at hx
        exact absurd (hx ▸ hf) hngt
    constructor
    · simp [hzero]
    · intro x hx
      obtain ⟨j, hj, rfl⟩ := mem_drop_iff_getElem.1 hx
      exact (hp.of_le (Nat.le_add_right ..) hy (List.getElem?_eq_getElem (by omega))).2 hf

/-- In a partitioned list an element that compares equal is not missed. -/
theorem exists_search_ok (hp : Partitioned f l) (hx : x ∈ l) (heq : f x = .eq) :
    ∃ i, search f l = .ok i := by
  cases h : search f l with
  | ok i => exact ⟨i, rfl⟩
  | error i =>
    obtain ⟨hlt, hgt⟩ := search_error hp h
    rw [← take_append_drop i l] at hx
    rcases mem_append.1 hx with hx | hx
    · rw [hlt x hx] at heq
      cases heq
    · rw [hgt x hx] at heq
      cases heq

end BinarySearch
