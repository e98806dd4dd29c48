import Mathlib.Data.Set.Basic
import Mathlib.Logic.Function.Basic
import Mathlib.Tactic.Common

/-! # Radix trees

A finite map whose keys are sequences of indices, kept as a tree of tables. An entry of a table is
empty, a table or a leaf; a leaf of height `m` leaves the last `m` indices of a key open and stands
for all keys that lead to it. Every table has a frame, the place where it is stored.

`Inserts` puts a leaf of a given height at a key and makes the tables that are missing, `erase`
drops the tables that become empty. What they mean for the map (`lookup`), for the set of frames in
use (`frames`), for the separation of the tables (`Apart`) and for the absence of empty tables
(`Full`) is proved here, so that a program that works on stored tables only has to be shown to store
these trees. What a tree is that has been built by a sequence of insertions can be said by the
sequence alone (`Built`): which leaves fit in (`Vacant`), which tables there are (`hasTable`) and
what the keys of each leaf lead to. -/

namespace Radix

open List Nat Function

/-- Trees of the given height. -/
inductive Tree (F I V : Type) : Nat → Type
  | empty {n : Nat} : Tree F I V n
  | leaf {n : Nat} (v : V) : Tree F I V n
  | table {n : Nat} (frame : F) (entry : I → Tree F I V n) : Tree F I V (n + 1)

namespace Tree

variable {F I V : Type} {n : Nat}

/-- The leaf that a key leads to, with its height. A table of height `n + 1` is indexed by `k n`. -/
@[simp] def lookup (k : Nat → I) : {n : Nat} → Tree F I V n → Option (Nat × V)
  | _, .empty => none
  | n, .leaf v => some (n, v)
  | _, .table (n := n) _ c => lookup k (c (k n))

/-- The frames of the tables. -/
@[simp] def frames : {n : Nat} → Tree F I V n → Set F
  | _, .empty | _, .leaf _ => ∅
  | _, .table f c => {g | g = f ∨ ∃ i, g ∈ frames (c i)}

/-- The frames of the tables that a key leads through. -/
@[simp] def path (k : Nat → I) : {n : Nat} → Tree F I V n → List F
  | _, .empty | _, .leaf _ => []
  | _, .table (n := n) f c => f :: path k (c (k n))

/-- Different tables have different frames. -/
@[simp] def Apart : {n : Nat} → Tree F I V n → Prop
  | _, .empty | _, .leaf _ => True
  | _, .table f c =>
    (∀ i, Apart (c i) ∧ f ∉ frames (c i)) ∧ ∀ i j, i ≠ j → ∀ g ∈ frames (c i), g ∉ frames (c j)

/-- No table is empty. -/
@[simp] def Full : {n : Nat} → Tree F I V n → Prop
  | _, .empty | _, .leaf _ => True
  | _, .table _ c => (∃ i, c i ≠ .empty) ∧ ∀ i, Full (c i)

/-- No table below the root is empty. -/
@[simp] def FullBelow : {n : Nat} → Tree F I V n → Prop
  | _, .empty | _, .leaf _ => True
  | _, .table _ c => ∀ i, Full (c i)

/-- There is room for a leaf of height `m`. -/
@[simp] def Vacant (m : Nat) (k : Nat → I) : {n : Nat} → Tree F I V n → Prop
  | _, .empty => True
  | _, .leaf _ => False
  | _, .table (n := n) _ c => m ≠ n + 1 ∧ Vacant m k (c (k n))

/-- The key leads through a table of height `h`. -/
@[simp] def hasTable (h : Nat) (k : Nat → I) : {n : Nat} → Tree F I V n → Bool
  | _, .empty | _, .leaf _ => false
  | _, .table (n := n) _ c => h = n + 1 || hasTable h k (c (k n))

/-- The number of tables that are missing on the way to a leaf of height `m`. -/
@[simp] def missing (m : Nat) (k : Nat → I) : {n : Nat} → Tree F I V n → Nat
  | n, .empty => n - m
  | _, .leaf _ => 0
  | _, .table (n := n) _ c => missing m k (c (k n))

/-- The keys agree on the indices from `h` on that a tree of height `n` looks at: they lead to the
    same entry of height `h`. -/
def Agree (h n : Nat) (k k' : Nat → I) : Prop := ∀ j, h ≤ j → j < n → k j = k' j

variable {k k' : Nat → I} {v v' : V} {f g : F} {c : I → Tree F I V n} {x : Tree F I V n}
  {h m m' : Nat} {taken : List F}

theorem agree_succ (hle : h ≤ n) : Agree h (n + 1) k k' ↔ k n = k' n ∧ Agree h n k k' := by
  constructor
  · intro ha
    exact ⟨ha n hle (lt_succ_self n), fun j hj hlt => ha j hj (lt_succ_of_lt hlt)⟩
  · rintro ⟨hn, ha⟩ j hj hlt
    rcases Nat.lt_succ_iff_lt_or_eq.1 hlt with hlt | rfl
    · exact ha j hj hlt
    · exact hn

theorem agree_of_le (hle : n ≤ h) : Agree h n k k' := by
  intro j hj hlt
  omega

theorem mem_frames_table : g ∈ frames (table f c) ↔ g = f ∨ ∃ i, g ∈ frames (c i) := Iff.rfl

theorem congr_of_agree (ha : Agree 0 n k k') : lookup k x = lookup k' x ∧ path k x = path k' x := by
  induction x with
  | empty | leaf => exact ⟨rfl, rfl⟩
  | @table n f c ih =>
    obtain ⟨hn, ha⟩ := (agree_succ (Nat.zero_le n)).1 ha
    simp only [lookup, path, hn, ih _ ha, and_self]

/-- A key for an entry of a table becomes a key for the table by adding the index. -/
theorem exists_extend (i : I) (k : Nat → I) :
    ∃ k', lookup k' (table f c) = lookup k (c i) ∧ path k' (table f c) = f :: path k (c i) := by
  have ha : Agree 0 n (update k n i) k := fun j _ hj => update_of_ne hj.ne _ _
  obtain ⟨hlookup, hpath⟩ := congr_of_agree (x := c i) ha
  refine ⟨update k n i, ?_, ?_⟩
  · rw [lookup, update_self, hlookup]
  · rw [path, update_self, hpath]

theorem mem_frames_of_mem_path (hf : f ∈ path k x) : f ∈ frames x := by
  induction x with
  | empty | leaf => cases hf
  | table g c ih => exact (mem_cons.1 hf).imp_right fun hf => ⟨_, ih _ hf⟩

/-- A tree without empty tables has a leaf. -/
theorem exists_lookup_of_full (k0 : Nat → I) (hx : Full x) (hne : x ≠ .empty) :
    ∃ k, (lookup k x).isSome := by
  induction x with
  | empty => exact absurd rfl hne
  | leaf => exact ⟨k0, rfl⟩
  | table f c ih =>
    obtain ⟨⟨i, hi⟩, hc⟩ := hx
    obtain ⟨k, hk⟩ := ih i (hc i) hi
    obtain ⟨k', hlookup, -⟩ := exists_extend (f := f) (c := c) i k
    exact ⟨k', hlookup ▸ hk⟩

/-- Without empty tables, every table is on the way to some leaf. -/
theorem exists_path_of_full (hx : Full x) (hf : f ∈ frames x) :
    ∃ k, (lookup k x).isSome ∧ f ∈ path k x := by
  induction x with
  | empty | leaf => cases hf
  | table g c ih =>
    obtain ⟨⟨i, hi⟩, hc⟩ := hx
    rcases hf with rfl | ⟨j, hf⟩
    · obtain ⟨k, hk⟩ := exists_lookup_of_full (fun _ => i) (hc i) hi
      obtain ⟨k', hlookup, hpath⟩ := exists_extend (f := f) (c := c) i k
      exact ⟨k', hlookup ▸ hk, hpath ▸ .head _⟩
    · obtain ⟨k, hk, hmem⟩ := ih j (hc j) hf
      obtain ⟨k', hlookup, hpath⟩ := exists_extend (f := g) (c := c) j k
      exact ⟨k', hlookup ▸ hk, hpath ▸ .tail _ hmem⟩

/-- Below a root that may be empty, every table is on the way to some leaf. -/
theorem mem_frames_iff_path (hc : FullBelow (table f c)) :
    g ∈ frames (table f c) ↔
      g = f ∨ ∃ k, (lookup k (table f c)).isSome ∧ g ∈ path k (table f c) := by
  constructor
  · rintro (rfl | ⟨i, hmem⟩)
    · exact .inl rfl
    · obtain ⟨k, hk, hg⟩ := exists_path_of_full (hc i) hmem
      obtain ⟨k', hlookup, hpath⟩ := exists_extend (f := f) (c := c) i k
      exact .inr ⟨k', hlookup ▸ hk, hpath ▸ .tail _ hg⟩
  · rintro (rfl | ⟨k, -, hg⟩)
    · exact .inl rfl
    · exact mem_frames_of_mem_path hg

theorem Full.below (hx : Full x) : FullBelow x := by
  cases x with
  | empty | leaf => trivial
  | table => exact hx.2

/-! ## Room for a leaf -/

/-- At its own height a leaf needs an empty entry. -/
theorem vacant_self {x : Tree F I V m} : Vacant m k x ↔ x = .empty := by
  cases x <;> simp

theorem vacant_of_lookup (hx : lookup k x = none) : Vacant 0 k x := by
  induction x with
  | empty => trivial
  | leaf => cases hx
  | table f c ih => exact ⟨(succ_ne_zero _).symm, ih _ hx⟩

theorem missing_le : missing m k x ≤ n - m := by
  induction x with
  | empty => exact Nat.le_refl _
  | leaf => exact Nat.zero_le _
  | table f c ih => exact (ih _).trans (by omega)

theorem hasTable_of_lt (hlt : n < h) : hasTable h k x = false := by
  induction x with
  | empty | leaf => rfl
  | table f c ih =>
    rw [hasTable, ih _ (by omega), Bool.or_false, decide_eq_false_iff_not]
    omega

/-- The missing tables, by their heights. -/
theorem missing_eq_count (hx : Vacant m k x) : missing m k x
    = ((List.range n).filter fun j => decide (m ≤ j) && !hasTable (j + 1) k x).length := by
  induction x with
  | @empty n =>
    clear hx
    simp only [missing, hasTable, Bool.not_false, Bool.and_true]
    induction n with
    | zero => simp
    | succ n ih =>
      rw [range_succ, filter_append, length_append, ← ih]
      by_cases hm : m ≤ n
      · simp only [hm, decide_true, filter_cons_of_pos, filter_nil, length_singleton]
        omega
      · simp only [hm, decide_false, Bool.false_eq_true, not_false_eq_true,
          filter_cons_of_neg, filter_nil, length_nil]
        omega
  | leaf => exact hx.elim
  | @table n f c ih =>
    rw [missing, ih _ hx.2, range_succ, filter_append]
    -- the table itself is not missing
    have hlast : ([n].filter fun j => decide (m ≤ j) && !hasTable (j + 1) k (table f c)) = [] := by
      simp
    rw [hlast, append_nil]
    refine congrArg List.length (filter_congr fun j hj => ?_)
    have hne : j + 1 ≠ n + 1 := by
      have := mem_range.1 hj
      omega
    rw [hasTable, decide_eq_false hne, Bool.false_or]

/-! ## Replacing an entry -/

variable [DecidableEq I] {i : I} {y : Tree F I V n}

theorem mem_frames_update :
    g ∈ frames (table f (update c i y)) ↔ g = f ∨ g ∈ frames y ∨ ∃ j, j ≠ i ∧ g ∈ frames (c j) := by
  rw [mem_frames_table]
  constructor
  · rintro (hg | ⟨j, hj⟩)
    · exact .inl hg
    · by_cases hji : j = i
      · subst hji
        rw [update_self] at hj
        exact .inr (.inl hj)
      · rw [update_of_ne hji] at hj
        exact .inr (.inr ⟨j, hji, hj⟩)
  · rintro (hg | hy | ⟨j, hji, hj⟩)
    · exact .inl hg
    · exact .inr ⟨i, by rwa [update_self]⟩
    · exact .inr ⟨j, by rwa [update_of_ne hji]⟩

/-- A tree may replace an entry if its frames are those of the entry or new ones. -/
theorem Apart.update (hx : Apart (table f c)) (hy : Apart y)
    (hnew : ∀ g ∈ frames y, g ∈ frames (c i) ∨ g ∉ frames (table f c)) :
    Apart (table f (update c i y)) := by
  obtain ⟨hc, hdisjoint⟩ := hx
  have hroot : f ∉ frames y := by
    intro hmem
    rcases hnew f hmem with hold | hother
    · exact (hc i).2 hold
    · exact hother (.inl rfl)
  have hother : ∀ j, j ≠ i → ∀ g ∈ frames y, g ∉ frames (c j) := by
    intro j hji g hg hgj
    rcases hnew g hg with hold | hout
    · exact hdisjoint i j hji.symm g hold hgj
    · exact hout (.inr ⟨j, hgj⟩)
  constructor
  · intro j
    by_cases hji : j = i
    · subst hji
      rw [update_self]
      exact ⟨hy, hroot⟩
    · rw [update_of_ne hji]
      exact hc j
  · intro j l hjl
    by_cases hji : j = i
    · subst hji
      rw [update_self, update_of_ne hjl.symm]
      exact hother l hjl.symm
    · by_cases hli : l = i
      · subst hli
        rw [update_self, update_of_ne hji]
        exact fun g hg hgy => hother j hji g hgy hg
      · rw [update_of_ne hji, update_of_ne hli]
        exact hdisjoint j l hjl

/-- Which frames of a table are kept is decided below the entry that changes. -/
theorem Apart.kept_iff (hx : Apart (table f c)) :
    (g ∈ frames (table f c) → g ∈ frames (table f (Function.update c i y))) ↔
      (g ∈ frames (c i) → g ∈ frames y) := by
  rw [mem_frames_update]
  constructor
  · intro hkept hmem
    rcases hkept (.inr ⟨i, hmem⟩) with rfl | hy | ⟨j, hji, hj⟩
    · exact absurd hmem (hx.1 i).2
    · exact hy
    · exact absurd hmem (hx.2 j i hji g hj)
  · rintro hkept (rfl | ⟨j, hj⟩)
    · exact .inl rfl
    · by_cases hji : j = i
      · exact .inr (.inl (hkept (hji ▸ hj)))
      · exact .inr (.inr ⟨j, hji, hj⟩)

theorem full_update (hc : ∀ j, Full (c j)) (hy : Full y) : ∀ j, Full (update c i y j) := by
  intro j
  by_cases hji : j = i
  · subst hji
    rwa [update_self]
  · rw [update_of_ne hji]
    exact hc j

/-! ## Inserting -/

/-- `y` is `x` with a leaf of height `m` at the key, and with tables in the frames `taken` where
    they are missing. An empty entry is filled like a new table. -/
inductive Inserts (m : Nat) (k : Nat → I) (v : V) :
    {n : Nat} → Tree F I V n → List F → Tree F I V n → Prop
  | leaf : Inserts m k v (n := m) .empty [] (.leaf v)
  | down {n : Nat} {f : F} {c : I → Tree F I V n} {taken : List F} {y : Tree F I V n}
      (hm : m ≤ n) (hy : Inserts m k v (c (k n)) taken y) :
      Inserts m k v (.table f c) taken (.table f (update c (k n) y))
  | new {n : Nat} {f : F} {taken : List F} {y : Tree F I V (n + 1)} (hm : m ≤ n)
      (hy : Inserts m k v (.table f fun _ => (.empty : Tree F I V n)) taken y) :
      Inserts m k v .empty (f :: taken) y

namespace Inserts

section

variable (hins : Inserts m k v x taken y)
include hins

theorem length_taken : taken.length = missing m k x := by
  induction hins with
  | leaf => simp
  | down hm hy ih => exact ih
  | new hm hy ih =>
    simp only [missing] at ih ⊢
    rw [length_cons, ih]
    omega

open scoped Classical in
theorem lookup_eq : lookup k' y = if Agree m n k k' then some (m, v) else lookup k' x := by
  induction hins with
  | leaf => rw [if_pos (agree_of_le (Nat.le_refl m))]; rfl
  | @down n f c taken y hm hy ih =>
    rw [lookup, lookup, agree_succ hm]
    by_cases hn : k n = k' n
    · rw [← hn, update_self, ih]
      simp
    · rw [update_of_ne (Ne.symm hn)]
      simp [hn]
  | new hm hy ih => exact ih

theorem lookup_eq_none (ha : Agree m n k k') : lookup k' x = none := by
  induction hins with
  | leaf | new => rfl
  | down hm hy ih =>
    obtain ⟨hn, ha⟩ := (agree_succ hm).1 ha
    rw [lookup, ← hn, ih ha]

/-- There is room for another leaf when there has been room before and the two do not meet. -/
theorem vacant_iff (hm' : m' ≤ n) :
    Vacant m' k' y ↔ Vacant m' k' x ∧ ¬ Agree (max m m') n k k' := by
  induction hins with
  | leaf =>
    have ha : Agree (max m m') m k k' := agree_of_le (Nat.le_max_left m m')
    simp [ha]
  | @down n f c taken y hm hy ih =>
    by_cases heq : m' = n + 1
    · simp [heq]
    · have hle : m' ≤ n := le_of_lt_succ (Nat.lt_of_le_of_ne hm' heq)
      rw [Vacant, Vacant, agree_succ (Nat.max_le.2 ⟨hm, hle⟩)]
      by_cases hn : k n = k' n
      · rw [← hn, update_self, ih hle]
        simp [heq]
      · rw [update_of_ne (Ne.symm hn)]
        simp [hn]
  | @new n f taken y hm hy ih =>
    rw [ih hm']
    by_cases heq : m' = n + 1
    · have ha : Agree (max m m') (n + 1) k k' := agree_of_le (heq ▸ Nat.le_max_right m _)
      simp [ha]
    · simp [heq]

theorem hasTable_iff :
    hasTable h k' y = true ↔ hasTable h k' x = true ∨ m < h ∧ h ≤ n ∧ Agree h n k k' := by
  induction hins with
  | leaf =>
    simp only [hasTable, Bool.false_eq_true, false_or, false_iff]
    omega
  | @down n f c taken y hm hy ih =>
    rw [hasTable, hasTable, Bool.or_eq_true, Bool.or_eq_true, decide_eq_true_eq]
    rcases Nat.lt_trichotomy h (n + 1) with hlt | hh | hlt
    · have hle : h ≤ n := le_of_lt_succ hlt
      rw [agree_succ hle]
      by_cases hn : k n = k' n
      · rw [← hn, update_self, ih, or_assoc]
        simp [hle, le_succ_of_le hle]
      · rw [update_of_ne (Ne.symm hn)]
        simp [hn]
    · simp [hh]
    · rw [hasTable_of_lt (by omega), hasTable_of_lt (by omega)]
      simp only [Bool.false_eq_true, or_false]
      omega
  | @new n f taken y hm hy ih =>
    rw [ih]
    simp only [hasTable, Bool.or_false, decide_eq_true_eq, Bool.false_eq_true, false_or,
      or_iff_right_iff_imp]
    rintro rfl
    exact ⟨lt_succ_of_le hm, Nat.le_refl _, agree_of_le (Nat.le_refl _)⟩

theorem mem_frames_iff : g ∈ frames y ↔ g ∈ frames x ∨ g ∈ taken := by
  induction hins with
  | leaf => simp
  | @down n f c taken y hm hy ih =>
    rw [mem_frames_update, ih, mem_frames_table]
    constructor
    · rintro (hg | (hg | hg) | ⟨j, -, hg⟩)
      · exact .inl (.inl hg)
      · exact .inl (.inr ⟨_, hg⟩)
      · exact .inr hg
      · exact .inl (.inr ⟨j, hg⟩)
    · rintro ((hg | ⟨j, hg⟩) | hg)
      · exact .inl hg
      · by_cases hj : j = k n
        · exact .inr (.inl (.inl (hj ▸ hg)))
        · exact .inr (.inr ⟨j, hj, hg⟩)
      · exact .inr (.inl (.inr hg))
  | new hm hy ih => simp [ih]

theorem apart (hx : Apart x) (hnodup : taken.Nodup) (hfresh : ∀ g ∈ taken, g ∉ frames x) :
    Apart y := by
  induction hins with
  | leaf => trivial
  | @down n f c taken y hm hy ih =>
    have hbelow : ∀ g ∈ taken, g ∉ frames (c (k n)) :=
      fun g hg hmem => hfresh g hg (.inr ⟨_, hmem⟩)
    refine hx.update (ih (hx.1 _).1 hnodup hbelow) fun g hg => ?_
    exact (hy.mem_frames_iff.1 hg).imp_right (hfresh g)
  | @new n f taken y hm hy ih =>
    obtain ⟨hf, hnodup⟩ := nodup_cons.1 hnodup
    refine ih (by simp) hnodup fun g hg => ?_
    rintro (rfl | ⟨-, ⟨⟩⟩)
    exact hf hg

theorem ne_empty : y ≠ .empty := by
  induction hins with
  | leaf | down => simp
  | new hm hy ih => exact ih

theorem full (hx : FullBelow x) : Full y := by
  induction hins with
  | leaf => trivial
  | @down n f c taken y hm hy ih =>
    refine ⟨⟨k n, ?_⟩, full_update hx (ih (hx _).below)⟩
    rw [update_self]
    exact hy.ne_empty
  | new hm hy ih => exact ih fun _ => trivial

end

end Inserts

/-! ## Erasing -/

open scoped Classical in
/-- A table without entries is dropped. -/
noncomputable def prune : {n : Nat} → Tree F I V n → Tree F I V n
  | _, .empty => .empty
  | _, .leaf v => .leaf v
  | _, .table f c => if ∀ i, c i = .empty then .empty else .table f c

/-- The tree without the leaf at the key. -/
noncomputable def erase (k : Nat → I) : {n : Nat} → Tree F I V n → Tree F I V n
  | _, .empty | _, .leaf _ => .empty
  | _, .table (n := n) f c => .table f (update c (k n) (prune (erase k (c (k n)))))

omit [DecidableEq I] in
theorem prune_cases : prune x = x ∨ prune x = .empty ∧ ∀ k, lookup k x = none := by
  cases x with
  | empty | leaf => exact .inl rfl
  | table f c =>
    rw [prune]
    split
    · rename_i hempty
      refine .inr ⟨rfl, fun k => ?_⟩
      rw [lookup, hempty]
      rfl
    · exact .inl rfl

omit [DecidableEq I] in
theorem lookup_prune : lookup k (prune x) = lookup k x := by
  rcases prune_cases (x := x) with heq | ⟨heq, hnone⟩
  · rw [heq]
  · rw [heq, hnone]
    rfl

omit [DecidableEq I] in
theorem frames_prune_subset : frames (prune x) ⊆ frames x := by
  rcases prune_cases (x := x) with heq | ⟨heq, -⟩
  · rw [heq]
  · rw [heq]
    exact Set.empty_subset _

omit [DecidableEq I] in
theorem Apart.prune (hx : Apart x) : Apart (prune x) := by
  rcases prune_cases (x := x) with heq | ⟨heq, -⟩
  · rwa [heq]
  · rw [heq]
    trivial

open scoped Classical in
theorem lookup_erase (hk : ∀ r ∈ lookup k x, r.1 = 0) :
    lookup k' (erase k x) = if Agree 0 n k k' then none else lookup k' x := by
  induction x with
  | empty => simp [erase]
  | leaf v =>
    rw [if_pos (agree_of_le (Nat.le_of_eq (hk _ rfl)))]
    rfl
  | @table n f c ih =>
    rw [erase, lookup, lookup, agree_succ (Nat.zero_le n)]
    by_cases hn : k n = k' n
    · rw [← hn, update_self, lookup_prune, ih _ hk]
      simp
    · rw [update_of_ne (Ne.symm hn)]
      simp [hn]

theorem frames_erase_subset : frames (erase k x) ⊆ frames x := by
  induction x with
  | empty | leaf => exact Set.Subset.rfl
  | table f c ih =>
    intro g hg
    rw [erase, mem_frames_update] at hg
    rcases hg with hf | hg | ⟨j, -, hg⟩
    · exact .inl hf
    · exact .inr ⟨_, ih _ (frames_prune_subset hg)⟩
    · exact .inr ⟨j, hg⟩

theorem Apart.erase (hx : Apart x) : Apart (erase k x) := by
  induction x with
  | empty | leaf => trivial
  | table f c ih =>
    refine hx.update (ih _ (hx.1 _).1).prune fun g hg => ?_
    exact .inl (frames_erase_subset (frames_prune_subset hg))

/-- Below the root of the result no table is empty, and `prune` drops a root that is. -/
theorem full_prune_erase (hx : Full x) : Full (prune (erase k x)) := by
  induction x with
  | empty | leaf => trivial
  | table f c ih =>
    rw [erase, prune]
    split
    · trivial
    · rename_i hne
      exact ⟨not_forall.1 hne, full_update hx.2 (ih _ (hx.2 _))⟩

/-! ## Sequences of insertions -/

/-- A leaf and the key it is inserted at. -/
structure Item (I V : Type) where
  height : Nat
  key : Nat → I
  value : V

omit [DecidableEq I] in
/-- What the tree of height `n + 1` looks like after the items have been inserted into a table. -/
structure Built (items : List (Item I V)) (x : Tree F I V (n + 1)) : Prop where
  vacant : ∀ m k, m ≤ n →
    (Vacant m k x ↔ ∀ a ∈ items, ¬ Agree (max a.height m) (n + 1) a.key k)
  tables : ∀ h k, h ≤ n →
    (hasTable h k x = true ↔ ∃ a ∈ items, a.height < h ∧ Agree h (n + 1) a.key k)
  lookup : ∀ a ∈ items, ∀ k, Agree a.height (n + 1) a.key k →
    x.lookup k = some (a.height, a.value)

omit [DecidableEq I] in
theorem Built.nil : Built [] (table f fun _ : I => (empty : Tree F I V n)) where
  vacant m k hm := by
    simp only [Vacant, and_true, not_mem_nil, false_implies, implies_true, iff_true]
    omega
  tables h k hh := by
    simp only [hasTable, Bool.or_false, decide_eq_true_eq, not_mem_nil, false_and,
      exists_false, iff_false]
    omega
  lookup a ha := by cases ha

theorem Built.insert {items : List (Item I V)} {a : Item I V} {x y : Tree F I V (n + 1)}
    (hb : Built items x) (hins : Inserts a.height a.key a.value x taken y) :
    Built (items ++ [a]) y where
  vacant m k hm := by
    rw [hins.vacant_iff (le_succ_of_le hm), hb.vacant m k hm, forall_mem_append,
      forall_mem_singleton]
  tables h k hh := by
    rw [hins.hasTable_iff, hb.tables h k hh]
    simp only [mem_append, mem_singleton, or_and_right, exists_or, exists_eq_left,
      le_succ_of_le hh, true_and]
  lookup b hmem k hagree := by
    rw [hins.lookup_eq]
    rcases mem_append.1 hmem with hmem | hmem
    · have hb := hb.lookup b hmem k hagree
      rw [if_neg fun ha => ?_, hb]
      rw [hins.lookup_eq_none ha] at hb
      cases hb
    · obtain rfl := mem_singleton.1 hmem
      exact if_pos hagree

end Tree

end Radix
