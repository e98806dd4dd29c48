import Mathlib.Tactic.Common

/-! # What comes before and between the elements of a list

`Preceded p a l` says that an element with `a` comes before every element with `p`, and
`Separated p a l` that one comes between any two of them. Both are decided by going through the
list. -/

namespace Between

open List

variable {α : Type} {p a : α → Bool} {x : α} {l : List α}

def Preceded (p a : α → Bool) (l : List α) : Prop :=
  ∀ before x after, l = before ++ x :: after → p x = true → ∃ y ∈ before, a y = true

def Separated (p a : α → Bool) (l : List α) : Prop :=
  ∀ before x between y after, l = before ++ x :: (between ++ y :: after) →
    p x = true → p y = true → ∃ z ∈ between, a z = true

theorem preceded_of_forall (h : ∀ x ∈ l, p x = false) : Preceded p a l := by
  intro before x after hl hx
  rw [h x (hl ▸ by simp)] at hx
  cases hx

theorem preceded_cons :
    Preceded p a (x :: l) ↔ p x = false ∧ (a x = true ∨ Preceded p a l) := by
  constructor
  · intro h
    refine ⟨?_, ?_⟩
    · by_contra hx
      obtain ⟨y, hy, -⟩ := h [] x l rfl (Bool.not_eq_false _ ▸ hx)
      cases hy
    · by_cases ha : a x = true
      · exact .inl ha
      · refine .inr fun before y after hl hy => ?_
        obtain ⟨z, hz, haz⟩ := h (x :: before) y after (congrArg (x :: ·) hl) hy
        rcases mem_cons.1 hz with rfl | hz
        · exact absurd haz ha
        · exact ⟨z, hz, haz⟩
  · rintro ⟨hx, h⟩ before y after hl hy
    cases before with
    | nil =>
      cases hl
      rw [hx] at hy
      cases hy
    | cons z before =>
      cases hl
      rcases h with ha | h
      · exact ⟨x, .head _, ha⟩
      · obtain ⟨z, hz, haz⟩ := h before y after rfl hy
        exact ⟨z, .tail _ hz, haz⟩

theorem separated_nil : Separated p a [] := by
  intro before x between y after h
  simp at h

theorem separated_cons :
    Separated p a (x :: l) ↔ (p x = true → Preceded p a l) ∧ Separated p a l := by
  constructor
  · intro h
    refine ⟨fun hx before y after hl hy => ?_, fun before y between z after hl => ?_⟩
    · exact h [] x before y after (by rw [hl]; rfl) hx hy
    · exact h (x :: before) y between z after (congrArg (x :: ·) hl)
  · rintro ⟨hfirst, h⟩ before y between z after hl hy hz
    cases before with
    | nil =>
      cases hl
      exact hfirst hy between z after rfl hz
    | cons w before =>
      cases hl
      exact h before y between z after rfl hy hz

instance decidablePreceded (p a : α → Bool) : (l : List α) → Decidable (Preceded p a l)
  | [] => isTrue (preceded_of_forall (by simp))
  | _ :: l =>
    have := decidablePreceded p a l
    decidable_of_iff _ preceded_cons.symm

instance decidableSeparated (p a : α → Bool) : (l : List α) → Decidable (Separated p a l)
  | [] => isTrue separated_nil
  | _ :: l =>
    have := decidableSeparated p a l
    decidable_of_iff _ separated_cons.symm

/-- A list has an element with `p`, of which we take the first, or none. -/
theorem exists_first (p : α → Bool) (l : List α) : (∀ x ∈ l, p x = false) ∨
    ∃ before x after, l = before ++ x :: after ∧ p x = true ∧ ∀ y ∈ before, p y = false := by
  induction l with
  | nil => exact .inl (by simp)
  | cons x l ih =>
    cases hx : p x with
    | true => exact .inr ⟨[], x, l, rfl, hx, by simp⟩
    | false =>
      rcases ih with hnone | ⟨before, y, after, rfl, hy, hbefore⟩
      · exact .inl (forall_mem_cons.2 ⟨hx, hnone⟩)
      · exact .inr ⟨x :: before, y, after, rfl, hy, forall_mem_cons.2 ⟨hx, hbefore⟩⟩

/-- What holds of all beginnings of a list, by its first element. -/
theorem forall_prefix_cons {Q : List α → Prop} :
    (∀ l', l' <+: x :: l → Q l') ↔ Q [] ∧ ∀ l', l' <+: l → Q (x :: l') := by
  constructor
  · intro h
    exact ⟨h [] nil_prefix, fun l' hl' => h _ ((prefix_cons_inj x).2 hl')⟩
  · rintro ⟨hnil, hcons⟩ l' hl'
    obtain rfl | ⟨t, rfl, ht⟩ := prefix_cons_iff.1 hl'
    · exact hnil
    · exact hcons t ht

end Between
