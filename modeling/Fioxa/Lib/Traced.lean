import Mathlib.Tactic.Common

/-! # Computations with a trace

A computation that may fail and that leaves a trace of events behind, also when it fails. `All P m`
says that every event of `m` satisfies `P`; the rules below push it through the ways in which
computations are built, so that for a concrete one it becomes a condition on its inputs. -/

/-- The result of a computation and the events on the way to it. -/
structure Traced (E A α : Type) where
  result : Except E α
  trace : List A

namespace Traced

variable {E A α β : Type}

/-- The computation that fails. -/
def fail (e : E) : Traced E A α := ⟨.error e, []⟩

/-- One event, which gives a value. -/
def event (a : A) (x : α) : Traced E A α := ⟨.ok x, [a]⟩

/-- A computation without events. -/
def lift (x : Except E α) : Traced E A α := ⟨x, []⟩

/-- The value of an option, or failure. -/
def require (e : E) : Option α → Traced E A α
  | some x => ⟨.ok x, []⟩
  | none => fail e

/-- The computation with another view of its events. -/
def mapTrace (f : A → A) (m : Traced E A α) : Traced E A α := ⟨m.result, m.trace.map f⟩

instance : Monad (Traced E A) where
  pure x := ⟨.ok x, []⟩
  bind m f :=
    match m.result with
    | .error e => ⟨.error e, m.trace⟩
    | .ok x => ⟨(f x).result, m.trace ++ (f x).trace⟩

/-- Every event satisfies `P`. -/
def All (P : A → Prop) (m : Traced E A α) : Prop := ∀ a ∈ m.trace, P a

variable {P : A → Prop} {f : α → Traced E A β}

@[simp] theorem all_pure (x : α) : All P (pure x : Traced E A α) := by
  intro a ha
  cases ha

@[simp] theorem all_fail (e : E) : All P (fail e : Traced E A α) := by
  intro a ha
  cases ha

variable {a : A} {x : α}

@[simp] theorem all_event : All P (event a x : Traced E A α) ↔ P a := by
  simp [All, event]

theorem all_lift {x : Except E α} : All P (lift x : Traced E A α) := by
  intro a ha
  cases ha

variable {m : Traced E A α}

theorem bind_eq : m >>= f = match m.result with
    | .error e => ⟨.error e, m.trace⟩
    | .ok x => ⟨(f x).result, m.trace ++ (f x).trace⟩ := rfl

theorem lawfulMonad : LawfulMonad (Traced E A) := by
  refine LawfulMonad.mk' _ ?_ (fun _ _ => rfl) ?_
  · rintro α ⟨result, trace⟩
    cases result with
    | error => rfl
    | ok x => exact congrArg (Traced.mk (.ok x)) (List.append_nil trace)
  · intro α β γ m f g
    simp only [bind_eq]
    cases m.result with
    | error => rfl
    | ok x => cases h : (f x).result <;> simp [h]

/-- The events of a sequence are those of its first part and, if it has a value, of the rest. -/
theorem all_bind : All P (m >>= f) ↔ All P m ∧ ∀ x, m.result = .ok x → All P (f x) := by
  rw [bind_eq]
  cases hm : m.result with
  | error => simp [All]
  | ok => simp [All, or_imp, forall_and]

/-- The result of a sequence, from results of its parts. -/
theorem result_bind_eq {x : Except E α} {k : α → Except E β} (hm : m.result = x)
    (hf : ∀ a, (f a).result = k a) : (m >>= f).result = x >>= k := by
  subst hm
  rw [bind_eq]
  cases hm : m.result with
  | error => rfl
  | ok a => exact hf a

/-- The events of a sequence whose first part has a value. -/
theorem trace_bind (hm : m.result = .ok x) : (m >>= f).trace = m.trace ++ (f x).trace := by
  rw [bind_eq]
  rw [hm]

theorem mem_trace_bind (h : a ∈ m.trace) : a ∈ (m >>= f).trace := by
  rw [bind_eq]
  cases m.result with
  | error => exact h
  | ok => exact List.mem_append_left _ h

theorem all_lift_bind {x : Except E α} : All P (lift x >>= f) ↔ ∀ a, x = .ok a → All P (f a) :=
  all_bind.trans (and_iff_right all_lift)

@[simp] theorem all_bind_pure {g : α → β} : All P (m >>= fun x => pure (g x)) ↔ All P m := by
  simp [all_bind]

@[simp] theorem all_event_bind : All P (event a x >>= f) ↔ P a ∧ All P (f x) := by
  rw [all_bind, all_event]
  simp [event]

@[simp] theorem all_require_bind {e : E} {o : Option α} :
    All P (require e o >>= f) ↔ ∀ x, o = some x → All P (f x) := by
  rw [all_bind]
  cases o with
  | none => simp [require, fail, All]
  | some => simp [require, All]

@[simp] theorem all_mapTrace {g : A → A} : All P (mapTrace g m) ↔ All (fun a => P (g a)) m := by
  simp [All, mapTrace]

end Traced
