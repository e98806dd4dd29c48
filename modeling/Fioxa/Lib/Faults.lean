import Mathlib.Tactic.Common

/-! # Errors and faults

A computation can end early in two ways: it returns an error, which its caller handles, or it is
ended by a fault. `Sound` says that no fault ends it. The rules below push `Sound`, and the equation
with a result, through the ways in which computations are built, so that for a concrete computation
both become conditions on its inputs. -/

/-- How a computation ends early. -/
inductive Stop (E F : Type) where
  | err (e : E)
  | fault (f : F)
deriving DecidableEq

namespace Faults

variable {E F α β : Type}

/-- No fault ends the computation. -/
def Sound (x : Except (Stop E F) α) : Prop := ∀ f, x ≠ .error (.fault f)

/-- The computation goes on only if `p` holds. -/
def ensure (p : Prop) [Decidable p] (stop : Stop E F) : Except (Stop E F) Unit :=
  if p then .ok () else .error stop

/-- The value of an option, which has to be there. -/
def unwrap (x : Option α) (stop : Stop E F) : Except (Stop E F) α :=
  match x with
  | some a => .ok a
  | none => .error stop

/-- How the computation has ended early, if it has. -/
def stopped : Except (Stop E F) α → Option (Stop E F)
  | .error stop => some stop
  | .ok _ => none

variable {x : Except (Stop E F) α} {k : α → Except (Stop E F) β} {stop : Stop E F} {p : Prop}
  [Decidable p] {o : Option α} {a : α} {b : β} {e : E} {f : F}

@[simp] theorem sound_ok : Sound (.ok a : Except (Stop E F) α) := by
  intro f h
  cases h

@[simp] theorem sound_pure : Sound (pure a : Except (Stop E F) α) := sound_ok

@[simp] theorem sound_err : Sound (.error (.err e) : Except (Stop E F) α) := by
  intro f h
  cases h

@[simp] theorem not_sound_fault : ¬ Sound (.error (.fault f) : Except (Stop E F) α) :=
  fun h => h f rfl

/-- A sequence is sound when its first part is, and the rest for the value that comes out of it. -/
theorem sound_bind : Sound (x >>= k) ↔ Sound x ∧ ∀ a, x = .ok a → Sound (k a) := by
  cases x with
  | ok => simp [bind, Except.bind]
  | error s => cases s <;> simp [bind, Except.bind]

theorem bind_eq_ok : (x >>= k) = .ok b ↔ ∃ a, x = .ok a ∧ k a = .ok b := by
  cases x <;> simp [bind, Except.bind]

theorem ensure_eq_ok {u : Unit} : ensure p stop = .ok u ↔ p := by
  unfold ensure
  split <;> simp_all

@[simp] theorem sound_ensure_err : Sound (ensure p (.err e : Stop E F)) := by
  unfold ensure
  split <;> simp

@[simp] theorem sound_ensure_fault : Sound (ensure p (.fault f : Stop E F)) ↔ p := by
  unfold ensure
  split <;> simp_all

theorem unwrap_eq_ok : unwrap o stop = .ok a ↔ o = some a := by
  cases o <;> simp [unwrap]

@[simp] theorem sound_unwrap_err : Sound (unwrap o (.err e : Stop E F)) := by
  cases o <;> simp [unwrap]

@[simp] theorem sound_unwrap_fault : Sound (unwrap o (.fault f : Stop E F)) ↔ o.isSome := by
  cases o <;> simp [unwrap]

theorem toOption_eq_some : x.toOption = some a ↔ x = .ok a := by
  cases x <;> simp [Except.toOption]

/-! ### The first step of a sequence -/

theorem sound_ensure_bind {k : Unit → Except (Stop E F) β} :
    Sound (ensure p (.fault f) >>= k) ↔ p ∧ Sound (k ()) := by
  rw [sound_bind, sound_ensure_fault]
  exact and_congr_right fun hp => ⟨fun h => h () (ensure_eq_ok.2 hp), fun h _ _ => h⟩

theorem sound_reject_bind {k : Unit → Except (Stop E F) β} :
    Sound (ensure p (.err e) >>= k) ↔ (p → Sound (k ())) := by
  rw [sound_bind, and_iff_right sound_ensure_err]
  exact ⟨fun h hp => h () (ensure_eq_ok.2 hp), fun h _ hok => h (ensure_eq_ok.1 hok)⟩

theorem sound_unwrap_bind : Sound (unwrap o (.fault f) >>= k) ↔ ∃ a, o = some a ∧ Sound (k a) := by
  cases o <;> simp [unwrap, sound_bind]

theorem sound_orErr_bind : Sound (unwrap o (.err e) >>= k) ↔ ∀ a, o = some a → Sound (k a) := by
  rw [sound_bind, and_iff_right sound_unwrap_err]
  simp only [unwrap_eq_ok]

theorem ensure_bind_eq_ok {k : Unit → Except (Stop E F) β} :
    (ensure p stop >>= k) = .ok b ↔ p ∧ k () = .ok b := by
  rw [bind_eq_ok]
  constructor
  · rintro ⟨u, hp, hk⟩
    exact ⟨ensure_eq_ok.1 hp, hk⟩
  · rintro ⟨hp, hk⟩
    exact ⟨(), ensure_eq_ok.2 hp, hk⟩

theorem unwrap_bind_eq_ok : (unwrap o stop >>= k) = .ok b ↔ ∃ a, o = some a ∧ k a = .ok b := by
  simp only [bind_eq_ok, unwrap_eq_ok]

/-! ## Computations without errors -/

/-- The computation does not return an error. -/
def NoErr (x : Except (Stop E F) α) : Prop := ∀ e, x ≠ .error (.err e)

@[simp] theorem noErr_ok : NoErr (.ok a : Except (Stop E F) α) := by
  intro e h
  cases h

@[simp] theorem noErr_ensure : NoErr (ensure p (.fault f : Stop E F)) := by
  unfold ensure
  intro e h
  split at h <;> cases h

theorem NoErr.bind (hx : NoErr x) (hk : ∀ a, NoErr (k a)) : NoErr (x >>= k) := by
  cases x with
  | ok a => exact hk a
  | error s =>
    cases s with
    | err e => exact absurd rfl (hx e)
    | fault =>
      intro e h
      cases h

/-! ## Exact conditions -/

/-- The computation returns if `p` holds, with a value that has `Q`, and otherwise a fault ends it.
    -/
structure Exact (x : Except (Stop E F) α) (p : Prop) (Q : α → Prop) : Prop where
  returns : p → ∃ a, x = .ok a ∧ Q a
  faults : ¬ p → ∃ f, x = .error (.fault f)

namespace Exact

variable {c q : Prop} {Q Q' : α → Prop} {R : β → Prop}

theorem pure (ha : Q a) : Exact (.ok a : Except (Stop E F) α) True Q :=
  ⟨fun _ => ⟨a, rfl, ha⟩, fun h => absurd trivial h⟩

theorem ensure {Q : Unit → Prop} (hQ : p → Q ()) : Exact (ensure p (.fault f : Stop E F)) p Q where
  returns hp := ⟨(), ensure_eq_ok.2 hp, hQ hp⟩
  faults hp := ⟨f, if_neg hp⟩

/-- The condition of the rest may not depend on the value, but `Q` can fix what it depends on. -/
theorem bind (hx : Exact x c Q) (hk : ∀ a, Q a → Exact (k a) q R) : Exact (x >>= k) (c ∧ q) R where
  returns h := by
    obtain ⟨a, rfl, ha⟩ := hx.returns h.1
    exact (hk a ha).returns h.2
  faults h := by
    by_cases hp : c
    · obtain ⟨a, rfl, ha⟩ := hx.returns hp
      exact (hk a ha).faults fun hq => h ⟨hp, hq⟩
    · obtain ⟨f, rfl⟩ := hx.faults hp
      exact ⟨f, rfl⟩

theorem ok_bind (hx : x = .ok a) (hk : Exact (k a) c R) : Exact (x >>= k) c R := by
  subst hx
  exact hk

theorem fault_bind (hx : x = .error (.fault f)) (hc : ¬ c) : Exact (x >>= k) c R := by
  subst hx
  exact ⟨fun h => absurd h hc, fun _ => ⟨f, rfl⟩⟩

theorem congr (hx : Exact x c Q) (hpq : c ↔ q) (hQ : ∀ a, q → Q a → Q' a) : Exact x q Q' where
  returns h := by
    obtain ⟨a, ha, hq⟩ := hx.returns (hpq.2 h)
    exact ⟨a, ha, hQ a h hq⟩
  faults h := hx.faults fun hp => h (hpq.1 hp)

theorem of_ok (hx : Exact x c Q) (h : x = .ok a) : c ∧ Q a := by
  by_cases hp : c
  · obtain ⟨a', ha', hQ⟩ := hx.returns hp
    obtain rfl := Except.ok.inj (h.symm.trans ha')
    exact ⟨hp, hQ⟩
  · obtain ⟨f, hf⟩ := hx.faults hp
    rw [h] at hf
    cases hf

theorem of_noErr (h : NoErr x) :
    Exact x x.toOption.isSome fun a => x.toOption = some a where
  returns hsome := by
    obtain ⟨a, ha⟩ := Option.isSome_iff_exists.1 hsome
    exact ⟨a, toOption_eq_some.1 ha, ha⟩
  faults hnone := by
    cases x with
    | ok => exact absurd rfl hnone
    | error s =>
      cases s with
      | err e => exact absurd rfl (h e)
      | fault f => exact ⟨f, rfl⟩

theorem noErr (hx : Exact x c Q) : NoErr x := by
  intro e h
  by_cases hp : c
  · obtain ⟨a, ha, -⟩ := hx.returns hp
    rw [h] at ha
    cases ha
  · obtain ⟨f, hf⟩ := hx.faults hp
    rw [h] at hf
    cases hf

theorem sound_iff (hx : Exact x c Q) : Sound x ↔ c := by
  constructor
  · intro h
    by_contra hp
    obtain ⟨f, hf⟩ := hx.faults hp
    exact h f hf
  · intro hp
    obtain ⟨a, ha, -⟩ := hx.returns hp
    rw [ha]
    exact sound_ok

end Exact

end Faults
