import Mathlib.Logic.Relation
import Mathlib.Tactic.Common

/-! # Labelled systems and their runs

A system is a partial step function `step : S → A → Option S`: `step s a` is the state after
action `a`, `none` when `a` is not enabled in `s`. A run is a list of actions, so an interleaving of
several parties is simply a list of the actions each of them takes.

Three notions over runs are enough for everything built on top:

* `run step s as` — the state after the whole list (`none` if some action is not enabled);
* `Always step P s as` — `P` holds in every state the run visits, the first one included;
* `Guarded step C s as` — every action that is taken meets the condition `C` in the state it is
  taken in.

The rules below turn one-step lemmas into facts about whole runs, so that no proof about a concrete
system has to repeat the induction. -/

namespace Lts

open Option

variable {S A : Type} {step : S → A → Option S}

/-- The state after executing a list of actions, each of which has to be enabled. -/
def run (step : S → A → Option S) : S → List A → Option S
  | s, [] => some s
  | s, a :: as => (step s a).bind (fun t => run step t as)

/-- `P` holds in the start state and in every state the run goes through. -/
def Always (step : S → A → Option S) (P : S → Prop) : S → List A → Prop
  | s, [] => P s
  | s, a :: as => P s ∧ ∀ t, step s a = some t → Always step P t as

/-- Every action the run takes meets `C` in the state before it. -/
def Guarded (step : S → A → Option S) (C : S → A → Prop) : S → List A → Prop
  | _, [] => True
  | s, a :: as => ∀ t, step s a = some t → C s a ∧ Guarded step C t as

instance decidableGuarded (step : S → A → Option S) (C : S → A → Prop) [∀ s a, Decidable (C s a)] :
    ∀ s as, Decidable (Guarded step C s as)
  | _, [] => isTrue trivial
  | s, a :: as =>
    match h : step s a with
    | none => isTrue fun t ht => absurd (h.symm.trans ht) (by simp)
    | some u =>
      have := decidableGuarded step C u as
      decidable_of_iff (C s a ∧ Guarded step C u as)
        ⟨fun hu t ht => some.inj (h.symm.trans ht) ▸ hu, fun hu => hu u h⟩

/-- `t` can be reached from `s` by some run. -/
def Reachable (step : S → A → Option S) (s t : S) : Prop :=
  ∃ as, run step s as = some t

/-! ## Runs -/

@[simp] theorem run_nil (s : S) : run step s [] = some s := rfl

theorem run_cons (s : S) (a : A) (as : List A) :
    run step s (a :: as) = (step s a).bind (fun t => run step t as) := rfl

variable {s : S} {as : List A}

theorem run_cons_eq_some {u : S} {a : A} :
    run step s (a :: as) = some u ↔ ∃ t, step s a = some t ∧ run step t as = some u := by
  rw [run_cons, bind_eq_some_iff]

theorem run_append (s : S) (as bs : List A) :
    run step s (as ++ bs) = (run step s as).bind (fun t => run step t bs) := by
  induction as generalizing s with
  | nil => rfl
  | cons a as ih =>
    rw [List.cons_append, run_cons, run_cons]
    cases step s a with
    | none => rfl
    | some t => exact ih t

theorem Reachable.refl (s : S) : Reachable step s s := ⟨[], rfl⟩

variable {t : S}

theorem Reachable.trans {u : S} (h : Reachable step s t) (h' : Reachable step t u) :
    Reachable step s u := by
  obtain ⟨as, has⟩ := h
  obtain ⟨bs, hbs⟩ := h'
  refine ⟨as ++ bs, ?_⟩
  rw [run_append, has]
  exact hbs

theorem Reachable.single {a : A} (h : step s a = some t) : Reachable step s t :=
  ⟨[a], by rw [run_cons_eq_some]; exact ⟨t, h, rfl⟩⟩

/-! ## Invariants -/

variable {I : S → Prop}

/-- A property that every step preserves holds after every run. -/
theorem run_invariant (hstep : ∀ s a t, I s → step s a = some t → I t) (hs : I s)
    (hrun : run step s as = some t) : I t := by
  induction as generalizing s with
  | nil =>
    rw [run_nil, some.injEq] at hrun
    exact hrun ▸ hs
  | cons a as ih =>
    obtain ⟨u, hu, hrest⟩ := run_cons_eq_some.1 hrun
    exact ih (hstep s a u hs hu) hrest

theorem Reachable.invariant (hstep : ∀ s a t, I s → step s a = some t → I t) (hs : I s)
    (hreach : Reachable step s t) : I t := by
  obtain ⟨as, has⟩ := hreach
  exact run_invariant hstep hs has

variable {P : S → Prop}

theorem Always.head (h : Always step P s as) : P s := by
  cases as with
  | nil => exact h
  | cons => exact h.1

theorem Always.last (h : Always step P s as) (hrun : run step s as = some t) : P t := by
  induction as generalizing s with
  | nil =>
    rw [run_nil, some.injEq] at hrun
    exact hrun ▸ h
  | cons a as ih =>
    obtain ⟨u, hu, hrest⟩ := run_cons_eq_some.1 hrun
    exact ih (h.2 u hu) hrest

theorem always_cons_of {a : A} (h : step s a = some t) :
    Always step P s (a :: as) ↔ P s ∧ Always step P t as := by
  refine and_congr_right fun _ => ⟨fun hall => hall t h, fun hall u hu => ?_⟩
  exact some.inj (h.symm.trans hu) ▸ hall

theorem Always.append {bs : List A} (h : Always step P s as)
    (hbs : ∀ t, run step s as = some t → Always step P t bs) : Always step P s (as ++ bs) := by
  induction as generalizing s with
  | nil => exact hbs s rfl
  | cons a as ih =>
    exact ⟨h.1, fun t ht => ih (h.2 t ht) fun u hu => hbs u (run_cons_eq_some.2 ⟨t, ht, hu⟩)⟩

theorem Always.drop {bs : List A} (h : Always step P s (as ++ bs)) (hrun : run step s as = some t) :
    Always step P t bs := by
  induction as generalizing s with
  | nil =>
    rw [run_nil, some.injEq] at hrun
    exact hrun ▸ h
  | cons a as ih =>
    obtain ⟨u, hu, hrest⟩ := run_cons_eq_some.1 hrun
    exact ih (h.2 u hu) hrest

variable {C : S → A → Prop}

/-- The rule for runs whose steps all meet a condition: an invariant that is only preserved by the
    steps meeting `C` still holds throughout a run guarded by `C`. -/
theorem always_of_guarded (hP : ∀ s, I s → P s)
    (hstep : ∀ s a t, I s → C s a → step s a = some t → I t) (hs : I s) (hg : Guarded step C s as) :
    Always step P s as := by
  induction as generalizing s with
  | nil => exact hP s hs
  | cons a as ih =>
    refine ⟨hP s hs, fun t ht => ?_⟩
    obtain ⟨hC, hrest⟩ := hg t ht
    exact ih (hstep s a t hs hC ht) hrest

/-- Within the runs guarded by `D`, `P` holds throughout a run exactly when the run is guarded by
    `C`, provided that under the invariant `I` a step lands in `P` exactly when it meets `C`, and
    keeps `I` when it does. -/
theorem always_iff_guarded_within {D : S → A → Prop} (hP : ∀ s, I s → P s)
    (hkeep : ∀ s a t, I s → D s a → C s a → step s a = some t → I t)
    (hbreak : ∀ s a t, I s → D s a → step s a = some t → P t → C s a) (hs : I s)
    (hd : Guarded step D s as) :
    Always step P s as ↔ Guarded step C s as := by
  induction as generalizing s with
  | nil => exact ⟨fun _ => trivial, fun _ => hP s hs⟩
  | cons a as ih =>
    refine ⟨fun h t ht => ?_, fun h => ⟨hP s hs, fun t ht => ?_⟩⟩
    · obtain ⟨hD, hrest⟩ := hd t ht
      have hC : C s a := hbreak s a t hs hD ht (h.2 t ht).head
      exact ⟨hC, (ih (hkeep s a t hs hD hC ht) hrest).1 (h.2 t ht)⟩
    · obtain ⟨hD, hrest⟩ := hd t ht
      obtain ⟨hC, hg⟩ := h t ht
      exact (ih (hkeep s a t hs hD hC ht) hrest).2 hg

theorem guarded_of_forall (h : ∀ s, ∀ a ∈ as, C s a) (s : S) : Guarded step C s as := by
  induction as generalizing s with
  | nil => trivial
  | cons a as ih => exact fun t _ => ⟨h s a (.head _), ih (fun s a ha => h s a (.tail _ ha)) t⟩

theorem always_of_step (hP : ∀ s, I s → P s)
    (hstep : ∀ s a t, I s → step s a = some t → I t) (hs : I s) : Always step P s as :=
  always_of_guarded (C := fun _ _ => True) hP (fun s a t hi _ => hstep s a t hi) hs
    (guarded_of_forall (fun _ _ _ => trivial) s)

theorem Guarded.mono {D : S → A → Prop} (h : ∀ s a, C s a → D s a) (hg : Guarded step C s as) :
    Guarded step D s as := by
  induction as generalizing s with
  | nil => trivial
  | cons a as ih => exact fun t ht => ⟨h s a (hg t ht).1, ih (hg t ht).2⟩

/-- `P` holds throughout a run exactly when the run is guarded by `C`, provided that under the
    invariant `I` a step lands in `P` exactly when it meets `C`, and keeps `I` when it does. -/
theorem always_iff_guarded (hP : ∀ s, I s → P s)
    (hkeep : ∀ s a t, I s → C s a → step s a = some t → I t)
    (hbreak : ∀ s a t, I s → step s a = some t → P t → C s a) (hs : I s) :
    Always step P s as ↔ Guarded step C s as :=
  always_iff_guarded_within (D := fun _ _ => True) hP (fun s a t hi _ => hkeep s a t hi)
    (fun s a t hi _ => hbreak s a t hi) hs (guarded_of_forall (fun _ _ _ => trivial) s)

/-- `P` and `Q` hold throughout the same runs, provided that they agree under the invariant `I`,
    which a step from `Q` keeps. -/
theorem always_congr {Q : S → Prop} (hiff : ∀ s, I s → (P s ↔ Q s))
    (hkeep : ∀ s a t, I s → Q s → step s a = some t → I t) (hs : I s) :
    Always step P s as ↔ Always step Q s as := by
  induction as generalizing s with
  | nil => exact hiff s hs
  | cons a as ih =>
    rw [Always, Always, hiff s hs]
    refine and_congr_right fun hQ => forall_congr' fun t => imp_congr_right fun ht => ?_
    exact ih (hkeep s a t hs hQ ht)

end Lts
