import Mathlib.Data.List.Nodup

/-! # One-shot watchers

A watched cell holds a status and a list of watchers. A watcher is *registered* once; an *update*
gives the cell a new status and fires (removes and hands out) watchers. `hit new w` says that
watcher `w` is interested in the status `new`.

What a cell did is recorded in a history, newest event first. `Sound` says that every update fired
exactly the watchers that were pending and hit; `fired_iff` is the resulting law, in terms of
the history alone: an update fires a watcher iff it is the first update since its registration
that hits it. `fired_nodup` is the no-duplicate half over the whole history. -/

namespace OneShot

open List

variable {σ ω : Type} (hit : σ → ω → Bool)

/-- One event in the life of a watched cell. -/
inductive Event (σ ω : Type) where
  | registered (w : ω)
  | updated (new : σ) (fired : List ω)

/-- The watchers that are still waiting after a history (newest event first). -/
def pending : List (Event σ ω) → List ω
  | [] => []
  | .registered w :: past => pending past ++ [w]
  | .updated new _ :: past => (pending past).filter (fun w => !hit new w)

/-- Every update fired the pending watchers its new status hits, in registration order. -/
def Sound : List (Event σ ω) → Prop
  | [] => True
  | .registered _ :: past => Sound past
  | .updated new fired :: past => fired = (pending hit past).filter (hit new) ∧ Sound past

/-- The watchers registered in a history. -/
def registrations : List (Event σ ω) → List ω
  | [] => []
  | .registered w :: past => w :: registrations past
  | .updated _ _ :: past => registrations past

/-- All watchers fired in a history, with repetitions. -/
def firings : List (Event σ ω) → List ω
  | [] => []
  | .registered _ :: past => firings past
  | .updated _ fired :: past => fired ++ firings past

variable {hit}

theorem mem_registrations_append (w : ω) (es past : List (Event σ ω)) :
    w ∈ registrations (es ++ past) ↔ w ∈ registrations es ∨ w ∈ registrations past := by
  induction es with
  | nil => simp [registrations]
  | cons e es ih =>
    cases e with
    | registered => simp only [cons_append, registrations, mem_cons, ih, or_assoc]
    | updated => simpa only [cons_append, registrations] using ih

theorem registrations_sublist (es past : List (Event σ ω)) :
    (registrations past).Sublist (registrations (es ++ past)) := by
  induction es with
  | nil => exact Sublist.refl _
  | cons e es ih =>
    cases e with
    | registered v => exact ih.cons v
    | updated => exact ih

variable {w : ω} {past : List (Event σ ω)}

theorem mem_registrations_of_pending (h : w ∈ pending hit past) : w ∈ registrations past := by
  induction past with
  | nil => exact h
  | cons e past ih =>
    cases e with
    | registered =>
      simp only [pending, mem_append, mem_singleton] at h
      simp only [registrations, mem_cons]
      exact h.symm.imp id ih
    | updated => exact ih (mem_of_mem_filter h)

theorem pending_nodup (hn : (registrations past).Nodup) : (pending hit past).Nodup := by
  induction past with
  | nil => exact nodup_nil
  | cons e past ih =>
    cases e with
    | registered w =>
      simp only [registrations, nodup_cons] at hn
      have hw : w ∉ pending hit past := fun h => hn.1 (mem_registrations_of_pending h)
      exact (ih hn.2).append (nodup_singleton w) (disjoint_singleton.2 hw)
    | updated => exact (ih hn).filter _

/-- A watcher registered once is pending afterwards until the first update that hits it. -/
theorem mem_pending_since {mid : List (Event σ ω)}
    (hn : (registrations (mid ++ .registered w :: past)).Nodup) :
    w ∈ pending hit (mid ++ .registered w :: past) ↔
      ∀ new fired, Event.updated new fired ∈ mid → hit new w = false := by
  induction mid with
  | nil => simp [pending]
  | cons e mid ih =>
    cases e with
    | registered v =>
      simp only [cons_append, registrations, nodup_cons] at hn
      -- `v` is another registration: registering `w` twice is excluded by `hn`
      have hvw : w ≠ v := by
        rintro rfl
        apply hn.1
        rw [mem_registrations_append]
        exact .inr (.head _)
      simp only [cons_append, pending, mem_append, mem_cons, hvw,
        not_mem_nil, or_false, ih hn.2, reduceCtorEq, false_or]
    | updated new fired =>
      simp only [cons_append, registrations] at hn
      simp only [cons_append, pending, mem_filter, ih hn, Bool.not_eq_true',
        mem_cons, Event.updated.injEq]
      constructor
      · rintro ⟨hmid, hnew⟩ n f (⟨rfl, rfl⟩ | hmem)
        · exact hnew
        · exact hmid n f hmem
      · intro h
        exact ⟨fun n f hmem => h n f (.inr hmem), h new fired (.inl ⟨rfl, rfl⟩)⟩

theorem Sound.of_append {es : List (Event σ ω)} (h : Sound hit (es ++ past)) : Sound hit past := by
  induction es with
  | nil => exact h
  | cons e es ih =>
    cases e with
    | registered => exact ih h
    | updated => exact ih h.2

/-- **An update fires a watcher iff it is the first one since its registration to hit it.** -/
theorem fired_iff {new : σ} {fired : List ω} {later mid : List (Event σ ω)}
    (hs : Sound hit (later ++ .updated new fired :: (mid ++ .registered w :: past)))
    (hn : (registrations (later ++ .updated new fired :: (mid ++ .registered w :: past))).Nodup) :
    w ∈ fired ↔ hit new w = true ∧ ∀ n f, Event.updated n f ∈ mid → hit n w = false := by
  obtain ⟨hfired, -⟩ := hs.of_append
  have hn' : (registrations (mid ++ .registered w :: past)).Nodup :=
    hn.sublist (registrations_sublist later (.updated new fired :: (mid ++ .registered w :: past)))
  rw [hfired, mem_filter, mem_pending_since hn', and_comm]

theorem mem_registrations_of_firings (hs : Sound hit past) (hf : w ∈ firings past) :
    w ∈ registrations past := by
  induction past with
  | nil => exact hf
  | cons e past ih =>
    cases e with
    | registered v => exact .tail v (ih hs hf)
    | updated =>
      obtain ⟨hfired, hs⟩ := hs
      simp only [firings, mem_append] at hf
      rcases hf with hf | hf
      · rw [hfired] at hf
        have hreg : w ∈ registrations past :=
          mem_registrations_of_pending (mem_of_mem_filter hf)
        exact hreg
      · exact ih hs hf

/-- What has fired is not pending any more. -/
theorem disjoint_pending_firings (hs : Sound hit past) (hn : (registrations past).Nodup) :
    List.Disjoint (pending hit past) (firings past) := by
  induction past with
  | nil => exact disjoint_nil_left _
  | cons e past ih =>
    cases e with
    | registered =>
      simp only [registrations, nodup_cons] at hn
      have hpast := ih hs hn.2
      intro w hw hf
      simp only [pending, mem_append, mem_singleton] at hw
      rcases hw with hw | rfl
      · exact hpast hw hf
      · have hpast : Sound hit past := hs
        exact hn.1 (mem_registrations_of_firings hpast hf)
    | updated =>
      obtain ⟨hfired, hs⟩ := hs
      have hpast := ih hs hn
      intro w hw hf
      simp only [pending, mem_filter, Bool.not_eq_true'] at hw
      simp only [firings, mem_append] at hf
      rcases hf with hf | hf
      · rw [hfired, mem_filter, hw.2] at hf
        exact absurd hf.2 (by simp)
      · exact hpast hw.1 hf

/-- **No watcher is fired twice.** -/
theorem fired_nodup (hs : Sound hit past) (hn : (registrations past).Nodup) :
    (firings past).Nodup := by
  induction past with
  | nil => exact nodup_nil
  | cons e past ih =>
    cases e with
    | registered => exact ih hs (nodup_cons.1 hn).2
    | updated =>
      obtain ⟨hfired, hs⟩ := hs
      refine Nodup.append ?_ (ih hs hn) ?_
      · have hpast : (registrations past).Nodup := hn
        rw [hfired]
        exact (pending_nodup hpast).filter _
      · intro w hw hf
        rw [hfired] at hw
        exact disjoint_pending_firings hs hn (mem_of_mem_filter hw) hf

end OneShot
