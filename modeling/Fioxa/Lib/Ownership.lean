import Mathlib.Logic.Relation
import Mathlib.Data.Fintype.Card

/-! # Ownership

Objects are owned by roots and by other objects, and an object is given up when its last owner goes
away. If ownership has no cycles, every object that is kept can be reached from a root: going from
an object to one of its owners comes to an end. -/

namespace Ownership

variable {O : Type} {owns owns' : O → O → Prop} {root live : O → Prop} {p : O} {vs : O → Prop}

/-- The object can be reached from a root. -/
inductive Reach (root : O → Prop) (owns : O → O → Prop) : O → Prop where
  | root {o : O} (h : root o) : Reach root owns o
  | owned {o o' : O} (h : Reach root owns o) (howns : owns o o') : Reach root owns o'

/-- No object owns itself, directly or through others. -/
def Acyclic (owns : O → O → Prop) : Prop := ∀ o, ¬ Relation.TransGen owns o o

theorem Acyclic.mono (h : Acyclic owns) (hsub : ∀ x y, owns' x y → owns x y) : Acyclic owns' :=
  fun o hcycle => h o (Relation.TransGen.mono hsub o o hcycle)

/-- What a path is that may use new edges, all of which start in `p`. -/
theorem path_insert (hv : ∀ v, vs v → ¬ Relation.ReflTransGen owns v p)
    (hsub : ∀ x y, owns' x y → owns x y ∨ x = p ∧ vs y) {a b : O}
    (h : Relation.TransGen owns' a b) :
    Relation.TransGen owns a b ∨
      Relation.ReflTransGen owns a p ∧ ∃ v, vs v ∧ Relation.ReflTransGen owns v b := by
  induction h with
  | single h =>
    rcases hsub _ _ h with h | ⟨rfl, hb⟩
    · exact .inl (.single h)
    · exact .inr ⟨.refl, _, hb, .refl⟩
  | tail _ h ih =>
    rcases hsub _ _ h with h | ⟨rfl, hc⟩
    · rcases ih with ih | ⟨hap, v, hvs, hvb⟩
      · exact .inl (ih.tail h)
      · exact .inr ⟨hap, v, hvs, hvb.tail h⟩
    · rcases ih with ih | ⟨-, v, hvs, hvb⟩
      · exact .inr ⟨ih.to_reflTransGen, _, hc, .refl⟩
      · exact absurd hvb (hv v hvs)

/-- `p` may be given objects from which it cannot be reached. -/
theorem Acyclic.insert (p : O) (vs : O → Prop) (h : Acyclic owns)
    (hv : ∀ v, vs v → ¬ Relation.ReflTransGen owns v p)
    (hsub : ∀ x y, owns' x y → owns x y ∨ x = p ∧ vs y) : Acyclic owns' := by
  intro o hcycle
  rcases path_insert hv hsub hcycle with hcycle | ⟨hop, v, hvs, hvo⟩
  · exact h o hcycle
  · exact hv v hvs (hvo.trans hop)

/-- Without cycles, finitely many objects that all have an owner are reachable. -/
theorem Acyclic.reach (live : O → Prop) [Finite { o // live o }] (h : Acyclic owns)
    (howner : ∀ o, live o → root o ∨ ∃ o', live o' ∧ owns o' o) {o : O} (ho : live o) :
    Reach root owns o := by
  let above (x y : { o // live o }) : Prop := Relation.TransGen owns x.1 y.1
  have : IsTrans { o // live o } above := ⟨fun _ _ _ => Relation.TransGen.trans⟩
  have : Std.Irrefl above := ⟨fun x => h x.1⟩
  have hwf : WellFounded above := Finite.wellFounded_of_trans_of_irrefl above
  -- by induction on the chain of owners
  have hall : ∀ x : { o // live o }, Reach root owns x.1 := by
    intro x
    induction x using hwf.induction with
    | _ x ih =>
      rcases howner x.1 x.2 with hroot | ⟨y, hy, hyx⟩
      · exact .root hroot
      · exact .owned (ih ⟨y, hy⟩ (.single hyx)) hyx
  exact hall ⟨o, ho⟩

end Ownership
