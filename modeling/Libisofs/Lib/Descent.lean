import Mathlib.Data.Fintype.Card
import Mathlib.Data.Finite.Defs
import Mathlib.Logic.Relation
import Mathlib.Order.WellFounded
import Mathlib.Data.Fintype.Order

/-!
# Descents in finite types

A relation leads from an element to others. If there are only finitely many elements, then each
descent from an element ends if and only if no element which it can reach leads back to itself.
-/

namespace Descent

open Relation

variable {α : Type} {R : α → α → Prop} {a b : α}

/-- Every descent from `a` ends. -/
def Ending (R : α → α → Prop) (a : α) : Prop := Acc (fun x y => R y x) a

/-- No element which can be reached leads back to itself. -/
def AcyclicFrom (R : α → α → Prop) (a : α) : Prop := ∀ b, ReflTransGen R a b → ¬ TransGen R b b

theorem Ending.irreflexive (h : Ending R a) : ¬ TransGen R a a := by
  induction h with
  | intro a _ ih =>
    intro hcycle
    obtain ⟨b, hfirst, hrest⟩ := TransGen.head'_iff.mp hcycle
    exact ih b hfirst (TransGen.tail' hrest hfirst)

theorem Ending.reach (h : Ending R a) (hreach : ReflTransGen R a b) : Ending R b := by
  induction hreach with
  | refl => exact h
  | tail _ hstep ih => exact ih.inv hstep

theorem acyclicFrom_of_ending (h : Ending R a) : AcyclicFrom R a :=
  fun _ hreach => (h.reach hreach).irreflexive

/-- Infinite descents in a finite type would come back to an element. -/
theorem ending_of_acyclicFrom [Finite α] (h : AcyclicFrom R a) : Ending R a := by
  let Below : {b // ReflTransGen R a b} → {b // ReflTransGen R a b} → Prop :=
    fun x y => TransGen R y.1 x.1
  have hirrefl : Std.Irrefl Below := ⟨fun x => h x.1 x.2⟩
  have htrans : IsTrans _ Below := ⟨fun _ _ _ hxy hyz => hyz.trans hxy⟩
  have hfounded : WellFounded Below := Finite.wellFounded_of_trans_of_irrefl Below
  have hall (x : {b // ReflTransGen R a b}) : Ending R x.1 := by
    induction x using hfounded.induction with
    | _ x ih => exact ⟨_, fun y hstep => ih ⟨y, x.2.tail hstep⟩ (TransGen.single hstep)⟩
  exact hall ⟨a, .refl⟩

end Descent
