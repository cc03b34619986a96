import Mathlib.Logic.Basic

/-!
# Ancestry

Nodes which know their parents. The way up from a node ends at a top, which has no parent or is
its own parent, unless the parents form a circle.
-/

namespace Ancestry

universe u

variable {Node : Type u} {parent parent' : Node → Option Node} {top n m d : Node}

/-- A node itself, its children, their children, and so on. -/
inductive Beneath (parent : Node → Option Node) (top : Node) : Node → Prop where
  | self : Beneath parent top top
  | child {n d : Node} (up : parent n = some d) (beneath : Beneath parent top d) :
      Beneath parent top n

/-- The way up ends. -/
inductive Grounded (parent : Node → Option Node) : Node → Prop where
  | top {n : Node} (stays : parent n = none ∨ parent n = some n) : Grounded parent n
  | step {n d : Node} (up : parent n = some d) (grounded : Grounded parent d) :
      Grounded parent n

theorem Beneath.trans (upper : Beneath parent top n) (lower : Beneath parent n m) :
    Beneath parent top m := by
  induction lower with
  | self => exact upper
  | child up _ ih => exact .child up ih

/-- Nothing but itself is above a node which is its own parent. -/
theorem Beneath.eq_of_self_parent (beneath : Beneath parent top n) (hself : parent n = some n) :
    n = top := by
  induction beneath with
  | self => rfl
  | @child m d up _ ih =>
    obtain rfl : d = m := Option.some.inj (up.symm.trans hself)
    exact ih hself

/-- The parent of a node is not beneath it. -/
theorem Grounded.not_beneath (grounded : Grounded parent n) (hup : parent n = some d)
    (hne : d ≠ n) : ¬ Beneath parent n d := by
  induction grounded generalizing d with
  | @top n stays =>
    rcases stays with hnone | hself
    · exact absurd (hup.symm.trans hnone) (Option.some_ne_none d)
    · exact absurd (Option.some.inj (hup.symm.trans hself)) hne
  | @step n e up _ ih =>
    obtain rfl : e = d := Option.some.inj (up.symm.trans hup)
    intro beneath
    cases beneath with
    | self => exact hne rfl
    | @child _ above hup' beneath' =>
      by_cases hself : above = e
      · exact hne ((Beneath.child hup' beneath').eq_of_self_parent (hself ▸ hup'))
      · exact ih hup' hself (Beneath.trans (.child hup .self) beneath')

/-- Links which agree beneath a node make the same nodes beneath. -/
theorem Beneath.mono (beneath : Beneath parent top n)
    (hsame : ∀ m d, parent m = some d → Beneath parent top d → parent' m = some d) :
    Beneath parent' top n := by
  induction beneath with
  | self => exact .self
  | child up beneath ih => exact .child (hsame _ _ up beneath) ih

end Ancestry
