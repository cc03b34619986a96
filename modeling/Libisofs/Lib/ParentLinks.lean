/-!
# Links to the parents of a tree

Each node of a tree has a place, and what is found at a place holds a link to another place.
If the link of a node leads to the place of its parent, then one gets from each node to
the root by as many links as the node is deep.
-/

namespace ParentLinks

universe u
variable {α : Type u}

/-- The nodes of a tree with their depth. -/
inductive Below (children : α → List α) (root : α) : Nat → α → Prop
  | root : Below children root 0 root
  | child {n : Nat} {p c : α} :
      Below children root n p → c ∈ children p → Below children root (n + 1) c

/-- From place `a` one gets to place `b` by `n` links. -/
inductive Leads (nodes : α → Prop) (place : α → Nat) (link : α → Option Nat) :
    (n a b : Nat) → Prop
  | here {a : Nat} : Leads nodes place link 0 a a
  | step {n a b c : Nat} {x : α} : nodes x → place x = a → link x = some b →
      Leads nodes place link n b c → Leads nodes place link (n + 1) a c

variable {children : α → List α} {root : α} {place : α → Nat} {link : α → Option Nat}

/-- The first step from the root. -/
theorem Below.of_child {n : Nat} {p c : α} (h : Below children root n p) (hc : c ∈ children p) :
    ∃ first, first ∈ children root := by
  induction h generalizing c with
  | root => exact ⟨c, hc⟩
  | child _ hmem ih => exact ih hmem

theorem leads_to_root (hlink : ∀ n p c, Below children root n p → c ∈ children p →
      link c = some (place p)) {n : Nat} {x : α} (h : Below children root n x) :
    Leads (fun y => ∃ m, Below children root m y) place link n (place x) (place root) := by
  induction h with
  | root => exact .here
  | child hp hmem ih => exact .step ⟨_, hp.child hmem⟩ rfl (hlink _ _ _ hp hmem) ih

end ParentLinks
