import Libisofs.NameMangling

/-!
# New names are new

If the new names get into the hash table, then it always holds the names of all children. So a
new name differs from all of them, also from those which were given in an earlier attempt.
-/

namespace NameMangling

open Identifiers (IsoError)
open CLibrary ThreeWay SortedFamilies ChainedTables

variable {Key Stem : Type} {s : Scheme Key Stem} {m : Memory}

/-- Either the function fails as it may fail, or its result has the property. -/
def Outcome {α : Type} (P : α → Prop) : Except IsoError α → Prop
  | .error e => e = .outOfMem ∨ e = .mangleTooMuchFiles
  | .ok a => P a

section Outcomes

variable {α β : Type} {P : α → Prop} {Q : β → Prop}

theorem Outcome.bind {x : Except IsoError α} {f : α → Except IsoError β} (hx : Outcome P x)
    (hf : ∀ a, P a → Outcome Q (f a)) : Outcome Q (x >>= f) := by
  cases x with
  | error e => exact hx
  | ok a => exact hf a hx

theorem Outcome.mono {P' : α → Prop} {x : Except IsoError α} (hx : Outcome P x)
    (h : ∀ a, P a → P' a) : Outcome P' x := by
  cases x with
  | error e => exact hx
  | ok a => exact h a hx

end Outcomes

def keys (kids : List (Child Key)) : List Key := kids.map fun child => child.name.key

/-- The children without their names. -/
def unnamed (kids : List (Child Key)) : List (Nat × Bool) :=
  kids.map fun child => (child.node, child.isDir)

@[simp] theorem unnamed_cons (child : Child Key) (rest : List (Child Key)) :
    unnamed (child :: rest) = (child.node, child.isDir) :: unnamed rest := rfl

/-- The hash table holds the names of these children. -/
structure Tracks (st : State Key) (kids : List (Child Key)) : Prop where
  holds : Holds st.table (kids.map Child.name)
  pointers : (kids.map fun child => child.name.ptr).Nodup
  old : ∀ child ∈ kids, child.name.ptr < st.next

theorem Tracks.perm {st : State Key} {kids kids' : List (Child Key)} (h : Tracks st kids)
    (hperm : kids.Perm kids') : Tracks st kids' where
  holds := h.holds.perm (hperm.map _)
  pointers := (hperm.map _).nodup_iff.mp h.pointers
  old child hchild := h.old child (hperm.mem_iff.mpr hchild)

section Renaming

variable [DecidableEq Key] {Good : Key → Prop}

/-- The candidate is made of a number with so many digits, and no child has this name. -/
structure Free (s : Scheme Key Stem) (table : Table Key) (stem : Stem) (digits : Nat)
    (tmp : Key) : Prop where
  made : ∃ change < 10 ^ digits, tmp = s.candidate stem digits change
  free : ¬ table.get tmp = true

/-- Pairwise different names, and none of others. -/
def Fresh (others kids : List (Child Key)) : Prop :=
  (keys kids).Nodup ∧ ∀ key ∈ keys kids, key ∉ keys others

/-- The children whose neighbours have other names. -/
def alone (gs : List (List (Child Key))) : List (Child Key) :=
  (gs.filter fun g => g.length ≤ 1).flatten

end Renaming

section Directory

variable {Good : Key → Prop}

def Sorted (s : Scheme Key Stem) (kids : List (Child Key)) : Prop :=
  kids.Pairwise fun f g => cmpNode s f g ≤ 0

variable [DecidableEq Key]

/-- So many children can be counted as `int`, and the hash table for them has a size. -/
def Sized (n : Nat) : Prop := n < 2 ^ 31 ∧ (n = 0 ∨ tableSize n ≠ 0)

end Directory

end NameMangling
