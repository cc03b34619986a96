import Libisofs.Lib.LevelOrder
import Mathlib.Data.List.Nodup

/-!
# Search for parents in a list in level order

The nodes of a list are known by their places, and a node knows the place of its parent. For
each node after the root the parent is searched in the list. As the nodes come in the
sequence of their parents, a search can begin where the previous one has ended.
-/

namespace ParentSearch

open LevelOrder

universe u
variable {α : Type u} (place : α → Nat) (parent : α → Option Nat)

/-- The loop which looks for the parent, beginning by the previous result. -/
def findParent (list : List α) (prev : Nat) (e : α) : Nat :=
  prev + (list.drop prev).findIdx fun p => some (place p) = parent e

/-- The indices which get found one after the other. -/
def parents (list : List α) : (prev : Nat) → List α → List Nat
  | _, [] => []
  | prev, e :: rest =>
    findParent place parent list prev e ::
      parents list (findParent place parent list prev e) rest

/-- Each node with the index that is found for it. There is no search for the root. -/
def numbered (list : List α) : List (α × Nat) :=
  match list with
  | [] => []
  | root :: rest => (root, 0) :: rest.zip (parents place parent list 0 rest)

theorem length_parents (list : List α) (prev : Nat) (rest : List α) :
    (parents place parent list prev rest).length = rest.length := by
  induction rest generalizing prev with
  | nil => rfl
  | cons e rest ih => simp [parents, ih]

theorem numbered_fst (list : List α) : (numbered place parent list).map Prod.fst = list := by
  cases list with
  | nil => rfl
  | cons root rest =>
    rw [numbered, List.map_cons,
      List.map_fst_zip (Nat.le_of_eq (length_parents place parent (root :: rest) 0 rest).symm)]

variable {place parent}

/-- The loop finds the parent if it begins before it. -/
theorem findParent_eq {list : List α} (hnodup : (list.map place).Nodup) {e x : α} {prev p : Nat}
    (hx : list[p]? = some x) (hparent : parent e = some (place x)) (hle : prev ≤ p) :
    findParent place parent list prev e = p := by
  obtain ⟨hp, hget⟩ := List.getElem?_eq_some_iff.mp hx
  have hindex : (list.drop prev).findIdx (fun y => some (place y) = parent e) = p - prev := by
    have hlt : p - prev < (list.drop prev).length := by
      rw [List.length_drop]
      omega
    rw [List.findIdx_eq hlt]
    refine ⟨?_, fun j hj => ?_⟩
    · have hthere : prev + (p - prev) = p := by omega
      simp only [List.getElem_drop, hthere, hget, hparent, decide_true]
    · -- no other node has the place of the parent
      simp only [List.getElem_drop, hparent, Option.some.injEq, decide_eq_false_iff_not]
      intro hsame
      have hj' : prev + j < list.length := by omega
      have hindexes := (@List.Nodup.getElem_inj_iff _ _ hnodup _ (by simpa using hj') _
        (by simpa using hp)).mp (by simpa [hget] using hsame)
      omega
  rw [findParent, hindex]
  omega

theorem parents_eq {list : List α} (hnodup : (list.map place).Nodup) {rest : List (α × Nat)}
    {prev : Nat}
    (hparent : ∀ x ∈ rest, ∃ y, list[x.2]? = some y ∧ parent x.1 = some (place y))
    (hle : ∀ x ∈ rest, prev ≤ x.2) (hsorted : (rest.map Prod.snd).Pairwise (· ≤ ·)) :
    parents place parent list prev (rest.map Prod.fst) = rest.map Prod.snd := by
  induction rest generalizing prev with
  | nil => rfl
  | cons x rest ih =>
    obtain ⟨y, hy, hxy⟩ := hparent x List.mem_cons_self
    have hfound := findParent_eq hnodup hy hxy (hle x List.mem_cons_self)
    rw [List.map_cons, List.pairwise_cons] at hsorted
    rw [List.map_cons, parents, hfound, List.map_cons]
    refine congrArg (x.2 :: ·) ?_
    exact ih (fun z hz => hparent z (List.mem_cons_of_mem _ hz))
      (fun z hz => hsorted.1 z.2 (List.mem_map_of_mem hz)) hsorted.2

/-- In level order the index of the parent is the one of the node that appended the node. -/
theorem numbered_eq {children : α → List α} {list rest : List (α × Nat)} {root : α}
    (horder : InOrder children list) (hroot : list = (root, 0) :: rest)
    (hnodup : ((list.map Prod.fst).map place).Nodup)
    (hchild : ∀ p, ∀ c ∈ children p, parent c = some (place p)) :
    numbered place parent (list.map Prod.fst) = list := by
  have hparent : ∀ x ∈ rest, ∃ y, (list.map Prod.fst)[x.2]? = some y ∧
      parent x.1 = some (place y) := by
    intro x hx
    obtain ⟨k, hk⟩ := List.getElem?_of_mem hx
    have hget : list[k + 1]? = some (x.1, x.2) := by
      rw [hroot]
      exact hk
    obtain ⟨-, y, q, hy, hmem⟩ := horder.child (k + 1) x.1 x.2 (Nat.succ_pos k) hget
    refine ⟨y, ?_, hchild y x.1 hmem⟩
    rw [List.getElem?_map, hy, Option.map_some]
  have hsorted := horder.sorted
  rw [hroot, List.map_cons, List.pairwise_cons] at hsorted
  have hfound := parents_eq hnodup hparent (fun x _ => Nat.zero_le _) hsorted.2
  rw [hroot, List.map_cons] at hfound ⊢
  rw [numbered, hfound, ← List.zip_of_prod rfl rfl]

end ParentSearch
