import Mathlib.Data.List.Basic
import Mathlib.Data.List.Perm.Basic

/-!
# Level order of a tree

A list begins by the root of a tree. One after the other, each node of the list appends
its children. The finished list holds each node of the tree exactly once, and the nodes
come in the sequence of their parents.
-/

namespace LevelOrder

universe u
variable {α : Type u} (children : α → List α)

/-- The list from place `i` on, after the nodes before `i` have appended their children.
With each node comes the place of its parent. -/
def visit : (left i : Nat) → (queue : List (α × Nat)) → List (α × Nat)
  | 0, _, queue => queue
  | _ + 1, _, [] => []
  | left + 1, i, x :: queue =>
    x :: visit left (i + 1) (queue ++ (children x.1).map fun c => (c, i))

/-- The list which begins by the root. -/
def levelOrder (left : Nat) (root : α) : List (α × Nat) := visit children left 0 [(root, 0)]

variable {children} {all : α → List α}

/-- As many turns as there are nodes bring each node into the list once. -/
theorem visit_perm (hall : ∀ a, all a = a :: (children a).flatMap all) {left i : Nat}
    {queue : List (α × Nat)} (hleft : (queue.flatMap fun x => all x.1).length = left) :
    ((visit children left i queue).map Prod.fst).Perm (queue.flatMap fun x => all x.1) := by
  induction left generalizing i queue with
  | zero =>
    cases queue with
    | nil => exact List.Perm.nil
    | cons x queue =>
      rw [List.flatMap_cons, hall] at hleft
      simp at hleft
  | succ left ih =>
    cases queue with
    | nil => simp at hleft
    | cons x queue =>
      have hmoved : ((queue ++ (children x.1).map fun c => (c, i)).flatMap fun y => all y.1).Perm
          ((children x.1).flatMap all ++ queue.flatMap fun y => all y.1) := by
        rw [List.flatMap_append, List.flatMap_map]
        exact List.perm_append_comm
      rw [List.flatMap_cons, hall, List.cons_append] at hleft ⊢
      rw [visit, List.map_cons]
      apply List.Perm.cons
      refine (ih ?_).trans hmoved
      rw [hmoved.length_eq]
      simpa using hleft

/-- Parents come before their children, and the children of one node before those of the
next. -/
structure InOrder (children : α → List α) (list : List (α × Nat)) : Prop where
  child : ∀ k a p, 0 < k → list[k]? = some (a, p) →
    p < k ∧ ∃ parent q, list[p]? = some (parent, q) ∧ a ∈ children parent
  sorted : (list.map Prod.snd).Pairwise (· ≤ ·)

/-- The list between two turns. The nodes of `done` have appended their children. -/
structure Served (done queue : List (α × Nat)) (children : α → List α) : Prop extends
    InOrder children (done ++ queue) where
  bound : ∀ x ∈ done ++ queue, x.2 ≤ done.length

theorem Served.next {done queue : List (α × Nat)} {x : α × Nat}
    (h : Served done (x :: queue) children) :
    Served (done ++ [x]) (queue ++ (children x.1).map fun c => (c, done.length)) children := by
  have hsplit : done ++ [x] ++ (queue ++ (children x.1).map fun c => (c, done.length)) =
      (done ++ x :: queue) ++ (children x.1).map fun c => (c, done.length) := by simp
  refine ⟨⟨?child, ?sorted⟩, ?bound⟩
  case child =>
    intro k a p hk hget
    rw [hsplit] at hget ⊢
    rcases Nat.lt_or_ge k (done ++ x :: queue).length with hold | hnew
    · rw [List.getElem?_append_left hold] at hget
      obtain ⟨hpk, parent, q, hparent, hchild⟩ := h.child k a p hk hget
      refine ⟨hpk, parent, q, ?_, hchild⟩
      rw [List.getElem?_append_left (by omega)]
      exact hparent
    · rw [List.getElem?_append_right hnew, List.getElem?_map, Option.map_eq_some_iff] at hget
      obtain ⟨c, hc, heq⟩ := hget
      obtain ⟨rfl, rfl⟩ := Prod.mk.inj heq
      have hlen : done.length < (done ++ x :: queue).length := by simp
      refine ⟨by omega, x.1, x.2, ?_, List.mem_of_getElem? hc⟩
      rw [List.getElem?_append_left hlen, List.getElem?_append_right (Nat.le_refl _), Nat.sub_self]
      rfl
  case sorted =>
    rw [hsplit, List.map_append, List.map_map, List.pairwise_append]
    refine ⟨h.sorted, ?_, ?_⟩
    · rw [List.pairwise_map]
      exact List.pairwise_of_forall fun _ _ => Nat.le_refl _
    · intro p hp q hq
      obtain ⟨y, hy, rfl⟩ := List.mem_map.mp hp
      obtain ⟨c, -, rfl⟩ := List.mem_map.mp hq
      exact h.bound y hy
  case bound =>
    intro y hy
    rw [hsplit] at hy
    rw [List.length_append, List.length_singleton]
    rcases List.mem_append.mp hy with hold | hnew
    · exact Nat.le_succ_of_le (h.bound y hold)
    · obtain ⟨c, -, rfl⟩ := List.mem_map.mp hnew
      exact Nat.le_succ _

theorem Served.inOrder {done queue : List (α × Nat)} (h : Served done queue children)
    (left : Nat) : InOrder children (done ++ visit children left done.length queue) := by
  induction left generalizing done queue with
  | zero => exact h.toInOrder
  | succ left ih =>
    cases queue with
    | nil => exact h.toInOrder
    | cons x queue =>
      have hnext := ih h.next
      rw [List.length_append, List.length_singleton, List.append_assoc,
        List.singleton_append] at hnext
      exact hnext

theorem levelOrder_inOrder (left : Nat) (root : α) :
    InOrder children (levelOrder children left root) := by
  have hfirst : Served [] [(root, 0)] children := by
    constructor
    case toInOrder =>
      constructor
      case child =>
        intro k a p hk hget
        rw [List.nil_append, List.getElem?_eq_none hk] at hget
        cases hget
      case sorted => simp
    case bound => simp
  exact hfirst.inOrder left

theorem levelOrder_perm (hall : ∀ a, all a = a :: (children a).flatMap all) {left : Nat} {root : α}
    (hleft : (all root).length = left) :
    ((levelOrder children left root).map Prod.fst).Perm (all root) := by
  have h := @visit_perm α children all hall left 0 [(root, 0)] (by simpa using hleft)
  simpa [levelOrder] using h

/-- What the nodes from place `i` on append. -/
def appended (children : α → List α) (i : Nat) (list : List (α × Nat)) : List (α × Nat) :=
  (list.zipIdx i).flatMap fun x => (children x.1.1).map fun c => (c, x.2)

/-- The finished list is what it began by and what its nodes have appended. -/
theorem visit_eq (hall : ∀ a, all a = a :: (children a).flatMap all) {left i : Nat}
    {queue : List (α × Nat)} (hleft : (queue.flatMap fun x => all x.1).length = left) :
    visit children left i queue = queue ++ appended children i (visit children left i queue) := by
  induction left generalizing i queue with
  | zero =>
    cases queue with
    | nil => rfl
    | cons x queue =>
      rw [List.flatMap_cons, hall] at hleft
      simp at hleft
  | succ left ih =>
    cases queue with
    | nil => simp at hleft
    | cons x queue =>
      have hrest : ((queue ++ (children x.1).map fun c => (c, i)).flatMap fun y =>
          all y.1).length = left := by
        rw [List.flatMap_cons, hall, List.cons_append, List.length_cons, List.length_append,
          Nat.add_right_cancel_iff] at hleft
        rw [List.flatMap_append, List.flatMap_map, List.length_append, ← hleft, Nat.add_comm]
      have hnext := @ih (i + 1) _ hrest
      rw [visit, List.cons_append]
      refine congrArg (x :: ·) ?_
      nth_rewrite 1 [hnext]
      rw [List.append_assoc]
      rfl

theorem levelOrder_eq (hall : ∀ a, all a = a :: (children a).flatMap all) {left : Nat} {root : α}
    (hleft : (all root).length = left) : levelOrder children left root =
      (root, 0) :: appended children 0 (levelOrder children left root) := by
  have h := @visit_eq α children all hall left 0 [(root, 0)] (by simpa using hleft)
  rw [List.singleton_append] at h
  exact h

/-- What gets appended is sorted by parents. It is sorted by parents and a second criterion,
if and only if the children of each single parent are sorted. -/
theorem appended_sorted_iff {R : α → α → Prop} {i : Nat} {list : List (α × Nat)} :
    ((appended children i list).Pairwise fun x y => x.2 < y.2 ∨ x.2 = y.2 ∧ R x.1 y.1) ↔
      ∀ x ∈ list, (children x.1).Pairwise R := by
  induction list generalizing i with
  | nil => simp [appended]
  | cons x list ih =>
    have hlater : ∀ y ∈ appended children (i + 1) list, i < y.2 := by
      intro y hy
      obtain ⟨z, hz, hmem⟩ := List.mem_flatMap.mp hy
      obtain ⟨c, -, rfl⟩ := List.mem_map.mp hmem
      exact (List.mem_zipIdx hz).1
    have hcons : appended children i (x :: list) =
        (children x.1).map (fun c => (c, i)) ++ appended children (i + 1) list := rfl
    rw [hcons, List.pairwise_append, ih, List.forall_mem_cons, List.pairwise_map]
    simp only [Nat.lt_irrefl, false_or, true_and]
    constructor
    · rintro ⟨hfirst, hrest, -⟩
      exact ⟨hfirst, hrest⟩
    · rintro ⟨hfirst, hrest⟩
      refine ⟨hfirst, hrest, ?_⟩
      intro y hy z hz
      obtain ⟨c, -, rfl⟩ := List.mem_map.mp hy
      exact Or.inl (hlater z hz)

/-- Level by level: a node is not less deep than those before it. -/
theorem InOrder.depth_le {list : List (α × Nat)} {root : α} {rest : List (α × Nat)}
    (h : InOrder children list) (hroot : list = (root, 0) :: rest) {depth : α → Nat}
    (hdepth : ∀ p, ∀ c ∈ children p, depth c = depth p + 1) (hzero : depth root = 0)
    (k l : Nat) (hle : k ≤ l) (x y : α × Nat) (hx : list[k]? = some x) (hy : list[l]? = some y) :
    depth x.1 ≤ depth y.1 := by
  induction l using Nat.strongRecOn generalizing k x y with
  | ind l ih =>
    rcases Nat.eq_zero_or_pos k with rfl | hk
    · rw [hroot, List.getElem?_cons_zero] at hx
      obtain rfl := Option.some.inj hx
      rw [hzero]
      exact Nat.zero_le _
    · obtain ⟨hpx, px, qx, hgetx, hchildx⟩ := h.child k x.1 x.2 hk hx
      obtain ⟨hpy, py, qy, hgety, hchildy⟩ := h.child l y.1 y.2 (by omega) hy
      have hparents : x.2 ≤ y.2 := by
        rcases Nat.eq_or_lt_of_le hle with rfl | hlt
        · rw [hx] at hy
          obtain rfl := Option.some.inj hy
          exact Nat.le_refl _
        · obtain ⟨hk', hgetk⟩ := List.getElem?_eq_some_iff.mp hx
          obtain ⟨hl', hgetl⟩ := List.getElem?_eq_some_iff.mp hy
          have hsorted := List.pairwise_iff_getElem.mp h.sorted k l (by simpa using hk')
            (by simpa using hl') hlt
          simpa [hgetk, hgetl] using hsorted
      have hup := ih y.2 hpy x.2 hparents (px, qx) (py, qy) hgetx hgety
      rw [hdepth px x.1 hchildx, hdepth py y.1 hchildy]
      exact Nat.succ_le_succ hup

/-- The nodes of the finished list stay where they have been put. -/
theorem levelOrder_head (left : Nat) (root : α) :
    ∃ rest, levelOrder children left root = (root, 0) :: rest := by
  cases left with
  | zero => exact ⟨[], rfl⟩
  | succ left => exact ⟨_, rfl⟩

end LevelOrder
