import Mathlib.Data.List.Flatten
import Mathlib.Data.List.Nodup
import Mathlib.Data.List.Infix
import Mathlib.Logic.Relation
import Mathlib.Order.WellFounded

/-!
# Tree order

Nodes have lists of children. The nodes below a node are listed with each parent before its
children, and with the trees of the children one after the other. When a node leaves the list
of its parent, then the nodes of its tree leave the list, and the others keep their order.
-/

namespace TreeOrder

open Relation

universe u

variable {α : Type u} {children children' : α → List α} {a b c n x : α}

/-- A proper descendant. -/
def Descends (children : α → List α) (a n : α) : Prop := TransGen (fun p c => c ∈ children p) a n

/-- The node itself, or a descendant. -/
def Within (children : α → List α) (a n : α) : Prop :=
  ReflTransGen (fun p c => c ∈ children p) a n

/-- A node is in at most one list of children and once in there, and the ways down end. -/
structure IsForest (children : α → List α) : Prop where
  nodup : ∀ a, (children a).Nodup
  unique : ∀ {a b c}, c ∈ children a → c ∈ children b → a = b
  grounded : WellFounded fun c a => c ∈ children a

theorem Descends.within (h : Descends children a n) : Within children a n := h.to_reflTransGen

theorem Within.refl : Within children a a := ReflTransGen.refl

theorem Within.eq_or_descends (h : Within children a n) : n = a ∨ Descends children a n :=
  reflTransGen_iff_eq_or_transGen.mp h

theorem Within.trans (h : Within children a b) (h' : Within children b c) :
    Within children a c := ReflTransGen.trans h h'

theorem Descends.child (h : c ∈ children a) : Descends children a c := TransGen.single h

theorem Descends.of_child_within (h : c ∈ children a) (h' : Within children c n) :
    Descends children a n := TransGen.head' h h'

theorem Descends.of_within_child (h : Within children a b) (h' : n ∈ children b) :
    Descends children a n := TransGen.tail' h h'

theorem Descends.trans_within (h : Descends children a b) (h' : Within children b c) :
    Descends children a c := TransGen.trans_left h h'

theorem Within.trans_descends (h : Within children a b) (h' : Descends children b c) :
    Descends children a c := TransGen.trans_right h h'

theorem Descends.exists_child (h : Descends children a n) :
    ∃ c ∈ children a, Within children c n := TransGen.head'_iff.mp h

theorem Descends.exists_parent (h : Descends children a n) :
    ∃ p, Within children a p ∧ n ∈ children p := TransGen.tail'_iff.mp h

theorem Descends.mono (hsub : ∀ a, ∀ c ∈ children' a, c ∈ children a)
    (h : Descends children' a n) : Descends children a n :=
  TransGen.mono (fun p c hc => hsub p c hc) _ _ h

namespace IsForest

variable (forest : IsForest children)

include forest

theorem irrefl : ¬ Descends children a a := by
  intro h
  induction a using forest.grounded.induction with
  | _ a ih =>
    obtain ⟨c, hc, hwithin⟩ := h.exists_child
    exact ih c hc (hwithin.trans_descends (.child hc))

/-- A descendant is within its parent. -/
theorem within_parent (h : Descends children a n) (hn : n ∈ children b) :
    Within children a b := by
  obtain ⟨p, hp, hchild⟩ := h.exists_parent
  exact forest.unique hchild hn ▸ hp

/-- Nodes with a common descendant are in line. -/
theorem in_line (h : Within children a n) (h' : Within children b n) :
    Within children a b ∨ Within children b a := by
  induction h with
  | refl => exact Or.inr h'
  | @tail m n hm hchild ih =>
    rcases h'.eq_or_descends with rfl | hdescends
    · exact Or.inl (hm.tail hchild)
    · exact ih (forest.within_parent hdescends hchild)

/-- The trees of two children have no nodes in common. -/
theorem children_apart (hb : b ∈ children a) (hc : c ∈ children a) (h : Within children b n)
    (h' : Within children c n) : b = c := by
  have hnot {x y : α} (hx : x ∈ children a) (hy : y ∈ children a)
      (hxy : Within children x y) : y = x := by
    rcases hxy.eq_or_descends with heq | hdescends
    · exact heq
    · exact absurd ((forest.within_parent hdescends hy).trans_descends (.child hx)) forest.irrefl
  rcases forest.in_line h h' with hbc | hcb
  · exact (hnot hb hc hbc).symm
  · exact hnot hc hb hcb

/-- Shorter lists still make a forest. -/
theorem mono (hsub : ∀ a, (children' a).Sublist (children a)) : IsForest children' where
  nodup a := (forest.nodup a).sublist (hsub a)
  unique hc hc' := forest.unique ((hsub _).subset hc) ((hsub _).subset hc')
  grounded := Subrelation.wf (fun {_ a} hc => (hsub a).subset hc) forest.grounded

end IsForest

theorem isForest_of_rank (rank : α → Nat) (hnodup : ∀ a, (children a).Nodup)
    (hunique : ∀ a b c, c ∈ children a → c ∈ children b → a = b)
    (hrank : ∀ a, ∀ c ∈ children a, rank c < rank a) : IsForest children where
  nodup := hnodup
  unique := hunique _ _ _
  grounded := Subrelation.wf (fun {c a} hc => hrank a c hc) (measure rank).wf

section Listing

open scoped Classical in
/-- The descendants of a node in tree order. -/
noncomputable def below (children : α → List α) : α → List α :=
  if grounded : WellFounded fun c a => c ∈ children a then
    grounded.fix fun a down => (children a).attach.flatMap fun c => c.1 :: down c.1 c.2
  else fun _ => []

/-- Nodes with all their descendants, one after the other. -/
noncomputable def listed (children : α → List α) (nodes : List α) : List α :=
  nodes.flatMap fun c => c :: below children c

theorem listed_cons (nodes : List α) :
    listed children (c :: nodes) = c :: below children c ++ listed children nodes :=
  List.flatMap_cons

theorem listed_append (nodes nodes' : List α) :
    listed children (nodes ++ nodes') = listed children nodes ++ listed children nodes' :=
  List.flatMap_append

namespace IsForest

variable (forest : IsForest children)

include forest

theorem below_eq (a : α) : below children a = listed children (children a) := by
  have hfix : below children = forest.grounded.fix fun a down =>
      (children a).attach.flatMap fun c => c.1 :: down c.1 c.2 := dif_pos forest.grounded
  have hattach : (children a).attach.flatMap (fun c => c.1 :: below children c.1)
      = ((children a).attach.map Subtype.val).flatMap fun c => c :: below children c :=
    (List.flatMap_map Subtype.val (fun c => c :: below children c) _).symm
  rw [listed, ← List.attach_map_subtype_val (children a), ← hattach, hfix, WellFounded.fix_eq]

theorem mem_below : n ∈ below children a ↔ Descends children a n := by
  induction a using forest.grounded.induction with
  | _ a ih =>
    rw [forest.below_eq, listed, List.mem_flatMap]
    constructor
    · rintro ⟨c, hc, hn⟩
      rcases List.mem_cons.mp hn with rfl | hn
      · exact .child hc
      · exact .of_child_within hc ((ih c hc).mp hn).within
    · intro h
      obtain ⟨c, hc, hwithin⟩ := h.exists_child
      refine ⟨c, hc, ?_⟩
      rcases hwithin.eq_or_descends with rfl | hdescends
      · exact List.mem_cons_self
      · exact List.mem_cons_of_mem _ ((ih c hc).mpr hdescends)

theorem mem_listed {nodes : List α} :
    n ∈ listed children nodes ↔ ∃ c ∈ nodes, Within children c n := by
  rw [listed, List.mem_flatMap]
  refine exists_congr fun c => and_congr_right fun _ => ?_
  rw [List.mem_cons, forest.mem_below]
  constructor
  · rintro (rfl | h)
    · exact .refl
    · exact h.within
  · exact Within.eq_or_descends

theorem below_nodup (a : α) : (below children a).Nodup := by
  induction a using forest.grounded.induction with
  | _ a ih =>
    rw [forest.below_eq, listed, List.nodup_flatMap]
    refine ⟨fun c hc => ?_, ?_⟩
    · rw [List.nodup_cons, forest.mem_below]
      exact ⟨forest.irrefl, ih c hc⟩
    · refine (List.Pairwise.and_mem.mp (forest.nodup a)).imp ?_
      rintro b c ⟨hb, hc, hne⟩ n hn hn'
      refine hne (forest.children_apart hb hc (n := n) ?_ ?_)
      · exact (List.mem_cons.mp hn).elim (fun h => h ▸ .refl)
          fun h => (forest.mem_below.mp h).within
      · exact (List.mem_cons.mp hn').elim (fun h => h ▸ .refl)
          fun h => (forest.mem_below.mp h).within

/-- Nodes come before their descendants. -/
theorem below_pairwise (a : α) :
    (below children a).Pairwise fun x y => ¬ Descends children y x := by
  induction a using forest.grounded.induction with
  | _ a ih =>
    rw [forest.below_eq, listed, List.pairwise_flatMap]
    refine ⟨fun c hc => ?_, ?_⟩
    · refine List.Pairwise.cons (fun y hy hup => ?_) (ih c hc)
      exact forest.irrefl (hup.trans_within (forest.mem_below.mp hy).within)
    · refine (List.Pairwise.and_mem.mp (forest.nodup a)).imp ?_
      rintro b c ⟨hb, hc, hne⟩ x hx y hy hup
      refine hne (forest.children_apart hb hc (n := x) ?_ ?_)
      · exact (List.mem_cons.mp hx).elim (fun h => h ▸ .refl)
          fun h => (forest.mem_below.mp h).within
      · refine Within.trans ?_ hup.within
        exact (List.mem_cons.mp hy).elim (fun h => h ▸ .refl)
          fun h => (forest.mem_below.mp h).within

/-- The descendants of a listed node follow directly on it. -/
theorem below_split (h : Descends children a n) :
    ∃ before after, below children a = before ++ n :: below children n ++ after := by
  obtain ⟨c, hc, hwithin⟩ := h.exists_child
  induction a using forest.grounded.induction generalizing c with
  | _ a ih =>
    obtain ⟨xs, ys, hsplit⟩ := List.append_of_mem hc
    have hlist : below children a
        = listed children xs ++ (c :: below children c) ++ listed children ys := by
      rw [forest.below_eq, hsplit, listed_append, listed_cons, List.append_assoc]
    rcases hwithin.eq_or_descends with rfl | hdescends
    · exact ⟨_, _, hlist⟩
    · obtain ⟨e, he, hwithin'⟩ := hdescends.exists_child
      obtain ⟨before, after, hbelow⟩ := ih c hc hdescends e he hwithin'
      refine ⟨listed children xs ++ c :: before, after ++ listed children ys, ?_⟩
      rw [hlist, hbelow]
      simp only [List.append_assoc, List.cons_append]

/-- The children of a node come in the order of their list. -/
theorem children_sublist (h : Within children a n) :
    (children n).Sublist (below children a) := by
  have hown : (children n).Sublist (below children n) := by
    rw [forest.below_eq, listed]
    generalize children n = nodes
    induction nodes with
    | nil => exact List.Sublist.refl _
    | cons c nodes ih =>
      rw [List.flatMap_cons, List.cons_append]
      exact (ih.trans (List.sublist_append_right _ _)).cons_cons c
  rcases h.eq_or_descends with rfl | hdescends
  · exact hown
  · obtain ⟨before, after, hsplit⟩ := forest.below_split hdescends
    rw [hsplit]
    refine hown.trans ((List.Sublist.trans ?_ (List.sublist_append_left _ after)))
    exact (List.sublist_cons_self n _).trans (List.sublist_append_right before _)

end IsForest

/-- Only the lists of a tree decide on its order. -/
theorem below_congr (forest : IsForest children) (forest' : IsForest children')
    (hsame : ∀ x, Within children a x → children' x = children x) :
    below children' a = below children a := by
  induction a using forest.grounded.induction with
  | _ a ih =>
    rw [forest.below_eq, forest'.below_eq, hsame a .refl]
    refine List.flatMap_congr fun c hc => congrArg (c :: ·) ?_
    exact ih c hc fun x hx => hsame x (ReflTransGen.head hc hx)

end Listing

section Leaving

open scoped Classical

variable [DecidableEq α]

/-- The node leaves the list of its parent. What becomes of the lists in its own tree does not
matter. -/
structure Leaves (children children' : α → List α) (n : α) : Prop where
  forest : IsForest children
  sublist : ∀ a, (children' a).Sublist (children a)
  outside : ∀ a, ¬ Within children n a → children' a = (children a).erase n

/-- The nodes which are not in the tree of the node. -/
noncomputable def stay (children : α → List α) (n : α) (nodes : List α) : List α :=
  nodes.filter fun x => ¬ Within children n x

omit [DecidableEq α] in
theorem mem_stay {nodes : List α} :
    x ∈ stay children n nodes ↔ x ∈ nodes ∧ ¬ Within children n x := by
  simp [stay]

omit [DecidableEq α] in
theorem stay_append (nodes nodes' : List α) :
    stay children n (nodes ++ nodes') = stay children n nodes ++ stay children n nodes' :=
  List.filter_append ..

omit [DecidableEq α] in
theorem stay_cons_of_not (nodes : List α) (h : ¬ Within children n x) :
    stay children n (x :: nodes) = x :: stay children n nodes :=
  List.filter_cons_of_pos (by simpa using h)

omit [DecidableEq α] in
theorem stay_cons_of_within (nodes : List α) (h : Within children n x) :
    stay children n (x :: nodes) = stay children n nodes :=
  List.filter_cons_of_neg (by simpa using h)

omit [DecidableEq α] in
theorem stay_eq_self {nodes : List α} (h : ∀ x ∈ nodes, ¬ Within children n x) :
    stay children n nodes = nodes :=
  List.filter_eq_self.mpr fun x hx => by simpa using h x hx

omit [DecidableEq α] in
theorem stay_filter (p : α → Bool) (nodes : List α) :
    stay children n (nodes.filter p) = (stay children n nodes).filter p :=
  List.filter_comm ..

namespace Leaves

variable (leaves : Leaves children children' n)

include leaves

theorem forest' : IsForest children' := leaves.forest.mono leaves.sublist

theorem outside_child (ha : ¬ Within children n a) (hc : c ∈ children a) (hne : c ≠ n) :
    ¬ Within children n c := by
  intro h
  rcases h.eq_or_descends with rfl | hdescends
  · exact hne rfl
  · exact ha (leaves.forest.within_parent hdescends hc)

theorem listed_erase {nodes : List α} (hnodup : nodes.Nodup)
    (hbelow : ∀ x ∈ nodes, x ≠ n →
      ¬ Within children n x ∧ below children' x = stay children n (below children x)) :
    listed children' (nodes.erase n) = stay children n (listed children nodes) := by
  induction nodes with
  | nil => rfl
  | cons x nodes ih =>
    obtain ⟨hx, hrest⟩ := List.nodup_cons.mp hnodup
    have hlater : ∀ y ∈ nodes, y ≠ n →
        ¬ Within children n y ∧ below children' y = stay children n (below children y) :=
      fun y hy => hbelow y (List.mem_cons_of_mem _ hy)
    rw [listed_cons, List.cons_append]
    by_cases hn : x = n
    · subst hn
      have hnone : stay children x (below children x) = [] := by
        refine List.filter_eq_nil_iff.mpr fun y hy => ?_
        simpa using (leaves.forest.mem_below.mp hy).within
      have hsame : nodes.erase x = nodes := List.erase_of_not_mem hx
      rw [List.erase_cons_head, stay_cons_of_within _ .refl, stay_append, hnone, List.nil_append,
        ← ih hrest hlater, hsame]
    · obtain ⟨hout, hlist⟩ := hbelow x List.mem_cons_self hn
      rw [List.erase_cons_tail (by simpa using hn), listed_cons, stay_cons_of_not _ hout,
        stay_append, ih hrest hlater, hlist, List.cons_append]

/-- The others keep their order. -/
theorem below_eq (ha : ¬ Within children n a) :
    below children' a = stay children n (below children a) := by
  induction a using leaves.forest.grounded.induction with
  | _ a ih =>
    rw [leaves.forest'.below_eq, leaves.forest.below_eq, leaves.outside a ha]
    refine leaves.listed_erase (leaves.forest.nodup a) fun x hx hne => ?_
    have hout := leaves.outside_child ha hx hne
    exact ⟨hout, ih x hx hout⟩

theorem listed_eq {nodes : List α} (ha : ¬ Within children n a)
    (hnodes : nodes.Sublist (children a)) :
    listed children' (nodes.erase n) = stay children n (listed children nodes) := by
  refine leaves.listed_erase ((leaves.forest.nodup a).sublist hnodes) fun x hx hne => ?_
  have hout := leaves.outside_child ha (hnodes.subset hx) hne
  exact ⟨hout, leaves.below_eq hout⟩

theorem descends_iff (ha : ¬ Within children n a) :
    Descends children' a x ↔ Descends children a x ∧ ¬ Within children n x := by
  rw [← leaves.forest'.mem_below, leaves.below_eq ha, mem_stay, leaves.forest.mem_below]

end Leaves

end Leaving

end TreeOrder
