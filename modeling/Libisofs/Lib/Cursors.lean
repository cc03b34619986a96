import Mathlib.Data.List.Nodup

/-!
# Cursors in lists which get edited

A cursor stands at the last of the nodes which it has passed, or in front of all nodes.
Nodes join and leave the list while it is underway. A cursor which steps back from a
leaving node keeps what it has passed apart from what is ahead of it, so that nodes which
stay in the list come to it once.
-/

namespace Cursors

variable {Node : Type*}

/-- The cursor divides the list. -/
structure Stands (pos : Option Node) (passed ahead l : List Node) : Prop where
  list : l = passed ++ ahead
  pos : pos = passed.getLast?

/-- One edit of the list, with the cursor before and after it. -/
inductive Edit (pos : Option Node) (l : List Node) : Option Node → List Node → Prop where
  | same : Edit pos l pos l
  | leave {a b : List Node} {n : Node} (list : l = a ++ n :: b) (away : pos ≠ some n) :
      Edit pos l pos (a ++ b)
  | back {a b : List Node} {n : Node} (list : l = a ++ n :: b) (here : pos = some n) :
      Edit pos l a.getLast? (a ++ b)
  | join {a b : List Node} {n : Node} (list : l = a ++ b) (new : n ∉ l) :
      Edit pos l pos (a ++ n :: b)
  | replace {a b : List Node} {old n : Node} (list : l = a ++ old :: b) (new : n ∉ l)
      (away : pos ≠ some old) : Edit pos l pos (a ++ n :: b)

/-- Nodes which are in both lists are on the same side. -/
structure KeepsSides (passed ahead passed' ahead' : List Node) : Prop where
  passed : ∀ n ∈ passed, n ∉ ahead'
  ahead : ∀ n ∈ ahead, n ∉ passed'

section Sides

variable {pos pos' : Option Node} {passed ahead l l' a b : List Node} {n old : Node}

/-- A cursor in front of a part of the list, or in this part. -/
theorem Stands.cases (h : Stands pos passed ahead (a ++ b)) :
    (∃ c, a = passed ++ c ∧ ahead = c ++ b) ∨
      ∃ c, c ≠ [] ∧ passed = a ++ c ∧ b = c ++ ahead := by
  rcases List.append_eq_append_iff.mp h.list with ⟨c, hpassed, hb⟩ | ⟨c, ha, hahead⟩
  · rcases eq_or_ne c [] with rfl | hc
    · left
      refine ⟨[], ?_, ?_⟩
      · simpa using hpassed.symm
      · simpa using hb.symm
    · exact Or.inr ⟨c, hc, hpassed, hb⟩
  · exact Or.inl ⟨c, ha, hahead⟩

theorem getLast?_append_of_ne_nil (a : List Node) {c : List Node} (hc : c ≠ []) :
    (a ++ c).getLast? = c.getLast? := by
  rw [List.getLast?_append, List.getLast?_eq_some_getLast hc, Option.some_or]

theorem disjoint_sides (hnodup : (passed ++ ahead).Nodup) : ∀ m ∈ passed, m ∉ ahead :=
  fun m hm hm' => (List.nodup_append.mp hnodup).2.2 m hm m hm' rfl

/-- A new node may be on both sides. -/
theorem keepsSides_of_subset {passed' ahead' : List Node} (hnodup : (passed ++ ahead).Nodup)
    (hnew : n ∉ passed ++ ahead) (hpassed : ∀ m ∈ passed', m = n ∨ m ∈ passed)
    (hahead : ∀ m ∈ ahead', m = n ∨ m ∈ ahead) : KeepsSides passed ahead passed' ahead' where
  passed m hm hm' := by
    rcases hahead m hm' with rfl | hm'
    · exact hnew (List.mem_append_left _ hm)
    · exact disjoint_sides hnodup m hm hm'
  ahead m hm hm' := by
    rcases hpassed m hm' with rfl | hm'
    · exact hnew (List.mem_append_right _ hm)
    · exact disjoint_sides hnodup m hm' hm

theorem keepsSides_of_sublist {passed' ahead' : List Node} (hnodup : (passed ++ ahead).Nodup)
    (hpassed : ∀ m ∈ passed', m ∈ passed) (hahead : ∀ m ∈ ahead', m ∈ ahead) :
    KeepsSides passed ahead passed' ahead' where
  passed m hm hm' := disjoint_sides hnodup m hm (hahead m hm')
  ahead m hm hm' := disjoint_sides hnodup m (hpassed m hm') hm

/-- A node in front of the cursor or at it, or ahead of the cursor. -/
theorem Stands.split (h : Stands pos passed ahead (a ++ n :: b)) :
    (∃ c, a = passed ++ c ∧ ahead = c ++ n :: b) ∨
      (passed = a ++ [n] ∧ b = ahead ∧ pos = some n) ∨
      ∃ c, c ≠ [] ∧ passed = a ++ n :: c ∧ b = c ++ ahead ∧ pos = c.getLast? := by
  rcases h.cases with hahead | ⟨c, hc, hpassed, hb⟩
  · exact Or.inl hahead
  · cases c with
    | nil => exact absurd rfl hc
    | cons m c =>
      obtain ⟨rfl, rfl⟩ := List.cons.inj hb
      have hpos : pos = (n :: c).getLast? := by
        rw [h.pos, hpassed, getLast?_append_of_ne_nil a hc]
      rcases eq_or_ne c [] with rfl | hc'
      · exact Or.inr (Or.inl ⟨hpassed, rfl, hpos⟩)
      · refine Or.inr (Or.inr ⟨c, hc', hpassed, rfl, ?_⟩)
        rw [hpos]
        exact getLast?_append_of_ne_nil [n] hc'

/-- Edits keep the sides. -/
theorem Edit.keeps (hs : Stands pos passed ahead l) (hnodup : l.Nodup)
    (h : Edit pos l pos' l') :
    ∃ passed' ahead', Stands pos' passed' ahead' l' ∧
      KeepsSides passed ahead passed' ahead' := by
  have hsides := hs.list ▸ hnodup
  cases h with
  | same =>
    exact ⟨passed, ahead, hs, keepsSides_of_sublist hsides (fun _ => id) fun _ => id⟩
  | @leave a b n list away =>
    subst list
    rcases hs.split with ⟨c, rfl, rfl⟩ | ⟨-, -, hpos⟩ | ⟨c, hc, rfl, rfl, hpos⟩
    · refine ⟨passed, c ++ b, ⟨by simp, hs.pos⟩, keepsSides_of_sublist hsides (fun _ => id) ?_⟩
      intro m hm
      simp only [List.mem_append, List.mem_cons] at hm ⊢
      tauto
    · exact absurd hpos away
    · refine ⟨a ++ c, ahead, ⟨by simp, ?_⟩, keepsSides_of_sublist hsides ?_ fun _ => id⟩
      · rw [hpos, getLast?_append_of_ne_nil a hc]
      · intro m hm
        simp only [List.mem_append, List.mem_cons] at hm ⊢
        tauto
  | @back a b n list here =>
    subst list
    have hn := (List.nodup_cons.mp (List.nodup_middle.mp hnodup)).1
    rcases hs.split with ⟨c, rfl, rfl⟩ | ⟨rfl, rfl, -⟩ | ⟨c, hc, rfl, rfl, hpos⟩
    · -- the cursor stands at no node behind itself
      have hmem : n ∈ passed := List.mem_of_getLast? (hs.pos.symm.trans here)
      exact absurd (List.mem_append_left _ (List.mem_append_left _ hmem)) hn
    · refine ⟨a, b, ⟨rfl, rfl⟩, keepsSides_of_sublist hsides ?_ fun _ => id⟩
      exact fun m hm => List.mem_append_left _ hm
    · have hmem : n ∈ c := List.mem_of_getLast? (hpos.symm.trans here)
      exact absurd (List.mem_append_right _ (List.mem_append_left _ hmem)) hn
  | @join a b n list new =>
    subst list
    rcases hs.cases with ⟨c, rfl, rfl⟩ | ⟨c, hc, rfl, rfl⟩
    · refine ⟨passed, c ++ n :: b, ⟨by simp, hs.pos⟩,
        keepsSides_of_subset hsides (hs.list ▸ new) (fun _ hm => Or.inr hm) ?_⟩
      intro m hm
      simp only [List.mem_append, List.mem_cons] at hm ⊢
      tauto
    · refine ⟨a ++ n :: c, ahead, ⟨by simp, ?_⟩,
        keepsSides_of_subset hsides (hs.list ▸ new) ?_ fun _ hm => Or.inr hm⟩
      · rw [hs.pos, getLast?_append_of_ne_nil a hc, List.append_cons,
          getLast?_append_of_ne_nil _ hc]
      · intro m hm
        simp only [List.mem_append, List.mem_cons] at hm ⊢
        tauto
  | @replace a b old n list new away =>
    subst list
    rcases hs.split with ⟨c, rfl, rfl⟩ | ⟨-, -, hpos⟩ | ⟨c, hc, rfl, rfl, hpos⟩
    · refine ⟨passed, c ++ n :: b, ⟨by simp, hs.pos⟩,
        keepsSides_of_subset hsides (hs.list ▸ new) (fun _ hm => Or.inr hm) ?_⟩
      intro m hm
      simp only [List.mem_append, List.mem_cons] at hm ⊢
      tauto
    · exact absurd hpos away
    · refine ⟨a ++ n :: c, ahead, ⟨by simp, ?_⟩,
        keepsSides_of_subset hsides (hs.list ▸ new) ?_ fun _ hm => Or.inr hm⟩
      · rw [hpos, List.append_cons, getLast?_append_of_ne_nil _ hc]
      · intro m hm
        simp only [List.mem_append, List.mem_cons] at hm ⊢
        tauto

end Sides

/-! ## How often a node has been met -/

section Counting

variable [DecidableEq Node] {met passed ahead passed' ahead' : List Node} {n m : Node}

/-- The node has been met once if it was passed, and not yet if it is ahead. -/
def Counted (met passed : List Node) (n : Node) : Prop :=
  met.count n = if n ∈ passed then 1 else 0

theorem Counted.keeps (h : Counted met passed n) (hsides : KeepsSides passed ahead passed' ahead')
    (hmem : n ∈ passed ++ ahead) (hmem' : n ∈ passed' ++ ahead') : Counted met passed' n := by
  unfold Counted at h ⊢
  rw [h]
  by_cases hn : n ∈ passed
  · have hn' := (List.mem_append.mp hmem').resolve_right (hsides.passed n hn)
    rw [if_pos hn, if_pos hn']
  · have hn' := hsides.ahead n ((List.mem_append.mp hmem).resolve_left hn)
    rw [if_neg hn, if_neg hn']

theorem Counted.advance (h : Counted met passed n) (hnodup : (passed ++ m :: ahead).Nodup) :
    Counted (met ++ [m]) (passed ++ [m]) n := by
  unfold Counted at h ⊢
  have hm : m ∉ passed := fun hm => disjoint_sides hnodup m hm List.mem_cons_self
  rw [List.count_append, h]
  rcases eq_or_ne n m with rfl | hne
  · simp [hm]
  · simp [hne, hne.symm]

end Counting

section Erasing

variable [DecidableEq Node] {pos : Option Node} {passed ahead l : List Node} {c n : Node}

/-- Another node than that of the cursor leaves the list. -/
theorem Stands.erase (stands : Stands pos (passed ++ [c]) ahead l) (hne : c ≠ n)
    (hnodup : l.Nodup) : Stands pos (passed.erase n ++ [c]) (ahead.erase n) (l.erase n) where
  list := by
    have hlist : l = passed ++ (c :: ahead) := by simpa using stands.list
    subst hlist
    rw [List.append_assoc, List.singleton_append]
    by_cases hn : n ∈ passed
    · have hahead : n ∉ ahead := fun h =>
        (List.nodup_append.mp hnodup).2.2 n hn n (List.mem_cons_of_mem _ h) rfl
      rw [List.erase_append_left _ hn, List.erase_of_not_mem hahead]
    · rw [List.erase_append_right _ hn, List.erase_of_not_mem hn,
        List.erase_cons_tail (by simpa using hne)]
  pos := by
    have hpos := stands.pos
    simp only [List.getLast?_concat] at hpos ⊢
    exact hpos

/-- The last node leaves the list, and the cursor steps back from it. -/
theorem Stands.erase_last (stands : Stands (some n) passed [] l) (hnodup : l.Nodup) :
    Stands ((l.takeWhile (· ≠ n)).getLast?) (l.erase n) [] (l.erase n) where
  list := (List.append_nil _).symm
  pos := by
    obtain ⟨before, rfl⟩ : ∃ before, passed = before ++ [n] := by
      obtain ⟨before, hbefore⟩ := List.getLast?_eq_some_iff.mp stands.pos.symm
      exact ⟨before, hbefore⟩
    have hlist : l = before ++ [n] := by simpa using stands.list
    subst hlist
    have hn : n ∉ before := fun h =>
      (List.nodup_append.mp hnodup).2.2 n h n List.mem_cons_self rfl
    have htake : (before ++ [n]).takeWhile (· ≠ n) = before := by
      rw [List.takeWhile_append_of_pos]
      · simp
      · intro x hx
        simpa using ne_of_mem_of_not_mem hx hn
    rw [htake, List.erase_append_right _ hn, List.erase_cons_head, List.append_nil]

end Erasing

end Cursors
