import Libisofs.DirTreeOrder

/-!
# Operations on directories in order

Insertion, replacement and renaming find the right place in the list, and they leave all
directories in order. Each operation has one lemma which says what the tree becomes.
-/

namespace DirTree

open CellLists
open ThreeWay (strcmp strcmp_self strcmp_eq_zero strcmp_lt_trans strcmp_lt_of_not)
open SymlinkTarget (Bytes)

variable {Node : Type} [DecidableEq Node]

section Find

variable {t : Tree Node} {d : Node} {l : List Node}

omit [DecidableEq Node] in
theorem not_smaller_behind (hs : Sorted t l) (name : Bytes) :
    ∀ m ∈ l.dropWhile fun n => decide (strcmp (t.name n) name < 0),
      ¬ strcmp (t.name m) name < 0 := by
  induction l with
  | nil => simp
  | cons n l ih =>
    obtain ⟨hn, hrest⟩ := List.pairwise_cons.mp hs
    by_cases hlt : strcmp (t.name n) name < 0
    · rw [List.dropWhile_cons_of_pos (by simpa using hlt)]
      exact ih hrest
    · rw [List.dropWhile_cons_of_neg (by simpa using hlt)]
      intro m hm hmlt
      rcases List.mem_cons.mp hm with rfl | hm
      · exact hlt hmlt
      · exact hlt (strcmp_lt_trans (hn m hm) hmlt)

omit [DecidableEq Node] in
/-- Smaller names are in front of the found place, all others behind it. -/
theorem isoDirFind_spec [Fintype Node] (hl : ListLinked t d l) (hs : Sorted t l)
    (name : Bytes) :
    ∃ l₁ l₂, l = l₁ ++ l₂ ∧
      t.isoDirFind d name = some (endCell Link.next (.children d) l₁) ∧
      (∀ m ∈ l₁, strcmp (t.name m) name < 0) ∧ ∀ m ∈ l₂, ¬ strcmp (t.name m) name < 0 := by
  refine ⟨_, _, List.takeWhile_append_dropWhile.symm,
    seek_eq _ hl.chain (length_lt_steps hl.chain.nodup), ?_, not_smaller_behind hs name⟩
  intro m hm
  simpa using List.mem_takeWhile_imp hm

omit [DecidableEq Node] in
/-- A node between the smaller and the larger ones. -/
theorem sorted_insert {l₁ l₂ : List Node} {n : Node} (hs : Sorted t (l₁ ++ l₂))
    (h₁ : ∀ m ∈ l₁, strcmp (t.name m) (t.name n) < 0)
    (h₂ : ∀ m ∈ l₂, strcmp (t.name n) (t.name m) < 0) : Sorted t (l₁ ++ n :: l₂) := by
  obtain ⟨hs₁, hs₂, hcross⟩ := List.pairwise_append.mp hs
  refine List.pairwise_append.mpr ⟨hs₁, List.pairwise_cons.mpr ⟨h₂, hs₂⟩, ?_⟩
  intro a ha b hb
  rcases List.mem_cons.mp hb with rfl | hb
  · exact h₁ a ha
  · exact hcross a ha b hb

end Find

section Insert

variable {t s : Tree Node} {d n : Node} {l₁ l₂ : List Node}

/-- A node which the caller gives to a directory, and a place there. -/
structure Joins (t : Tree Node) (d n : Node) (l₁ l₂ : List Node) : Prop where
  order : Linked t
  live : t.Live d
  isDir : t.isDir d = true
  list : ListLinked t d (l₁ ++ l₂)
  detached : t.parent n = none
  owned : t.Owned n
  ne : n ≠ d

theorem Joins.notIn (h : Joins t d n l₁ l₂) {d' : Node} {l : List Node}
    (hl : ListLinked t d' l) : n ∉ l := by
  intro hn
  have hp := ((hl.mem n).mp hn).1
  simp [h.detached] at hp

/-- The tree behind the insertion of one more child. -/
def linkedIn (t : Tree Node) (d n : Node) (e : Link Node) : Tree Node :=
  ((t.setCell (.next n) (t.cell e)).putAt d n e).setNchildren d
    ((t.nchildren d + 1) % 2 ^ 64)

theorem linkedIn_parent_iff (h : Joins t d n l₁ l₂) (e : Link Node) (m d' : Node) :
    (linkedIn t d n e).parent m = some d' ↔ t.parent m = some d' ∨ m = n ∧ d' = d := by
  change Function.update t.parent n (some d) m = some d' ↔ _
  rcases eq_or_ne m n with rfl | hne
  · simp [h.detached, eq_comm]
  · simp [hne]

theorem held_parent_some (t : Tree Node) {n d : Node} (h : t.parent n = none) (m : Node) :
    (t.setParent n (some d)).held m = t.held m + if m = n then 1 else 0 := by
  have hreg : (t.setParent n (some d)).reg = t.reg := rfl
  have hiter : (t.setParent n (some d)).iter = t.iter := rfl
  have hparent : (t.setParent n (some d)).parent = Function.update t.parent n (some d) := rfl
  unfold Tree.held
  rw [hreg, hiter, hparent]
  rcases eq_or_ne m n with rfl | hne
  · simp [h]
    omega
  · simp [hne]

theorem linkedIn_list (h : Joins t d n l₁ l₂) (hsmall : t.nchildren d + 1 < 2 ^ 31) :
    ListLinked (linkedIn t d n (endCell Link.next (.children d) l₁)) d (l₁ ++ n :: l₂) where
  chain := h.list.chain.link next_injective (children_ne_next d) (h.notIn h.list)
  count := by
    have hcount := h.list.count
    change Function.update t.nchildren d ((t.nchildren d + 1) % 2 ^ 64) d = _
    rw [Function.update_self]
    simp only [List.length_append, List.length_cons] at hcount ⊢
    omega
  small := by
    have hcount := h.list.count
    simp only [List.length_append, List.length_cons] at hcount ⊢
    omega
  mem m := by
    have hmem := h.list.mem m
    have hne := h.ne
    rw [linkedIn_parent_iff h]
    constructor
    · intro hm
      by_cases hmn : m = n
      · exact ⟨Or.inr ⟨hmn, rfl⟩, hmn ▸ hne⟩
      · obtain ⟨hp, hmd⟩ := hmem.mp
          (by simp only [List.mem_append, List.mem_cons] at hm ⊢; tauto)
        exact ⟨Or.inl hp, hmd⟩
    · rintro ⟨hp | ⟨rfl, -⟩, hmd⟩
      · have hm := hmem.mpr ⟨hp, hmd⟩
        simp only [List.mem_append, List.mem_cons] at hm ⊢
        tauto
      · simp

theorem linkedIn_other (h : Joins t d n l₁ l₂) {d' : Node} {l : List Node} (hd : d' ≠ d)
    (hl : ListLinked t d' l) :
    ListLinked (linkedIn t d n (endCell Link.next (.children d) l₁)) d' l where
  chain := by
    refine chain_elsewhere l₁ n hl.chain (fun c hc hcn => ?_) hd fun m hm => ?_
    · change Function.update (Function.update t.cell (.next n) _) _ (some n) c = t.cell c
      rw [Function.update_of_ne hc, Function.update_of_ne hcn]
    · constructor
      · intro hm₁
        have hp := ((h.list.mem m).mp (List.mem_append_left _ hm₁)).1
        exact hd (Option.some.inj (((hl.mem m).mp hm).1.symm.trans hp))
      · rintro rfl
        exact h.notIn hl hm
  count := by
    change Function.update t.nchildren d _ d' = _
    rw [Function.update_of_ne hd, hl.count]
  small := hl.small
  mem m := by
    rw [linkedIn_parent_iff h, hl.mem]
    constructor
    · exact fun ⟨hp, hmd⟩ => ⟨Or.inl hp, hmd⟩
    · rintro ⟨hp | ⟨-, heq⟩, hmd⟩
      · exact ⟨hp, hmd⟩
      · exact absurd heq hd

theorem linkedIn_linked (h : Joins t d n l₁ l₂) (hsmall : t.nchildren d + 1 < 2 ^ 31) :
    Linked (linkedIn t d n (endCell Link.next (.children d) l₁)) where
  lists d' hlive hdir := by
    rcases eq_or_ne d' d with rfl | hne
    · exact ⟨_, linkedIn_list h hsmall⟩
    · obtain ⟨l, hl⟩ := h.order.lists d' hlive hdir
      exact ⟨l, linkedIn_other h hne hl⟩
  parents m d' hp := by
    rcases (linkedIn_parent_iff h _ m d').mp hp with hp | ⟨-, rfl⟩
    · exact h.order.parents m d' hp
    · exact ⟨h.live, h.isDir⟩
  held m := by
    change (t.setParent n (some d)).held m ≤ t.refcount m
    rw [held_parent_some t h.detached]
    split
    next heq =>
      have howned := h.owned
      unfold Tree.Owned at howned
      rw [heq]
      omega
    next => exact h.order.held m
  regNodup := h.order.regNodup
  iterDirs := h.order.iterDirs
  iterPos i hi m hpos hp := by
    rcases (linkedIn_parent_iff h _ m m).mp hp with hp | ⟨rfl, heq⟩
    · exact h.order.iterPos i hi m hpos hp
    · exact h.ne heq

/-- Insertion in front of the larger names keeps the order. -/
theorem linkedIn_orderly (ho : Orderly t) (h : Joins t d n l₁ l₂)
    (hsmall : t.nchildren d + 1 < 2 ^ 31)
    (h₁ : ∀ m ∈ l₁, strcmp (t.name m) (t.name n) < 0)
    (h₂ : ∀ m ∈ l₂, strcmp (t.name n) (t.name m) < 0) :
    Orderly (linkedIn t d n (endCell Link.next (.children d) l₁)) where
  toLinked := linkedIn_linked h hsmall
  sorted d' l hlive hdir hl := by
    rcases eq_or_ne d' d with rfl | hne
    · obtain rfl := (linkedIn_list h hsmall).unique hl
      exact sorted_insert (ho.sorted d' _ h.live h.isDir h.list) h₁ h₂
    · obtain ⟨l', hl'⟩ := ho.lists d' hlive hdir
      obtain rfl := (linkedIn_other h hne hl').unique hl
      exact ho.sorted d' l' hlive hdir hl'

end Insert

section Replace

variable {t u : Tree Node} {d n old : Node} {l₁ l₂ : List Node}

theorem Joins.replacee (h : Joins t d n l₁ (old :: l₂)) :
    t.parent old = some d ∧ old ≠ d ∧ old ≠ n := by
  obtain ⟨hp, hne⟩ := (h.list.mem old).mp (by simp)
  refine ⟨hp, hne, ?_⟩
  rintro rfl
  simp [h.detached] at hp

theorem detachOld_parent_iff (t : Tree Node) (old n m d' : Node) :
    (t.detachOld old n).parent m = some d' ↔ t.parent m = some d' ∧ m ≠ old := by
  change Function.update t.parent old none m = some d' ↔ _
  rcases eq_or_ne m old with rfl | hne
  · simp
  · simp [hne]

theorem detachOld_cell (t : Tree Node) (old n : Node) :
    (t.detachOld old n).cell = Function.update
      (Function.update t.cell (.next n) (t.cell (.next old))) (.next old) none :=
  rfl

theorem detachOld_held_le (h : Joins t d n l₁ (old :: l₂)) (m : Node) :
    (t.detachOld old n).held m ≤ t.refcount m ∧
      (m = old → (t.detachOld old n).held m < t.refcount m) := by
  have hm := h.order.held m
  have hattached : t.parent old ≠ none := by simp [h.replacee.1]
  rcases eq_or_ne m old with rfl | hne
  · have hlater : (t.detachOld m n).held m + 1 = t.held m := dropped_held t m hattached
    omega
  · have hlater : (t.detachOld old n).held m = t.held m := dropped_held_of_ne t old hne
    exact ⟨hlater ▸ hm, fun heq => absurd heq hne⟩

/-- The old node does not belong to its directory any more, whose list is being edited. -/
theorem settled_detachOld (h : Joins t d n l₁ (old :: l₂)) :
    Settled (t.detachOld old n) (· = d) where
  lists d' hlive hdir hne := by
    obtain ⟨l, hl⟩ := h.order.lists d' hlive hdir
    have hold : old ∉ l := fun hm =>
      hne (Option.some.inj (((hl.mem old).mp hm).1.symm.trans h.replacee.1))
    refine ⟨l, hl.chain.move ?_ fun m hm => ?_, fun m => ?_⟩
    · rw [detachOld_cell, Function.update_of_ne (children_ne_next d' old),
        Function.update_of_ne (children_ne_next d' n)]
    · have hmold : m ≠ old := fun heq => hold (heq ▸ hm)
      have hmn : m ≠ n := fun heq => h.notIn hl (heq ▸ hm)
      rw [detachOld_cell, Function.update_of_ne (fun heq => hmold (next_injective heq)),
        Function.update_of_ne (fun heq => hmn (next_injective heq))]
    · rw [detachOld_parent_iff, hl.mem]
      constructor
      · rintro ⟨hp, hmd⟩
        refine ⟨⟨hp, ?_⟩, hmd⟩
        rintro rfl
        exact hold ((hl.mem m).mpr ⟨hp, hmd⟩)
      · exact fun ⟨⟨hp, _⟩, hmd⟩ => ⟨hp, hmd⟩
  parents m d' hp := h.order.parents m d' ((detachOld_parent_iff t old n m d').mp hp).1
  held m := (detachOld_held_le h m).1

variable [Fintype Node]

/-- The old node has been released, and the directory still exists. -/
structure Replaced (t u : Tree Node) (d n old : Node) (l₁ l₂ : List Node) : Prop where
  joins : Joins t d n l₁ (old :: l₂)
  run : (t.detachOld old n).unref old = some u
  live : u.Live d

variable (h : Replaced t u d n old l₁ l₂)

include h

theorem Replaced.released :
    Released (t.detachOld old n) u :=
  released_of_unref (settled_detachOld h.joins) ((detachOld_held_le h.joins old).2 rfl) h.run
    fun _ heq => heq ▸ h.live

theorem Replaced.detached : u.parent n = none := by
  cases hp : u.parent n with
  | none => rfl
  | some d' =>
    have hlive := h.released.parentLive n d' hp
    have hp' := (h.released.parent_iff hlive n).mp hp
    have := ((detachOld_parent_iff t old n n d').mp hp').1
    simp [h.joins.detached] at this

/-- The tree in which the new node has taken the place. -/
theorem Replaced.parent_iff (e : Link Node) {d' : Node}
    (hlive : u.Live d') (m : Node) :
    (u.putAt d n e).parent m = some d' ↔
      t.parent m = some d' ∧ m ≠ old ∨ m = n ∧ d' = d := by
  change Function.update u.parent n (some d) m = some d' ↔ _
  rcases eq_or_ne m n with rfl | hne
  · simp [h.joins.detached, eq_comm]
  · rw [Function.update_of_ne hne, h.released.parent_iff hlive, detachOld_parent_iff]
    simp [hne]

theorem Replaced.cell (e : Link Node) :
    (u.putAt d n e).cell = Function.update (Function.update
      (Function.update t.cell (.next n) (t.cell (.next old))) (.next old) none) e (some n) := by
  change Function.update u.cell e (some n) = _
  rw [h.released.cell]
  rfl

theorem Replaced.list :
    ListLinked (u.putAt d n (endCell Link.next (.children d) l₁)) d (l₁ ++ n :: l₂) where
  chain := by
    rw [h.cell]
    exact h.joins.list.chain.replace next_injective (children_ne_next d)
      (h.joins.notIn h.joins.list)
  count := by
    have hcount := h.joins.list.count
    change u.nchildren d = _
    rw [h.released.nchildren]
    change t.nchildren d = _
    simpa using hcount
  small := by simpa using h.joins.list.small
  mem m := by
    have hmem := h.joins.list.mem m
    have hne := h.joins.ne
    have hsplit := List.nodup_middle.mp h.joins.list.chain.nodup
    have hold := (List.nodup_cons.mp hsplit).1
    rw [h.parent_iff _ h.live]
    constructor
    · intro hm
      by_cases hmn : m = n
      · exact ⟨Or.inr ⟨hmn, rfl⟩, hmn ▸ hne⟩
      · have hm' : m ∈ l₁ ++ l₂ := by
          simp only [List.mem_append, List.mem_cons] at hm ⊢
          tauto
        have hmold : m ≠ old := fun heq => hold (heq ▸ hm')
        obtain ⟨hp, hmd⟩ := hmem.mp
          (by simp only [List.mem_append, List.mem_cons] at hm' ⊢; tauto)
        exact ⟨Or.inl ⟨hp, hmold⟩, hmd⟩
    · rintro ⟨⟨hp, hmold⟩ | ⟨rfl, -⟩, hmd⟩
      · have hm := hmem.mpr ⟨hp, hmd⟩
        simp only [List.mem_append, List.mem_cons] at hm ⊢
        tauto
      · simp

theorem Replaced.other {d' : Node} {l : List Node}
    (hlive : u.Live d') (hd : d' ≠ d) (hl : ListLinked t d' l) :
    ListLinked (u.putAt d n (endCell Link.next (.children d) l₁)) d' l where
  chain := by
    have hmem₁ : ∀ m ∈ l, m ∉ l₁ ∧ m ≠ n ∧ m ≠ old := by
      intro m hm
      have hp := ((hl.mem m).mp hm).1
      refine ⟨fun hm₁ => ?_, fun heq => h.joins.notIn hl (heq ▸ hm), ?_⟩
      · have hp' := ((h.joins.list.mem m).mp (List.mem_append_left _ hm₁)).1
        exact hd (Option.some.inj (hp.symm.trans hp'))
      · rintro rfl
        exact hd (Option.some.inj (hp.symm.trans h.joins.replacee.1))
    rw [h.cell]
    apply hl.chain.move
    · rw [Function.update_of_ne ?_, Function.update_of_ne (children_ne_next d' old),
        Function.update_of_ne (children_ne_next d' n)]
      intro heq
      rcases List.mem_cons.mp (heq ▸ endCell_mem (Link.children d) l₁) with h | h
      · exact hd (Link.children.inj h)
      · obtain ⟨m, -, hm⟩ := List.mem_map.mp h
        cases hm
    · intro m hm
      obtain ⟨hm₁, hmn, hmold⟩ := hmem₁ m hm
      rw [Function.update_of_ne (endCell_ne next_injective (children_ne_next d) hm₁).symm,
        Function.update_of_ne (fun heq => hmold (next_injective heq)),
        Function.update_of_ne (fun heq => hmn (next_injective heq))]
  count := by
    change u.nchildren d' = _
    rw [h.released.nchildren]
    exact hl.count
  small := hl.small
  mem m := by
    rw [h.parent_iff _ hlive, hl.mem]
    constructor
    · rintro ⟨hp, hmd⟩
      refine ⟨Or.inl ⟨hp, ?_⟩, hmd⟩
      rintro rfl
      exact hd (Option.some.inj (hp.symm.trans h.joins.replacee.1))
    · rintro ⟨⟨hp, -⟩ | ⟨-, heq⟩, hmd⟩
      · exact ⟨hp, hmd⟩
      · exact absurd heq hd

/-- The given reference is still there. -/
theorem Replaced.owned : u.Owned n := by
  have hslack := unref_slack (settled_detachOld h.joins)
    ((detachOld_held_le h.joins old).2 rfl) h.run (fun _ heq => heq ▸ h.live) n
  rw [if_neg h.joins.replacee.2.2.symm] at hslack
  have howned := h.joins.owned
  have hheld : (t.detachOld old n).held n = t.held n :=
    dropped_held_of_ne t old h.joins.replacee.2.2.symm
  have hcount : (t.detachOld old n).refcount n = t.refcount n := rfl
  unfold Tree.Owned at howned ⊢
  omega

theorem Replaced.linked :
    Linked (u.putAt d n (endCell Link.next (.children d) l₁)) where
  lists d' hlive hdir := by
    rcases eq_or_ne d' d with rfl | hne
    · exact ⟨_, h.list⟩
    · have hdir' : t.isDir d' = true := by
        have : u.isDir = t.isDir := h.released.isDir
        exact this ▸ hdir
      obtain ⟨l, hl⟩ := h.joins.order.lists d' (h.released.live hlive) hdir'
      exact ⟨l, h.other hlive hne hl⟩
  parents m d' hp := by
    change u.Live d' ∧ u.isDir d' = true
    change Function.update u.parent n (some d) m = some d' at hp
    rcases eq_or_ne m n with rfl | hne
    · rw [Function.update_self] at hp
      obtain rfl := Option.some.inj hp
      rw [h.released.isDir]
      exact ⟨h.live, h.joins.isDir⟩
    · rw [Function.update_of_ne hne] at hp
      exact h.released.parents (settled_detachOld h.joins) m d' hp
  held m := by
    change (u.setParent n (some d)).held m ≤ u.refcount m
    rw [held_parent_some u h.detached]
    split
    next heq =>
      have howned := h.owned
      unfold Tree.Owned at howned
      rw [heq]
      omega
    next => exact h.released.held m
  regNodup := by
    change u.reg.Nodup
    rw [h.released.reg]
    exact h.joins.order.regNodup
  iterDirs i hi := by
    change i ∈ u.reg at hi
    change u.isDir (u.iter i).dir = true
    rw [h.released.reg] at hi
    rw [h.released.isDir, h.released.iter]
    exact h.joins.order.iterDirs i hi
  iterPos i hi m hpos hp := by
    change i ∈ u.reg at hi
    change (u.iter i).pos = some m at hpos
    rw [h.released.reg] at hi
    rw [h.released.iter] at hpos
    have hlive : u.Live m := by
      change Function.update u.parent n (some d) m = some m at hp
      rcases eq_or_ne m n with rfl | hne
      · rw [Function.update_self] at hp
        exact absurd (Option.some.inj hp).symm h.joins.ne
      · rw [Function.update_of_ne hne] at hp
        exact h.released.parentLive m m hp
    rcases (h.parent_iff _ hlive m).mp hp with ⟨hp, -⟩ | ⟨rfl, heq⟩
    · exact h.joins.order.iterPos i hi m hpos hp
    · exact h.joins.ne heq

/-- Replacement of a node with the same name keeps the order. -/
theorem Replaced.orderly (ho : Orderly t)
    (hname : t.name old = t.name n) :
    Orderly (u.putAt d n (endCell Link.next (.children d) l₁)) where
  toLinked := h.linked
  sorted d' l hlive hdir hl := by
    have hdir' : t.isDir d' = true := by
      have : u.isDir = t.isDir := h.released.isDir
      exact this ▸ hdir
    have hlive' := h.released.live hlive
    have hnames : (u.putAt d n (endCell Link.next (.children d) l₁)).name = t.name :=
      h.released.name
    unfold Sorted
    rw [hnames]
    rcases eq_or_ne d' d with rfl | hne
    · obtain rfl := h.list.unique hl
      have hs := ho.sorted d' _ hlive' hdir' h.joins.list
      obtain ⟨hs₁, hs₂, hcross⟩ := List.pairwise_append.mp hs
      obtain ⟨hold, hs₂⟩ := List.pairwise_cons.mp hs₂
      apply sorted_insert (List.pairwise_append.mpr
        ⟨hs₁, hs₂, fun a ha b hb => hcross a ha b (List.mem_cons_of_mem old hb)⟩)
      · intro m hm
        rw [← hname]
        exact hcross m hm old List.mem_cons_self
      · intro m hm
        rw [← hname]
        exact hold m hm
    · obtain ⟨l', hl'⟩ := ho.lists d' hlive' hdir'
      obtain rfl := (h.other hlive hne hl').unique hl
      exact ho.sorted d' l' hlive' hdir' hl'

end Replace

end DirTree
