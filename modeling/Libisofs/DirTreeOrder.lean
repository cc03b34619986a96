import Libisofs.DirTreeUnref

/-!
# The order of directories

Each operation of node.c keeps the directories in order, unless it takes a root away, or
frees the directory into which it inserts, or has too many children to tell their number.
The walks over lists stop where the abstract lists say, iterators get moved away from a
taken node, and the edits are those of linked lists in cells.
-/

namespace DirTree

open CellLists
open ThreeWay (strcmp strcmp_self strcmp_eq_zero strcmp_lt_trans strcmp_lt_of_not)

variable {Node : Type} [DecidableEq Node]

section Decays

variable {t t' : Tree Node} (h : Decays t t')

include h

omit [DecidableEq Node]

theorem Decays.cell : t'.cell = t.cell := by rw [h.frame]

theorem Decays.name : t'.name = t.name := by rw [h.frame]

theorem Decays.isDir : t'.isDir = t.isDir := by rw [h.frame]

theorem Decays.nchildren : t'.nchildren = t.nchildren := by rw [h.frame]

theorem Decays.reg : t'.reg = t.reg := by rw [h.frame]

theorem Decays.iter : t'.iter = t.iter := by rw [h.frame]

/-- Children of directories which survive stay there. -/
theorem Decays.parent_iff {d : Node} (hlive : t'.Live d) (n : Node) :
    t'.parent n = some d ↔ t.parent n = some d := by
  rcases h.parent n with heq | ⟨hnone, d', hd', -, hdead⟩
  · rw [heq]
  · constructor
    · intro hp
      simp [hnone] at hp
    · intro hp
      obtain rfl : d' = d := Option.some.inj (hd'.symm.trans hp)
      exact absurd hlive hdead

end Decays

theorem Released.parents {t t' : Tree Node} {ex : Node → Prop} (h : Settled t ex)
    (hr : Released t t') (n d : Node) (hp : t'.parent n = some d) :
    t'.Live d ∧ t'.isDir d = true := by
  have hlive := hr.parentLive n d hp
  rw [hr.isDir]
  exact ⟨hlive, (h.parents n d ((hr.parent_iff hlive n).mp hp)).2⟩

omit [DecidableEq Node] in
theorem ListLinked.released {t t' : Tree Node} {d : Node} {l : List Node}
    (h : ListLinked t d l) (hr : Decays t t') (hlive : t'.Live d) : ListLinked t' d l where
  chain := by
    rw [hr.cell]
    exact h.chain
  count := by
    rw [hr.nchildren]
    exact h.count
  small := h.small
  mem n := by rw [hr.parent_iff hlive, h.mem]

omit [DecidableEq Node] in
theorem ListLinked.unique {t : Tree Node} {d : Node} {l l' : List Node}
    (h : ListLinked t d l) (h' : ListLinked t d l') : l = l' :=
  h.chain.unique h'.chain

theorem Linked.released {t t' : Tree Node} (h : Linked t) (hr : Released t t') :
    Linked t' where
  lists d hlive hdir := by
    rw [hr.isDir] at hdir
    obtain ⟨l, hl⟩ := h.lists d (hr.live hlive) hdir
    exact ⟨l, hl.released hr.toDecays hlive⟩
  parents := hr.parents h.settled
  held := hr.held
  regNodup := by
    rw [hr.reg]
    exact h.regNodup
  iterDirs i hi := by
    rw [hr.reg] at hi
    rw [hr.isDir, hr.iter]
    exact h.iterDirs i hi
  iterPos i hi n hpos hp := by
    rw [hr.reg] at hi
    rw [hr.iter] at hpos
    have hlive := hr.parentLive n n hp
    exact h.iterPos i hi n hpos ((hr.parent_iff hlive n).mp hp)

/-- Giving away a reference keeps the order. -/
theorem Orderly.released {t t' : Tree Node} (h : Orderly t) (hr : Released t t') :
    Orderly t' where
  toLinked := h.toLinked.released hr
  sorted d l hlive hdir hl := by
    rw [hr.isDir] at hdir
    obtain ⟨l', hl'⟩ := h.lists d (hr.live hlive) hdir
    obtain rfl := (hl'.released hr.toDecays hlive).unique hl
    unfold Sorted
    rw [hr.name]
    exact h.sorted d l' (hr.live hlive) hdir hl'

theorem orderly_unref [Fintype Node] {t : Tree Node} {n : Node} (h : Orderly t)
    (howned : t.Owned n) : ∃ t', t.unref n = some t' ∧ Released t t' ∧ Orderly t' := by
  obtain ⟨t', hrun, hr⟩ := released_unref h.settled howned
  exact ⟨t', hrun, hr, h.released hr⟩

/-! ## Iterators and references -/

section Iterators

variable {t : Tree Node} {i : Nat} (it : DirIter Node)

omit [DecidableEq Node] in
theorem countP_setIter (hnodup : t.reg.Nodup) (hi : i ∈ t.reg) (p : DirIter Node → Bool) :
    t.reg.countP (fun j => p ((t.setIter i it).iter j)) + (if p (t.iter i) then 1 else 0) =
      t.reg.countP (fun j => p (t.iter j)) + (if p it then 1 else 0) := by
  have hperm := List.perm_cons_erase hi
  have hother : (t.reg.erase i).countP (fun j => p ((t.setIter i it).iter j)) =
      (t.reg.erase i).countP fun j => p (t.iter j) := by
    apply List.countP_congr
    intro j hj
    have hne : j ≠ i := (hnodup.mem_erase_iff.mp hj).1
    simp [Tree.setIter, hne]
  rw [hperm.countP_eq, hperm.countP_eq, List.countP_cons, List.countP_cons, hother]
  simp only [Tree.setIter, Function.update_self]
  omega

/-- An iterator gives up its position for another one. -/
theorem held_setIter (hnodup : t.reg.Nodup) (hi : i ∈ t.reg) (hdir : it.dir = (t.iter i).dir)
    (m : Node) :
    (t.setIter i it).held m + (if (t.iter i).pos = some m then 1 else 0) =
      t.held m + (if it.pos = some m then 1 else 0) := by
  have hpos := countP_setIter it hnodup hi fun j => decide (j.pos = some m)
  have hdirs := countP_setIter it hnodup hi fun j => decide (j.dir = m)
  simp only [decide_eq_true_eq, hdir] at hpos hdirs
  have hparent : (t.setIter i it).parent = t.parent := rfl
  have hreg : (t.setIter i it).reg = t.reg := rfl
  unfold Tree.held
  rw [hparent, hreg]
  omega

end Iterators

/-! ## The notification of iterators -/

omit [DecidableEq Node] in
theorem next_injective : Function.Injective (Link.next : Node → Link Node) :=
  fun _ _ h => Link.next.inj h

omit [DecidableEq Node] in
theorem children_ne_next (d n : Node) : Link.children d ≠ Link.next n := by
  intro h
  cases h

/-- Iterators may have moved away from the node, and then it is out of the list. -/
structure Notified (t s : Tree Node) (n : Node) (e : Link Node) : Prop where
  frame : s = { t with cell := s.cell, refcount := s.refcount, iter := s.iter }
  cell : s.cell = t.cell ∨ s.cell = Function.update t.cell e (t.cell (.next n))
  live : ∀ m, s.Live m ↔ t.Live m
  held : ∀ m, s.held m ≤ s.refcount m
  dir : ∀ i, (s.iter i).dir = (t.iter i).dir
  pos : ∀ i, (s.iter i).pos = (t.iter i).pos ∨
    (t.iter i).pos = some n ∧ (s.iter i).pos = e.pre

theorem takeWhile_ne {l₁ l₂ : List Node} {n : Node} (hn : n ∉ l₁) :
    (l₁ ++ n :: l₂).takeWhile (fun m => decide (m ≠ n)) = l₁ := by
  rw [List.takeWhile_append_of_pos]
  · simp
  · intro m hm
    have hne : m ≠ n := fun heq => hn (heq ▸ hm)
    simpa using hne

theorem takeWhile_ne_all {l : List Node} {n : Node} (hn : n ∉ l) :
    l.takeWhile (fun m => decide (m ≠ n)) = l := by
  apply List.takeWhile_eq_self_iff.mpr
  intro m hm
  have hne : m ≠ n := fun heq => hn (heq ▸ hm)
  simpa using hne

section Notify

variable {t s : Tree Node} {d n : Node} {l₁ l₂ : List Node}

/-- Without the node in the list, its own link still being there. -/
theorem chain_bypass (h : Chain Link.next t.cell (.children d) (l₁ ++ n :: l₂)) :
    Chain Link.next
      (Function.update t.cell (endCell Link.next (.children d) l₁) (t.cell (.next n)))
      (.children d) (l₁ ++ l₂) := by
  have hn : n ∉ l₁ ++ l₂ := (List.nodup_middle.mp h.nodup |> List.nodup_cons.mp).1
  refine (h.unlink next_injective (children_ne_next d)).move ?_ fun m hm => ?_
  · rw [Function.update_of_ne (children_ne_next d n)]
  · have hne : m ≠ n := fun heq => hn (heq ▸ hm)
    rw [Function.update_of_ne (fun heq => hne (next_injective heq))]

omit [DecidableEq Node] in
theorem pre_endCell_ne (hn : n ∉ l₁) :
    (endCell Link.next (.children d) l₁).pre ≠ some n := by
  rcases @endCell_cases _ _ Link.next (Link.children d) l₁ with
    ⟨-, h⟩ | ⟨l', m, rfl, h⟩
  · rw [h]
    intro heq
    cases heq
  · rw [h]
    intro heq
    obtain rfl : m = n := Option.some.inj heq
    exact hn (by simp)

/-- A reference to the new position, if there is one. -/
def refPre : Option Node → Tree Node → Tree Node
  | none, s => s
  | some pre, s => s.ref pre

theorem refPre_eq (p : Option Node) (s : Tree Node) :
    refPre p s = { s with refcount := (refPre p s).refcount } := by
  cases p <;> rfl

theorem refPre_refcount (p : Option Node) (s : Tree Node) (m : Node) :
    (refPre p s).refcount m = s.refcount m + if p = some m then 1 else 0 := by
  cases p with
  | none => simp [refPre]
  | some pre =>
    rcases eq_or_ne m pre with rfl | hne
    · simp [refPre, Tree.ref, Tree.setRefcount]
    · simp [refPre, Tree.ref, Tree.setRefcount, hne, hne.symm]

/-- The iterator moves to the previous node. -/
def movedBack (s : Tree Node) (i : Nat) (n : Node) (e : Link Node) : Tree Node :=
  refPre e.pre
    (((s.decr n).setCell e (s.cell (.next n))).setIter i ((s.iter i).moveTo e.pre))

theorem movedBack_iter (s : Tree Node) (i : Nat) (n : Node) (e : Link Node) :
    (movedBack s i n e).iter = Function.update s.iter i ((s.iter i).moveTo e.pre) := by
  rw [movedBack, refPre_eq]
  rfl

theorem movedBack_cell (s : Tree Node) (i : Nat) (n : Node) (e : Link Node) :
    (movedBack s i n e).cell = Function.update s.cell e (s.cell (.next n)) := by
  rw [movedBack, refPre_eq]
  rfl

theorem movedBack_refcount (s : Tree Node) (i : Nat) (n : Node) (e : Link Node) (m : Node) :
    (movedBack s i n e).refcount m =
      (s.decr n).refcount m + if e.pre = some m then 1 else 0 :=
  refPre_refcount _ _ m

theorem movedBack_held (s : Tree Node) (i : Nat) (n : Node) (e : Link Node) (m : Node) :
    (movedBack s i n e).held m = (s.setIter i ((s.iter i).moveTo e.pre)).held m := by
  rw [movedBack, refPre_eq]
  rfl

theorem movedBack_held_le {i : Nat} {e : Link Node} (hnodup : s.reg.Nodup) (hi : i ∈ s.reg)
    (hheld : ∀ m, s.held m ≤ s.refcount m) (hpos : (s.iter i).pos = some n)
    (he : e.pre ≠ some n) (m : Node) :
    (movedBack s i n e).held m ≤ (movedBack s i n e).refcount m := by
  have hset := held_setIter ((s.iter i).moveTo e.pre) hnodup hi rfl m
  have hm := hheld m
  rw [movedBack_held, movedBack_refcount]
  have hmove : ((s.iter i).moveTo e.pre).pos = e.pre := rfl
  simp only [hpos, hmove, Option.some.injEq] at hset
  rcases eq_or_ne m n with rfl | hne
  · have hone := Tree.held_of_pos hi hpos
    rw [decr_refcount_self]
    simp only [he, if_true, if_false] at hset ⊢
    omega
  · rw [decr_refcount_of_ne hne]
    simp only [hne.symm, if_false] at hset
    omega

omit [DecidableEq Node] in
theorem mem_of_pre_endCell {m : Node}
    (hm : (endCell Link.next (.children d) l₁).pre = some m) : m ∈ l₁ := by
  by_contra hnot
  exact pre_endCell_ne hnot hm

/-- Nobody comes to life or dies, as attached nodes are alive. -/
theorem movedBack_live {i : Nat} {e : Link Node} (hi : i ∈ s.reg)
    (hheld : ∀ m, s.held m ≤ s.refcount m) (hpos : (s.iter i).pos = some n)
    (hn : s.parent n ≠ none) (hpre : ∀ m, e.pre = some m → s.parent m ≠ none) (m : Node) :
    (movedBack s i n e).Live m ↔ s.Live m := by
  unfold Tree.Live
  rw [movedBack_refcount]
  have hm := hheld m
  rcases eq_or_ne m n with rfl | hne
  · have htwo := Tree.held_of_pos hi hpos
    rw [if_neg hn] at htwo
    rw [decr_refcount_self]
    omega
  · rw [decr_refcount_of_ne hne]
    split
    next hp =>
      have hone := Tree.one_le_held (hpre m hp)
      omega
    next => omega

theorem notified_movedBack {i : Nat} (hnodup : t.reg.Nodup)
    (hs : Notified t s n (endCell Link.next (.children d) l₁)) (hi : i ∈ t.reg)
    (hcell : s.cell = t.cell) (hpos : (s.iter i).pos = some n) (hn : n ∉ l₁)
    (hattached : t.parent n ≠ none ∧ ∀ m ∈ l₁, t.parent m ≠ none) :
    Notified t (movedBack s i n (endCell Link.next (.children d) l₁)) n
      (endCell Link.next (.children d) l₁) := by
  have he := pre_endCell_ne (d := d) hn
  have hparents : s.parent = t.parent := by rw [hs.frame]
  have hpre : ∀ m, (endCell Link.next (.children d) l₁).pre = some m → s.parent m ≠ none :=
    fun m hm => hparents ▸ hattached.2 m (mem_of_pre_endCell hm)
  generalize endCell Link.next (.children d) l₁ = e at hs he hpre ⊢
  have hreg : s.reg = t.reg := by rw [hs.frame]
  refine
    { frame := ?_
      cell := Or.inr ?_
      live := fun m => (movedBack_live (hreg ▸ hi) hs.held hpos (hparents ▸ hattached.1) hpre
        m).trans (hs.live m)
      held := movedBack_held_le (hreg ▸ hnodup) (hreg ▸ hi) hs.held hpos he
      dir := fun j => ?_
      pos := fun j => ?_ }
  · have h := refPre_eq e.pre (((s.decr n).setCell e (s.cell (.next n))).setIter i
      ((s.iter i).moveTo e.pre))
    rw [movedBack, h, hs.frame]
    rfl
  · rw [movedBack_cell, hcell]
  · rw [movedBack_iter]
    rcases eq_or_ne j i with rfl | hne
    · rw [Function.update_self]
      exact hs.dir j
    · rw [Function.update_of_ne hne]
      exact hs.dir j
  · rw [movedBack_iter]
    rcases eq_or_ne j i with rfl | hne
    · rw [Function.update_self]
      rcases hs.pos j with h | ⟨h, -⟩
      · exact Or.inr ⟨h ▸ hpos, rfl⟩
      · exact Or.inr ⟨h, rfl⟩
    · rw [Function.update_of_ne hne]
      exact hs.pos j

variable [Fintype Node]

theorem seek_child (h : Chain Link.next t.cell (.children d) (l₁ ++ n :: l₂)) :
    seek Link.next t.cell (fun m => decide (m ≠ n)) (steps Node) (.children d) =
      some (endCell Link.next (.children d) l₁) := by
  have hn₁ : n ∉ l₁ := fun hn =>
    (List.nodup_append.mp h.nodup).2.2 n hn n List.mem_cons_self rfl
  rw [seek_eq _ h (length_lt_steps h.nodup), takeWhile_ne hn₁]

theorem seek_absent {l : List Node} (h : Chain Link.next t.cell (.children d) l) (hn : n ∉ l) :
    seek Link.next t.cell (fun m => decide (m ≠ n)) (steps Node) (.children d) =
      some (endCell Link.next (.children d) l) := by
  rw [seek_eq _ h (length_lt_steps h.nodup), takeWhile_ne_all hn]

theorem iterNotify_other {i : Nat} (hpos : (s.iter i).pos ≠ some n) :
    s.iterNotifyChildTaken i n = some s := by
  simp only [Tree.iterNotifyChildTaken, hpos, if_false]

theorem iterNotify_absent {i : Nat} {l : List Node}
    (h : Chain Link.next s.cell (.children (s.iter i).dir) l) (hn : n ∉ l) :
    s.iterNotifyChildTaken i n = some s := by
  have hwhole : Chain Link.next s.cell (.children (s.iter i).dir) (l ++ []) := by
    rwa [List.append_nil]
  have hend : s.cell (endCell Link.next (.children (s.iter i).dir) l) = none := hwhole.drop
  unfold Tree.iterNotifyChildTaken
  rw [seek_absent h hn]
  simp only [hend, if_true, ite_self]

theorem iterNotify_moves {i : Nat}
    (h : Chain Link.next s.cell (.children (s.iter i).dir) (l₁ ++ n :: l₂))
    (hpos : (s.iter i).pos = some n) (hmore : 2 ≤ s.refcount n) :
    s.iterNotifyChildTaken i n =
      some (movedBack s i n (endCell Link.next (.children (s.iter i).dir) l₁)) := by
  have hend : s.cell (endCell Link.next (.children (s.iter i).dir) l₁) ≠ none := by
    rw [h.drop.1]
    exact Option.some_ne_none n
  have hunref : s.unref n = some (s.decr n) := unref_eq_decr fun hone => by
    rw [hone.1] at hmore
    omega
  unfold Tree.iterNotifyChildTaken
  rw [if_pos hpos, seek_child h]
  simp only [hend, if_false, hunref]
  unfold movedBack
  cases (endCell Link.next (.children (s.iter i).dir) l₁).pre <;> rfl

/-- The place of a child in the tree. -/
structure ChildAt (t : Tree Node) (d n : Node) (l₁ l₂ : List Node) : Prop where
  order : Linked t
  list : ListLinked t d (l₁ ++ n :: l₂)

omit [Fintype Node] in
theorem ChildAt.parent (h : ChildAt t d n l₁ l₂) : t.parent n = some d ∧ n ≠ d :=
  (h.list.mem n).mp (by simp)

omit [Fintype Node] in
theorem ChildAt.notIn (h : ChildAt t d n l₁ l₂) : n ∉ l₁ ++ l₂ :=
  (List.nodup_cons.mp (List.nodup_middle.mp h.list.chain.nodup)).1

omit [Fintype Node] in
theorem ChildAt.attached (h : ChildAt t d n l₁ l₂) :
    t.parent n ≠ none ∧ ∀ m ∈ l₁, t.parent m ≠ none := by
  have hsome : ∀ m ∈ l₁ ++ n :: l₂, t.parent m ≠ none := fun m hm => by
    rw [((h.list.mem m).mp hm).1]
    exact Option.some_ne_none d
  exact ⟨hsome n (by simp), fun m hm => hsome m (List.mem_append_left _ hm)⟩

omit [Fintype Node] in
theorem Linked.childAt (h : Linked t) (hp : t.parent n = some d) (hne : n ≠ d) :
    ∃ l₁ l₂, ChildAt t d n l₁ l₂ := by
  obtain ⟨hlive, hdir⟩ := h.parents n d hp
  obtain ⟨l, hl⟩ := h.lists d hlive hdir
  obtain ⟨l₁, l₂, rfl⟩ := List.append_of_mem ((hl.mem n).mpr ⟨hp, hne⟩)
  exact ⟨l₁, l₂, h, hl⟩

/-- One iterator of the directory gets notified. -/
theorem notified_one (h : ChildAt t d n l₁ l₂) {i : Nat} (hi : i ∈ t.reg)
    (hdir : (t.iter i).dir = d)
    (hs : Notified t s n (endCell Link.next (.children d) l₁)) :
    ∃ s', s.iterNotifyChildTaken i n = some s' ∧
      Notified t s' n (endCell Link.next (.children d) l₁) ∧
      (∀ j ≠ i, s'.iter j = s.iter j) ∧ ((s.iter i).pos ≠ some n → s' = s) ∧
      (s.cell = t.cell → (s'.iter i).pos ≠ some n) := by
  have hn₁ : n ∉ l₁ := fun hn => h.notIn (List.mem_append_left _ hn)
  have hreg : s.reg = t.reg := by rw [hs.frame]
  have hdir' : (s.iter i).dir = d := (hs.dir i).trans hdir
  by_cases hpos : (s.iter i).pos = some n
  · by_cases hcell : s.cell = t.cell
    · have hchain : Chain Link.next s.cell (.children (s.iter i).dir) (l₁ ++ n :: l₂) := by
        rw [hcell, hdir']
        exact h.list.chain
      have hmore : 2 ≤ s.refcount n := by
        have hheld := Tree.held_of_pos (hreg ▸ hi) hpos
        have hparent : s.parent n ≠ none := by
          rw [hs.frame]
          simp [h.parent.1]
        rw [if_neg hparent] at hheld
        exact hheld.trans (hs.held n)
      refine ⟨_, iterNotify_moves hchain hpos hmore, ?_, ?_, ?_, ?_⟩
      · rw [hdir']
        exact notified_movedBack h.order.regNodup hs hi hcell hpos hn₁ h.attached
      · intro j hne
        rw [movedBack_iter, Function.update_of_ne hne]
      · exact fun hother => absurd hpos hother
      · intro _
        rw [movedBack_iter, Function.update_self]
        exact pre_endCell_ne hn₁
    · have hchain : Chain Link.next s.cell (.children (s.iter i).dir) (l₁ ++ l₂) := by
        rw [hs.cell.resolve_left hcell, hdir']
        exact chain_bypass h.list.chain
      exact ⟨s, iterNotify_absent hchain h.notIn, hs, fun _ _ => rfl, fun _ => rfl,
        fun heq => absurd heq hcell⟩
  · exact ⟨s, iterNotify_other hpos, hs, fun _ _ => rfl, fun _ => rfl, fun _ => hpos⟩

/-- All iterators get notified. -/
theorem notified_all (h : ChildAt t d n l₁ l₂) {is : List Nat} (his : ∀ i ∈ is, i ∈ t.reg)
    (hs : Notified t s n (endCell Link.next (.children d) l₁)) :
    ∃ s', Tree.isoNotifyDirIters n is s = some s' ∧
      Notified t s' n (endCell Link.next (.children d) l₁) ∧
      ∀ j, j ∉ is → s'.iter j = s.iter j := by
  induction is generalizing s with
  | nil => exact ⟨s, rfl, hs, fun _ _ => rfl⟩
  | cons i rest ih =>
    have hrest : ∀ j ∈ rest, j ∈ t.reg := fun j hj => his j (List.mem_cons_of_mem i hj)
    rw [Tree.isoNotifyDirIters]
    split
    next hdir =>
      have hparent : s.parent n = some d := by
        rw [hs.frame]
        exact h.parent.1
      have hdir' : (t.iter i).dir = d := by
        rw [← hs.dir i]
        exact (Option.some.inj (hparent.symm.trans hdir)).symm
      obtain ⟨s₁, hrun, hs₁, hother, -⟩ :=
        notified_one h (his i List.mem_cons_self) hdir' hs
      obtain ⟨s', hrun', hs', hother'⟩ := ih hrest hs₁
      refine ⟨s', by rw [hrun]; exact hrun', hs', fun j hj => ?_⟩
      have hji : j ≠ i := fun heq => hj (heq ▸ List.mem_cons_self)
      rw [hother' j (fun hj' => hj (List.mem_cons_of_mem i hj')), hother j hji]
    next hdir =>
      obtain ⟨s', hrun, hs', hother⟩ := ih hrest hs
      exact ⟨s', hrun, hs', fun j hj => hother j fun hj' => hj (List.mem_cons_of_mem i hj')⟩

/-- If only one iterator is at the node, then none is there after the notification. -/
theorem notified_leaves (h : ChildAt t d n l₁ l₂) {is : List Nat} (hnodup : is.Nodup)
    (his : ∀ i ∈ is, i ∈ t.reg) {s' : Tree Node}
    (hs : Notified t s n (endCell Link.next (.children d) l₁))
    (hdirs : ∀ i ∈ is, (s.iter i).pos = some n → (s.iter i).dir = d)
    (hone : ∀ i ∈ is, ∀ j ∈ is, (s.iter i).pos = some n → (s.iter j).pos = some n → i = j)
    (hcell : s.cell = t.cell ∨ ∀ i ∈ is, (s.iter i).pos ≠ some n)
    (hrun : Tree.isoNotifyDirIters n is s = some s') :
    ∀ i ∈ is, (s'.iter i).pos ≠ some n := by
  induction is generalizing s with
  | nil => simp
  | cons i rest ih =>
    obtain ⟨hi, hnodup'⟩ := List.nodup_cons.mp hnodup
    have hrest : ∀ j ∈ rest, j ∈ t.reg := fun j hj => his j (List.mem_cons_of_mem i hj)
    have hparent : s.parent n = some d := by
      rw [hs.frame]
      exact h.parent.1
    rw [Tree.isoNotifyDirIters] at hrun
    split at hrun
    next hdir =>
      have hdir' : (t.iter i).dir = d := by
        rw [← hs.dir i]
        exact (Option.some.inj (hparent.symm.trans hdir)).symm
      obtain ⟨s₁, hone₁, hs₁, hother, hsame, hmoved⟩ :=
        notified_one h (his i List.mem_cons_self) hdir' hs
      rw [hone₁] at hrun
      have hleft : (s₁.iter i).pos ≠ some n := by
        rcases hcell with hcell | hcell
        · exact hmoved hcell
        · have hpos := hcell i List.mem_cons_self
          rw [hsame hpos]
          exact hpos
      have hkeep : ∀ j ∈ rest, s₁.iter j = s.iter j := fun j hj =>
        hother j fun heq => hi (heq ▸ hj)
      have hcell₁ : s₁.cell = t.cell ∨ ∀ j ∈ rest, (s₁.iter j).pos ≠ some n := by
        by_cases hpos : (s.iter i).pos = some n
        · refine Or.inr fun j hj hposj => ?_
          rw [hkeep j hj] at hposj
          have hij := hone i List.mem_cons_self j (List.mem_cons_of_mem i hj) hpos hposj
          exact hi (hij ▸ hj)
        · rw [hsame hpos]
          exact hcell.imp id fun hall j hj => hall j (List.mem_cons_of_mem i hj)
      have hrec := ih hnodup' hrest hs₁
        (fun j hj hposj => by
          rw [hkeep j hj] at hposj ⊢
          exact hdirs j (List.mem_cons_of_mem i hj) hposj)
        (fun j hj k hk hposj hposk => by
          rw [hkeep j hj] at hposj
          rw [hkeep k hk] at hposk
          exact hone j (List.mem_cons_of_mem i hj) k (List.mem_cons_of_mem i hk) hposj hposk)
        hcell₁ hrun
      intro j hj
      rcases List.mem_cons.mp hj with rfl | hj
      · obtain ⟨s₂, hrun₂, -, hfar⟩ := notified_all h hrest hs₁
        obtain rfl : s₂ = s' := Option.some.inj (hrun₂.symm.trans hrun)
        rw [hfar j hi]
        exact hleft
      · exact hrec j hj
    next hdir =>
      have hpos : (s.iter i).pos ≠ some n := fun hpos => by
        apply hdir
        rw [hparent, hdirs i List.mem_cons_self hpos]
      have hrec := ih hnodup' hrest hs
        (fun j hj => hdirs j (List.mem_cons_of_mem i hj))
        (fun j hj k hk => hone j (List.mem_cons_of_mem i hj) k (List.mem_cons_of_mem i hk))
        (hcell.imp id fun hall j hj => hall j (List.mem_cons_of_mem i hj)) hrun
      intro j hj
      rcases List.mem_cons.mp hj with rfl | hj
      · obtain ⟨s₂, hrun₂, -, hfar⟩ := notified_all h hrest hs
        obtain rfl : s₂ = s' := Option.some.inj (hrun₂.symm.trans hrun)
        rw [hfar j hi]
        exact hpos
      · exact hrec j hj

/-! ## Taking -/

/-- There are not two iterators at the node. -/
def AloneAt (t : Tree Node) (n : Node) : Prop :=
  ∀ i ∈ t.reg, ∀ j ∈ t.reg, (t.iter i).pos = some n → (t.iter j).pos = some n → i = j

/-- The effect of iso_node_take(). The caller now owns the node. -/
structure Taken (t t' : Tree Node) (d n : Node) (l₁ l₂ : List Node) : Prop where
  frame : t' =
    { t with
      parent := Function.update t.parent n none
      cell := t'.cell
      nchildren := Function.update t.nchildren d (l₁ ++ l₂).length
      refcount := t'.refcount
      iter := t'.iter }
  cell : t'.cell = Function.update
    (Function.update t.cell (endCell Link.next (.children d) l₁) (t.cell (.next n)))
    (.next n) none
  live : ∀ m, t'.Live m ↔ t.Live m
  held : ∀ m, t'.held m ≤ t'.refcount m
  owned : t'.Owned n
  dir : ∀ i, (t'.iter i).dir = (t.iter i).dir
  pos : ∀ i, (t'.iter i).pos = (t.iter i).pos ∨ (t.iter i).pos = some n ∧
    (t'.iter i).pos = (endCell Link.next (.children d) l₁).pre
  leaves : AloneAt t n → (∀ i ∈ t.reg, (t.iter i).pos = some n → (t.iter i).dir = d) →
    ∀ i ∈ t.reg, (t'.iter i).pos ≠ some n

/-- What follows the notification. -/
def takenFrom (s : Tree Node) (d n : Node) (e : Link Node) : Tree Node :=
  let s := s.setCell e (s.cell (.next n))
  let s := (s.setParent n none).setCell (.next n) none
  s.setNchildren d ((s.nchildren d + 2 ^ 64 - 1) % 2 ^ 64)

omit [Fintype Node] in
theorem taken_of_notified (h : ChildAt t d n l₁ l₂)
    (hs : Notified t s n (endCell Link.next (.children d) l₁))
    (hleaves : AloneAt t n → (∀ i ∈ t.reg, (t.iter i).pos = some n → (t.iter i).dir = d) →
      ∀ i ∈ t.reg, (s.iter i).pos ≠ some n) :
    Taken t (takenFrom s d n (endCell Link.next (.children d) l₁)) d n l₁ l₂ := by
  have hn₁ : n ∉ l₁ := fun hn => h.notIn (List.mem_append_left _ hn)
  have hne : endCell Link.next (.children d) l₁ ≠ .next n :=
    endCell_ne next_injective (children_ne_next d) hn₁
  have hparent : s.parent n ≠ none := by
    rw [hs.frame]
    simp [h.parent.1]
  generalize he : endCell Link.next (.children d) l₁ = e at hs hne ⊢
  have hnext : s.cell (.next n) = t.cell (.next n) := by
    rcases hs.cell with heq | heq
    · rw [heq]
    · rw [heq, Function.update_of_ne hne.symm]
  have hlater : ∀ m ≠ n, (takenFrom s d n e).held m = s.held m := fun m hm =>
    dropped_held_of_ne s n hm
  have hnow : (takenFrom s d n e).held n + 1 = s.held n := dropped_held s n hparent
  have hcount : (s.nchildren d + 2 ^ 64 - 1) % 2 ^ 64 = (l₁ ++ l₂).length := by
    have hlen := h.list.count
    have hsmall := h.list.small
    have heq : s.nchildren d = t.nchildren d := by rw [hs.frame]
    rw [heq, hlen]
    simp only [List.length_append, List.length_cons] at hsmall ⊢
    omega
  refine
    { frame := ?_
      cell := ?_
      live := hs.live
      held := fun m => ?_
      owned := ?_
      dir := hs.dir
      pos := by
        rw [he]
        exact hs.pos
      leaves := hleaves }
  · have hnchildren : (takenFrom s d n e).nchildren =
        Function.update t.nchildren d (l₁ ++ l₂).length := by
      change Function.update s.nchildren d ((s.nchildren d + 2 ^ 64 - 1) % 2 ^ 64) = _
      rw [hcount, hs.frame]
    have hpar : (takenFrom s d n e).parent = Function.update t.parent n none := by
      change Function.update s.parent n none = _
      rw [hs.frame]
    rw [← hnchildren, ← hpar]
    unfold takenFrom
    rw [hs.frame]
    rfl
  · change Function.update (Function.update s.cell e (s.cell (.next n))) (.next n) none = _
    rw [hnext, he]
    rcases hs.cell with heq | heq
    · rw [heq]
    · rw [heq, Function.update_idem]
  · change _ ≤ s.refcount m
    have hm := hs.held m
    rcases eq_or_ne m n with rfl | hmn
    · omega
    · rwa [hlater m hmn]
  · have hm := hs.held n
    change _ < s.refcount n
    omega

theorem isoNodeTake_spec (h : ChildAt t d n l₁ l₂) :
    ∃ t', t.isoNodeTake n = some (t', .value isoSuccess) ∧ Taken t t' d n l₁ l₂ := by
  have hstart : Notified t t n (endCell Link.next (.children d) l₁) :=
    { frame := rfl
      cell := Or.inl rfl
      live := fun _ => Iff.rfl
      held := h.order.held
      dir := fun _ => rfl
      pos := fun _ => Or.inl rfl }
  obtain ⟨s, hrun, hs, -⟩ := notified_all h (fun i hi => hi) hstart
  have hleaves : AloneAt t n → (∀ i ∈ t.reg, (t.iter i).pos = some n → (t.iter i).dir = d) →
      ∀ i ∈ t.reg, (s.iter i).pos ≠ some n := fun halone hdirs =>
    notified_leaves h h.order.regNodup (fun i hi => hi) hstart hdirs halone (Or.inl rfl) hrun
  refine ⟨_, ?_, taken_of_notified h hs hleaves⟩
  unfold Tree.isoNodeTake
  rw [h.parent.1]
  simp only [seek_child h.list.chain, hrun]
  rfl

end Notify

section Taken

variable {t s : Tree Node} {d n : Node} {l₁ l₂ : List Node}

omit [DecidableEq Node] in
/-- A list of another directory does not use any of the changed links. -/
theorem chain_elsewhere (l₁ : List Node) (n : Node) {d' : Node} {l : List Node}
    {cell : Link Node → Option Node}
    (h : Chain Link.next t.cell (.children d') l)
    (hkeep : ∀ c, c ≠ endCell Link.next (.children d) l₁ → c ≠ .next n → cell c = t.cell c)
    (hd : d' ≠ d) (hdisj : ∀ m ∈ l, m ∉ l₁ ∧ m ≠ n) :
    Chain Link.next cell (.children d') l := by
  apply h.move
  · apply hkeep
    · intro heq
      rcases List.mem_cons.mp (heq ▸ endCell_mem (Link.children d) l₁) with h | h
      · exact hd (Link.children.inj h)
      · obtain ⟨m, -, hm⟩ := List.mem_map.mp h
        cases hm
    · exact children_ne_next d' n
  · intro m hm
    obtain ⟨hm₁, hmn⟩ := hdisj m hm
    exact hkeep _ (endCell_ne next_injective (children_ne_next d) hm₁).symm
      fun heq => hmn (next_injective heq)

theorem Taken.parent_eq (ht : Taken t s d n l₁ l₂) :
    s.parent = Function.update t.parent n none := by
  rw [ht.frame]

theorem Taken.parent_iff (ht : Taken t s d n l₁ l₂) (m d' : Node) :
    s.parent m = some d' ↔ t.parent m = some d' ∧ m ≠ n := by
  rw [ht.parent_eq]
  rcases eq_or_ne m n with rfl | hne
  · simp
  · simp [hne]

/-- The node is gone from its directory. -/
theorem Taken.list (h : ChildAt t d n l₁ l₂) (ht : Taken t s d n l₁ l₂) :
    ListLinked s d (l₁ ++ l₂) where
  chain := by
    rw [ht.cell]
    exact h.list.chain.unlink next_injective (children_ne_next d)
  count := by
    rw [ht.frame]
    simp
  small := by
    have := h.list.small
    simp only [List.length_append, List.length_cons] at this ⊢
    omega
  mem m := by
    have hmem := h.list.mem m
    have hnot := h.notIn
    rw [ht.parent_iff]
    constructor
    · intro hm
      have hmn : m ≠ n := fun heq => hnot (heq ▸ hm)
      obtain ⟨hp, hmd⟩ := hmem.mp (by simp only [List.mem_append, List.mem_cons] at hm ⊢; tauto)
      exact ⟨⟨hp, hmn⟩, hmd⟩
    · rintro ⟨⟨hp, hmn⟩, hmd⟩
      have hm := hmem.mpr ⟨hp, hmd⟩
      simp only [List.mem_append, List.mem_cons] at hm ⊢
      tauto

theorem Taken.other (h : ChildAt t d n l₁ l₂) (ht : Taken t s d n l₁ l₂) {d' : Node}
    {l : List Node} (hd : d' ≠ d) (hl : ListLinked t d' l) : ListLinked s d' l where
  chain := by
    refine chain_elsewhere l₁ n hl.chain (fun c hc hcn => ?_) hd fun m hm => ?_
    · rw [ht.cell, Function.update_of_ne hcn, Function.update_of_ne hc]
    · have hp := ((hl.mem m).mp hm).1
      constructor
      · intro hm₁
        have := ((h.list.mem m).mp (List.mem_append_left _ hm₁)).1
        exact hd (Option.some.inj (hp.symm.trans this))
      · rintro rfl
        exact hd (Option.some.inj (hp.symm.trans h.parent.1))
  count := by
    rw [ht.frame]
    simp only [Function.update_of_ne hd, hl.count]
  small := hl.small
  mem m := by
    rw [ht.parent_iff, hl.mem]
    constructor
    · rintro ⟨hp, hmd⟩
      refine ⟨⟨hp, ?_⟩, hmd⟩
      rintro rfl
      exact hd (Option.some.inj (hp.symm.trans h.parent.1))
    · rintro ⟨⟨hp, -⟩, hmd⟩
      exact ⟨hp, hmd⟩

theorem Taken.linked (h : ChildAt t d n l₁ l₂) (ht : Taken t s d n l₁ l₂) : Linked s where
  lists d' hlive hdir := by
    rcases eq_or_ne d' d with rfl | hne
    · exact ⟨_, ht.list h⟩
    · have hdir' : t.isDir d' = true := by
        rw [ht.frame] at hdir
        exact hdir
      obtain ⟨l, hl⟩ := h.order.lists d' ((ht.live d').mp hlive) hdir'
      exact ⟨l, ht.other h hne hl⟩
  parents m d' hp := by
    obtain ⟨hlive, hdir⟩ := h.order.parents m d' ((ht.parent_iff m d').mp hp).1
    rw [ht.frame]
    exact ⟨by rw [← ht.frame]; exact (ht.live d').mpr hlive, hdir⟩
  held := ht.held
  regNodup := by
    rw [ht.frame]
    exact h.order.regNodup
  iterDirs i hi := by
    have hi' : i ∈ t.reg := by
      rw [ht.frame] at hi
      exact hi
    have hdir : s.isDir = t.isDir := by rw [ht.frame]
    rw [hdir, ht.dir]
    exact h.order.iterDirs i hi'
  iterPos i hi m hpos hp := by
    have hi' : i ∈ t.reg := by
      rw [ht.frame] at hi
      exact hi
    have hp' := ((ht.parent_iff m m).mp hp).1
    rcases ht.pos i with heq | ⟨-, heq⟩
    · exact h.order.iterPos i hi' m (heq.symm.trans hpos) hp'
    · have hm : m ∈ l₁ := mem_of_pre_endCell (heq.symm.trans hpos)
      obtain ⟨hpd, hmd⟩ := (h.list.mem m).mp (List.mem_append_left _ hm)
      exact hmd (Option.some.inj (hp'.symm.trans hpd))

/-- Taking keeps the order. -/
theorem Taken.orderly (ho : Orderly t) (h : ChildAt t d n l₁ l₂) (ht : Taken t s d n l₁ l₂) :
    Orderly s where
  toLinked := ht.linked h
  sorted d' l hlive hdir hl := by
    have hname : s.name = t.name := by rw [ht.frame]
    have hdir' : t.isDir d' = true := by
      rw [ht.frame] at hdir
      exact hdir
    have hlive' := (ht.live d').mp hlive
    unfold Sorted
    rw [hname]
    rcases eq_or_ne d' d with rfl | hne
    · obtain rfl := (ht.list h).unique hl
      refine (ho.sorted d' _ hlive' hdir' h.list).sublist ?_
      exact (List.sublist_cons_self n l₂).append_left l₁
    · obtain ⟨l', hl'⟩ := ho.lists d' hlive' hdir'
      obtain rfl := (ht.other h hne hl').unique hl
      exact ho.sorted d' l' hlive' hdir' hl'

end Taken

end DirTree
