import Libisofs.DirTreeIters
import Libisofs.Lib.Ancestry

/-!
# Removal of subtrees

iso_node_remove_tree() of node.c shall remove a node and, if it is a directory, all nodes
underneath. It walks over the children of those nodes which are no directories. A directory just
loses the reference by its parent. The nodes underneath leave their directories if this frees all
of these.
-/

namespace DirTree

open Ancestry CellLists

variable {Node : Type} [DecidableEq Node]

/-- The call returns, or it treats a node as directory which is none. What then gets read is not a
list of children. -/
inductive RemoveOutcome (Node : Type) where
  | returned (t : Tree Node) (ret : Ret Node)
  | noDirectory

section Definitions

variable [Fintype Node]

/-- iso_node_remove_tree(). The walk by iso_dir_get_children() is made if node->type is not
LIBISO_DIR. -/
def Tree.isoNodeRemoveTree (t : Tree Node) (node : Node) (bossIter : Option Nat) :
    Option (RemoveOutcome Node) :=
  if t.isDir node = false then some .noDirectory
  else
    (match bossIter with
    | some i => t.isoDirIterRemove i
    | none => t.isoNodeRemove node).map fun (t, ret) => .returned t ret

/-- The node and all beneath it are out of their directories, and nothing else has changed. -/
structure SubtreeGone (t : Tree Node) (n : Node) (t' : Tree Node) : Prop where
  out : ∀ m, Beneath t.parent n m → t'.parent m = none
  parent : ∀ m, ¬ Beneath t.parent n m → t'.parent m = t.parent m
  live : ∀ m, ¬ Beneath t.parent n m → (t'.Live m ↔ t.Live m)
  lists : ∀ d, ¬ Beneath t.parent n d → t.Live d → t.isDir d = true →
    t'.childList d = (t.childList d).map (List.filter (· ≠ n))
  fields : t'.name = t.name ∧ t'.mtime = t.mtime ∧ t'.fmt = t.fmt ∧ t'.isDir = t.isDir

/-- The call ends without treating a wrong node as directory, and if it returns success then
exactly the subtree is gone. -/
def RemovesSubtree (t : Tree Node) (n : Node) (bossIter : Option Nat) : Prop :=
  ∃ t' ret, t.isoNodeRemoveTree n bossIter = some (.returned t' ret) ∧
    (ret = .value isoSuccess → SubtreeGone t n t')

end Definitions

/-- The node is in no directory, or the boss iterator has not just come to it. -/
def Refused (t : Tree Node) (n : Node) (bossIter : Option Nat) : Prop :=
  t.parent n = none ∨ ∃ i, bossIter = some i ∧ (t.iter i).flag = false

/-- An iterator of its directory stands at the node. -/
def Visited (t : Tree Node) (n : Node) : Prop :=
  ∃ i ∈ t.reg, (t.iter i).pos = some n ∧ t.parent n = some (t.iter i).dir

instance (t : Tree Node) (n : Node) : Decidable (Visited t n) :=
  inferInstanceAs (Decidable (∃ i ∈ t.reg, _))

/-- Nobody has a reference to a directory with children but its parent, and to the topmost
one an iterator which stands at it. -/
def SoleReferences (t : Tree Node) (n : Node) : Prop :=
  ∀ d, Beneath t.parent n d → (∃ c, t.parent c = some d) →
    t.refcount d = 1 + if d = n ∧ Visited t n then 1 else 0

/-! ## References after taking -/

section Notification

variable {t s s' : Tree Node} {d n : Node} {l₁ l₂ : List Node}

/-- An iterator which moves away takes the node out of the list. -/
theorem bypassed_ne (h : ChildAt t d n l₁ l₂) :
    Function.update t.cell (endCell Link.next (.children d) l₁) (t.cell (.next n)) ≠ t.cell := by
  intro heq
  have hbypass := chain_bypass h.list.chain
  rw [heq] at hbypass
  have hlen := congrArg List.length (h.list.chain.unique hbypass)
  simp only [List.length_append, List.length_cons] at hlen
  omega

variable [Fintype Node]

/-- What the notification of some iterators makes of the reference counts. -/
structure NotifiedCounts (t s : Tree Node) (d n : Node) (l₁ : List Node) (is : List Nat)
    (s' : Tree Node) : Prop where
  other : ∀ m, m ≠ n → m ∉ l₁ → s'.refcount m = s.refcount m
  bypassed : s.cell ≠ t.cell → s'.refcount n = s.refcount n
  left : s.cell = t.cell → s'.refcount n +
    (if ∃ i ∈ is, (s.iter i).pos = some n ∧ (t.iter i).dir = d then 1 else 0) = s.refcount n

omit [Fintype Node] in
theorem NotifiedCounts.cons_stays {i : Nat} {rest : List Nat}
    (h : NotifiedCounts t s d n l₁ rest s')
    (hstays : s.cell = t.cell → ¬ ((s.iter i).pos = some n ∧ (t.iter i).dir = d)) :
    NotifiedCounts t s d n l₁ (i :: rest) s' where
  other := h.other
  bypassed := h.bypassed
  left hcell := by
    have hleft := h.left hcell
    have hnot := hstays hcell
    simp only [List.mem_cons, exists_eq_or_imp, hnot, false_or]
    exact hleft

/-- Among the iterators at the node, only the first one moves away. -/
theorem notify_counts (h : ChildAt t d n l₁ l₂) {is : List Nat} (his : ∀ i ∈ is, i ∈ t.reg)
    (hs : Notified t s n (endCell Link.next (.children d) l₁))
    (hrun : Tree.isoNotifyDirIters n is s = some s') : NotifiedCounts t s d n l₁ is s' := by
  induction is generalizing s with
  | nil =>
    obtain rfl := Option.some.inj hrun
    exact ⟨fun _ _ _ => rfl, fun _ => rfl, fun _ => by simp⟩
  | cons i rest ih =>
    have hrest : ∀ j ∈ rest, j ∈ t.reg := fun j hj => his j (List.mem_cons_of_mem i hj)
    have hi : i ∈ t.reg := his i List.mem_cons_self
    have hn₁ : n ∉ l₁ := fun hn => h.notIn (List.mem_append_left _ hn)
    have hparent : s.parent n = some d := by
      rw [hs.frame]
      exact h.parent.1
    rw [Tree.isoNotifyDirIters] at hrun
    split at hrun
    next hdir =>
      have hdir' : (s.iter i).dir = d := (Option.some.inj (hparent.symm.trans hdir)).symm
      by_cases hpos : (s.iter i).pos = some n
      · by_cases hcell : s.cell = t.cell
        · have hchain : Chain Link.next s.cell (.children (s.iter i).dir) (l₁ ++ n :: l₂) := by
            rw [hcell, hdir']
            exact h.list.chain
          have hreg : s.reg = t.reg := by rw [hs.frame]
          have hmore : 2 ≤ s.refcount n := by
            have hheld := Tree.held_of_pos (hreg ▸ hi) hpos
            rw [if_neg (by rw [hparent]; exact Option.some_ne_none d)] at hheld
            exact hheld.trans (hs.held n)
          rw [iterNotify_moves hchain hpos hmore, hdir'] at hrun
          have hmoved := notified_movedBack h.order.regNodup hs hi hcell hpos hn₁ h.attached
          have hlater := ih hrest hmoved hrun
          have hcell' : (movedBack s i n (endCell Link.next (.children d) l₁)).cell ≠ t.cell := by
            rw [movedBack_cell, hcell]
            exact bypassed_ne h
          constructor
          · intro m hmn hm₁
            rw [hlater.other m hmn hm₁, movedBack_refcount, decr_refcount_of_ne hmn,
              if_neg (pre_endCell_ne hm₁), Nat.add_zero]
          · exact fun hne => absurd hcell hne
          · intro _
            rw [hlater.bypassed hcell', movedBack_refcount, decr_refcount_self,
              if_neg (pre_endCell_ne hn₁),
              if_pos ⟨i, List.mem_cons_self, hpos, (hs.dir i).symm.trans hdir'⟩]
            omega
        · have hchain : Chain Link.next s.cell (.children (s.iter i).dir) (l₁ ++ l₂) := by
            rw [hs.cell.resolve_left hcell, hdir']
            exact chain_bypass h.list.chain
          rw [iterNotify_absent hchain h.notIn] at hrun
          exact (ih hrest hs hrun).cons_stays fun heq => absurd heq hcell
      · rw [iterNotify_other hpos] at hrun
        exact (ih hrest hs hrun).cons_stays fun _ hat => hpos hat.1
    next hdir =>
      refine (ih hrest hs hrun).cons_stays fun _ hat => hdir ?_
      rw [hparent, hs.dir, hat.2]

/-- The references to nodes after a node was taken. -/
structure TakenCounts (t s : Tree Node) (n : Node) (l₁ : List Node) : Prop where
  other : ∀ m, m ≠ n → m ∉ l₁ → s.refcount m = t.refcount m
  self : s.refcount n + (if Visited t n then 1 else 0) = t.refcount n

theorem isoNodeTake_counts (h : ChildAt t d n l₁ l₂) :
    ∃ s, t.isoNodeTake n = some (s, .value isoSuccess) ∧ Taken t s d n l₁ l₂ ∧
      TakenCounts t s n l₁ := by
  obtain ⟨s, hrun, taken⟩ := isoNodeTake_spec h
  refine ⟨s, hrun, taken, ?_⟩
  have hstart : Notified t t n (endCell Link.next (.children d) l₁) :=
    ⟨rfl, Or.inl rfl, fun _ => Iff.rfl, h.order.held, fun _ => rfl, fun _ => Or.inl rfl⟩
  obtain ⟨u, hnotify, -, -⟩ := notified_all h (fun i hi => hi) hstart
  have counts := notify_counts h (fun i hi => hi) hstart hnotify
  have hcount : s.refcount = u.refcount := by
    unfold Tree.isoNodeTake at hrun
    rw [h.parent.1] at hrun
    simp only [seek_child h.list.chain, hnotify] at hrun
    obtain ⟨rfl, -⟩ := Prod.mk.inj (Option.some.inj hrun)
    rfl
  constructor
  · intro m hmn hm₁
    rw [hcount, counts.other m hmn hm₁]
  · have hself := counts.left rfl
    have hiff : Visited t n ↔ ∃ i ∈ t.reg, (t.iter i).pos = some n ∧ (t.iter i).dir = d := by
      unfold Visited
      simp only [h.parent.1, Option.some.injEq, eq_comm]
    rw [hcount]
    simp only [hiff]
    exact hself

end Notification

/-! ## Nodes which get freed -/

section Freeing

variable [Fintype Node] {s t' : Tree Node} {n m : Node}

/-- Whoever loses the last reference gets freed. -/
theorem FreedWith.dies (settled : Settled s fun _ => False) (howned : s.Owned n)
    (hdetached : s.parent n = none) (hrun : s.unref n = some t') (freed : FreedWith s n m) :
    ¬ t'.Live m := by
  have released : Released s t' := released_of_unref settled howned hrun fun _ => False.elim
  induction freed with
  | self last => exact unref_freed hrun last
  | @child m d up _ last ih =>
    have hmn : m ≠ n := by
      rintro rfl
      exact absurd (up.symm.trans hdetached) (Option.some_ne_none d)
    have horphan : t'.parent m = none := by
      rcases released.parent m with hsame | ⟨hnone, -⟩
      · exact absurd (released.parentLive m d (hsame.trans up)) ih
      · exact hnone
    have hslack := unref_slack settled howned hrun (fun _ => False.elim) m
    have hheld : t'.held m + 1 = s.held m := by
      unfold Tree.held
      rw [released.reg, released.iter, horphan, if_pos rfl,
        if_neg (by rw [up]; exact Option.some_ne_none d)]
      omega
    rw [if_neg hmn, last] at hslack
    unfold Tree.Live
    omega

omit [DecidableEq Node] [Fintype Node] in
theorem FreedWith.last (freed : FreedWith s n m) : s.refcount m = 1 := by
  cases freed with
  | self last => exact last
  | child _ _ last => exact last

omit [DecidableEq Node] [Fintype Node] in
theorem FreedWith.beneath (freed : FreedWith s n m) : Beneath s.parent n m := by
  induction freed with
  | self _ => exact .self
  | child up _ _ ih => exact .child up ih

end Freeing

/-! ## The whole subtree -/

section Subtree

variable [Fintype Node] {t s t' : Tree Node} {d n m : Node} {l₁ l₂ : List Node}

/-- A child of a directory is taken and loses a reference. -/
structure Dropped (t s t' : Tree Node) (d n : Node) (l₁ l₂ : List Node) : Prop where
  child : ChildAt t d n l₁ l₂
  taken : Taken t s d n l₁ l₂
  counts : TakenCounts t s n l₁
  run : s.unref n = some t'
  gone : ∀ m, s.Live m → ¬ t'.Live m → FreedWith s n m
  grounded : Grounded t.parent n

namespace Dropped

variable (drop : Dropped t s t' d n l₁ l₂)

include drop

theorem settled : Settled s fun _ => False :=
  (drop.taken.linked drop.child).settled

theorem released : Released s t' :=
  released_of_unref drop.settled drop.taken.owned drop.run fun _ => False.elim

theorem detached : s.parent n = none := by
  rw [drop.taken.parent_eq, Function.update_self]

theorem not_beneath : ¬ Beneath t.parent n d :=
  drop.grounded.not_beneath drop.child.parent.1 drop.child.parent.2.symm

theorem parent_of_ne (hne : m ≠ n) :
    s.parent m = t.parent m := by
  rw [drop.taken.parent_eq, Function.update_of_ne hne]

/-- Nodes beneath are no siblings, so taking does not change their references. -/
theorem refcount_beneath (beneath : Beneath t.parent n m)
    (hne : m ≠ n) : s.refcount m = t.refcount m := by
  apply drop.counts.other m hne
  intro hm
  have hup := ((drop.child.list.mem m).mp (List.mem_append_left _ hm)).1
  cases beneath with
  | self => exact hne rfl
  | @child _ e up beneath' =>
    obtain rfl : e = d := Option.some.inj (up.symm.trans hup)
    exact drop.not_beneath beneath'

theorem beneath_of_freed (freed : FreedWith s n m) :
    Beneath t.parent n m := by
  apply freed.beneath.mono
  intro c e up _
  exact ((drop.taken.parent_iff c e).mp up).1

theorem live_iff (hout : ¬ Beneath t.parent n m) :
    t'.Live m ↔ t.Live m := by
  constructor
  · intro hlive
    exact (drop.taken.live m).mp (drop.released.live hlive)
  · intro hlive
    by_contra hdead
    exact hout (drop.beneath_of_freed (drop.gone m ((drop.taken.live m).mpr hlive) hdead))

theorem parent_outside (hout : ¬ Beneath t.parent n m) :
    t'.parent m = t.parent m := by
  have hmn : m ≠ n := by
    rintro rfl
    exact hout .self
  rcases drop.released.parent m with hsame | ⟨-, e, hup, -, hdead⟩
  · exact hsame.trans (drop.parent_of_ne hmn)
  · have freed := drop.gone e (drop.settled.parents m e hup).1 hdead
    have hup' : t.parent m = some e := (drop.parent_of_ne hmn).symm.trans hup
    exact absurd (.child hup' (drop.beneath_of_freed freed)) hout

theorem lists_outside {e : Node}
    (hout : ¬ Beneath t.parent n e) (hlive : t.Live e) (hdir : t.isDir e = true) :
    t'.childList e = (t.childList e).map (List.filter (· ≠ n)) := by
  have hlive' : t'.Live e := (drop.live_iff hout).mpr hlive
  obtain ⟨l, hl⟩ := drop.child.order.lists e hlive hdir
  have hafter : ListLinked s e (l.filter (· ≠ n)) := by
    by_cases hed : e = d
    · subst hed
      obtain rfl := drop.child.list.unique hl
      have hnot := drop.child.notIn
      rw [List.mem_append, not_or] at hnot
      have hkeep : ∀ l : List Node, n ∉ l → l.filter (· ≠ n) = l := by
        intro l hn
        apply List.filter_eq_self.mpr
        intro a ha
        simpa using ne_of_mem_of_not_mem ha hn
      have hfilter : (l₁ ++ n :: l₂).filter (· ≠ n) = l₁ ++ l₂ := by
        rw [List.filter_append, hkeep l₁ hnot.1, List.filter_cons_of_neg (by simp),
          hkeep l₂ hnot.2]
      rw [hfilter]
      exact drop.taken.list drop.child
    · have hn : n ∉ l := fun hn =>
        hed (Option.some.inj (((hl.mem n).mp hn).1.symm.trans drop.child.parent.1))
      have hfilter : l.filter (· ≠ n) = l := by
        apply List.filter_eq_self.mpr
        intro a ha
        simpa using ne_of_mem_of_not_mem ha hn
      rw [hfilter]
      exact drop.taken.other drop.child hed hl
  rw [childList_eq hl.chain, childList_eq (hafter.released drop.released.toDecays hlive').chain]
  rfl

theorem fields :
    t'.name = t.name ∧ t'.mtime = t.mtime ∧ t'.fmt = t.fmt ∧ t'.isDir = t.isDir := by
  rw [drop.released.frame, drop.taken.frame]
  exact ⟨rfl, rfl, rfl, rfl⟩

/-- The directories with children have one reference left, that by their parent. -/
theorem freed_of_sole (sole : SoleReferences t n)
    (beneath : Beneath t.parent n m) (hchild : ∃ c, t.parent c = some m) : FreedWith s n m := by
  induction beneath with
  | self =>
    apply FreedWith.self
    have hcount := sole n .self hchild
    have hself := drop.counts.self
    simp only [true_and] at hcount
    omega
  | @child m e up beneath ih =>
    have hmn : m ≠ n := by
      rintro rfl
      obtain rfl : d = e := Option.some.inj (drop.child.parent.1.symm.trans up)
      exact drop.not_beneath beneath
    refine .child ((drop.parent_of_ne hmn).trans up) (ih ⟨m, up⟩) ?_
    rw [drop.refcount_beneath (.child up beneath) hmn, sole m (.child up beneath) hchild,
      if_neg fun h => hmn h.1]

theorem out_iff :
    (∀ m, Beneath t.parent n m → t'.parent m = none) ↔ SoleReferences t n := by
  constructor
  · rintro hout e beneath ⟨c, hup⟩
    have hcn : c ≠ n := by
      rintro rfl
      obtain rfl : d = e := Option.some.inj (drop.child.parent.1.symm.trans hup)
      exact drop.not_beneath beneath
    have hup' : s.parent c = some e := (drop.parent_of_ne hcn).trans hup
    have hdead : ¬ t'.Live e := by
      rcases drop.released.parent c with hsame | ⟨-, e', hup'', -, hdead⟩
      · have hnone := hout c (.child hup beneath)
        exact absurd (hup'.symm.trans (hsame.symm.trans hnone)) (Option.some_ne_none e)
      · obtain rfl : e = e' := Option.some.inj (hup'.symm.trans hup'')
        exact hdead
    have hlast := (drop.gone e (drop.settled.parents c e hup').1 hdead).last
    by_cases hen : e = n
    · subst hen
      have hself := drop.counts.self
      simp only [true_and]
      omega
    · rw [if_neg fun h => hen h.1, ← drop.refcount_beneath beneath hen, hlast]
  · intro sole m beneath
    cases beneath with
    | self =>
      rcases drop.released.parent n with hsame | ⟨hnone, -⟩
      · exact hsame.trans drop.detached
      · exact hnone
    | @child _ e up beneath =>
      have freed := drop.freed_of_sole sole beneath ⟨m, up⟩
      have hdead := freed.dies drop.settled drop.taken.owned drop.detached drop.run
      have hmn : m ≠ n := by
        rintro rfl
        obtain rfl : d = e := Option.some.inj (drop.child.parent.1.symm.trans up)
        exact drop.not_beneath beneath
      rcases drop.released.parent m with hsame | ⟨hnone, -⟩
      · have hup : t'.parent m = some e := hsame.trans ((drop.parent_of_ne hmn).trans up)
        exact absurd (drop.released.parentLive m e hup) hdead
      · exact hnone

theorem gone_iff : SubtreeGone t n t' ↔ SoleReferences t n := by
  constructor
  · intro gone
    exact drop.out_iff.mp gone.out
  · intro sole
    exact ⟨drop.out_iff.mpr sole, fun _ => drop.parent_outside, fun _ => drop.live_iff,
      fun _ => drop.lists_outside, drop.fields⟩

end Dropped

/-- Taking and releasing of a node which is in a directory. -/
theorem remove_gone_iff (ho : Orderly t) (grounded : Grounded t.parent n)
    (hroot : t.parent n ≠ some n) (hparent : t.parent n ≠ none) :
    ∃ t', (t.isoNodeTake n).bind (Tree.thenUnref n) = some (t', .value isoSuccess) ∧
      (SubtreeGone t n t' ↔ SoleReferences t n) := by
  obtain ⟨d, hup⟩ := Option.ne_none_iff_exists'.mp hparent
  have hne : n ≠ d := by
    rintro rfl
    exact hroot hup
  obtain ⟨l₁, l₂, child⟩ := ho.childAt hup hne
  obtain ⟨s, hrun, taken, counts⟩ := isoNodeTake_counts child
  obtain ⟨t', hunref, hgone⟩ :=
    unref_ends (taken.linked child).settled taken.owned fun _ => False.elim
  refine ⟨t', ?_, Dropped.gone_iff ⟨child, taken, counts, hunref, hgone, grounded⟩⟩
  simp only [hrun, Option.bind_some, Tree.thenUnref, if_true, hunref, Option.map_some]

omit [DecidableEq Node] [Fintype Node] in
theorem visited_unflag (t : Tree Node) (i : Nat) (n : Node) :
    Visited (t.unflag i) n ↔ Visited t n := by
  unfold Visited
  simp only [unflag_iter]
  rfl

/-- The flag of the boss iterator does not matter for the effect. -/
theorem unflag_gone_iff {i : Nat} (hiff : SubtreeGone (t.unflag i) n t' ↔
    SoleReferences (t.unflag i) n) : SubtreeGone t n t' ↔ SoleReferences t n := by
  have hsole : SoleReferences (t.unflag i) n ↔ SoleReferences t n := by
    unfold SoleReferences
    simp only [visited_unflag]
    rfl
  rw [← hsole, ← hiff]
  constructor
  · rintro ⟨hout, hparent, hlive, hlists, hfields⟩
    exact ⟨hout, hparent, hlive, hlists, hfields⟩
  · rintro ⟨hout, hparent, hlive, hlists, hfields⟩
    exact ⟨hout, hparent, hlive, hlists, hfields⟩

/-- What the call makes of a directory. -/
theorem directory_cases (ho : Orderly t) (grounded : Grounded t.parent n)
    (hroot : t.parent n ≠ some n) (hdir : t.isDir n = true) {bossIter : Option Nat}
    (hboss : ∀ i, bossIter = some i → i ∈ t.reg ∧ (t.iter i).pos = some n) :
    ∃ t' ret, t.isoNodeRemoveTree n bossIter = some (.returned t' ret) ∧
      (Refused t n bossIter ∧ ret ≠ .value isoSuccess ∨
        ¬ Refused t n bossIter ∧ ret = .value isoSuccess ∧
          (SubtreeGone t n t' ↔ SoleReferences t n)) := by
  have hnodir : ¬ t.isDir n = false := by rw [hdir]; exact Bool.true_eq_false_eq_False
  unfold Tree.isoNodeRemoveTree
  rw [if_neg hnodir]
  cases bossIter with
  | none =>
    dsimp only
    rw [Tree.isoNodeRemove]
    by_cases hparent : t.parent n = none
    · refine ⟨t, .error .nodeNotAddedToDir, ?_, Or.inl ⟨Or.inl hparent, by simp⟩⟩
      simp only [Tree.isoNodeTake, hparent, Option.bind_some, Tree.thenUnref]
      rfl
    · obtain ⟨t', hrun, hiff⟩ := remove_gone_iff ho grounded hroot hparent
      refine ⟨t', .value isoSuccess, by rw [hrun]; rfl, Or.inr ⟨?_, rfl, hiff⟩⟩
      rintro (hnone | ⟨i, hi, -⟩)
      · exact hparent hnone
      · exact absurd hi.symm (Option.some_ne_none i)
  | some i =>
    obtain ⟨hreg, hpos⟩ := hboss i rfl
    dsimp only
    rw [Tree.isoDirIterRemove, hpos]
    dsimp only
    rw [Tree.isoDirIterTake, hpos]
    by_cases hflag : (t.iter i).flag = false
    · refine ⟨t, .error .generalError, ?_, Or.inl ⟨Or.inr ⟨i, rfl, hflag⟩, by simp⟩⟩
      rw [if_pos hflag]
      rfl
    · rw [if_neg hflag]
      dsimp only
      by_cases hparent : t.parent n = none
      · refine ⟨t.unflag i, .error .nodeNotAddedToDir, ?_, Or.inl ⟨Or.inl hparent, by simp⟩⟩
        have hparent' : (t.unflag i).parent n = none := hparent
        simp only [Tree.isoNodeTake, hparent', Option.bind_some, Tree.thenUnref]
        rfl
      · obtain ⟨t', hrun, hiff⟩ :=
          remove_gone_iff (ho.iterEdit (iterEdit_unflag ho hreg)) grounded hroot hparent
        refine ⟨t', .value isoSuccess, by rw [hrun]; rfl,
          Or.inr ⟨?_, rfl, unflag_gone_iff hiff⟩⟩
        rintro (hnone | ⟨j, hj, hunflagged⟩)
        · exact hparent hnone
        · obtain rfl := Option.some.inj hj
          exact hflag hunflagged

/-- For a node which is no root, in a tree with any iterators: the call removes exactly the
subtree, and treats only directories as directories, if and only if the node is a directory and
either the call refuses to remove it or nobody else refers to it or to a directory beneath. -/
theorem removes_subtree_iff (ho : Orderly t) (grounded : Grounded t.parent n)
    (hroot : t.parent n ≠ some n) {bossIter : Option Nat}
    (hboss : ∀ i, bossIter = some i → i ∈ t.reg ∧ (t.iter i).pos = some n) :
    RemovesSubtree t n bossIter ↔
      t.isDir n = true ∧ (Refused t n bossIter ∨ SoleReferences t n) := by
  cases hdir : t.isDir n with
  | false =>
    constructor
    · rintro ⟨t', ret, hrun, -⟩
      unfold Tree.isoNodeRemoveTree at hrun
      rw [if_pos hdir] at hrun
      cases Option.some.inj hrun
    · rintro ⟨htrue, -⟩
      exact absurd htrue Bool.false_ne_true
  | true =>
    obtain ⟨t', ret, hrun, hcase⟩ := directory_cases ho grounded hroot hdir hboss
    constructor
    · rintro ⟨u, ret', hrun', hgone⟩
      obtain ⟨rfl, rfl⟩ := RemoveOutcome.returned.inj (Option.some.inj (hrun.symm.trans hrun'))
      refine ⟨rfl, ?_⟩
      rcases hcase with ⟨hrefused, -⟩ | ⟨-, hsuccess, hiff⟩
      · exact Or.inl hrefused
      · exact Or.inr (hiff.mp (hgone hsuccess))
    · rintro ⟨-, hcond⟩
      refine ⟨t', ret, hrun, ?_⟩
      intro hsuccess
      rcases hcase with ⟨-, hfails⟩ | ⟨hnot, -, hiff⟩
      · exact absurd hsuccess hfails
      · exact hiff.mpr (hcond.resolve_left hnot)

/-- A file in the root directory gets treated as directory. -/
theorem file_taken_for_directory : ¬ ∀ t : Tree (Fin 2), Orderly t →
    ∀ n, Grounded t.parent n → t.parent n ≠ some n → RemovesSubtree t n none := by
  intro claim
  have hroot : oneChild.parent 0 = some 0 := rfl
  have hup : oneChild.parent 1 = some 0 := rfl
  obtain ⟨t', ret, hrun, -⟩ := claim oneChild orderly_oneChild 1
    (.step hup (.top (Or.inr hroot))) (by rw [hup]; decide)
  have hbad : oneChild.isoNodeRemoveTree 1 none = some .noDirectory := rfl
  cases Option.some.inj (hrun.symm.trans hbad)

/-- The file /a/a goes with the directory /a. -/
theorem directory_removed : Beneath twoLevels.parent 1 2 ∧ RemovesSubtree twoLevels 1 none := by
  have hroot : twoLevels.parent 0 = some 0 := rfl
  have hup : twoLevels.parent 1 = some 0 := rfl
  have hbelow : twoLevels.parent 2 = some 1 := rfl
  refine ⟨.child hbelow .self, (removes_subtree_iff orderly_twoLevels
    (.step hup (.top (Or.inr hroot))) (by rw [hup]; decide)
    (fun i hi => absurd hi.symm (Option.some_ne_none i))).mpr ⟨rfl, Or.inr ?_⟩⟩
  intro d _ _
  have hcount : ∀ d, twoLevels.refcount d = 1 := by decide
  have hvisited : ¬ Visited twoLevels 1 := by decide
  rw [hcount, if_neg (fun h => hvisited h.2)]

end Subtree

end DirTree
