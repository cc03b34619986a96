import Libisofs.DirTreeOps

/-!
# Calls on directories in order

What the calls which insert and rename nodes and which move iterators make of a tree in
order: each has a list of its possible outcomes, and a lemma that it ends with one of them.
-/

namespace DirTree

open CellLists
open ThreeWay (strcmp strcmp_self strcmp_eq_zero strcmp_lt_trans strcmp_lt_of_not)
open SymlinkTarget (Bytes)

variable {Node : Type} [DecidableEq Node] [Fintype Node]

theorem toInt_of_lt {n : Nat} (h : n < 2 ^ 31) : toInt n = n := by
  unfold toInt
  rw [Int.bmod_def]
  split <;> omega

/-! ## Insertion -/

/-- An insertion adds a node to less than 2^31 - 1 others, or the directory does not get
freed with the replaced node. -/
def Fits (t : Tree Node) (d n : Node) (replace : ReplaceMode) : Prop :=
  ∀ pos, t.isoDirFind d (t.name n) = some pos →
    ((∀ old, t.cell pos = some old → t.name old ≠ t.name n) → t.nchildren d + 1 < 2 ^ 31) ∧
    ∀ old, t.cell pos = some old → t.name old = t.name n →
      t.keepsOld replace old n = false → ¬ FreedWith t old d

/-- What iso_dir_insert() makes of the tree. -/
inductive Inserted (t : Tree Node) (d n : Node) (replace : ReplaceMode) :
    Tree Node → Ret Node → Prop where
  | refused {old : Node} (child : t.parent old = some d ∧ old ≠ d) (name : t.name old = t.name n)
      (e : IsoError) : Inserted t d n replace t (.error e)
  | linked {l₁ l₂ : List Node} (joins : Joins t d n l₁ l₂)
      (small : t.nchildren d + 1 < 2 ^ 31)
      (before : ∀ m ∈ l₁, strcmp (t.name m) (t.name n) < 0)
      (behind : ∀ m ∈ l₂, strcmp (t.name n) (t.name m) < 0) :
      Inserted t d n replace (linkedIn t d n (endCell Link.next (.children d) l₁))
        (.value (toInt (t.nchildren d + 1)))
  | replaced {u : Tree Node} {old : Node} {l₁ l₂ : List Node}
      (replaced : Replaced t u d n old l₁ l₂) (name : t.name old = t.name n)
      (mode : t.keepsOld replace old n = false) :
      Inserted t d n replace (u.putAt d n (endCell Link.next (.children d) l₁))
        (.value (toInt (t.nchildren d)))

/-- The caller's part of an insertion. -/
structure Offers (t : Tree Node) (d n : Node) : Prop where
  live : t.Live d
  isDir : t.isDir d = true
  owned : t.Owned n
  detached : t.parent n = none
  ne : d ≠ n

section Insertion

variable {t t' : Tree Node} {d n : Node} {replace : ReplaceMode} {ret : Ret Node}

theorem isoDirInsert_link {pos : Link Node} (hsmall : t.nchildren d + 1 < 2 ^ 31)
    (hother : ∀ old, t.cell pos = some old → t.name old ≠ t.name n) :
    t.isoDirInsert d n pos replace =
      some (linkedIn t d n pos, .value (toInt (t.nchildren d + 1))) := by
  have hmod : (t.nchildren d + 1) % 2 ^ 64 = t.nchildren d + 1 := by omega
  have hrun : t.isoDirInsert d n pos replace =
      some (linkedIn t d n pos, .value (toInt ((t.nchildren d + 1) % 2 ^ 64))) := by
    unfold Tree.isoDirInsert linkedIn
    cases hcell : t.cell pos with
    | none => rfl
    | some old =>
      have hne : strcmp (t.name old) (t.name n) ≠ 0 := fun heq =>
        hother old hcell (strcmp_eq_zero.mp heq)
      simp only [hne, if_false]
      rfl
  rw [hrun, hmod]

omit [Fintype Node] in
theorem FreedWith.of_detachOld {old m : Node} (h : FreedWith (t.detachOld old n) old m) :
    FreedWith t old m := by
  induction h with
  | self last => exact .self last
  | child parent _ last ih => exact .child ((detachOld_parent_iff t old n _ _).mp parent).1 ih last

/-- The release of the replaced node leaves the directory alive. -/
theorem replaced_of_fits {old : Node} {l₁ l₂ : List Node} (h : Joins t d n l₁ (old :: l₂))
    (hstays : ¬ FreedWith t old d) : ∃ u, Replaced t u d n old l₁ l₂ := by
  have hnot : ¬ FreedWith (t.detachOld old n) old d := fun hfreed => hstays hfreed.of_detachOld
  obtain ⟨u, hrun, hdead⟩ := unref_ends (settled_detachOld h) ((detachOld_held_le h old).2 rfl)
    fun _ heq => heq ▸ hnot
  refine ⟨u, h, hrun, ?_⟩
  by_contra hgone
  exact hnot (hdead d h.live hgone)

/-- The found place is that of the same name, or in front of the larger names. -/
theorem isoDirInsert_spec (ho : Orderly t) (hoffer : Offers t d n) (hfits : Fits t d n replace) :
    ∃ pos t' ret, t.isoDirFind d (t.name n) = some pos ∧
      t.isoDirInsert d n pos replace = some (t', ret) ∧ Inserted t d n replace t' ret := by
  obtain ⟨l, hl⟩ := ho.lists d hoffer.live hoffer.isDir
  obtain ⟨l₁, l₂, rfl, hfind, hbefore, hbehind⟩ :=
    isoDirFind_spec hl (ho.sorted d l hoffer.live hoffer.isDir hl) (t.name n)
  have hsorted := ho.sorted d _ hoffer.live hoffer.isDir hl
  have hjoins : Joins t d n l₁ l₂ :=
    { order := ho.toLinked
      live := hoffer.live
      isDir := hoffer.isDir
      list := hl
      detached := hoffer.detached
      owned := hoffer.owned
      ne := hoffer.ne.symm }
  obtain ⟨hroom, hstays⟩ := hfits _ hfind
  have hrest := hl.chain.drop
  cases l₂ with
  | nil =>
    have hnone : t.cell (endCell Link.next (.children d) l₁) = none := hrest
    have hother : ∀ old, t.cell (endCell Link.next (.children d) l₁) = some old →
        t.name old ≠ t.name n := fun old h => by simp [hnone] at h
    exact ⟨_, _, _, hfind, isoDirInsert_link (hroom hother) hother,
      .linked hjoins (hroom hother) hbefore (by simp)⟩
  | cons old rest =>
    have hcell := hrest.1
    by_cases hname : t.name old = t.name n
    · by_cases hkeeps : t.keepsOld replace old n = true
      · have hchild := (hl.mem old).mp (by simp)
        refine ⟨_, t, .error .nodeNameNotUnique, hfind, ?_, .refused hchild hname _⟩
        unfold Tree.isoDirInsert
        rw [hcell]
        simp only [hname, strcmp_self, if_true, hkeeps]
      · obtain ⟨u, hreplaced⟩ :=
          replaced_of_fits hjoins (hstays old hcell hname (by simpa using hkeeps))
        refine ⟨_, _, _, hfind, ?_, .replaced hreplaced hname (by simpa using hkeeps)⟩
        have hcount : u.nchildren d = t.nchildren d := by
          rw [hreplaced.released.nchildren]
          rfl
        unfold Tree.isoDirInsert
        rw [hcell]
        simp only [hname, strcmp_self, if_true, hkeeps, if_false, Bool.false_eq_true,
          hreplaced.run, hcount]
    · have hother : ∀ m, t.cell (endCell Link.next (.children d) l₁) = some m →
          t.name m ≠ t.name n := by
        intro m hm
        obtain rfl := Option.some.inj (hcell.symm.trans hm)
        exact hname
      have hold : strcmp (t.name n) (t.name old) < 0 :=
        strcmp_lt_of_not (hbehind old List.mem_cons_self) hname
      have hsorted₂ := List.pairwise_cons.mp (List.pairwise_append.mp hsorted).2.1
      refine ⟨_, _, _, hfind, isoDirInsert_link (hroom hother) hother,
        .linked hjoins (hroom hother) hbefore fun m hm => ?_⟩
      rcases List.mem_cons.mp hm with rfl | hm
      · exact hold
      · exact strcmp_lt_trans hold (hsorted₂.1 m hm)

theorem Inserted.orderly (ho : Orderly t) (h : Inserted t d n replace t' ret) : Orderly t' := by
  cases h with
  | refused child name e => exact ho
  | linked joins small before behind => exact linkedIn_orderly ho joins small before behind
  | replaced replaced name mode => exact replaced.orderly ho name

theorem Inserted.unchanged (h : Inserted t d n replace t' ret) (herr : ret.isError = true) :
    t' = t := by
  cases h with
  | refused child name e => rfl
  | linked joins small before behind =>
    rw [toInt_of_lt small] at herr
    simp [Ret.isError] at herr
    omega
  | replaced replaced name mode =>
    have hsmall := replaced.joins.list.small
    rw [← replaced.joins.list.count] at hsmall
    rw [toInt_of_lt hsmall] at herr
    simp [Ret.isError] at herr
    omega

end Insertion

/-! ## Renaming -/

section Rename

variable {t t' s : Tree Node} {d n : Node} {ret : Ret Node}

omit [DecidableEq Node] in
theorem isoDirExists_spec {l : List Node} (hl : ListLinked t d l) (hs : Sorted t l)
    (name : Bytes) :
    t.isoDirExists d name = some (decide (∃ m ∈ l, t.name m = name)) := by
  obtain ⟨l₁, l₂, rfl, hfind, hbefore, hbehind⟩ := isoDirFind_spec hl hs name
  have hfirst : ∀ m ∈ l₁, t.name m ≠ name := fun m hm heq => by
    have := hbefore m hm
    rw [heq, strcmp_self] at this
    omega
  have hrest := hl.chain.drop
  unfold Tree.isoDirExists
  simp only [hfind]
  cases l₂ with
  | nil =>
    have hnone : t.cell (endCell Link.next (.children d) l₁) = none := hrest
    simp only [hnone, List.append_nil]
    congr 1
    symm
    apply decide_eq_false
    rintro ⟨m, hm, heq⟩
    exact hfirst m hm heq
  | cons old rest =>
    simp only [hrest.1]
    congr 1
    rw [decide_eq_decide, strcmp_eq_zero]
    constructor
    · intro heq
      exact ⟨old, by simp, heq⟩
    · rintro ⟨m, hm, rfl⟩
      rcases List.mem_append.mp hm with hm | hm
      · exact absurd rfl (hfirst m hm)
      · rcases List.mem_cons.mp hm with rfl | hm
        · rfl
        · have hsorted := (List.pairwise_cons.mp (List.pairwise_append.mp hs).2.1).1 m hm
          exact absurd hsorted (hbehind old List.mem_cons_self)

omit [Fintype Node] in
theorem Linked.setName (h : Linked t) (n : Node) (name : Bytes) : Linked (t.setName n name) where
  lists d hlive hdir := by
    obtain ⟨l, hl⟩ := h.lists d hlive hdir
    exact ⟨l, hl.chain, hl.count, hl.small, hl.mem⟩
  parents := h.parents
  held := h.held
  regNodup := h.regNodup
  iterDirs := h.iterDirs
  iterPos := h.iterPos

omit [Fintype Node] in
theorem sorted_setName {l : List Node} (hs : Sorted t l) (hn : n ∉ l) (name : Bytes) :
    Sorted (t.setName n name) l := by
  have hname : ∀ m ∈ l, (t.setName n name).name m = t.name m := by
    intro m hm
    have hne : m ≠ n := fun heq => hn (heq ▸ hm)
    simp [Tree.setName, hne]
  refine List.Pairwise.imp_of_mem (fun {a b} ha hb hab => ?_) hs
  rw [hname a ha, hname b hb]
  exact hab

omit [Fintype Node] in
theorem ListLinked.of_setName {l : List Node} {name : Bytes}
    (h : ListLinked (t.setName n name) d l) : ListLinked t d l :=
  ⟨h.chain, h.count, h.small, h.mem⟩

omit [Fintype Node] in
/-- A node in no directory may have any name. -/
theorem Orderly.setName (h : Orderly t) (hn : t.parent n = none) (name : Bytes) :
    Orderly (t.setName n name) where
  toLinked := h.toLinked.setName n name
  sorted d l hlive hdir hl := by
    have hl' := hl.of_setName
    refine sorted_setName (h.sorted d l hlive hdir hl') (fun hm => ?_) name
    have hp := ((hl'.mem n).mp hm).1
    simp [hn] at hp

variable {l₁ l₂ : List Node} {name : Bytes}

omit [Fintype Node] in
/-- A renamed node gets taken: the rest of the list is still in order. -/
theorem Taken.orderly_renamed (ho : Orderly t) (h : ChildAt (t.setName n name) d n l₁ l₂)
    (ht : Taken (t.setName n name) s d n l₁ l₂) : Orderly s where
  toLinked := ht.linked h
  sorted d' l hlive hdir hl := by
    have hname : s.name = (t.setName n name).name := by rw [ht.frame]
    have hdir' : t.isDir d' = true := by
      rw [ht.frame] at hdir
      exact hdir
    have hlive' : t.Live d' := (ht.live d').mp hlive
    unfold Sorted
    rw [hname]
    rcases eq_or_ne d' d with rfl | hne
    · obtain rfl := (ht.list h).unique hl
      have hs := ho.sorted d' _ hlive' hdir' h.list.of_setName
      exact sorted_setName (hs.sublist ((List.sublist_cons_self n l₂).append_left l₁)) h.notIn name
    · obtain ⟨l', hl'⟩ := ho.lists d' hlive' hdir'
      have hl'' : ListLinked (t.setName n name) d' l' := ⟨hl'.chain, hl'.count, hl'.small, hl'.mem⟩
      obtain rfl := (ht.other h hne hl'').unique hl
      refine sorted_setName (ho.sorted d' l' hlive' hdir' hl') (fun hm => ?_) name
      have hp := ((hl'.mem n).mp hm).1
      exact hne (Option.some.inj (hp.symm.trans h.parent.1))

theorem isoDirAddNode_spec {replace : ReplaceMode} (ho : Orderly t) (hoffer : Offers t d n)
    (hfits : Fits t d n replace) :
    ∃ t' ret, t.isoDirAddNode d n replace = some (t', ret) ∧ Inserted t d n replace t' ret := by
  obtain ⟨pos, t', ret, hfind, hrun, hins⟩ := isoDirInsert_spec ho hoffer hfits
  refine ⟨t', ret, ?_, hins⟩
  unfold Tree.isoDirAddNode
  simp only [hoffer.ne, if_false, hoffer.detached, ne_eq, not_true_eq_false, hfind, hrun]

/-- What iso_node_set_name() makes of the tree. -/
inductive Renamed (t : Tree Node) (n : Node) (name : Bytes) : Tree Node → Ret Node → Prop where
  | refused (e : IsoError) : Renamed t n name t (.error e)
  | detached (parent : t.parent n = none) :
      Renamed t n name (t.setName n name) (.value isoSuccess)
  | moved {s t' : Tree Node} {d : Node} {l₁ l₂ : List Node} {res : Ret Node}
      (child : ChildAt (t.setName n name) d n l₁ l₂)
      (taken : Taken (t.setName n name) s d n l₁ l₂) (orderly : Orderly s)
      (inserted : Inserted s d n .never t' res) (res : res.isError = false) :
      Renamed t n name t' (.value isoSuccess)

theorem isoNodeSetName_spec (ho : Orderly t) (n : Node) (name : Bytes) :
    ∃ t' ret, t.isoNodeSetName n name = some (t', ret) ∧ Renamed t n name t' ret := by
  unfold Tree.isoNodeSetName
  by_cases hroot : t.parent n = some n
  · rw [if_pos hroot]
    exact ⟨t, _, rfl, .refused _⟩
  rw [if_neg hroot]
  cases hvalid : SymlinkTarget.isoNodeIsValidName name with
  | error e => exact ⟨t, _, rfl, .refused _⟩
  | ok _ =>
    cases hparent : t.parent n with
    | none => exact ⟨_, _, rfl, .detached hparent⟩
    | some d =>
      have hnd : n ≠ d := by
        rintro rfl
        exact hroot hparent
      obtain ⟨hlive, hdir⟩ := ho.parents n d hparent
      obtain ⟨l, hl⟩ := ho.lists d hlive hdir
      have hexists := isoDirExists_spec hl (ho.sorted d l hlive hdir hl) name
      by_cases hname : ∃ m ∈ l, t.name m = name
      · rw [decide_eq_true hname] at hexists
        simp only [hexists]
        exact ⟨t, _, rfl, .refused _⟩
      · rw [decide_eq_false hname] at hexists
        obtain ⟨l₁, l₂, hchild⟩ := (ho.toLinked.setName n name).childAt hparent hnd
        obtain ⟨s, htake, htaken⟩ := isoNodeTake_spec hchild
        have hs : Orderly s := htaken.orderly_renamed ho hchild
        have hoffer : Offers s d n :=
          { live := (htaken.live d).mpr hlive
            isDir := by
              rw [htaken.frame]
              exact hdir
            owned := htaken.owned
            detached := by
              rw [htaken.parent_eq, Function.update_self]
            ne := hnd.symm }
        have hcount := (htaken.list hchild).count
        have hsmall := hchild.list.small
        have hfits : Fits s d n .never := by
          refine fun pos _ => ⟨fun _ => ?_, fun old _ _ hkeeps => by cases hkeeps⟩
          simp only [List.length_append, List.length_cons] at hcount hsmall
          omega
        obtain ⟨t', res, hadd, hins⟩ := isoDirAddNode_spec hs hoffer hfits
        have hres : res.isError = false := by
          cases hins with
          | refused child heq e =>
            obtain ⟨hp, hold⟩ := (htaken.parent_iff _ d).mp child.1
            have hnames : s.name = Function.update t.name n name := by
              rw [htaken.frame]
              rfl
            rw [hnames, Function.update_self, Function.update_of_ne hold] at heq
            exact absurd ⟨_, (hl.mem _).mpr ⟨hp, child.2⟩, heq⟩ hname
          | linked joins small before behind =>
            rw [toInt_of_lt small]
            simp [Ret.isError]
            omega
          | replaced replaced hname mode =>
            have hlt := replaced.joins.list.small
            rw [← replaced.joins.list.count] at hlt
            rw [toInt_of_lt hlt]
            simp [Ret.isError]
        simp only [hexists, htake, hadd, hres]
        exact ⟨t', _, rfl, .moved hchild htaken hs hins hres⟩

end Rename

/-! ## Iterators -/

section Iterators

variable {t t' : Tree Node} {i : Nat} {d n : Node}

/-- Only references and iterators have changed, and they are still counted. -/
structure IterEdit (t t' : Tree Node) : Prop where
  frame : t' = { t with refcount := t'.refcount, reg := t'.reg, iter := t'.iter }
  live : ∀ m, t'.Live m ↔ t.Live m
  held : ∀ m, t'.held m ≤ t'.refcount m
  regNodup : t'.reg.Nodup
  dirs : ∀ i ∈ t'.reg, t.isDir (t'.iter i).dir = true
  pos : ∀ i ∈ t'.reg, ∀ n, (t'.iter i).pos = some n → t.parent n ≠ some n

omit [Fintype Node] in
theorem ListLinked.iterEdit (he : IterEdit t t') {l : List Node} :
    ListLinked t' d l ↔ ListLinked t d l := by
  rw [he.frame]
  exact ⟨fun h => ⟨h.chain, h.count, h.small, h.mem⟩, fun h => ⟨h.chain, h.count, h.small, h.mem⟩⟩

omit [Fintype Node] in
theorem Orderly.iterEdit (ho : Orderly t) (he : IterEdit t t') : Orderly t' := by
  have hparent : t'.parent = t.parent := by rw [he.frame]
  have hdirs : t'.isDir = t.isDir := by rw [he.frame]
  have hname : t'.name = t.name := by rw [he.frame]
  exact
    { lists := fun d hlive hdir => by
        obtain ⟨l, hl⟩ := ho.lists d ((he.live d).mp hlive) (hdirs ▸ hdir)
        exact ⟨l, (ListLinked.iterEdit he).mpr hl⟩
      parents := fun n d hp => by
        rw [hparent] at hp
        obtain ⟨hlive, hdir⟩ := ho.parents n d hp
        exact ⟨(he.live d).mpr hlive, hdirs ▸ hdir⟩
      held := he.held
      regNodup := he.regNodup
      iterDirs := fun i hi => hdirs ▸ he.dirs i hi
      iterPos := fun i hi n hpos => hparent ▸ he.pos i hi n hpos
      sorted := fun d l hlive hdir hl => by
        unfold Sorted
        rw [hname]
        exact ho.sorted d l ((he.live d).mp hlive) (hdirs ▸ hdir)
          ((ListLinked.iterEdit he).mp hl) }

omit [DecidableEq Node] [Fintype Node] in
theorem unflag_iter (t : Tree Node) (i j : Nat) :
    ((t.unflag i).iter j).pos = (t.iter j).pos ∧ ((t.unflag i).iter j).dir = (t.iter j).dir := by
  rcases eq_or_ne j i with rfl | hne
  · simp [Tree.unflag, Tree.setIter]
  · simp [Tree.unflag, Tree.setIter, hne]

omit [Fintype Node] in
theorem iterEdit_unflag (ho : Orderly t) (hi : i ∈ t.reg) : IterEdit t (t.unflag i) where
  frame := rfl
  live _ := Iff.rfl
  held m := by
    have hset : _ + (if (t.iter i).pos = some m then 1 else 0) =
        t.held m + (if (t.iter i).pos = some m then 1 else 0) :=
      held_setIter ⟨(t.iter i).dir, (t.iter i).pos, false⟩ ho.regNodup hi rfl m
    have hheld := ho.held m
    change (t.setIter i ⟨(t.iter i).dir, (t.iter i).pos, false⟩).held m ≤ t.refcount m
    omega
  regNodup := ho.regNodup
  dirs j hj := by
    rw [(unflag_iter t i j).2]
    exact ho.iterDirs j hj
  pos j hj m hpos := by
    rw [(unflag_iter t i j).1] at hpos
    exact ho.iterPos j hj m hpos

omit [Fintype Node] in
/-- A new iterator has a reference to its directory. -/
theorem iterEdit_getChildren (ho : Orderly t) (hlive : t.Live d) (hdir : t.isDir d = true)
    (hi : i ∉ t.reg) : IterEdit t (t.isoDirGetChildren d i).1 := by
  have hold : ∀ j ∈ t.reg, (t.isoDirGetChildren d i).1.iter j = t.iter j := fun j hj => by
    have hne : j ≠ i := fun heq => hi (heq ▸ hj)
    simp [Tree.isoDirGetChildren, Tree.ref, Tree.setRefcount, Tree.setIter, hne]
  have hnew : (t.isoDirGetChildren d i).1.iter i = ⟨d, none, false⟩ := by
    simp [Tree.isoDirGetChildren, Tree.ref, Tree.setRefcount, Tree.setIter]
  have hreg : (t.isoDirGetChildren d i).1.reg = i :: t.reg := rfl
  have hcount : ∀ p : DirIter Node → Bool,
      t.reg.countP (fun j => p ((t.isoDirGetChildren d i).1.iter j)) =
        t.reg.countP fun j => p (t.iter j) := fun p =>
    List.countP_congr fun j hj => by rw [hold j hj]
  refine
    { frame := rfl
      live := fun m => ?_
      held := fun m => ?_
      regNodup := List.nodup_cons.mpr ⟨hi, ho.regNodup⟩
      dirs := fun j hj => ?_
      pos := fun j hj m hpos => ?_ }
  · change 0 < Function.update t.refcount d (t.refcount d + 1) m ↔ 0 < t.refcount m
    unfold Tree.Live at hlive
    rcases eq_or_ne m d with rfl | hne
    · simp [hlive]
    · simp [hne]
  · have hheld := ho.held m
    have hpos := hcount fun j => decide (j.pos = some m)
    have hdirs := hcount fun j => decide (j.dir = m)
    have hparent : (t.isoDirGetChildren d i).1.parent = t.parent := rfl
    have hrefs : (t.isoDirGetChildren d i).1.refcount =
      Function.update t.refcount d (t.refcount d + 1) := rfl
    unfold Tree.held at hheld ⊢
    rw [hreg, hrefs, hparent, List.countP_cons, List.countP_cons, hpos, hdirs, hnew]
    rcases eq_or_ne m d with rfl | hne
    · simp
      omega
    · simp [hne, hne.symm]
      omega
  · rcases List.mem_cons.mp hj with rfl | hj
    · rw [hnew]
      exact hdir
    · rw [hold j hj]
      exact ho.iterDirs j hj
  · rcases List.mem_cons.mp hj with rfl | hj
    · simp [hnew] at hpos
    · rw [hold j hj] at hpos
      exact ho.iterPos j hj m hpos

/-- The reference to an old position gets disposed. -/
def leave (t : Tree Node) : Option Node → Tree Node
  | none => t
  | some p => t.decr p

omit [Fintype Node] in
theorem leave_eq (t : Tree Node) (p : Option Node) :
    leave t p = { t with refcount := (leave t p).refcount } := by
  cases p <;> rfl

omit [Fintype Node] in
theorem leave_refcount (t : Tree Node) (p : Option Node) (m : Node) :
    (leave t p).refcount m = t.refcount m - if p = some m then 1 else 0 := by
  cases p with
  | none => simp [leave]
  | some p =>
    rcases eq_or_ne m p with rfl | hne
    · simp [leave, decr_refcount_self]
    · simp [leave, decr_refcount_of_ne hne, hne.symm]

omit [Fintype Node] in
theorem arriveAt_refcount (t : Tree Node) (i : Nat) (n m : Node) :
    (t.arriveAt i n).1.refcount m = t.refcount m + if m = n then 1 else 0 := by
  change Function.update t.refcount n (t.refcount n + 1) m = _
  rcases eq_or_ne m n with rfl | hne
  · simp
  · simp [hne]

omit [Fintype Node] in
/-- An iterator goes on to a child. -/
theorem iterEdit_arriveAt (ho : Orderly t) (hi : i ∈ t.reg)
    (hold : ∀ p, (t.iter i).pos = some p → t.parent p ≠ none)
    (hp : t.parent n ≠ none) (hself : t.parent n ≠ some n) :
    IterEdit t ((leave t (t.iter i).pos).arriveAt i n).1 := by
  have hframe := leave_eq t (t.iter i).pos
  have hiter : ((leave t (t.iter i).pos).arriveAt i n).1.iter =
      Function.update t.iter i ⟨(t.iter i).dir, some n, true⟩ := by
    rw [hframe]
    rfl
  have hreg : ((leave t (t.iter i).pos).arriveAt i n).1.reg = t.reg := by
    rw [hframe]
    rfl
  have hrefs : ∀ m, ((leave t (t.iter i).pos).arriveAt i n).1.refcount m =
      t.refcount m - (if (t.iter i).pos = some m then 1 else 0) + if m = n then 1 else 0 :=
    fun m => by rw [arriveAt_refcount, leave_refcount]
  have hdeep : ∀ m, (t.iter i).pos = some m → 2 ≤ t.refcount m := fun m hm => by
    have hheld := Tree.held_of_pos hi hm
    rw [if_neg (hold m hm)] at hheld
    exact hheld.trans (ho.held m)
  refine
    { frame := ?_
      live := fun m => ?_
      held := fun m => ?_
      regNodup := hreg ▸ ho.regNodup
      dirs := fun j hj => ?_
      pos := fun j hj m hpos => ?_ }
  · rw [hframe]
    rfl
  · unfold Tree.Live
    rw [hrefs]
    have hone := (Tree.one_le_held hp).trans (ho.held n)
    by_cases hm : (t.iter i).pos = some m
    · have := hdeep m hm
      simp only [hm, if_true]
      omega
    · rcases eq_or_ne m n with rfl | hne
      · simp
        omega
      · simp [hm, hne]
  · have hset : _ + (if (t.iter i).pos = some m then 1 else 0) =
        t.held m + (if some n = some m then 1 else 0) :=
      held_setIter ⟨(t.iter i).dir, some n, true⟩ ho.regNodup hi rfl m
    have hheld : ((leave t (t.iter i).pos).arriveAt i n).1.held m =
        (t.setIter i ⟨(t.iter i).dir, some n, true⟩).held m := by
      rw [hframe]
      rfl
    have hle := ho.held m
    rw [hheld, hrefs]
    simp only [Option.some.injEq, eq_comm (a := n)] at hset
    by_cases hm : (t.iter i).pos = some m
    · have := hdeep m hm
      simp only [hm, if_true] at hset ⊢
      omega
    · simp only [hm, if_false] at hset ⊢
      omega
  · rw [hreg] at hj
    rw [hiter]
    rcases eq_or_ne j i with rfl | hne
    · simpa using ho.iterDirs j hj
    · simpa [hne] using ho.iterDirs j hj
  · rw [hreg] at hj
    rw [hiter] at hpos
    rcases eq_or_ne j i with rfl | hne
    · simp at hpos
      exact hpos ▸ hself
    · simp only [Function.update_of_ne hne] at hpos
      exact ho.iterPos j hj m hpos

/-- Where the next child of an iterator is linked. -/
def nextLink (it : DirIter Node) : Link Node :=
  match it.pos with
  | none => .children it.dir
  | some p => .next p

/-- What iter_next() makes of the tree. -/
inductive Advanced (t : Tree Node) (i : Nat) : Tree Node → Ret Node → Prop where
  | lost {p : Node} (pos : (t.iter i).pos = some p)
      (parent : t.parent p ≠ some (t.iter i).dir) :
      Advanced t i (t.unflag i) (.error .generalError)
  | ended (stays : ∀ p, (t.iter i).pos = some p → t.parent p = some (t.iter i).dir)
      (last : t.cell (nextLink (t.iter i)) = none) : Advanced t i (t.unflag i) (.value 0)
  | arrived {n : Node} (stays : ∀ p, (t.iter i).pos = some p → t.parent p = some (t.iter i).dir)
      (next : t.cell (nextLink (t.iter i)) = some n) :
      Advanced t i ((leave (t.unflag i) (t.iter i).pos).arriveAt i n).1 (.node n)

omit [Fintype Node] in
theorem iter_dir_live (ho : Orderly t) (hi : i ∈ t.reg) :
    t.Live (t.iter i).dir ∧ t.isDir (t.iter i).dir = true :=
  ⟨(Tree.one_le_held_of_dir hi).trans (ho.held _), ho.iterDirs i hi⟩

theorem isoDirIterNext_spec (ho : Orderly t) (hi : i ∈ t.reg) :
    ∃ t' ret, t.isoDirIterNext i = some (t', ret) ∧ Advanced t i t' ret := by
  have hcell : (t.unflag i).cell = t.cell := rfl
  have hparent : (t.unflag i).parent = t.parent := rfl
  unfold Tree.isoDirIterNext
  cases hpos : (t.iter i).pos with
  | none =>
    have hstays : ∀ p, (t.iter i).pos = some p → t.parent p = some (t.iter i).dir := by
      simp [hpos]
    have hlink : nextLink (t.iter i) = .children (t.iter i).dir := by
      rw [nextLink, hpos]
    cases hnext : t.cell (.children (t.iter i).dir) with
    | none =>
      refine ⟨_, _, ?_, .ended hstays (hlink ▸ hnext)⟩
      simp only [hpos, hcell, hnext]
    | some first =>
      refine ⟨_, _, ?_, .arrived hstays (hlink ▸ hnext)⟩
      simp only [hpos, hcell, hnext]
      rfl
  | some p =>
    have hlink : nextLink (t.iter i) = .next p := by
      rw [nextLink, hpos]
    by_cases hchild : t.parent p = some (t.iter i).dir
    · have hstays : ∀ q, (t.iter i).pos = some q → t.parent q = some (t.iter i).dir := by
        intro q hq
        obtain rfl := Option.some.inj (hpos.symm.trans hq)
        exact hchild
      cases hnext : t.cell (.next p) with
      | none =>
        refine ⟨_, _, ?_, .ended hstays (hlink ▸ hnext)⟩
        simp only [hpos, hcell, hparent, hchild, hnext, ne_eq, not_true_eq_false, if_false]
      | some n =>
        have hmore : 2 ≤ t.refcount p := by
          have hheld := Tree.held_of_pos hi hpos
          rw [if_neg (by simp [hchild])] at hheld
          exact hheld.trans (ho.held p)
        have hunref : (t.unflag i).unref p = some ((t.unflag i).decr p) := by
          apply unref_eq_decr
          rintro ⟨hone, -⟩
          change t.refcount p = 1 at hone
          omega
        refine ⟨_, _, ?_, .arrived hstays (hlink ▸ hnext)⟩
        simp only [hpos, hcell, hparent, hchild, hnext, hunref, ne_eq, not_true_eq_false,
          if_false]
        rfl
    · refine ⟨_, _, ?_, .lost hpos hchild⟩
      simp only [hpos, hparent, ne_eq, hchild, not_false_eq_true, if_true]

omit [Fintype Node] in
/-- The next node is a child of the directory. -/
theorem next_child (ho : Orderly t) (hi : i ∈ t.reg)
    (hstays : ∀ p, (t.iter i).pos = some p → t.parent p = some (t.iter i).dir)
    (hnext : t.cell (nextLink (t.iter i)) = some n) :
    t.parent n = some (t.iter i).dir ∧ n ≠ (t.iter i).dir := by
  obtain ⟨hlive, hdir⟩ := iter_dir_live ho hi
  obtain ⟨l, hl⟩ := ho.lists _ hlive hdir
  apply (hl.mem n).mp
  cases hpos : (t.iter i).pos with
  | none =>
    have hfirst := hl.chain
    rw [nextLink, hpos] at hnext
    cases l with
    | nil => exact absurd (hfirst.symm.trans hnext) (by simp)
    | cons m l =>
      obtain rfl := Option.some.inj (hfirst.1.symm.trans hnext)
      exact List.mem_cons_self
  | some p =>
    rw [nextLink, hpos] at hnext
    have hpd : p ≠ (t.iter i).dir := fun heq =>
      ho.iterPos i hi p hpos (heq ▸ hstays p hpos)
    obtain ⟨l₁, l₂, rfl⟩ := List.append_of_mem ((hl.mem p).mpr ⟨hstays p hpos, hpd⟩)
    have hrest := hl.chain.drop.2
    cases l₂ with
    | nil => exact absurd (hrest.symm.trans hnext) (by simp)
    | cons m l₂ =>
      obtain rfl := Option.some.inj (hrest.1.symm.trans hnext)
      simp

omit [Fintype Node] in
theorem Advanced.orderly (ho : Orderly t) (hi : i ∈ t.reg) {ret : Ret Node}
    (h : Advanced t i t' ret) : Orderly t' := by
  have ho' := ho.iterEdit (iterEdit_unflag ho hi)
  cases h with
  | lost pos parent => exact ho'
  | ended stays last => exact ho'
  | @arrived n stays next =>
    obtain ⟨hp, hne⟩ := next_child ho hi stays next
    have hi' : i ∈ (t.unflag i).reg := hi
    have hpos := (unflag_iter t i i).1
    have hedit := iterEdit_arriveAt (n := n) ho' hi'
      (fun p hpos' => by
        rw [hpos] at hpos'
        change t.parent p ≠ none
        simp [stays p hpos'])
      (by
        change t.parent n ≠ none
        simp [hp])
      (by
        change t.parent n ≠ some n
        rw [hp]
        exact fun heq => hne (Option.some.inj heq).symm)
    rw [hpos] at hedit
    exact ho'.iterEdit hedit

omit [Fintype Node] in
theorem Advanced.unchanged {ret : Ret Node} (h : Advanced t i t' ret) :
    t'.toDirs = t.toDirs := by
  cases h with
  | lost pos parent => rfl
  | ended stays last => rfl
  | arrived stays next =>
    rw [leave_eq]
    rfl

end Iterators

end DirTree
