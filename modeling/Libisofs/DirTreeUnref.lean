import Libisofs.DirTree

/-!
# Release of nodes

What iso_node_unref() does to the tree: a directory which loses its last reference gets
freed, its children lose their parent and a reference, and so on. The lists of the other
directories stay as they are. The order of the tree gets stated here, too.
-/

namespace DirTree

open CellLists
open ThreeWay (strcmp)

variable {Node : Type} [DecidableEq Node]

/-- The children of a directory are linked and counted, and they know their parent. A root,
which is its own parent, is not among them. -/
structure ListLinked (t : Tree Node) (d : Node) (l : List Node) : Prop where
  chain : Chain Link.next t.cell (.children d) l
  count : t.nchildren d = l.length
  small : l.length < 2 ^ 31
  mem : ∀ n, n ∈ l ↔ t.parent n = some d ∧ n ≠ d

/-- All directories have their lists, parents are existing directories, and nobody uses a
node without having a reference. -/
structure Linked (t : Tree Node) : Prop where
  lists : ∀ d, t.Live d → t.isDir d = true → ∃ l, ListLinked t d l
  parents : ∀ n d, t.parent n = some d → t.Live d ∧ t.isDir d = true
  held : ∀ n, t.held n ≤ t.refcount n
  regNodup : t.reg.Nodup
  iterDirs : ∀ i ∈ t.reg, t.isDir (t.iter i).dir = true
  iterPos : ∀ i ∈ t.reg, ∀ n, (t.iter i).pos = some n → t.parent n ≠ some n

/-- Strictly ascending names by strcmp(). -/
def Sorted (t : Tree Node) (l : List Node) : Prop :=
  l.Pairwise fun a b => strcmp (t.name a) (t.name b) < 0

/-- All directories are in order. -/
structure Orderly (t : Tree Node) : Prop extends Linked t where
  sorted : ∀ d l, t.Live d → t.isDir d = true → ListLinked t d l → Sorted t l

namespace Tree

theorem one_le_held {t : Tree Node} {n : Node} (h : t.parent n ≠ none) : 1 ≤ t.held n := by
  unfold held
  rw [if_neg h]
  omega

theorem one_le_held_of_dir {t : Tree Node} {i : Nat} (hi : i ∈ t.reg) :
    1 ≤ t.held (t.iter i).dir := by
  have : 0 < t.reg.countP fun j => decide ((t.iter j).dir = (t.iter i).dir) :=
    List.countP_pos_iff.mpr ⟨i, hi, by simp⟩
  unfold held
  omega

theorem held_of_pos {t : Tree Node} {i : Nat} {n : Node} (hi : i ∈ t.reg)
    (hpos : (t.iter i).pos = some n) : (if t.parent n = none then 0 else 1) + 1 ≤ t.held n := by
  have : 0 < t.reg.countP fun j => decide ((t.iter j).pos = some n) :=
    List.countP_pos_iff.mpr ⟨i, hi, by simp [hpos]⟩
  unfold held
  omega

end Tree

/-! ## The effect of a release -/

/-- References get lost, and children lose a parent which is freed. -/
structure Decays (t t' : Tree Node) : Prop where
  frame : t' = { t with parent := t'.parent, refcount := t'.refcount }
  refcount_le : ∀ n, t'.refcount n ≤ t.refcount n
  parent : ∀ n, t'.parent n = t.parent n ∨
    t'.parent n = none ∧ ∃ d, t.parent n = some d ∧ d ≠ n ∧ ¬ t'.Live d

omit [DecidableEq Node] in
theorem Decays.refl (t : Tree Node) : Decays t t where
  frame := rfl
  refcount_le _ := Nat.le_refl _
  parent _ := Or.inl rfl

omit [DecidableEq Node] in
theorem Decays.live {t t' : Tree Node} (h : Decays t t') {n : Node} (hn : t'.Live n) :
    t.Live n :=
  Nat.lt_of_lt_of_le hn (h.refcount_le n)

omit [DecidableEq Node] in
theorem Decays.trans {t s t' : Tree Node} (h₁ : Decays t s) (h₂ : Decays s t') :
    Decays t t' where
  frame := by
    have h := h₂.frame
    rw [h₁.frame] at h
    exact h
  refcount_le n := (h₂.refcount_le n).trans (h₁.refcount_le n)
  parent n := by
    rcases h₂.parent n with heq | ⟨hnone, d, hd, hne, hdead⟩
    · rcases h₁.parent n with heq' | ⟨hnone', d, hd, hne, hdead⟩
      · exact Or.inl (heq.trans heq')
      · exact Or.inr ⟨heq.trans hnone', d, hd, hne, fun hlive => hdead (h₂.live hlive)⟩
    · rcases h₁.parent n with heq' | ⟨hnone', -⟩
      · exact Or.inr ⟨hnone, d, heq' ▸ hd, hne, hdead⟩
      · rw [hnone'] at hd
        cases hd

/-- What a release leaves behind: parents exist, and references suffice. -/
structure Released (t t' : Tree Node) : Prop extends Decays t t' where
  parentLive : ∀ n d, t'.parent n = some d → t'.Live d
  held : ∀ n, t'.held n ≤ t'.refcount n

/-- The state while children of freed directories wait for their release. Of some
directories the lists are not considered. -/
structure Releasing (t : Tree Node) (ex : Node → Prop) (work : List Node) : Prop where
  lists : ∀ d, t.Live d → t.isDir d = true → ¬ ex d →
    ∃ l, Chain Link.next t.cell (.children d) l ∧ ∀ n, n ∈ l ↔ t.parent n = some d ∧ n ≠ d
  parentLive : ∀ n d, t.parent n = some d → t.Live d ∨ n ∈ work
  parentDir : ∀ n d, t.parent n = some d → t.isDir d = true
  held : ∀ n, t.held n ≤ t.refcount n
  nodup : work.Nodup
  orphans : ∀ c ∈ work, ∃ d, t.parent c = some d ∧ ¬ t.Live d

/-- A child which loses its parent and a reference. -/
def dropped (t : Tree Node) (c : Node) : Tree Node := (t.setParent c none).decr c

section Dropped

variable (t : Tree Node) (c : Node)

theorem dropped_refcount :
    (dropped t c).refcount = Function.update t.refcount c (t.refcount c - 1) :=
  rfl

theorem dropped_parent : (dropped t c).parent = Function.update t.parent c none := rfl

theorem dropped_refcount_le (n : Node) : (dropped t c).refcount n ≤ t.refcount n := by
  rw [dropped_refcount]
  rcases eq_or_ne n c with rfl | hne
  · simp
  · simp [hne]

theorem dropped_live {n : Node} (h : (dropped t c).Live n) : t.Live n :=
  Nat.lt_of_lt_of_le h (dropped_refcount_le t c n)

theorem dropped_live_of_ne {n : Node} (hne : n ≠ c) : (dropped t c).Live n ↔ t.Live n := by
  unfold Tree.Live
  rw [dropped_refcount, Function.update_of_ne hne]

theorem dropped_held_of_ne {n : Node} (hne : n ≠ c) : (dropped t c).held n = t.held n := by
  unfold Tree.held
  rw [dropped_parent, Function.update_of_ne hne]
  rfl

theorem dropped_held (hparent : t.parent c ≠ none) :
    (dropped t c).held c + 1 = t.held c := by
  have hreg : (dropped t c).reg = t.reg := rfl
  have hiter : (dropped t c).iter = t.iter := rfl
  unfold Tree.held
  rw [dropped_parent, Function.update_self, if_pos rfl, if_neg hparent, hreg, hiter]
  omega

theorem dropped_held_le {n : Node} (h : t.held n ≤ t.refcount n)
    (hparent : t.parent c ≠ none) : (dropped t c).held n ≤ (dropped t c).refcount n := by
  rcases eq_or_ne n c with rfl | hne
  · have := dropped_held t n hparent
    rw [dropped_refcount, Function.update_self]
    omega
  · rw [dropped_held_of_ne t c hne, dropped_refcount, Function.update_of_ne hne]
    exact h

end Dropped

theorem decays_dropped {t : Tree Node} {c d : Node} (hparent : t.parent c = some d)
    (hne : d ≠ c) (hdead : ¬ t.Live d) : Decays t (dropped t c) where
  frame := rfl
  refcount_le := dropped_refcount_le t c
  parent n := by
    rw [dropped_parent]
    rcases eq_or_ne n c with rfl | hnc
    · exact Or.inr ⟨Function.update_self .., d, hparent, hne, fun h => hdead (dropped_live t _ h)⟩
    · exact Or.inl (Function.update_of_ne hnc ..)

/-! ## One reference -/

/-- The state before somebody gives away a reference. -/
structure Settled (t : Tree Node) (ex : Node → Prop) : Prop where
  lists : ∀ d, t.Live d → t.isDir d = true → ¬ ex d →
    ∃ l, Chain Link.next t.cell (.children d) l ∧ ∀ n, n ∈ l ↔ t.parent n = some d ∧ n ≠ d
  parents : ∀ n d, t.parent n = some d → t.Live d ∧ t.isDir d = true
  held : ∀ n, t.held n ≤ t.refcount n

theorem Linked.settled {t : Tree Node} (h : Linked t) : Settled t fun _ => False where
  lists d hlive hdir _ := by
    obtain ⟨l, hl⟩ := h.lists d hlive hdir
    exact ⟨l, hl.chain, hl.mem⟩
  parents := h.parents
  held := h.held

section Decr

variable {t t' : Tree Node} {ex : Node → Prop} {n : Node}

theorem decr_held (t : Tree Node) (n m : Node) : (t.decr n).held m = t.held m := rfl

theorem decays_decr (t : Tree Node) (n : Node) : Decays t (t.decr n) where
  frame := rfl
  refcount_le m := by
    rcases eq_or_ne m n with rfl | hne
    · simp [Tree.decr, Tree.setRefcount]
    · simp [Tree.decr, Tree.setRefcount, hne]
  parent _ := Or.inl rfl

theorem decr_refcount_of_ne {m : Node} (hne : m ≠ n) : (t.decr n).refcount m = t.refcount m := by
  simp [Tree.decr, Tree.setRefcount, hne]

theorem decr_refcount_self : (t.decr n).refcount n = t.refcount n - 1 := by
  simp [Tree.decr, Tree.setRefcount]

theorem decr_held_le (h : ∀ m, t.held m ≤ t.refcount m) (howned : t.Owned n) (m : Node) :
    (t.decr n).held m ≤ (t.decr n).refcount m := by
  rw [decr_held]
  rcases eq_or_ne m n with rfl | hne
  · rw [decr_refcount_self]
    exact Nat.le_sub_one_of_lt howned
  · rw [decr_refcount_of_ne hne]
    exact h m

theorem released_decr (h : Settled t ex) (howned : t.Owned n)
    (hmore : ¬ (t.refcount n = 1 ∧ t.isDir n = true)) : Released t (t.decr n) where
  toDecays := decays_decr t n
  parentLive m d hp := by
    obtain ⟨hlive, hdir⟩ := h.parents m d hp
    unfold Tree.Live at hlive ⊢
    rcases eq_or_ne d n with rfl | hne
    · rw [decr_refcount_self]
      have : t.refcount d ≠ 1 := fun hone => hmore ⟨hone, hdir⟩
      omega
    · rwa [decr_refcount_of_ne hne]
  held := decr_held_le h.held howned

end Decr

/-! ## The release of children -/

section Release

variable {t : Tree Node} {ex : Node → Prop} {c : Node} {rest : List Node}

theorem Releasing.dropped_slack (h : Releasing t ex (c :: rest)) (m : Node) :
    (dropped t c).held m + t.refcount m = t.held m + (dropped t c).refcount m := by
  obtain ⟨d, hd, -⟩ := h.orphans c List.mem_cons_self
  rcases eq_or_ne m c with rfl | hne
  · have hheld := dropped_held t m (by simp [hd])
    have hle := h.held m
    rw [dropped_refcount, Function.update_self]
    omega
  · rw [dropped_held_of_ne t c hne, dropped_refcount, Function.update_of_ne hne]

/-- The head of the list survives. -/
theorem Releasing.keeps (h : Releasing t ex (c :: rest))
    (hkeep : ¬ (t.refcount c = 1 ∧ t.isDir c = true)) :
    Releasing (dropped t c) ex rest := by
  obtain ⟨d, hd, hdead⟩ := h.orphans c List.mem_cons_self
  have hattached : t.parent c ≠ none := by simp [hd]
  have hnotin := (List.nodup_cons.mp h.nodup).1
  have hlive : ∀ d, t.isDir d = true → t.Live d → (dropped t c).Live d := by
    intro d hdir hlive
    rcases eq_or_ne d c with rfl | hne
    · unfold Tree.Live at hlive ⊢
      rw [dropped_refcount, Function.update_self]
      have : t.refcount d ≠ 1 := fun h1 => hkeep ⟨h1, hdir⟩
      omega
    · exact (dropped_live_of_ne t c hne).mpr hlive
  refine
    { lists := fun d' hlive' hdir hex => ?_
      parentLive := fun n d' hp => ?_
      parentDir := fun n d' hp => ?_
      held := fun n => dropped_held_le t c (h.held n) hattached
      nodup := (List.nodup_cons.mp h.nodup).2
      orphans := fun m hm => ?_ }
  · obtain ⟨l, hchain, hmem⟩ := h.lists d' (dropped_live t c hlive') hdir hex
    refine ⟨l, hchain, fun n => ?_⟩
    rw [hmem, dropped_parent]
    rcases eq_or_ne n c with rfl | hne
    · have : d ≠ d' := fun heq => hdead (heq ▸ dropped_live t n hlive')
      simp [hd, this]
    · rw [Function.update_of_ne hne]
  · rw [dropped_parent] at hp
    rcases eq_or_ne n c with rfl | hne
    · simp at hp
    · rw [Function.update_of_ne hne] at hp
      rcases h.parentLive n d' hp with hl | hin
      · exact Or.inl (hlive d' (h.parentDir n d' hp) hl)
      · exact Or.inr ((List.mem_cons.mp hin).resolve_left hne)
  · rw [dropped_parent] at hp
    rcases eq_or_ne n c with rfl | hne
    · simp at hp
    · rw [Function.update_of_ne hne] at hp
      exact h.parentDir n d' hp
  · have hne : m ≠ c := fun heq => hnotin (heq ▸ hm)
    obtain ⟨d', hd', hdead'⟩ := h.orphans m (List.mem_cons_of_mem c hm)
    exact ⟨d', by rw [dropped_parent, Function.update_of_ne hne, hd'],
      fun hl => hdead' (dropped_live t c hl)⟩

variable [Fintype Node]

omit [DecidableEq Node] in
theorem length_lt_steps {l : List Node} (hnodup : l.Nodup) : l.length < steps Node :=
  Nat.lt_succ_of_le hnodup.length_le_card

omit [DecidableEq Node] in
theorem childList_eq {t : Tree Node} {d : Node} {l : List Node}
    (h : Chain Link.next t.cell (.children d) l) : t.childList d = some l :=
  toList_eq h (length_lt_steps h.nodup)

/-- The head of the list gets freed, and its children join the list. -/
theorem Releasing.frees (h : Releasing t ex (c :: rest)) (hone : t.refcount c = 1)
    (hdir : t.isDir c = true) (hex : ¬ ex c) :
    ∃ l, (dropped t c).childList c = some l ∧ Releasing (dropped t c) ex (l ++ rest) ∧
      ∀ m ∈ l, t.parent m = some c ∧ m ≠ c := by
  obtain ⟨d, hd, hdead⟩ := h.orphans c List.mem_cons_self
  have hattached : t.parent c ≠ none := by simp [hd]
  have hclive : t.Live c := by
    unfold Tree.Live
    omega
  have hcdead : ¬ (dropped t c).Live c := by
    unfold Tree.Live
    rw [dropped_refcount, Function.update_self]
    omega
  have hnotin := (List.nodup_cons.mp h.nodup).1
  obtain ⟨l, hchain, hmem⟩ := h.lists c hclive hdir hex
  have hparent : ∀ n ≠ c, (dropped t c).parent n = t.parent n := fun n hne => by
    rw [dropped_parent, Function.update_of_ne hne]
  refine ⟨l, childList_eq hchain,
    { lists := fun d' hlive' hdir hex => ?_
      parentLive := fun n d' hp => ?_
      parentDir := fun n d' hp => ?_
      held := fun n => dropped_held_le t c (h.held n) hattached
      nodup := ?_
      orphans := fun m hm => ?_ }, fun m hm => (hmem m).mp hm⟩
  · obtain ⟨l', hchain', hmem'⟩ := h.lists d' (dropped_live t c hlive') hdir hex
    refine ⟨l', hchain', fun n => ?_⟩
    rw [hmem']
    rcases eq_or_ne n c with rfl | hne
    · have : d ≠ d' := fun heq => hdead (heq ▸ dropped_live t n hlive')
      simp [hd, this, dropped_parent]
    · rw [hparent n hne]
  · rcases eq_or_ne n c with rfl | hne
    · simp [dropped_parent] at hp
    · rw [hparent n hne] at hp
      rcases h.parentLive n d' hp with hl | hin
      · rcases eq_or_ne d' c with rfl | hne'
        · exact Or.inr (List.mem_append_left _ ((hmem n).mpr ⟨hp, hne⟩))
        · exact Or.inl ((dropped_live_of_ne t c hne').mpr hl)
      · exact Or.inr (List.mem_append_right _ ((List.mem_cons.mp hin).resolve_left hne))
  · rcases eq_or_ne n c with rfl | hne
    · simp [dropped_parent] at hp
    · rw [hparent n hne] at hp
      exact h.parentDir n d' hp
  · refine List.nodup_append.mpr ⟨hchain.nodup, (List.nodup_cons.mp h.nodup).2, ?_⟩
    rintro n hn m hm rfl
    obtain ⟨d', hd', hdead'⟩ := h.orphans n (List.mem_cons_of_mem c hm)
    rw [((hmem n).mp hn).1] at hd'
    cases hd'
    exact hdead' hclive
  · rcases List.mem_append.mp hm with hm | hm
    · obtain ⟨hp, hne⟩ := (hmem m).mp hm
      exact ⟨c, (hparent m hne).trans hp, hcdead⟩
    · have hne : m ≠ c := fun heq => hnotin (heq ▸ hm)
      obtain ⟨d', hd', hdead'⟩ := h.orphans m (List.mem_cons_of_mem c hm)
      exact ⟨d', (hparent m hne).trans hd', fun hl => hdead' (dropped_live t c hl)⟩

theorem release_nil (t : Tree Node) : t.release [] = some t := by
  rw [Tree.release]

theorem release_keeps (hkeep : ¬ (t.refcount c = 1 ∧ t.isDir c = true)) :
    t.release (c :: rest) = (dropped t c).release rest := by
  rw [Tree.release, dif_neg hkeep]
  rfl

theorem release_frees (hone : t.refcount c = 1) (hdir : t.isDir c = true) {l : List Node}
    (hl : (dropped t c).childList c = some l) :
    t.release (c :: rest) = (dropped t c).release (l ++ rest) := by
  unfold dropped at hl ⊢
  rw [Tree.release, dif_pos ⟨hone, hdir⟩]
  simp only [hl]

theorem release_refcount_le {work : List Node} {t t' : Tree Node}
    (hrun : t.release work = some t') (n : Node) : t'.refcount n ≤ t.refcount n := by
  induction t, work using Tree.release.induct with
  | case1 t =>
    rw [release_nil] at hrun
    cases hrun
    exact Nat.le_refl _
  | case2 t child rest t₁ hdies hnone =>
    rw [Tree.release, dif_pos hdies] at hrun
    simp only [t₁] at hnone
    simp [hnone] at hrun
  | case3 t child rest t₁ hdies l hl ih =>
    rw [release_frees hdies.1 hdies.2 hl] at hrun
    exact (ih hrun).trans (dropped_refcount_le t child n)
  | case4 t child rest t₁ hkeep ih =>
    rw [release_keeps hkeep] at hrun
    exact (ih hrun).trans (dropped_refcount_le t child n)

theorem release_freed {t t' : Tree Node} (hrun : t.release (c :: rest) = some t')
    (hone : t.refcount c = 1) (hdir : t.isDir c = true) {l : List Node}
    (hl : (dropped t c).childList c = some l) : ¬ t'.Live c := by
  rw [release_frees hone hdir hl] at hrun
  have hle := release_refcount_le hrun c
  rw [dropped_refcount, Function.update_self, hone] at hle
  unfold Tree.Live
  omega

/-- A release leaves all others in order if the directories whose lists are not considered
survive. -/
theorem released_of_release {ex : Node → Prop} {work : List Node} {t t' : Tree Node}
    (h : Releasing t ex work) (hrun : t.release work = some t')
    (hex : ∀ d, ex d → t'.Live d) : Released t t' := by
  induction t, work using Tree.release.induct with
  | case1 t =>
    rw [release_nil] at hrun
    cases hrun
    exact
      { Decays.refl t' with
        parentLive := fun n d hp => (h.parentLive n d hp).resolve_right (List.not_mem_nil)
        held := h.held }
  | case2 t child rest t₁ hdies hnone =>
    rw [Tree.release, dif_pos hdies] at hrun
    simp only [t₁] at hnone
    simp [hnone] at hrun
  | case3 t c rest t₁ hdies l hl ih =>
    have hnex : ¬ ex c := fun hexc => release_freed hrun hdies.1 hdies.2 hl (hex c hexc)
    obtain ⟨l', hl', hnext, -⟩ := h.frees hdies.1 hdies.2 hnex
    obtain rfl : l' = l := Option.some.inj (hl'.symm.trans hl)
    rw [release_frees hdies.1 hdies.2 hl] at hrun
    have hrest := ih hnext hrun
    obtain ⟨d, hd, hdead⟩ := h.orphans c List.mem_cons_self
    have hne : d ≠ c := by
      rintro rfl
      exact hdead (by unfold Tree.Live; omega)
    exact { (decays_dropped hd hne hdead).trans hrest.toDecays with
      parentLive := hrest.parentLive
      held := hrest.held }
  | case4 t c rest t₁ hkeep ih =>
    rw [release_keeps hkeep] at hrun
    have hrest := ih (h.keeps hkeep) hrun
    obtain ⟨d, hd, hdead⟩ := h.orphans c List.mem_cons_self
    have hne : d ≠ c := by
      rintro rfl
      have hheld := h.held d
      have hone := Tree.one_le_held (t := t) (n := d) (by simp [hd])
      exact hdead (by unfold Tree.Live; omega)
    exact { (decays_dropped hd hne hdead).trans hrest.toDecays with
      parentLive := hrest.parentLive
      held := hrest.held }

/-- A release takes references only from where they are not needed any more. -/
theorem release_slack {ex : Node → Prop} {work : List Node} {t t' : Tree Node}
    (h : Releasing t ex work) (hrun : t.release work = some t')
    (hex : ∀ d, ex d → t'.Live d) (m : Node) :
    t'.held m + t.refcount m = t.held m + t'.refcount m := by
  induction t, work using Tree.release.induct with
  | case1 t =>
    rw [release_nil] at hrun
    cases hrun
    rfl
  | case2 t child rest t₁ hdies hnone =>
    rw [Tree.release, dif_pos hdies] at hrun
    simp only [t₁] at hnone
    simp [hnone] at hrun
  | case3 t c rest t₁ hdies l hl ih =>
    have hfirst := h.dropped_slack m
    have hnex : ¬ ex c := fun hexc => release_freed hrun hdies.1 hdies.2 hl (hex c hexc)
    rw [release_frees hdies.1 hdies.2 hl] at hrun
    obtain ⟨l', hl', hnext, -⟩ := h.frees hdies.1 hdies.2 hnex
    obtain rfl : l' = l := Option.some.inj (hl'.symm.trans hl)
    have hrest : t'.held m + (dropped t c).refcount m = (dropped t c).held m + t'.refcount m :=
      ih hnext hrun
    omega
  | case4 t c rest t₁ hkeep ih =>
    have hfirst := h.dropped_slack m
    rw [release_keeps hkeep] at hrun
    have hrest : t'.held m + (dropped t c).refcount m = (dropped t c).held m + t'.refcount m :=
      ih (h.keeps hkeep) hrun
    omega

/-- A condition on nodes which spreads from freed directories to the children which they
alone refer to. It holds for waiting children which will be freed. -/
structure Spreads (t : Tree Node) (freed : Node → Prop) (work : List Node) : Prop where
  child : ∀ m p, t.parent m = some p → freed p → t.refcount m = 1 → freed m
  work : ∀ m ∈ work, t.refcount m = 1 → freed m

omit [Fintype Node] in
theorem Spreads.dropped {freed : Node → Prop} (h : Spreads t freed (c :: rest))
    (hc : c ∉ rest) : Spreads (dropped t c) freed rest where
  child m p hp hfreed hone := by
    rcases eq_or_ne m c with rfl | hne
    · simp [dropped_parent] at hp
    · rw [dropped_parent, Function.update_of_ne hne] at hp
      rw [dropped_refcount, Function.update_of_ne hne] at hone
      exact h.child m p hp hfreed hone
  work m hm hone := by
    have hne : m ≠ c := fun heq => hc (heq ▸ hm)
    rw [dropped_refcount, Function.update_of_ne hne] at hone
    exact h.work m (List.mem_cons_of_mem c hm) hone

/-- A release ends if it does not come to the directories whose lists are not considered. -/
theorem release_ends {freed : Node → Prop} {work : List Node} {t : Tree Node}
    (h : Releasing t ex work) (hs : Spreads t freed work) (hex : ∀ d, ex d → ¬ freed d) :
    ∃ t', t.release work = some t' ∧ ∀ m, t.Live m → ¬ t'.Live m → freed m := by
  have hdead : ∀ t : Tree Node, ∀ c rest, Spreads t freed (c :: rest) → ∀ t' : Tree Node,
      (∀ m, (dropped t c).Live m → ¬ t'.Live m → freed m) →
        ∀ m, t.Live m → ¬ t'.Live m → freed m := by
    intro t c rest hs t' hlater m hlive hgone
    by_cases hstill : (dropped t c).Live m
    · exact hlater m hstill hgone
    · obtain rfl : m = c := by
        by_contra hne
        exact hstill ((dropped_live_of_ne t c hne).mpr hlive)
      apply hs.work m List.mem_cons_self
      unfold Tree.Live at hlive hstill
      rw [dropped_refcount, Function.update_self] at hstill
      omega
  induction t, work using Tree.release.induct with
  | case1 t => exact ⟨t, release_nil t, fun m hlive hgone => absurd hlive hgone⟩
  | case2 t c rest t₁ hdies hnone =>
    have hfreed : freed c := hs.work c List.mem_cons_self hdies.1
    obtain ⟨l, hl, -⟩ := h.frees hdies.1 hdies.2 fun hexc => hex c hexc hfreed
    exact absurd (hl.symm.trans hnone) (by simp)
  | case3 t c rest t₁ hdies l hl ih =>
    have hfreed : freed c := hs.work c List.mem_cons_self hdies.1
    obtain ⟨l', hl', hnext, hchild⟩ := h.frees hdies.1 hdies.2 fun hexc => hex c hexc hfreed
    obtain rfl : l' = l := Option.some.inj (hl'.symm.trans hl)
    have hrest := hs.dropped (List.nodup_cons.mp h.nodup).1
    obtain ⟨t', hrun, hlater⟩ := ih hnext
      { child := hrest.child
        work := fun m hm hone => by
          rcases List.mem_append.mp hm with hm | hm
          · obtain ⟨hp, hne⟩ := hchild m hm
            refine hrest.child m c ?_ hfreed hone
            rw [dropped_parent, Function.update_of_ne hne]
            exact hp
          · exact hrest.work m hm hone }
    rw [release_frees hdies.1 hdies.2 hl]
    exact ⟨t', hrun, hdead t c rest hs t' hlater⟩
  | case4 t c rest t₁ hkeep ih =>
    obtain ⟨t', hrun, hlater⟩ := ih (h.keeps hkeep) (hs.dropped (List.nodup_cons.mp h.nodup).1)
    rw [release_keeps hkeep]
    exact ⟨t', hrun, hdead t c rest hs t' hlater⟩

section Unref

variable {n : Node}

/-- There are more references. -/
theorem unref_eq_decr (hmore : ¬ (t.refcount n = 1 ∧ t.isDir n = true)) :
    t.unref n = some (t.decr n) := by
  simp only [Tree.unref, hmore, if_false]

/-- The last reference: the children get released. -/
theorem Settled.frees (h : Settled t ex) (howned : t.Owned n) (hone : t.refcount n = 1)
    (hdir : t.isDir n = true) (hex : ¬ ex n) :
    ∃ l, (t.decr n).childList n = some l ∧ Releasing (t.decr n) ex l ∧
      ∀ m ∈ l, t.parent m = some n := by
  have hlive : t.Live n := by
    unfold Tree.Live
    omega
  have hdetached : t.parent n = none := by
    by_contra hattached
    have hheld := Tree.one_le_held hattached
    unfold Tree.Owned at howned
    omega
  have hdead : ¬ (t.decr n).Live n := by
    unfold Tree.Live
    rw [decr_refcount_self]
    omega
  have hlives : ∀ d ≠ n, (t.decr n).Live d ↔ t.Live d := fun d hne => by
    unfold Tree.Live
    rw [decr_refcount_of_ne hne]
  obtain ⟨l, hchain, hmem⟩ := h.lists n hlive hdir hex
  refine ⟨l, childList_eq hchain,
    { lists := fun d hlive' hdir' hex' => ?_
      parentLive := fun m d hp => ?_
      parentDir := fun m d hp => (h.parents m d hp).2
      held := decr_held_le h.held howned
      nodup := hchain.nodup
      orphans := fun m hm => ⟨n, ((hmem m).mp hm).1, hdead⟩ },
    fun m hm => ((hmem m).mp hm).1⟩
  · exact h.lists d ((decays_decr t n).live hlive') hdir' hex'
  · rcases eq_or_ne d n with rfl | hne
    · rcases eq_or_ne m d with rfl | hne'
      · exact absurd (hdetached.symm.trans hp) (by simp)
      · exact Or.inr ((hmem m).mpr ⟨hp, hne'⟩)
    · exact Or.inl ((hlives d hne).mpr (h.parents m d hp).1)

theorem unref_frees (hone : t.refcount n = 1) (hdir : t.isDir n = true) {l : List Node}
    (hl : (t.decr n).childList n = some l) : t.unref n = (t.decr n).release l := by
  simp only [Tree.unref, hone, hdir, and_self, if_true, hl]

theorem unref_refcount_le {t' : Tree Node} (hrun : t.unref n = some t') (m : Node) :
    t'.refcount m ≤ (t.decr n).refcount m := by
  by_cases hdies : t.refcount n = 1 ∧ t.isDir n = true
  · cases hl : (t.decr n).childList n with
    | none => simp [Tree.unref, hdies, hl] at hrun
    | some l =>
      rw [unref_frees hdies.1 hdies.2 hl] at hrun
      exact release_refcount_le hrun m
  · rw [unref_eq_decr hdies] at hrun
    cases hrun
    exact Nat.le_refl _

theorem unref_freed {t' : Tree Node} (hrun : t.unref n = some t') (hone : t.refcount n = 1) :
    ¬ t'.Live n := by
  have hle := unref_refcount_le hrun n
  rw [decr_refcount_self, hone] at hle
  unfold Tree.Live
  omega

/-- An own reference may be given away if the directories whose lists are not considered
survive. -/
theorem released_of_unref {t' : Tree Node} (h : Settled t ex) (howned : t.Owned n)
    (hrun : t.unref n = some t') (hex : ∀ d, ex d → t'.Live d) : Released t t' := by
  by_cases hdies : t.refcount n = 1 ∧ t.isDir n = true
  · have hnex : ¬ ex n := fun hexn => unref_freed hrun hdies.1 (hex n hexn)
    obtain ⟨l, hl, hnext, -⟩ := h.frees howned hdies.1 hdies.2 hnex
    rw [unref_frees hdies.1 hdies.2 hl] at hrun
    have hrest := released_of_release hnext hrun hex
    exact { (decays_decr t n).trans hrest.toDecays with
      parentLive := hrest.parentLive
      held := hrest.held }
  · rw [unref_eq_decr hdies] at hrun
    cases hrun
    exact released_decr h howned hdies

/-- The given away reference is the only one which had not been counted as needed. -/
theorem unref_slack {t' : Tree Node} (h : Settled t ex) (howned : t.Owned n)
    (hrun : t.unref n = some t') (hex : ∀ d, ex d → t'.Live d) (m : Node) :
    t'.held m + t.refcount m = t.held m + t'.refcount m + if m = n then 1 else 0 := by
  have hfirst : (t.decr n).refcount m + (if m = n then 1 else 0) = t.refcount m := by
    unfold Tree.Owned at howned
    rcases eq_or_ne m n with rfl | hne
    · rw [decr_refcount_self, if_pos rfl]
      omega
    · rw [decr_refcount_of_ne hne, if_neg hne, Nat.add_zero]
  by_cases hdies : t.refcount n = 1 ∧ t.isDir n = true
  · have hnex : ¬ ex n := fun hexn => unref_freed hrun hdies.1 (hex n hexn)
    obtain ⟨l, hl, hnext, -⟩ := h.frees howned hdies.1 hdies.2 hnex
    rw [unref_frees hdies.1 hdies.2 hl] at hrun
    have hrest := release_slack hnext hrun hex m
    rw [decr_held] at hrest
    omega
  · rw [unref_eq_decr hdies] at hrun
    cases hrun
    rw [decr_held]
    omega

/-- The nodes which lose their last reference if the first one loses a reference. -/
inductive FreedWith (t : Tree Node) (n : Node) : Node → Prop where
  | self (last : t.refcount n = 1) : FreedWith t n n
  | child {m d : Node} (parent : t.parent m = some d) (freed : FreedWith t n d)
      (last : t.refcount m = 1) : FreedWith t n m

/-- The release of an own reference ends if the directories whose lists are not considered
do not get freed with it. -/
theorem unref_ends (h : Settled t ex) (howned : t.Owned n)
    (hex : ∀ d, ex d → ¬ FreedWith t n d) :
    ∃ t', t.unref n = some t' ∧ ∀ m, t.Live m → ¬ t'.Live m → FreedWith t n m := by
  have hother : ∀ m ≠ n, (t.decr n).refcount m = t.refcount m := fun m hne =>
    decr_refcount_of_ne hne
  by_cases hdies : t.refcount n = 1 ∧ t.isDir n = true
  · have hself : FreedWith t n n := .self hdies.1
    have hdetached : t.parent n = none := by
      by_contra hattached
      have hheld := Tree.one_le_held hattached
      unfold Tree.Owned at howned
      omega
    have hne : ∀ m d, t.parent m = some d → m ≠ n := by
      rintro m d hp rfl
      simp [hdetached] at hp
    obtain ⟨l, hl, hnext, hchild⟩ := h.frees howned hdies.1 hdies.2 fun hexn => hex n hexn hself
    have hspreads : Spreads (t.decr n) (FreedWith t n) l :=
      { child := fun m d hp hfreed hone => .child hp hfreed (hother m (hne m d hp) ▸ hone)
        work := fun m hm hone =>
          .child (hchild m hm) hself (hother m (hne m n (hchild m hm)) ▸ hone) }
    obtain ⟨t', hrun, hlater⟩ := release_ends hnext hspreads hex
    refine ⟨t', (unref_frees hdies.1 hdies.2 hl).trans hrun, fun m hlive hgone => ?_⟩
    rcases eq_or_ne m n with rfl | hmn
    · exact hself
    · apply hlater m _ hgone
      unfold Tree.Live
      rw [hother m hmn]
      exact hlive
  · refine ⟨_, unref_eq_decr hdies, fun m hlive hgone => ?_⟩
    unfold Tree.Live at hlive hgone
    rcases eq_or_ne m n with rfl | hmn
    · rw [decr_refcount_self] at hgone
      exact .self (by omega)
    · rw [hother m hmn] at hgone
      exact absurd hlive hgone

/-- A release in an order of all directories. -/
theorem released_unref (h : Settled t fun _ => False) (howned : t.Owned n) :
    ∃ t', t.unref n = some t' ∧ Released t t' := by
  obtain ⟨t', hrun, -⟩ := unref_ends h howned fun _ => False.elim
  exact ⟨t', hrun, released_of_unref h howned hrun fun _ => False.elim⟩

end Unref

end Release

end DirTree
