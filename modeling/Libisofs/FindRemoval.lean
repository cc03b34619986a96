import Libisofs.FindWhole

/-!
# Find iterators in a tree from which nodes are taken

A find iterator learns that a node leaves if this is its next node, or if its iterator of
children is at it. It does not learn that an ancestor of its next node leaves. As long as no
such ancestor leaves, each notification removes from the pending nodes those which leave.
-/

namespace FindIterators

open Cursors TreeOrder Unrollings
open DirTree (IsoError)

variable {Node : Type} [DecidableEq Node] {t t' : Image Node} {m : Node → Bool} {n c d : Node}

section Trees

theorem children_take (linked : Linked t) (n d : Node) :
    (t.take n).children d = (t.children d).erase n := by
  change (if t.parent n = some d then (t.children d).erase n else t.children d) = _
  split
  case isTrue => rfl
  case isFalse h => exact (List.erase_of_not_mem fun hn => h (linked.parent hn)).symm

theorem leaves_take (linked : Linked t) (n : Node) :
    Leaves t.children (t.take n).children n where
  forest := linked.forest
  sublist d := by
    rw [children_take linked]
    exact List.erase_sublist
  outside d _ := children_take linked n d

theorem not_mem_children_take (linked : Linked t) (n d : Node) : n ∉ (t.take n).children d := by
  rw [children_take linked]
  exact (linked.forest.nodup d).not_mem_erase

theorem Linked.take (linked : Linked t) (n : Node) : Linked (t.take n) where
  forest := (leaves_take linked n).forest'
  parent {d x} hx := by
    have hne : x ≠ n := by
      rintro rfl
      exact not_mem_children_take linked x d hx
    exact (if_neg hne).trans (linked.parent (((leaves_take linked n).sublist d).subset hx))
  files {d} hd := by
    rw [children_take linked, linked.files hd]
    rfl

theorem Linked.unlink (linked : Linked t) (n : Node) : Linked (t.unlink n) where
  forest := (leaves_take linked n).forest'
  parent {d _} hx := linked.parent (((leaves_take linked n).sublist d).subset hx)
  files hd := (linked.take n).files hd

/-- The list is shortened once, whoever does it. -/
theorem take_unlink (linked : Linked t) (n : Node) : (t.unlink n).take n = t.take n := by
  refine Image.ext ?_ rfl rfl
  funext d
  rw [children_take (linked.unlink n)]
  exact List.erase_of_not_mem (not_mem_children_take linked n d)

omit [DecidableEq Node] in
theorem hitsIn_congr {nodes : List Node} (linked : Linked t) (linked' : Linked t')
    (hchildren : ∀ s ∈ nodes, ∀ a, Within t.children s a → t'.children a = t.children a) :
    hitsIn t' m nodes = hitsIn t m nodes := by
  refine congrArg (List.filter m) (List.flatMap_congr fun s hs => congrArg (s :: ·) ?_)
  exact below_congr linked.forest linked'.forest (hchildren s hs)

omit [DecidableEq Node] in
/-- Only the tree of the searched directory matters. -/
theorem Pending.congr {data : FindIterData Node} {itersec : List (FindIterData Node)}
    {nodes : List Node} (linked : Linked t) (linked' : Linked t')
    (pending : Pending t m data itersec nodes)
    (hchildren : ∀ a, Within t.children data.dir a → t'.children a = t.children a)
    (hparent : ∀ x, Descends t.children data.dir x → t'.parent x = t.parent x) :
    Pending t' m data itersec nodes := by
  have hbelow {c : Node} {dir : Node} (hc : c ∈ t.children dir)
      (hsame : ∀ a, Within t.children dir a → t'.children a = t.children a) :
      ∀ a, Within t.children c a → t'.children a = t.children a := fun a ha =>
    hsame a ((Descends.child hc).within.trans ha)
  induction pending with
  | @done data passed stands current err iterDir =>
    rw [← hchildren data.dir .refl] at stands
    exact .done stands current err iterDir
  | @direct data passed ahead c stands current err iterDir prev hit =>
    have hc : c ∈ t.children data.dir := by simp [stands.list]
    have hahead : hitsIn t' m ahead = hitsIn t m ahead := by
      refine hitsIn_congr linked linked' fun s hs => ?_
      exact hbelow (by simp [stands.list, hs]) hchildren
    have hhits : hitsBelow t' m c = hitsBelow t m c :=
      congrArg (List.filter m) (below_congr linked.forest linked'.forest (hbelow hc hchildren))
    rw [← hchildren data.dir .refl] at stands
    rw [← hahead, ← hhits]
    exact .direct stands current err (iterDir.trans (hparent c (.child hc)).symm) prev hit
  | @nested data sec itersec passed ahead before rest c stands current err iterDir prev inner
      order ih =>
    have hsec : sec.dir ∈ t.children data.dir := by simp [stands.list]
    have hc : c ∈ hitsBelow t m sec.dir := by simp [order]
    have hahead : hitsIn t' m ahead = hitsIn t m ahead := by
      refine hitsIn_congr linked linked' fun s hs => ?_
      exact hbelow (by simp [stands.list, hs]) hchildren
    have hhits : hitsBelow t' m sec.dir = hitsBelow t m sec.dir :=
      congrArg (List.filter m) (below_congr linked.forest linked'.forest (hbelow hsec hchildren))
    have hinner := ih (hbelow hsec hchildren) fun x hx =>
      hparent x ((Descends.child hsec).trans_within hx.within)
    have hup := hparent c ((Descends.child hsec).trans_within (linked.mem_hitsBelow.mp hc).1.within)
    rw [← hchildren data.dir .refl] at stands
    rw [← hahead]
    exact .nested stands current err (iterDir.trans hup.symm) prev hinner (hhits.trans order)

end Trees

section Leaving

variable {data sec : FindIterData Node} {itersec : List (FindIterData Node)}
  {nodes passed ahead before rest : List Node}

theorem hitsBelow_take (linked : Linked t) (hc : ¬ Within t.children n c) :
    hitsBelow (t.take n) m c = stay t.children n (hitsBelow t m c) := by
  rw [hitsBelow, (leaves_take linked n).below_eq hc, hitsBelow, stay_filter]

theorem hitsIn_take (linked : Linked t) (hd : ¬ Within t.children n d)
    (hnodes : nodes.Sublist (t.children d)) :
    hitsIn (t.take n) m (nodes.erase n) = stay t.children n (hitsIn t m nodes) := by
  rw [hitsIn, (leaves_take linked n).listed_eq hd hnodes, hitsIn, stay_filter]

omit [DecidableEq Node] in
theorem stands_ahead (stands : Stands data.pos passed ahead (t.children d)) :
    ahead.Sublist (t.children d) := by
  rw [stands.list]
  exact List.sublist_append_right passed ahead

theorem stands_take (linked : Linked t) {pos : Option Node}
    (stands : Stands pos (passed ++ [c]) ahead (t.children d)) (hne : c ≠ n) :
    Stands pos (passed.erase n ++ [c]) (ahead.erase n) ((t.take n).children d) := by
  rw [children_take linked]
  exact stands.erase hne (linked.forest.nodup d)

theorem parent_take (hne : c ≠ n) : (t.take n).parent c = t.parent c := if_neg hne

/-- A next node which stays, found by the iterator of children. -/
theorem pending_direct_take (linked : Linked t) (hout : ¬ Within t.children n data.dir)
    (stands : Stands data.pos (passed ++ [c]) ahead (t.children data.dir))
    (current : data.current = some c) (err : data.err = none)
    (iterDir : data.iterDir = t.parent c) (prev : data.prev ≠ some c) (hit : m c = true)
    (hc : ¬ Within t.children n c) :
    Pending (t.take n) m data []
      (stay t.children n (c :: (hitsBelow t m c ++ hitsIn t m ahead))) := by
  have hne : c ≠ n := fun h => hc (h ▸ .refl)
  rw [stay_cons_of_not _ hc, stay_append, ← hitsBelow_take linked hc,
    ← hitsIn_take linked hout (stands_ahead stands)]
  exact .direct (stands_take linked stands hne) current err
    (iterDir.trans (parent_take hne).symm) prev hit

/-- A next node which stays, found by the secondary iterator. -/
theorem pending_nested_take (linked : Linked t) (hout : ¬ Within t.children n data.dir)
    (stands : Stands data.pos (passed ++ [sec.dir]) ahead (t.children data.dir))
    (current : data.current = some c) (err : data.err = none)
    (iterDir : data.iterDir = t.parent c) (prev : data.prev ≠ some c)
    (inner : Pending (t.take n) m sec itersec (stay t.children n rest))
    (order : hitsBelow t m sec.dir = before ++ c :: rest) (hc : ¬ Within t.children n c) :
    Pending (t.take n) m data (sec :: itersec)
      (stay t.children n (c :: (rest ++ hitsIn t m ahead))) := by
  have hmem : c ∈ hitsBelow t m sec.dir := by simp [order]
  have hbelow : Descends t.children sec.dir c := (linked.mem_hitsBelow.mp hmem).1
  have hne : c ≠ n := fun h => hc (h ▸ .refl)
  have hsec : ¬ Within t.children n sec.dir := fun h => hc (h.trans hbelow.within)
  have hsecne : sec.dir ≠ n := fun h => hsec (h ▸ .refl)
  have horder : hitsBelow (t.take n) m sec.dir
      = stay t.children n before ++ c :: stay t.children n rest := by
    rw [hitsBelow_take linked hsec, order, stay_append, stay_cons_of_not _ hc]
  rw [stay_cons_of_not _ hc, stay_append, ← hitsIn_take linked hout (stands_ahead stands)]
  exact .nested (stands_take linked stands hsecne) current err
    (iterDir.trans (parent_take hne).symm) prev inner horder

end Leaving

section Notifications

variable {data sec : FindIterData Node} {itersec : List (FindIterData Node)}
  {nodes passed ahead before rest : List Node}

/-- An iterator of children at another node does nothing. -/
theorem notifyChildren_away (t : Image Node) {data : FindIterData Node}
    (hpos : data.pos ≠ some n) : notifyChildren t data n = (t, data) := by
  have hsame : iterNotifyChildTaken t data n = (t, data) := if_neg fun h => hpos h.1
  rw [notifyChildren, hsame, ite_self]

/-- A find iterator with another next node forgets at most its previous node. -/
theorem notifyFind_quiet (t : Image Node) (m : Node → Bool) {it : FindIter Node}
    (hcurrent : it.data.current ≠ some n) :
    ∃ prev, (prev = none ∨ prev = it.data.prev) ∧
      ∀ k, notifyFind m t k it n = some ⟨{ it.data with prev := prev }, it.itersec⟩ := by
  by_cases hcalled : it.data.iterDir = t.parent n ∧ it.data.prev = some n
  · refine ⟨none, Or.inl rfl, fun k => ?_⟩
    rw [notifyFind, if_pos hcalled.1, findNotifyChildTaken, if_pos hcalled.2]
  · refine ⟨_, Or.inr rfl, fun k => ?_⟩
    rw [notifyFind, findNotifyChildTaken, if_neg hcurrent]
    split
    case isTrue h => exact if_neg fun hprev => hcalled ⟨h, hprev⟩
    case isFalse => rfl

theorem stable_notifyIter (m : Node → Bool) (t : Image Node) (it : FindIter Node) (n : Node) :
    Stable fun k => notifyIter m t k it n := by
  intro k
  refine Extends.map _ ?_
  rw [notifyFind, notifyFind, findNotifyChildTaken, findNotifyChildTaken]
  split
  · split
    · exact .refl _
    · split
      · exact stable_updateNext t m _ k
      · exact .refl _
  · exact .refl _

theorem stable_isoNotifyDirIters (m : Node → Bool) (t : Image Node) (n : Node)
    (data : FindIterData Node) (itersec : List (FindIterData Node)) :
    Stable fun k => isoNotifyDirIters m t k n data itersec := by
  induction itersec generalizing data with
  | nil => exact stable_notifyIter m t _ n
  | cons sec itersec ih =>
    exact (ih sec).bind fun r => stable_notifyIter m r.1 ⟨data, r.2.data :: r.2.itersec⟩ n

theorem gives_notifyIter_quiet (t : Image Node) (m : Node → Bool) (it : FindIter Node)
    (hcurrent : it.data.current ≠ some n) :
    ∃ prev, (prev = none ∨ prev = it.data.prev) ∧
      Gives (fun k => notifyIter m t k it n)
        ((notifyChildren t { it.data with prev := prev } n).1,
          ⟨(notifyChildren t { it.data with prev := prev } n).2, it.itersec⟩) := by
  obtain ⟨prev, hprev, hfind⟩ := notifyFind_quiet t m hcurrent
  refine ⟨prev, hprev, 0, ?_⟩
  dsimp only
  rw [notifyIter, hfind 0]
  rfl

/-- A find iterator loses its next node and gets another one. -/
theorem gives_notifyIter_current {it : FindIter Node} (hiterDir : data.iterDir = t.parent n)
    (hprev : data.prev ≠ some n) (hcurrent : data.current = some n)
    (h : Gives (fun k => updateNext t m k ⟨{ data with current := none }, itersec⟩) it) :
    Gives (fun k => notifyIter m t k ⟨data, itersec⟩ n)
      ((notifyChildren t it.data n).1, ⟨(notifyChildren t it.data n).2, it.itersec⟩) := by
  obtain ⟨k, hk⟩ := h
  refine ⟨k, ?_⟩
  have hfind : notifyFind m t k ⟨data, itersec⟩ n = some it := by
    rw [notifyFind, if_pos hiterDir, findNotifyChildTaken, if_neg hprev, if_pos hcurrent]
    exact hk
  dsimp only
  rw [notifyIter, hfind]
  rfl

theorem updateNext_restart (linked : Linked t)
    (poised : Poised t m { data with prev := none, current := none } itersec nodes) :
    ∃ it, Gives (fun k => updateNext t m k ⟨{ data with current := none }, itersec⟩) it ∧
      it.data.dir = data.dir ∧ Pending t m it.data it.itersec nodes := by
  obtain ⟨r, hr, hadvanced⟩ := getNext_spec _ linked (fun c _ => right_everywhere linked m c)
    poised fun x _ => (Option.some_ne_none x).symm
  refine ⟨_, gives_updateNext_plain (fun _ => rfl) hr, ?_, hadvanced.pending⟩
  obtain ⟨pos, hpos⟩ := hadvanced.moved
  dsimp only
  rw [hpos]
  cases r.1 <;> rfl

/-- The last node of an exhausted iterator of children leaves. -/
theorem notifyChildren_done (linked : Linked t) (pending : Pending t m data [] []) (n : Node) :
    ∃ pos, (notifyChildren t data n).2 = { data with pos := pos } ∧
      Pending (t.take n) m (notifyChildren t data n).2 [] [] ∧
      (data.pos ≠ some n ∧ (notifyChildren t data n).1 = t ∨
        (notifyChildren t data n).1 = t.unlink n) := by
  cases pending with
  | @done _ passed stands current err iterDir =>
    by_cases hpos : data.pos = some n
    · have hn : n ∈ t.children data.dir := by
        rw [hpos] at stands
        rw [stands.list, List.append_nil]
        exact List.mem_of_getLast? stands.pos.symm
      have hnotify : notifyChildren t data n = (t.unlink n,
          { data with pos := ((t.children data.dir).takeWhile (· ≠ n)).getLast? }) := by
        rw [notifyChildren, if_pos (linked.parent hn), iterNotifyChildTaken, if_pos ⟨hpos, hn⟩]
      rw [hpos] at stands
      have hstands := stands.erase_last (linked.forest.nodup data.dir)
      rw [← children_take linked] at hstands
      rw [hnotify]
      exact ⟨_, rfl, .done hstands current err iterDir, Or.inr rfl⟩
    · rw [notifyChildren_away _ hpos]
      refine ⟨data.pos, rfl, ?_, Or.inl ⟨hpos, rfl⟩⟩
      rcases List.eq_nil_or_concat' passed with rfl | ⟨l, c, rfl⟩
      · have hempty : (t.take n).children data.dir = [] := by
          rw [children_take linked, stands.list]
          rfl
        exact .done ⟨hempty, stands.pos⟩ current err iterDir
      · have hc : c ≠ n := fun h => hpos (by simp [stands.pos, h])
        exact .done (stands_take linked stands hc) current err iterDir

omit [DecidableEq Node] in
/-- A matching node which has been returned is not the position of an exhausted secondary
iterator, if its primary one has another next node. -/
theorem done_away (linked : Linked t) (hit : m n = true) (pending : Pending t m data [] [])
    (order : hitsBelow t m data.dir = before ++ [c]) (hc : ¬ Within t.children n c) :
    data.pos ≠ some n := by
  intro hpos
  cases pending with
  | @done _ passed stands =>
    rw [hpos] at stands
    obtain ⟨l, rfl⟩ := List.getLast?_eq_some_iff.mp stands.pos.symm
    rw [linked.hitsBelow_of_stands stands, List.filter_cons_of_pos hit, hitsIn_nil,
      List.append_nil] at order
    have hlast : c ∈ [n] ++ hitsBelow t m n := by
      have hne : [n] ++ hitsBelow t m n ≠ [] := by simp
      have hgetLast := congrArg List.getLast? order
      rw [List.getLast?_concat, List.filter_nil, List.getLast?_append_of_ne_nil _ hne] at hgetLast
      exact List.mem_of_getLast? hgetLast
    rcases List.mem_append.mp hlast with hsame | hbelow
    · exact hc (List.mem_singleton.mp hsame ▸ .refl)
    · exact hc (linked.mem_hitsBelow.mp hbelow).1.within

/-- The nodes which the iterators have ready. -/
def lookahead (data : FindIterData Node) (itersec : List (FindIterData Node)) : List Node :=
  (data :: itersec).filterMap fun data => data.current

/-- A secondary iterator which has got ready for what follows on the leaving node. -/
theorem pending_inner_take (linked : Linked t) (hit : m n = true)
    (pending : Pending t m data itersec nodes) (hout : ¬ Within t.children n data.dir)
    (hnodes : ∀ x ∈ nodes, ¬ Within t.children n x)
    (order : hitsBelow t m data.dir = before ++ c :: nodes) (hc : ¬ Within t.children n c) :
    Pending (t.take n) m data itersec nodes := by
  induction pending generalizing c before with
  | @done data passed stands current err iterDir =>
    have hdone : Pending t m data [] [] := .done stands current err iterDir
    obtain ⟨pos, -, htake, -⟩ := notifyChildren_done linked hdone n
    rw [notifyChildren_away _ (done_away linked hit hdone order hc)] at htake
    exact htake
  | @direct data passed ahead c' stands current err iterDir prev hit' =>
    have htake := pending_direct_take linked hout stands current err iterDir prev hit'
      (hnodes c' List.mem_cons_self)
    rwa [stay_eq_self hnodes] at htake
  | @nested data sec itersec passed ahead before' rest c' stands current err iterDir prev inner
      order' ih =>
    have hc' := hnodes c' List.mem_cons_self
    have hrest : ∀ x ∈ rest, ¬ Within t.children n x := fun x hx =>
      hnodes x (List.mem_cons_of_mem _ (List.mem_append_left _ hx))
    have hmem : c' ∈ hitsBelow t m sec.dir := by simp [order']
    have hsec : ¬ Within t.children n sec.dir := fun h =>
      hc' (h.trans (linked.mem_hitsBelow.mp hmem).1.within)
    have hinner := ih hsec hrest order' hc'
    rw [← stay_eq_self hrest] at hinner
    have htake := pending_nested_take linked hout stands current err iterDir prev hinner order' hc'
    rwa [stay_eq_self hnodes] at htake

/-- The iterator of children behind the update which its find iterator made on notice. -/
theorem notifyChildren_updated (linked : Linked t) (hit : m n = true)
    (pending : Pending t m data itersec nodes) (hout : ¬ Within t.children n data.dir)
    (hnodes : ∀ x ∈ nodes, ¬ Within t.children n x) :
    ∃ pos, (notifyChildren t data n).2 = { data with pos := pos } ∧
      Pending (t.take n) m (notifyChildren t data n).2 itersec nodes ∧
      ((notifyChildren t data n).1 = t ∨ (notifyChildren t data n).1 = t.unlink n) := by
  have haway (hpos : data.pos ≠ some n) (htake : Pending (t.take n) m data itersec nodes) :
      ∃ pos, (notifyChildren t data n).2 = { data with pos := pos } ∧
        Pending (t.take n) m (notifyChildren t data n).2 itersec nodes ∧
        ((notifyChildren t data n).1 = t ∨ (notifyChildren t data n).1 = t.unlink n) := by
    rw [notifyChildren_away _ hpos]
    exact ⟨_, rfl, htake, Or.inl rfl⟩
  cases pending with
  | done stands current err iterDir =>
    obtain ⟨pos, hpos, htake, htree⟩ :=
      notifyChildren_done linked (.done stands current err iterDir) n
    exact ⟨pos, hpos, htake, htree.imp_left And.right⟩
  | @direct _ passed ahead c stands current err iterDir prev hit' =>
    have hc := hnodes c List.mem_cons_self
    have htake := pending_direct_take linked hout stands current err iterDir prev hit' hc
    rw [stay_eq_self hnodes] at htake
    refine haway (fun hpos => hc ?_) htake
    have : c = n := by simpa [stands.pos] using hpos
    exact this ▸ .refl
  | @nested _ sec itersec passed ahead before rest c stands current err iterDir prev inner order =>
    have hc := hnodes c List.mem_cons_self
    have hrest : ∀ x ∈ rest, ¬ Within t.children n x := fun x hx =>
      hnodes x (List.mem_cons_of_mem _ (List.mem_append_left _ hx))
    have hmem : c ∈ hitsBelow t m sec.dir := by simp [order]
    have hsec : ¬ Within t.children n sec.dir := fun h =>
      hc (h.trans (linked.mem_hitsBelow.mp hmem).1.within)
    have hinner := pending_inner_take linked hit inner hsec hrest order hc
    rw [← stay_eq_self hrest] at hinner
    have htake := pending_nested_take linked hout stands current err iterDir prev hinner order hc
    rw [stay_eq_self hnodes] at htake
    refine haway (fun hpos => hsec ?_) htake
    have : sec.dir = n := by simpa [stands.pos] using hpos
    exact this ▸ .refl

omit [DecidableEq Node] in
/-- Behind a leaving next node, which has no ready nodes below it, comes nothing from its
tree. -/
theorem rest_away (linked : Linked t) {dir : Node} (order : hitsBelow t m dir = before ++ n :: rest)
    (hready : ∀ c, rest.head? = some c → ¬ Descends t.children n c) :
    ∀ x ∈ rest, ¬ Within t.children n x := by
  have hmem : n ∈ hitsBelow t m dir := by simp [order]
  have hnodup := linked.hitsBelow_nodup (m := m) dir
  obtain ⟨front, after, hsplit⟩ := linked.forest.below_split (linked.mem_hitsBelow.mp hmem).1
  have hhits : hitsBelow t m dir
      = front.filter m ++ n :: (hitsBelow t m n ++ after.filter m) := by
    rw [hitsBelow, hsplit, List.append_assoc, List.filter_append, List.cons_append,
      List.filter_cons_of_pos (linked.mem_hitsBelow.mp hmem).2, List.filter_append, hitsBelow]
  rw [order, List.nodup_append, List.nodup_cons] at hnodup
  have hbefore : n ∉ before := fun hn => hnodup.2.2 n hn n List.mem_cons_self rfl
  have hrest : rest = hitsBelow t m n ++ after.filter m :=
    ((List.append_cons_inj_of_notMem hbefore hnodup.2.1.1).mp (order.symm.trans hhits)).2.2
  have hnone : hitsBelow t m n = [] := by
    cases hbelow : hitsBelow t m n with
    | nil => rfl
    | cons c below =>
      have hc : c ∈ hitsBelow t m n := by simp [hbelow]
      refine absurd (linked.mem_hitsBelow.mp hc).1 (hready c ?_)
      rw [hrest, hbelow]
      rfl
  intro x hx hwithin
  rcases hwithin.eq_or_descends with rfl | hdescends
  · exact hnodup.2.1.1 hx
  · have hall : x ∈ hitsBelow t m dir := by simp [order, hx]
    have hxn := linked.mem_hitsBelow.mpr ⟨hdescends, (linked.mem_hitsBelow.mp hall).2⟩
    rw [hnone] at hxn
    exact List.not_mem_nil hxn

/-- Nodes which have left are in no tree. -/
theorem pending_unlink (linked : Linked t)
    (pending : Pending (t.take n) m data itersec nodes) :
    Pending (t.unlink n) m data itersec nodes := by
  refine pending.congr (linked.take n) (linked.unlink n) (fun _ _ => rfl) fun x hx => ?_
  obtain ⟨p, -, hchild⟩ := hx.exists_parent
  have hne : x ≠ n := fun h => not_mem_children_take linked n p (h ▸ hchild)
  exact (parent_take hne).symm

theorem pending_of_unlink (linked : Linked t)
    (pending : Pending (t.unlink n) m data itersec nodes) :
    Pending (t.take n) m data itersec nodes := by
  refine pending.congr (linked.unlink n) (linked.take n) (fun _ _ => rfl) fun x hx => ?_
  obtain ⟨p, -, hchild⟩ := hx.exists_parent
  have hne : x ≠ n := fun h => not_mem_children_take linked n p (h ▸ hchild)
  exact parent_take hne

omit [DecidableEq Node] in
theorem Pending.pos_mem (pending : Pending t m data itersec nodes) (hpos : data.pos = some n) :
    n ∈ t.children data.dir := by
  have hof {passed ahead : List Node}
      (stands : Stands data.pos passed ahead (t.children data.dir)) :
      n ∈ t.children data.dir := by
    rw [stands.list]
    exact List.mem_append_left _ (List.mem_of_getLast? (stands.pos.symm.trans hpos))
  cases pending with
  | done stands => exact hof stands
  | direct stands => exact hof stands
  | nested stands => exact hof stands

/-- The result of all notifications about a leaving node. -/
structure Notified (t : Image Node) (m : Node → Bool) (n : Node) (dir : Node) (nodes : List Node)
    (r : Image Node × FindIter Node) : Prop where
  dir : r.2.data.dir = dir
  pending : Pending (t.take n) m r.2.data r.2.itersec (stay t.children n nodes)
  tree : r.1 = t ∧ (n ∉ nodes → Pending t m r.2.data r.2.itersec nodes) ∨ r.1 = t.unlink n

/-- The next node leaves, which the iterator of children has found. -/
theorem notified_direct (linked : Linked t) (hout : ¬ Within t.children n data.dir)
    (stands : Stands data.pos (passed ++ [n]) ahead (t.children data.dir))
    (current : data.current = some n) (iterDir : data.iterDir = t.parent n)
    (prev : data.prev ≠ some n) (hit : m n = true) :
    ∃ r, Gives (fun k => isoNotifyDirIters m t k n data []) r ∧
      Notified t m n data.dir (n :: (hitsBelow t m n ++ hitsIn t m ahead)) r := by
  have hn : n ∈ t.children data.dir := by simp [stands.list]
  have hnodes : ∀ x ∈ hitsIn t m ahead, ¬ Within t.children n x := by
    intro x hx hwithin
    obtain ⟨s, hs, hsx⟩ := linked.forest.mem_listed.mp (List.mem_of_mem_filter hx)
    have hsn : n = s := linked.forest.children_apart hn (by simp [stands.list, hs]) hwithin hsx
    have hnodup := linked.forest.nodup data.dir
    rw [stands.list, List.nodup_append] at hnodup
    exact hnodup.2.2 n (by simp) s hs hsn
  have hpoised : Poised t m { data with prev := none, current := none } [] (hitsIn t m ahead) :=
    .alone stands
  obtain ⟨it, hupdate, hdir, hpending⟩ := updateNext_restart linked hpoised
  obtain ⟨pos, hpos, htake, htree⟩ :=
    notifyChildren_updated linked hit hpending (hdir ▸ hout) hnodes
  refine ⟨_, gives_notifyIter_current iterDir prev current hupdate, ?_, ?_, ?_⟩
  · dsimp only
    rw [hpos, ← hdir]
  · have hstay : stay t.children n (n :: (hitsBelow t m n ++ hitsIn t m ahead))
        = hitsIn t m ahead := by
      have hnone : stay t.children n (hitsBelow t m n) = [] := by
        refine List.filter_eq_nil_iff.mpr fun x hx => ?_
        simpa using (linked.mem_hitsBelow.mp hx).1.within
      rw [stay_cons_of_within _ .refl, stay_append, hnone, List.nil_append, stay_eq_self hnodes]
    rw [hstay]
    exact htake
  · exact htree.imp_left fun h => ⟨h, fun hnot => absurd List.mem_cons_self hnot⟩

/-- The notifications of the secondary iterators come first. -/
theorem gives_isoNotifyDirIters {r r' : Image Node × FindIter Node}
    (hinner : Gives (fun k => isoNotifyDirIters m t k n sec itersec) r)
    (hown : Gives (fun k => notifyIter m r.1 k ⟨data, r.2.data :: r.2.itersec⟩ n) r') :
    Gives (fun k => isoNotifyDirIters m t k n data (sec :: itersec)) r' :=
  gives_bind_of (stable_isoNotifyDirIters m t n sec itersec)
    (fun r : Image Node × FindIter Node =>
      stable_notifyIter m r.1 ⟨data, r.2.data :: r.2.itersec⟩ n) hinner hown

/-- The next node leaves, which the secondary iterator has found. -/
theorem notified_nested (linked : Linked t) (hout : ¬ Within t.children n data.dir)
    (stands : Stands data.pos (passed ++ [sec.dir]) ahead (t.children data.dir))
    (current : data.current = some n) (iterDir : data.iterDir = t.parent n)
    (prev : data.prev ≠ some n) (inner : Pending t m sec itersec rest)
    (order : hitsBelow t m sec.dir = before ++ n :: rest)
    (hready : ∀ c ∈ lookahead sec itersec, ¬ Descends t.children n c)
    {r : Image Node × FindIter Node}
    (hinner : Gives (fun k => isoNotifyDirIters m t k n sec itersec) r)
    (notified : Notified t m n sec.dir rest r) :
    ∃ r, Gives (fun k => isoNotifyDirIters m t k n data (sec :: itersec)) r ∧
      Notified t m n data.dir (n :: (rest ++ hitsIn t m ahead)) r := by
  have hmem : n ∈ hitsBelow t m sec.dir := by simp [order]
  obtain ⟨hbelow, hit⟩ := linked.mem_hitsBelow.mp hmem
  have hsec : ¬ Within t.children n sec.dir := fun h =>
    linked.forest.irrefl (h.trans_descends hbelow)
  have hsecne : sec.dir ≠ n := fun h => hsec (h ▸ .refl)
  have hsecmem : sec.dir ∈ t.children data.dir := by simp [stands.list]
  have hrest : ∀ x ∈ rest, ¬ Within t.children n x := by
    refine rest_away linked order fun c hc => hready c ?_
    have hcurrent : sec.current = some c := inner.current_eq.trans hc
    simp [lookahead, hcurrent]
  have hahead : ∀ x ∈ hitsIn t m ahead, ¬ Within t.children n x := by
    intro x hx hwithin
    obtain ⟨s, hs, hsx⟩ := linked.forest.mem_listed.mp (List.mem_of_mem_filter hx)
    have hsmem : s ∈ t.children data.dir := by simp [stands.list, hs]
    have hsame : sec.dir = s :=
      linked.forest.children_apart hsecmem hsmem (hbelow.within.trans hwithin) hsx
    have hnodup := linked.forest.nodup data.dir
    rw [stands.list, List.nodup_append] at hnodup
    exact hnodup.2.2 sec.dir (by simp) s hs hsame
  have hnodes : ∀ x ∈ rest ++ hitsIn t m ahead, ¬ Within t.children n x := by
    intro x hx
    exact (List.mem_append.mp hx).elim (hrest x) (hahead x)
  have hstay : stay t.children n (n :: (rest ++ hitsIn t m ahead)) = rest ++ hitsIn t m ahead := by
    rw [stay_cons_of_within _ .refl, stay_eq_self hnodes]
  obtain ⟨t₁, it₁⟩ := r
  obtain ⟨hdir₁, htake₁, htree₁⟩ := notified
  dsimp only at hdir₁ htake₁ htree₁
  rcases htree₁ with ⟨rfl, hkept⟩ | rfl
  · -- No iterator of children was at the node. It is still in its list during the update.
    have hnrest : n ∉ rest := fun h => hrest n h .refl
    have hpoised : Poised t₁ m { data with prev := none, current := none }
        (it₁.data :: it₁.itersec) (rest ++ hitsIn t₁ m ahead) := by
      rw [← hdir₁] at stands order
      exact .nested stands (hkept hnrest) (order.trans (List.append_cons before n rest))
    obtain ⟨it, hupdate, hdir, hpending⟩ := updateNext_restart linked hpoised
    obtain ⟨pos, hpos, htake, htree⟩ :=
      notifyChildren_updated linked hit hpending (hdir ▸ hout) hnodes
    refine ⟨_, gives_isoNotifyDirIters hinner
      (gives_notifyIter_current iterDir prev current hupdate), ?_, ?_, ?_⟩
    · dsimp only
      rw [hpos, ← hdir]
    · rw [hstay]
      exact htake
    · exact htree.imp_left fun h => ⟨h, fun hnot => absurd List.mem_cons_self hnot⟩
  · -- The node has left its list already, and no iterator can be at it.
    have hstands := stands_take linked stands hsecne
    have horder : hitsBelow (t.unlink n) m sec.dir = stay t.children n before ++ rest := by
      refine (hitsBelow_take linked hsec).trans ?_
      rw [order, stay_append, stay_cons_of_within _ .refl, stay_eq_self hrest]
    have hhits : hitsIn (t.unlink n) m (ahead.erase n) = hitsIn t m ahead :=
      (hitsIn_take linked hout (stands_ahead stands)).trans (stay_eq_self hahead)
    rw [stay_eq_self hrest] at htake₁
    have hpoised : Poised (t.unlink n) m { data with prev := none, current := none }
        (it₁.data :: it₁.itersec) (rest ++ hitsIn (t.unlink n) m (ahead.erase n)) := by
      rw [← hdir₁] at hstands horder
      exact .nested hstands (pending_unlink linked htake₁) horder
    obtain ⟨it, hupdate, hdir, hpending⟩ := updateNext_restart (linked.unlink n) hpoised
    have hpos : it.data.pos ≠ some n := fun h =>
      not_mem_children_take linked n it.data.dir (hpending.pos_mem h)
    refine ⟨_, gives_isoNotifyDirIters hinner
      (gives_notifyIter_current iterDir prev current hupdate), ?_, ?_, ?_⟩
    · dsimp only
      rw [notifyChildren_away _ hpos, hdir]
    · dsimp only
      rw [notifyChildren_away _ hpos, hstay, ← hhits]
      exact pending_of_unlink linked hpending
    · dsimp only
      rw [notifyChildren_away _ hpos]
      exact Or.inr rfl

/-- As long as no ready node is below the leaving node, the pending nodes of its tree get
forgotten, and no others. -/
theorem notified (linked : Linked t) (pending : Pending t m data itersec nodes)
    (hout : ¬ Within t.children n data.dir)
    (hready : ∀ c ∈ lookahead data itersec, ¬ Descends t.children n c) :
    ∃ r, Gives (fun k => isoNotifyDirIters m t k n data itersec) r ∧
      Notified t m n data.dir nodes r := by
  induction pending with
  | @done data passed stands current err iterDir =>
    have hcurrent : data.current ≠ some n := by simp [current]
    obtain ⟨prev, -, hgives⟩ := gives_notifyIter_quiet t m ⟨data, []⟩ hcurrent
    have hdone : Pending t m { data with prev := prev } [] [] :=
      .done stands current err iterDir
    obtain ⟨pos, hpos, htake, htree⟩ := notifyChildren_done linked hdone n
    refine ⟨_, hgives, ?_, htake, ?_⟩
    · dsimp only
      rw [hpos]
    · refine htree.imp_left fun ⟨haway, hsame⟩ => ⟨hsame, fun _ => ?_⟩
      dsimp only
      rw [notifyChildren_away _ haway]
      exact hdone
  | @direct data passed ahead c stands current err iterDir prev hit =>
    by_cases hc : c = n
    · subst hc
      exact notified_direct linked hout stands current iterDir prev hit
    · have hcout : ¬ Within t.children n c := by
        intro h
        rcases h.eq_or_descends with heq | hdescends
        · exact hc heq
        · exact hready c (by simp [lookahead, current]) hdescends
      have hcurrent : data.current ≠ some n := by simp [current, hc]
      obtain ⟨prev', hprev', hgives⟩ := gives_notifyIter_quiet t m ⟨data, []⟩ hcurrent
      have hne : prev' ≠ some c := by
        rcases hprev' with rfl | rfl
        · exact (Option.some_ne_none c).symm
        · exact prev
      have hpos : { data with prev := prev' }.pos ≠ some n := by simp [stands.pos, hc]
      rw [notifyChildren_away t hpos] at hgives
      refine ⟨_, hgives, rfl, ?_, Or.inl ⟨rfl, fun _ => ?_⟩⟩
      · exact pending_direct_take linked hout stands current err iterDir hne hit hcout
      · exact .direct stands current err iterDir hne hit
  | @nested data sec itersec passed ahead before rest c stands current err iterDir prev inner
      order ih =>
    have hmem : c ∈ hitsBelow t m sec.dir := by simp [order]
    have hbelow := (linked.mem_hitsBelow.mp hmem).1
    have hown : ¬ Descends t.children n c := hready c (by simp [lookahead, current])
    have hsec : ¬ Within t.children n sec.dir := fun h => hown (h.trans_descends hbelow)
    have hsecne : sec.dir ≠ n := fun h => hsec (h ▸ .refl)
    have hinnerReady : ∀ c ∈ lookahead sec itersec, ¬ Descends t.children n c := fun x hx =>
      hready x (by simpa [lookahead, current] using Or.inr (by simpa [lookahead] using hx))
    obtain ⟨r, hinner, notified⟩ := ih hsec hinnerReady
    by_cases hc : c = n
    · subst hc
      exact notified_nested linked hout stands current iterDir prev inner order hinnerReady hinner
        notified
    · have hcout : ¬ Within t.children n c := by
        intro h
        exact h.eq_or_descends.elim hc hown
      obtain ⟨t₁, it₁⟩ := r
      have hcurrent : data.current ≠ some n := by simp [current, hc]
      obtain ⟨prev', hprev', hgives⟩ :=
        gives_notifyIter_quiet t₁ m ⟨data, it₁.data :: it₁.itersec⟩ hcurrent
      have hne : prev' ≠ some c := by
        rcases hprev' with rfl | rfl
        · exact (Option.some_ne_none c).symm
        · exact prev
      have hpos : { data with prev := prev' }.pos ≠ some n := by simp [stands.pos, hsecne]
      rw [notifyChildren_away t₁ hpos] at hgives
      obtain ⟨hdir, htake, htree⟩ := notified
      dsimp only at hdir htake htree
      rw [← hdir] at stands order
      refine ⟨_, gives_isoNotifyDirIters hinner hgives, rfl, ?_, ?_⟩
      · exact pending_nested_take linked hout stands current err iterDir hne htake order hcout
      · refine htree.imp_left fun ⟨hsame, hkept⟩ => ⟨hsame, fun hnot => ?_⟩
        have hnrest : n ∉ rest := fun h =>
          hnot (List.mem_cons_of_mem _ (List.mem_append_left _ h))
        exact .nested stands current err iterDir hne (hkept hnrest) order

end Notifications

end FindIterators
