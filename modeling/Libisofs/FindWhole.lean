import Libisofs.FindIterators
import Libisofs.Lib.Cursors
import Libisofs.Lib.TreeOrder

/-!
# Find iterators in a tree at rest

Which nodes an iterator has still to return: its next node, what its secondary iterator has
still to return, and the matching nodes in the trees of the children ahead. Each step takes
the first one away, so that a whole iteration returns the matching descendants in tree order.
-/

namespace FindIterators

open Cursors TreeOrder Unrollings
open SymlinkTarget (Bytes)

variable {Node : Type} [DecidableEq Node] {t : Image Node} {m : Node → Bool}

/-- The lists of children make a forest which knows its parents. -/
structure Linked (t : Image Node) : Prop where
  forest : IsForest t.children
  parent : ∀ {d n : Node}, n ∈ t.children d → t.parent n = some d
  files : ∀ {d : Node}, t.isDir d = false → t.children d = []

/-- The matching nodes below a node. -/
noncomputable def hitsBelow (t : Image Node) (m : Node → Bool) (d : Node) : List Node :=
  (below t.children d).filter m

/-- The matching nodes in the trees of some nodes. -/
noncomputable def hitsIn (t : Image Node) (m : Node → Bool) (nodes : List Node) : List Node :=
  (listed t.children nodes).filter m

/-- The nodes which an iterator has still to return. -/
inductive Pending (t : Image Node) (m : Node → Bool) :
    FindIterData Node → List (FindIterData Node) → List Node → Prop where
  | done {data : FindIterData Node} {passed : List Node}
      (stands : Stands data.pos passed [] (t.children data.dir)) (current : data.current = none)
      (err : data.err = none) (iterDir : data.iterDir = some data.dir) : Pending t m data [] []
  | direct {data : FindIterData Node} {passed ahead : List Node} {c : Node}
      (stands : Stands data.pos (passed ++ [c]) ahead (t.children data.dir))
      (current : data.current = some c) (err : data.err = none)
      (iterDir : data.iterDir = t.parent c) (prev : data.prev ≠ some c) (hit : m c = true) :
      Pending t m data [] (c :: (hitsBelow t m c ++ hitsIn t m ahead))
  | nested {data sec : FindIterData Node} {itersec : List (FindIterData Node)}
      {passed ahead before rest : List Node} {c : Node}
      (stands : Stands data.pos (passed ++ [sec.dir]) ahead (t.children data.dir))
      (current : data.current = some c) (err : data.err = none)
      (iterDir : data.iterDir = t.parent c) (prev : data.prev ≠ some c)
      (inner : Pending t m sec itersec rest)
      (order : hitsBelow t m sec.dir = before ++ c :: rest) :
      Pending t m data (sec :: itersec) (c :: (rest ++ hitsIn t m ahead))

/-- An iterator which is going to get its next node. -/
inductive Poised (t : Image Node) (m : Node → Bool) (data : FindIterData Node) :
    List (FindIterData Node) → List Node → Prop where
  | alone {passed ahead : List Node} (stands : Stands data.pos passed ahead (t.children data.dir)) :
      Poised t m data [] (hitsIn t m ahead)
  | nested {sec : FindIterData Node} {itersec : List (FindIterData Node)}
      {passed ahead before rest : List Node}
      (stands : Stands data.pos (passed ++ [sec.dir]) ahead (t.children data.dir))
      (inner : Pending t m sec itersec rest)
      (order : hitsBelow t m sec.dir = before ++ rest) :
      Poised t m data (sec :: itersec) (rest ++ hitsIn t m ahead)

def fetched : List Node → Fetched Node
  | [] => .ended
  | n :: _ => .node n

/-- The next node has been fetched. -/
structure Advanced (t : Image Node) (m : Node → Bool) (data : FindIterData Node)
    (nodes : List Node) (r : Fetched Node × FindIter Node) : Prop where
  fetched : r.1 = fetched nodes
  moved : ∃ pos, r.2.data = { data with pos := pos }
  pending : Pending t m (r.2.data.record t r.1) r.2.itersec nodes

section Hits

omit [DecidableEq Node]

@[simp]
theorem hitsIn_nil : hitsIn t m [] = [] := rfl

theorem hitsIn_cons (c : Node) (nodes : List Node) :
    hitsIn t m (c :: nodes) = [c].filter m ++ (hitsBelow t m c ++ hitsIn t m nodes) := by
  rw [hitsIn, listed_cons, List.cons_append, ← List.singleton_append, List.filter_append,
    List.filter_append, hitsBelow, hitsIn]

theorem hitsIn_append (nodes nodes' : List Node) :
    hitsIn t m (nodes ++ nodes') = hitsIn t m nodes ++ hitsIn t m nodes' := by
  rw [hitsIn, listed_append, List.filter_append, hitsIn, hitsIn]

namespace Linked

variable (linked : Linked t)

include linked

theorem hitsBelow_eq (d : Node) : hitsBelow t m d = hitsIn t m (t.children d) :=
  congrArg (List.filter m) (linked.forest.below_eq d)

theorem mem_hitsBelow {d n : Node} :
    n ∈ hitsBelow t m d ↔ Descends t.children d n ∧ m n = true := by
  rw [hitsBelow, List.mem_filter, linked.forest.mem_below]

theorem hitsBelow_file {d : Node} (hfile : t.isDir d = false) : hitsBelow t m d = [] := by
  rw [linked.hitsBelow_eq, linked.files hfile, hitsIn_nil]

theorem hitsBelow_nodup (d : Node) : (hitsBelow t m d).Nodup :=
  (linked.forest.below_nodup d).filter m

/-- The trees of the children which have been passed come first. -/
theorem hitsBelow_of_stands {pos : Option Node} {passed ahead : List Node} {d c : Node}
    (stands : Stands pos (passed ++ [c]) ahead (t.children d)) :
    hitsBelow t m d
      = hitsIn t m passed ++ ([c].filter m ++ (hitsBelow t m c ++ hitsIn t m ahead)) := by
  rw [linked.hitsBelow_eq, stands.list, List.append_assoc, hitsIn_append, List.singleton_append,
    hitsIn_cons]

end Linked

end Hits

namespace Pending

variable {data : FindIterData Node} {itersec : List (FindIterData Node)} {nodes : List Node}

omit [DecidableEq Node]

theorem current_eq (h : Pending t m data itersec nodes) : data.current = nodes.head? := by
  cases h with
  | done _ current => exact current
  | direct _ current => exact current
  | nested _ current => exact current

theorem err_eq (h : Pending t m data itersec nodes) : data.err = none := by
  cases h with
  | done _ _ err => exact err
  | direct _ _ err => exact err
  | nested _ _ err => exact err

/-- They are the last ones of all. -/
theorem suffix (linked : Linked t) (h : Pending t m data itersec nodes) :
    ∃ before, hitsBelow t m data.dir = before ++ nodes := by
  cases h with
  | done => exact ⟨_, (List.append_nil _).symm⟩
  | @direct _ passed ahead c stands _ _ _ _ hit =>
    refine ⟨hitsIn t m passed, ?_⟩
    rw [linked.hitsBelow_of_stands stands, List.filter_cons_of_pos hit, List.filter_nil,
      List.singleton_append]
  | @nested _ sec _ passed ahead before rest c stands _ _ _ _ _ order =>
    refine ⟨hitsIn t m passed ++ ([sec.dir].filter m ++ before), ?_⟩
    rw [linked.hitsBelow_of_stands stands, order]
    simp only [List.append_assoc, List.cons_append]

theorem nodup (linked : Linked t) (h : Pending t m data itersec nodes) : nodes.Nodup := by
  obtain ⟨before, hsplit⟩ := h.suffix linked
  have hnodup := linked.hitsBelow_nodup (m := m) data.dir
  rw [hsplit, List.nodup_append] at hnodup
  exact hnodup.2.1

theorem head_not_mem_tail (linked : Linked t) (h : Pending t m data itersec nodes) {n : Node}
    (hhead : nodes.head? = some n) : n ∉ nodes.tail := by
  have hnodup := h.nodup linked
  rw [List.eq_cons_of_mem_head? hhead, List.nodup_cons] at hnodup
  exact hnodup.1

end Pending

section Fuel

variable {data sec : FindIterData Node} {itersec : List (FindIterData Node)} {it : FindIter Node}
  {r : Fetched Node × FindIter Node} {n : Node} {pos : Option Node}

theorem stable_getNext (t : Image Node) (m : Node → Bool) (it : FindIter Node) :
    Stable fun k => getNext t m k it := fun k => (fuel_extends t m k).1 it

theorem stable_nextChild (t : Image Node) (m : Node → Bool) (data : FindIterData Node) :
    Stable fun k => nextChild t m k data := fun k => (fuel_extends t m k).2.1 data

theorem stable_updateNext (t : Image Node) (m : Node → Bool) (it : FindIter Node) :
    Stable fun k => updateNext t m k it := fun k => (fuel_extends t m k).2.2.1 it

theorem stable_findIterNext (t : Image Node) (m : Node → Bool) (it : FindIter Node) :
    Stable fun k => findIterNext t m k it := fun k => (fuel_extends t m k).2.2.2.1 it

theorem stable_isoDirFindChildren (t : Image Node) (m : Node → Bool) (dir : Node) :
    Stable fun k => isoDirFindChildren t m k dir := fun k => (fuel_extends t m k).2.2.2.2 dir

/-- The result comes out one step later. -/
theorem gives_of_succ {α : Type} {f g : Unrolling α} {r : α} (hsucc : ∀ k, f (k + 1) = g k)
    (h : Gives g r) : Gives f r := by
  obtain ⟨k, hk⟩ := h
  exact ⟨k + 1, (hsucc k).trans hk⟩

/-- The second computation starts from the result of the first one. -/
theorem gives_bind_of {α β : Type} {f : Unrolling α} {g : α → Unrolling β} {a : α} {b : β}
    (hf : Stable f) (hg : ∀ a, Stable (g a)) (ha : Gives f a) (hb : Gives (g a) b) :
    Gives (fun k => (f k).bind fun a => g a k) b := (gives_bind hf hg).mpr ⟨a, ha, hb⟩

theorem gives_map {α β : Type} {f : Unrolling α} {a : α} (g : α → β) (h : Gives f a) :
    Gives (fun k => (f k).map g) (g a) := by
  obtain ⟨k, hk⟩ := h
  exact ⟨k, Option.map_eq_some_iff.mpr ⟨a, hk, rfl⟩⟩

theorem gives_findIterNext (it : FindIter Node) {it' : FindIter Node} (herr : it.data.err = none)
    (h : Gives (fun k => updateNext t m k it) it') :
    Gives (fun k => findIterNext t m k it)
      (match it.data.current with
        | none => .ended
        | some n => .node n, it') := by
  refine gives_of_succ (g := fun k => (updateNext t m k it).map _) (fun k => ?_) (gives_map _ h)
  rw [findIterNext]
  split
  · next hsome => exact absurd (herr.symm.trans hsome) (Option.some_ne_none _).symm
  · rfl

theorem gives_getNext_alone (h : Gives (fun k => nextChild t m k data) r) :
    Gives (fun k => getNext t m k ⟨data, []⟩) r := gives_of_succ (fun _ => rfl) h

/-- What the secondary iterator has to return is returned first. -/
theorem gives_getNext_node (h : Gives (fun k => findIterNext t m k ⟨sec, itersec⟩) (.node n, it)) :
    Gives (fun k => getNext t m k ⟨data, sec :: itersec⟩)
      (.node n, ⟨data, it.data :: it.itersec⟩) := by
  obtain ⟨k, hk⟩ := h
  refine ⟨k + 1, ?_⟩
  dsimp only at hk ⊢
  rw [getNext, hk, Option.bind_some]

theorem gives_getNext_ended (h : Gives (fun k => findIterNext t m k ⟨sec, itersec⟩) (.ended, it))
    (hnext : Gives (fun k => nextChild t m k data) r) :
    Gives (fun k => getNext t m k ⟨data, sec :: itersec⟩) r := by
  obtain ⟨i, hi⟩ := h
  obtain ⟨j, hj⟩ := hnext
  refine ⟨max i j + 1, ?_⟩
  have hi' := (stable_findIterNext t m _).of_le (Nat.le_max_left i j) hi
  have hj' := (stable_nextChild t m _).of_le (Nat.le_max_right i j) hj
  dsimp only at hi' hj' ⊢
  rw [getNext, hi', Option.bind_some]
  exact hj'

theorem gives_nextChild_hit (hiter : t.iterNext data.dir data.pos = (.node n, pos))
    (hit : m n = true) :
    Gives (fun k => nextChild t m k data) (.node n, ⟨{ data with pos := pos }, []⟩) := by
  refine ⟨1, ?_⟩
  dsimp only
  rw [nextChild, hiter]
  exact if_pos hit

theorem gives_nextChild_ended (hiter : t.iterNext data.dir data.pos = (.ended, pos)) :
    Gives (fun k => nextChild t m k data) (.ended, ⟨{ data with pos := pos }, []⟩) := by
  refine ⟨1, ?_⟩
  dsimp only
  rw [nextChild, hiter]

theorem gives_nextChild_file (hiter : t.iterNext data.dir data.pos = (.node n, pos))
    (hno : m n = false) (hfile : t.isDir n = false)
    (h : Gives (fun k => nextChild t m k { data with pos := pos }) r) :
    Gives (fun k => nextChild t m k data) r := by
  refine gives_of_succ (fun k => ?_) h
  rw [nextChild, hiter]
  simp [hno, hfile]

theorem gives_nextChild_dir (hiter : t.iterNext data.dir data.pos = (.node n, pos))
    (hno : m n = false) (hdir : t.isDir n = true)
    (hopen : Gives (fun k => isoDirFindChildren t m k n) it)
    (h : Gives (fun k => getNext t m k ⟨{ data with pos := pos }, it.data :: it.itersec⟩) r) :
    Gives (fun k => nextChild t m k data) r := by
  refine gives_of_succ (fun k => ?_) (gives_bind_of (stable_isoDirFindChildren t m n)
    (fun it : FindIter Node =>
      stable_getNext t m ⟨{ data with pos := pos }, it.data :: it.itersec⟩) hopen h)
  rw [nextChild, hiter]
  simp [hno, hdir]

/-- With a secondary iterator, or without a current node, nothing gets opened. -/
theorem gives_updateNext_plain (hplain : itersec = [] → data.current = none)
    (h : Gives (fun k => getNext t m k ⟨{ data with prev := data.current }, itersec⟩) r) :
    Gives (fun k => updateNext t m k ⟨data, itersec⟩) ⟨r.2.data.record t r.1, r.2.itersec⟩ := by
  refine gives_of_succ (fun k => ?_) (gives_map
    (fun r : Fetched Node × FindIter Node =>
      (⟨r.2.data.record t r.1, r.2.itersec⟩ : FindIter Node)) h)
  rcases itersec with _ | ⟨sec, itersec⟩
  · rcases data with ⟨dir, iterDir, pos, current, prev, err⟩
    obtain rfl : current = none := hplain rfl
    rfl
  · rfl

theorem gives_updateNext_file (hcurrent : data.current = some n) (hfile : t.isDir n = false)
    (h : Gives (fun k => getNext t m k ⟨{ data with prev := data.current }, []⟩) r) :
    Gives (fun k => updateNext t m k ⟨data, []⟩) ⟨r.2.data.record t r.1, r.2.itersec⟩ := by
  refine gives_of_succ (fun k => ?_) (gives_map
    (fun r : Fetched Node × FindIter Node =>
      (⟨r.2.data.record t r.1, r.2.itersec⟩ : FindIter Node)) h)
  rcases data with ⟨dir, iterDir, pos, current, prev, err⟩
  obtain rfl : current = some n := hcurrent
  simp only [updateNext, hfile, Bool.false_eq_true, if_false, Option.bind_some]

theorem gives_updateNext_dir (hcurrent : data.current = some n) (hdir : t.isDir n = true)
    (hopen : Gives (fun k => isoDirFindChildren t m k n) it)
    (h : Gives (fun k => getNext t m k
      ⟨{ data with prev := data.current }, it.data :: it.itersec⟩) r) :
    Gives (fun k => updateNext t m k ⟨data, []⟩) ⟨r.2.data.record t r.1, r.2.itersec⟩ := by
  obtain ⟨i, hi⟩ := hopen
  obtain ⟨j, hj⟩ := h
  refine ⟨max i j + 1, ?_⟩
  have hi' := (stable_isoDirFindChildren t m _).of_le (Nat.le_max_left i j) hi
  have hj' := (stable_getNext t m _).of_le (Nat.le_max_right i j) hj
  dsimp only at hi' hj' ⊢
  rcases data with ⟨dir, iterDir, pos, current, prev, err⟩
  obtain rfl : current = some n := hcurrent
  simp only [updateNext, hdir, if_true, hi', hj', Option.map_some, Option.bind_some]

end Fuel

section Children

variable {d n : Node} {pos : Option Node} {passed ahead : List Node}

theorem after_append {l l' : List Node} (hn : n ∉ l) : after n (l ++ n :: l') = l' := by
  induction l with
  | nil => simp [after]
  | cons x l ih =>
    obtain ⟨hne, hrest⟩ : n ≠ x ∧ n ∉ l := by simpa using hn
    rw [List.cons_append, after, if_neg (Ne.symm hne), ih hrest]

theorem iterNext_spec (linked : Linked t) (stands : Stands pos passed ahead (t.children d)) :
    t.iterNext d pos = (fetched ahead, ahead.head?.or pos) := by
  rcases List.eq_nil_or_concat' passed with rfl | ⟨l, p, rfl⟩
  · obtain rfl : pos = none := stands.pos
    have hlist : t.children d = ahead := stands.list
    rw [Image.iterNext, hlist]
    cases ahead with
    | nil => rfl
    | cons n ahead => rfl
  · obtain rfl : pos = some p := by simpa using stands.pos
    have hlist : t.children d = l ++ p :: ahead := by simpa using stands.list
    have hp : p ∈ t.children d := by simp [hlist]
    have hnodup := linked.forest.nodup d
    rw [hlist, List.nodup_append] at hnodup
    have hnot : p ∉ l := fun h => hnodup.2.2 p h p List.mem_cons_self rfl
    rw [Image.iterNext, if_neg (fun h => h (linked.parent hp)), hlist, after_append hnot]
    cases ahead with
    | nil => rfl
    | cons n ahead => rfl

end Children

/-- A find iterator of the directory can be opened. -/
def OpensRight (t : Image Node) (m : Node → Bool) (d : Node) : Prop :=
  ∃ it, Gives (fun k => isoDirFindChildren t m k d) it ∧ it.data.dir = d ∧
    Pending t m it.data it.itersec (hitsBelow t m d)

/-- Each update of a find iterator of the directory takes the first node away. -/
def UpdatesRight (t : Image Node) (m : Node → Bool) (d : Node) : Prop :=
  ∀ data itersec nodes, data.dir = d → Pending t m data itersec nodes →
    ∃ it, Gives (fun k => updateNext t m k ⟨data, itersec⟩) it ∧ it.data.dir = d ∧
      it.data.prev = data.current ∧ Pending t m it.data it.itersec nodes.tail

section Spec

variable {data : FindIterData Node} {nodes passed ahead : List Node}

/-- Behind the secondary iterator come the children ahead. -/
theorem getNext_nested (data : FindIterData Node) {sec : FindIterData Node}
    {itersec : List (FindIterData Node)} {before rest : List Node}
    (hupdate : UpdatesRight t m sec.dir)
    (stands : Stands data.pos (passed ++ [sec.dir]) ahead (t.children data.dir))
    (inner : Pending t m sec itersec rest) (order : hitsBelow t m sec.dir = before ++ rest)
    (hprev : ∀ x ∈ rest, data.prev ≠ some x)
    (hnext : ∃ r, Gives (fun k => nextChild t m k data) r ∧
      Advanced t m data (hitsIn t m ahead) r) :
    ∃ r, Gives (fun k => getNext t m k ⟨data, sec :: itersec⟩) r ∧
      Advanced t m data (rest ++ hitsIn t m ahead) r := by
  obtain ⟨it, hgives, hdir, -, hpending⟩ := hupdate sec itersec rest rfl inner
  have hfind := gives_findIterNext ⟨sec, itersec⟩ inner.err_eq hgives
  simp only [inner.current_eq] at hfind
  cases rest with
  | nil =>
    obtain ⟨r, hr, hadvanced⟩ := hnext
    exact ⟨r, gives_getNext_ended hfind hr, hadvanced⟩
  | cons c rest =>
    refine ⟨_, gives_getNext_node hfind, rfl, ⟨data.pos, rfl⟩, ?_⟩
    rw [← hdir] at stands order
    exact .nested stands rfl rfl rfl (hprev c List.mem_cons_self) hpending order

theorem nextChild_spec (data : FindIterData Node) (linked : Linked t)
    (hchildren : ∀ c ∈ t.children data.dir, OpensRight t m c ∧ UpdatesRight t m c)
    (stands : Stands data.pos passed ahead (t.children data.dir))
    (hprev : ∀ x ∈ hitsIn t m ahead, data.prev ≠ some x) :
    ∃ r, Gives (fun k => nextChild t m k data) r ∧
      Advanced t m data (hitsIn t m ahead) r := by
  induction ahead generalizing data passed with
  | nil =>
    refine ⟨_, gives_nextChild_ended (iterNext_spec linked stands), rfl, ⟨_, rfl⟩, ?_⟩
    exact .done stands rfl rfl rfl
  | cons n ahead ih =>
    have hiter := iterNext_spec linked stands
    have hstands : Stands (some n) (passed ++ [n]) ahead (t.children data.dir) :=
      ⟨by simp [stands.list], by simp⟩
    rw [hitsIn_cons] at hprev ⊢
    have hrest := ih { data with pos := some n } hchildren hstands fun x hx =>
      hprev x (List.mem_append_right _ (List.mem_append_right _ hx))
    have hn : n ∈ t.children data.dir := by simp [stands.list]
    cases hit : m n with
    | true =>
      rw [List.filter_cons_of_pos hit] at hprev ⊢
      refine ⟨_, gives_nextChild_hit hiter hit, rfl, ⟨_, rfl⟩, ?_⟩
      exact .direct hstands rfl rfl rfl (hprev n List.mem_cons_self) hit
    | false =>
      rw [List.filter_cons_of_neg (by simp [hit]), List.filter_nil, List.nil_append] at hprev ⊢
      cases hdir : t.isDir n with
      | false =>
        obtain ⟨r, hr, hadvanced⟩ := hrest
        rw [linked.hitsBelow_file hdir]
        exact ⟨r, gives_nextChild_file hiter hit hdir hr, hadvanced.fetched, hadvanced.moved,
          hadvanced.pending⟩
      | true =>
        obtain ⟨⟨it, hopen, hitdir, hpending⟩, hupdate⟩ := hchildren n hn
        subst hitdir
        obtain ⟨r, hr, hadvanced⟩ := getNext_nested { data with pos := some it.data.dir }
          hupdate hstands hpending (List.nil_append _).symm
          (fun x hx => hprev x (List.mem_append_left _ hx)) hrest
        exact ⟨r, gives_nextChild_dir hiter hit hdir hopen hr, hadvanced.fetched, hadvanced.moved,
          hadvanced.pending⟩

theorem getNext_spec (data : FindIterData Node) (linked : Linked t)
    {itersec : List (FindIterData Node)}
    (hchildren : ∀ c ∈ t.children data.dir, OpensRight t m c ∧ UpdatesRight t m c)
    (poised : Poised t m data itersec nodes) (hprev : ∀ x ∈ nodes, data.prev ≠ some x) :
    ∃ r, Gives (fun k => getNext t m k ⟨data, itersec⟩) r ∧ Advanced t m data nodes r := by
  cases poised with
  | alone stands =>
    obtain ⟨r, hr, hadvanced⟩ := nextChild_spec _ linked hchildren stands hprev
    exact ⟨r, gives_getNext_alone hr, hadvanced⟩
  | @nested sec itersec passed ahead before rest stands inner order =>
    have hsec : sec.dir ∈ t.children data.dir := by simp [stands.list]
    exact getNext_nested _ (hchildren _ hsec).2 stands inner order
      (fun x hx => hprev x (List.mem_append_left _ hx))
      (nextChild_spec _ linked hchildren stands fun x hx => hprev x (List.mem_append_right _ hx))

/-- Children being right, an update is right. -/
theorem updatesRight_of_children (linked : Linked t) {d : Node}
    (hchildren : ∀ c ∈ t.children d, OpensRight t m c ∧ UpdatesRight t m c) :
    UpdatesRight t m d := by
  rintro data itersec nodes rfl pending
  have hdone {r : Fetched Node × FindIter Node} {nodes : List Node}
      (h : Advanced t m { data with prev := data.current } nodes r) :
      (r.2.data.record t r.1).dir = data.dir ∧
        (r.2.data.record t r.1).prev = data.current := by
    obtain ⟨pos, hpos⟩ := h.moved
    rw [hpos]
    cases r.1 <;> exact ⟨rfl, rfl⟩
  have hprev : ∀ x ∈ nodes.tail, data.current ≠ some x := fun x hx h => by
    rw [pending.current_eq] at h
    exact pending.head_not_mem_tail linked h hx
  cases pending with
  | @done _ passed stands current =>
    obtain ⟨r, hr, hadvanced⟩ := getNext_spec { data with prev := data.current } linked
      hchildren (.alone stands) hprev
    exact ⟨_, gives_updateNext_plain (fun _ => current) hr, (hdone hadvanced).1,
      (hdone hadvanced).2, hadvanced.pending⟩
  | @direct _ passed ahead c stands current err iterDir prev hit =>
    have hc : c ∈ t.children data.dir := by simp [stands.list]
    cases hdir : t.isDir c with
    | false =>
      obtain ⟨r, hr, hadvanced⟩ := getNext_spec { data with prev := data.current } linked
        hchildren (.alone stands) fun x hx => hprev x (List.mem_append_right _ hx)
      refine ⟨_, gives_updateNext_file current hdir hr, (hdone hadvanced).1,
        (hdone hadvanced).2, ?_⟩
      rw [linked.hitsBelow_file hdir]
      exact hadvanced.pending
    | true =>
      obtain ⟨⟨it, hopen, hitdir, hpending⟩, -⟩ := hchildren c hc
      subst hitdir
      have hpoised : Poised t m { data with prev := data.current } (it.data :: it.itersec)
          (hitsBelow t m it.data.dir ++ hitsIn t m ahead) :=
        .nested stands hpending (List.nil_append _).symm
      obtain ⟨r, hr, hadvanced⟩ := getNext_spec { data with prev := data.current } linked
        hchildren hpoised hprev
      exact ⟨_, gives_updateNext_dir current hdir hopen hr, (hdone hadvanced).1,
        (hdone hadvanced).2, hadvanced.pending⟩
  | @nested _ sec itersec passed ahead before rest c stands current err iterDir prev inner order =>
    have hpoised : Poised t m { data with prev := data.current } (sec :: itersec)
        (rest ++ hitsIn t m ahead) :=
      .nested stands inner (order.trans (List.append_cons before c rest))
    obtain ⟨r, hr, hadvanced⟩ := getNext_spec { data with prev := data.current } linked
      hchildren hpoised hprev
    refine ⟨_, gives_updateNext_plain (fun h => ?_) hr, (hdone hadvanced).1,
      (hdone hadvanced).2, hadvanced.pending⟩
    exact absurd h (List.cons_ne_nil _ _)

theorem opensRight_of_children (linked : Linked t) {d : Node}
    (hchildren : ∀ c ∈ t.children d, OpensRight t m c ∧ UpdatesRight t m c) :
    OpensRight t m d := by
  have hpoised : Poised t m { newData d with prev := none } [] (hitsIn t m (t.children d)) :=
    .alone ⟨(List.nil_append _).symm, rfl⟩
  obtain ⟨r, hr, hadvanced⟩ := getNext_spec { newData d with prev := none } linked
    hchildren hpoised fun x _ => (Option.some_ne_none x).symm
  refine ⟨_, gives_of_succ (fun _ => rfl) (gives_updateNext_plain (fun _ => rfl) hr), ?_, ?_⟩
  · obtain ⟨pos, hpos⟩ := hadvanced.moved
    dsimp only
    rw [hpos]
    cases r.1 <;> rfl
  · rw [linked.hitsBelow_eq]
    exact hadvanced.pending

/-- Find iterators of all directories are right. -/
theorem right_everywhere (linked : Linked t) (m : Node → Bool) (d : Node) :
    OpensRight t m d ∧ UpdatesRight t m d := by
  induction d using linked.forest.grounded.induction with
  | _ d ih =>
    exact ⟨opensRight_of_children linked ih, updatesRight_of_children linked ih⟩

theorem findIterNext_spec (linked : Linked t) {itersec : List (FindIterData Node)}
    (pending : Pending t m data itersec nodes) :
    ∃ it, Gives (fun k => findIterNext t m k ⟨data, itersec⟩) (fetched nodes, it) ∧
      it.data.dir = data.dir ∧ it.data.prev = nodes.head? ∧
      Pending t m it.data it.itersec nodes.tail := by
  obtain ⟨it, hgives, hdir, hprev, hpending⟩ :=
    (right_everywhere linked m data.dir).2 data itersec nodes rfl pending
  have hfind := gives_findIterNext ⟨data, itersec⟩ pending.err_eq hgives
  refine ⟨it, ?_, hdir, hprev.trans pending.current_eq, hpending⟩
  simp only [pending.current_eq] at hfind
  cases nodes with
  | nil => exact hfind
  | cons n nodes => exact hfind

theorem stable_iterateToEnd (t : Image Node) (m : Node → Bool) (it : FindIter Node) :
    Stable fun k => iterateToEnd t m k it := by
  intro k
  induction k generalizing it with
  | zero =>
    intro r h
    cases h
  | succ k ih =>
    refine Extends.bind (stable_findIterNext t m it k) fun r => ?_
    rcases r with ⟨n | _ | _, it'⟩
    · exact Extends.map _ (ih it')
    · exact .refl _
    · exact .refl _

/-- An iteration returns what is pending. -/
theorem iterateToEnd_spec (linked : Linked t) {itersec : List (FindIterData Node)}
    (pending : Pending t m data itersec nodes) :
    Gives (fun k => iterateToEnd t m k ⟨data, itersec⟩) nodes := by
  induction nodes generalizing data itersec with
  | nil =>
    obtain ⟨it, ⟨k, hk⟩, -⟩ := findIterNext_spec linked pending
    refine ⟨k + 1, ?_⟩
    dsimp only at hk ⊢
    rw [iterateToEnd, hk]
    rfl
  | cons n nodes ih =>
    obtain ⟨it, ⟨i, hi⟩, -, -, hpending⟩ := findIterNext_spec linked pending
    obtain ⟨j, hj⟩ := ih hpending
    refine ⟨max i j + 1, ?_⟩
    have hi' := (stable_findIterNext t m _).of_le (Nat.le_max_left i j) hi
    have hj' := (stable_iterateToEnd t m _).of_le (Nat.le_max_right i j) hj
    dsimp only at hi' hj' ⊢
    rw [iterateToEnd, hi']
    simp [fetched, hj']

theorem findAll_spec (linked : Linked t) (m : Node → Bool) (d : Node) :
    Gives (fun k => findAll t m k d) (hitsBelow t m d) := by
  obtain ⟨it, hopen, -, hpending⟩ := (right_everywhere linked m d).1
  exact gives_bind_of (stable_isoDirFindChildren t m d) (stable_iterateToEnd t m) hopen
    (iterateToEnd_spec linked hpending)

end Spec

/-- The nodes are the matching descendants of the directory, each once, parents before their
descendants, and siblings in the order of their list. -/
structure Enumerates (t : Image Node) (m : Node → Bool) (dir : Node) (nodes : List Node) :
    Prop where
  nodup : nodes.Nodup
  mem : ∀ n, n ∈ nodes ↔ Descends t.children dir n ∧ m n = true
  parents : nodes.Pairwise fun a b => ¬ Descends t.children b a
  siblings : ∀ d, Within t.children dir d → ((t.children d).filter m).Sublist nodes

omit [DecidableEq Node] in
theorem enumerates_hitsBelow (linked : Linked t) (m : Node → Bool) (dir : Node) :
    Enumerates t m dir (hitsBelow t m dir) where
  nodup := linked.hitsBelow_nodup dir
  mem _ := linked.mem_hitsBelow
  parents := (linked.forest.below_pairwise dir).sublist List.filter_sublist
  siblings _ hd := (linked.forest.children_sublist hd).filter m

theorem stable_findAll (t : Image Node) (m : Node → Bool) (dir : Node) :
    Stable fun k => findAll t m k dir :=
  (stable_isoDirFindChildren t m dir).bind (stable_iterateToEnd t m)

/-- An iteration to the end returns all matching descendants. -/
theorem find_children_enumerates (fnmatch : (pattern string : Bytes) → Int)
    (attributes : Node → Attributes) (cond : FindCondition) (linked : Linked t) (dir : Node) :
    ∃ nodes, Enumerates t (fun n => condMatches fnmatch (attributes n) cond) dir nodes ∧
      ∃ fuel, ∀ k ≥ fuel,
        findAll t (fun n => condMatches fnmatch (attributes n) cond) k dir = some nodes := by
  refine ⟨_, enumerates_hitsBelow linked _ dir, ?_⟩
  obtain ⟨fuel, hfuel⟩ := findAll_spec linked
    (fun n => condMatches fnmatch (attributes n) cond) dir
  exact ⟨fuel, fun k hk => (stable_findAll t _ dir).of_le hk hfuel⟩

local instance neZero_twoLevels : NeZero 3 := ⟨by decide⟩

/-- A directory in the root, and a file in it. -/
def twoLevels : Image (Fin 3) where
  children n := if n = 0 then [1] else if n = 1 then [2] else []
  parent n := if n = 2 then some 1 else some 0
  isDir n := n ≠ 2

theorem linked_twoLevels : Linked twoLevels where
  forest := isForest_of_rank (fun n => 2 - n.val) (by decide) (by decide) (by decide)
  parent := by decide
  files := by decide

example : findAll twoLevels (fun n => n ≠ 1) 9 0 = some [2] := by decide +kernel

theorem twoLevels_enumerated :
    ∃ nodes, Enumerates twoLevels
        (fun n => condMatches (fun pattern string => if pattern = string then 0 else 1)
          ⟨[n.val.toUInt8], 0, 0, 0, 0, 0, 0⟩ (.or (.name [1]) (.not (.uid 1)))) 0 nodes ∧
      ∃ fuel, ∀ k ≥ fuel, findAll twoLevels
        (fun n => condMatches (fun pattern string => if pattern = string then 0 else 1)
          ⟨[n.val.toUInt8], 0, 0, 0, 0, 0, 0⟩ (.or (.name [1]) (.not (.uid 1)))) k 0
          = some nodes :=
  find_children_enumerates _ (fun n => ⟨[n.val.toUInt8], 0, 0, 0, 0, 0, 0⟩) _ linked_twoLevels 0

end FindIterators
