import Libisofs.FindRemoval

/-!
# Runs of a find iterator

Calls for the next node and removals of nodes in any order. Beside the documented purpose of
the iterator stands the reason why it fails: a removal of an ancestor of a node which it has
ready does not reach it. Runs without such removals return what they should.
-/

namespace FindIterators

open Cursors TreeOrder Unrollings
open DirTree (IsoError)
open SymlinkTarget (Bytes)

variable {Node : Type} [DecidableEq Node] {t : Image Node} {m : Node → Bool} {n dir : Node}

/-- Directories get freed which nobody refers to. Their children lose their parent. -/
def Image.free (t : Image Node) (gone : Node → Bool) : Image Node where
  children d := if gone d then [] else t.children d
  parent n :=
    match t.parent n with
    | none => none
    | some d => if gone d then none else some d
  isDir := t.isDir

/-- The nodes to which a find iterator holds references. -/
def FindIter.held (it : FindIter Node) : List Node :=
  (it.data :: it.itersec).flatMap fun data =>
    data.dir :: [data.iterDir, data.pos, data.current, data.prev].filterMap id

/-- What a step of a run shows. With a returned node comes the tree of that moment. -/
inductive Event (Node : Type) where
  | returned (n : Node) (tree : Image Node)
  | ended
  | failed (err : IsoError)
  | changed

def Event.ofFetched (tree : Image Node) : Fetched Node → Event Node
  | .node n => .returned n tree
  | .ended => .ended
  | .failed err => .failed err

def Event.node? : Event Node → Option Node
  | .returned n _ => some n
  | _ => none

/-- The nodes which were returned in a run. -/
def returnedNodes (trace : List (Event Node)) : List Node := trace.filterMap Event.node?

/-- The runs in which removals of nodes happen only in allowed states. -/
inductive Run (m : Node → Bool) (Allowed : State Node → Node → Prop) (t : Image Node)
    (dir : Node) : List (Event Node) → State Node → Prop where
  | start {it : FindIter Node} (opened : Gives (fun k => isoDirFindChildren t m k dir) it) :
      Run m Allowed t dir [] ⟨t, it⟩
  | next {trace : List (Event Node)} {s : State Node} {r : Fetched Node} {it : FindIter Node}
      (run : Run m Allowed t dir trace s)
      (gives : Gives (fun k => findIterNext s.tree m k s.iter) (r, it)) :
      Run m Allowed t dir (trace ++ [Event.ofFetched s.tree r]) ⟨s.tree, it⟩
  | iterTake {trace : List (Event Node)} {s s' : State Node} {err : Option IsoError}
      (run : Run m Allowed t dir trace s)
      (allowed : ∀ n, s.iter.data.prev = some n → Allowed s n)
      (gives : Gives (fun k => findIterTake m k s) (s', err)) :
      Run m Allowed t dir (trace ++ [.changed]) s'
  | nodeTake {trace : List (Event Node)} {s s' : State Node} {n : Node} {err : Option IsoError}
      (run : Run m Allowed t dir trace s) (allowed : Allowed s n)
      (gives : Gives (fun k => isoNodeTake m k s n) (s', err)) :
      Run m Allowed t dir (trace ++ [.changed]) s'
  | free {trace : List (Event Node)} {s : State Node} {gone : Node → Bool}
      (run : Run m Allowed t dir trace s)
      (outside : ∀ n, gone n = true → ¬ Within s.tree.children dir n)
      (free : ∀ n, gone n = true → n ∉ s.iter.held) :
      Run m Allowed t dir (trace ++ [.changed]) ⟨s.tree.free gone, s.iter⟩

/-- No node is removed from the directory while the iterator has a node below it ready. -/
def NothingReadyBelow (dir : Node) (s : State Node) (n : Node) : Prop :=
  Descends s.tree.children dir n →
    ∀ c ∈ lookahead s.iter.data s.iter.itersec, ¬ Descends s.tree.children n c

/-- What the iterator returned is right. A node which is in the tree now has been there all the
time. It was returned once at most, and once if the iteration has come to its end. A call of
the iterator until it returns 0 brings those which are missing. -/
structure FoundOnce (m : Node → Bool) (dir : Node) (trace : List (Event Node)) (s : State Node) :
    Prop where
  right : ∀ n tree, Event.returned n tree ∈ trace → Descends tree.children dir n ∧ m n = true
  noError : ∀ err, Event.failed err ∉ trace
  once : ∀ n, Descends s.tree.children dir n → m n = true → (returnedNodes trace).count n ≤ 1
  all : Event.ended ∈ trace → ∀ n, Descends s.tree.children dir n → m n = true →
    (returnedNodes trace).count n = 1
  rest : ∃ rest, Gives (fun k => iterateToEnd s.tree m k s.iter) rest ∧
    ∀ n, Descends s.tree.children dir n → m n = true → (returnedNodes trace ++ rest).count n = 1

/-- The state of an iteration, with the pending nodes. -/
structure Searching (m : Node → Bool) (dir : Node) (trace : List (Event Node)) (s : State Node)
    (nodes : List Node) : Prop where
  linked : Linked s.tree
  searched : s.iter.data.dir = dir
  pending : Pending s.tree m s.iter.data s.iter.itersec nodes
  right : ∀ n tree, Event.returned n tree ∈ trace → Descends tree.children dir n ∧ m n = true
  noError : ∀ err, Event.failed err ∉ trace
  nodup : (returnedNodes trace).Nodup
  fresh : ∀ n ∈ nodes, n ∉ returnedNodes trace
  covered : ∀ n, Descends s.tree.children dir n → m n = true →
    n ∈ returnedNodes trace ∨ n ∈ nodes
  ended : Event.ended ∈ trace → nodes = []

section Steps

variable {data : FindIterData Node} {itersec : List (FindIterData Node)} {nodes : List Node}

omit [DecidableEq Node] in
theorem Pending.descends (linked : Linked t) (pending : Pending t m data itersec nodes)
    (hn : n ∈ nodes) : Descends t.children data.dir n ∧ m n = true := by
  obtain ⟨before, hsplit⟩ := pending.suffix linked
  exact linked.mem_hitsBelow.mp (hsplit ▸ List.mem_append_right before hn)

/-- A node which is not below the directory leaves unnoticed. -/
theorem notified_outside (linked : Linked t) (pending : Pending t m data itersec nodes)
    (hout : ¬ Descends t.children data.dir n) :
    ∃ it, Gives (fun k => isoNotifyDirIters m t k n data itersec) (t, it) ∧
      it.data.dir = data.dir ∧ Pending t m it.data it.itersec nodes := by
  have hpos {data : FindIterData Node} {itersec : List (FindIterData Node)} {nodes : List Node}
      (pending : Pending t m data itersec nodes) (hout : ¬ Descends t.children data.dir n) :
      data.pos ≠ some n := fun h => hout (.child (pending.pos_mem h))
  have hcur {data : FindIterData Node} {itersec : List (FindIterData Node)} {nodes : List Node}
      (pending : Pending t m data itersec nodes) (hout : ¬ Descends t.children data.dir n) :
      data.current ≠ some n := fun h => by
    rw [pending.current_eq] at h
    exact hout (pending.descends linked (List.mem_of_mem_head? h)).1
  have hforget {prev old : Option Node} {c : Node} (h : prev = none ∨ prev = old)
      (hold : old ≠ some c) : prev ≠ some c := by
    rcases h with rfl | rfl
    · exact (Option.some_ne_none c).symm
    · exact hold
  induction pending with
  | @done data passed stands current err iterDir =>
    have hdone : Pending t m data [] [] := .done stands current err iterDir
    obtain ⟨prev, -, hgives⟩ := gives_notifyIter_quiet t m ⟨data, []⟩ (hcur hdone hout)
    rw [notifyChildren_away t (show { data with prev := prev }.pos ≠ some n from hpos hdone hout)]
      at hgives
    exact ⟨_, hgives, rfl, .done stands current err iterDir⟩
  | @direct data passed ahead c stands current err iterDir prev hit =>
    have hdirect : Pending t m data [] _ := .direct stands current err iterDir prev hit
    obtain ⟨prev', hprev', hgives⟩ := gives_notifyIter_quiet t m ⟨data, []⟩ (hcur hdirect hout)
    rw [notifyChildren_away t
      (show { data with prev := prev' }.pos ≠ some n from hpos hdirect hout)] at hgives
    exact ⟨_, hgives, rfl, .direct stands current err iterDir (hforget hprev' prev) hit⟩
  | @nested data sec itersec passed ahead before rest c stands current err iterDir prev inner
      order ih =>
    have hnested : Pending t m data (sec :: itersec) _ :=
      .nested stands current err iterDir prev inner order
    have hsec : sec.dir ∈ t.children data.dir := by simp [stands.list]
    obtain ⟨it, hinner, hdir, hpending⟩ := ih fun h =>
      hout (.of_child_within hsec h.within)
    obtain ⟨prev', hprev', hgives⟩ :=
      gives_notifyIter_quiet t m ⟨data, it.data :: it.itersec⟩ (hcur hnested hout)
    rw [notifyChildren_away t
      (show { data with prev := prev' }.pos ≠ some n from hpos hnested hout)] at hgives
    rw [← hdir] at stands order
    exact ⟨_, gives_isoNotifyDirIters hinner hgives, rfl,
      .nested stands current err iterDir (hforget hprev' prev) hpending order⟩

/-- The tree got smaller, and the iterator has forgotten the nodes which are gone. -/
structure Shrunk (m : Node → Bool) (dir : Node) (s s' : State Node) (nodes nodes' : List Node) :
    Prop where
  linked : Linked s'.tree
  searched : s'.iter.data.dir = dir
  pending : Pending s'.tree m s'.iter.data s'.iter.itersec nodes'
  subset : ∀ n ∈ nodes', n ∈ nodes
  kept : ∀ n ∈ nodes, Descends s'.tree.children dir n → n ∈ nodes'
  smaller : ∀ n, Descends s'.tree.children dir n → Descends s.tree.children dir n

theorem stable_isoNodeTake (m : Node → Bool) (s : State Node) (n : Node) :
    Stable fun k => isoNodeTake m k s n := by
  intro k
  unfold isoNodeTake
  cases s.tree.parent n with
  | none => exact Extends.refl _
  | some p => exact Extends.map _ (stable_isoNotifyDirIters m s.tree n _ _ k)

theorem isoNodeTake_spec {s : State Node} (linked : Linked s.tree) (hdir : s.iter.data.dir = dir)
    (pending : Pending s.tree m s.iter.data s.iter.itersec nodes)
    (hready : NothingReadyBelow dir s n) :
    ∃ r nodes', Gives (fun k => isoNodeTake m k s n) r ∧ Shrunk m dir s r.1 nodes nodes' := by
  have hsmaller : ∀ x, Descends (s.tree.take n).children dir x → Descends s.tree.children dir x :=
    fun x h => h.mono fun a => ((leaves_take linked n).sublist a).subset
  cases hparent : s.tree.parent n with
  | none =>
    refine ⟨(s, some .nodeNotAddedToDir), nodes, ⟨0, ?_⟩, linked, hdir, pending, fun _ h => h,
      fun _ h _ => h, fun _ h => h⟩
    dsimp only
    rw [isoNodeTake, hparent]
  | some p =>
    have hgives {r : Image Node × FindIter Node}
        (h : Gives (fun k => isoNotifyDirIters m s.tree k n s.iter.data s.iter.itersec) r) :
        Gives (fun k => isoNodeTake m k s n) (⟨r.1.take n, r.2⟩, none) := by
      obtain ⟨k, hk⟩ := h
      refine ⟨k, ?_⟩
      dsimp only at hk ⊢
      rw [isoNodeTake, hparent]
      dsimp only
      rw [hk]
      rfl
    by_cases hbelow : Descends s.tree.children dir n
    · have hout : ¬ Within s.tree.children n s.iter.data.dir := fun h =>
        linked.forest.irrefl (hbelow.trans_within (hdir ▸ h))
      obtain ⟨r, hnotify, notified⟩ := notified linked pending hout (hready hbelow)
      have htree : r.1.take n = s.tree.take n := by
        rcases notified.tree with ⟨heq, -⟩ | heq
        · rw [heq]
        · rw [heq, take_unlink linked]
      have hshrunk : Shrunk m dir s ⟨s.tree.take n, r.2⟩ nodes (stay s.tree.children n nodes) := by
        refine ⟨linked.take n, notified.dir.trans hdir, notified.pending,
          fun x hx => (mem_stay.mp hx).1, fun x hx hx' => ?_, hsmaller⟩
        have hstays : Descends (s.tree.take n).children s.iter.data.dir x := hdir ▸ hx'
        exact mem_stay.mpr ⟨hx, ((leaves_take linked n).descends_iff hout |>.mp hstays).2⟩
      exact ⟨_, _, hgives hnotify, htree ▸ hshrunk⟩
    · obtain ⟨it, hnotify, hitdir, hpending⟩ := notified_outside linked pending (hdir ▸ hbelow)
      refine ⟨_, nodes, hgives hnotify, linked.take n, hitdir.trans hdir, ?_, fun _ h => h,
        fun _ h _ => h, hsmaller⟩
      refine hpending.congr linked (linked.take n) (fun a ha => ?_) fun x hx => ?_
      · rw [children_take linked]
        refine List.erase_of_not_mem fun hn => hbelow ?_
        rw [← hdir, ← hitdir]
        exact .of_within_child ha hn
      · refine parent_take fun h => hbelow ?_
        rw [← hdir, ← hitdir, ← h]
        exact hx

omit [DecidableEq Node] in
theorem Linked.free (linked : Linked t) (gone : Node → Bool) : Linked (t.free gone) where
  forest := linked.forest.mono fun a => by
    simp only [Image.free]
    split
    · exact List.nil_sublist _
    · exact List.Sublist.refl _
  parent {d n} hn := by
    simp only [Image.free] at hn ⊢
    split at hn
    · exact absurd hn List.not_mem_nil
    · next hgone =>
      rw [linked.parent hn]
      exact if_neg hgone
  files {d} hd := by
    simp only [Image.free, linked.files hd, ite_self]

omit [DecidableEq Node] in
theorem free_spec {s : State Node} {gone : Node → Bool} (linked : Linked s.tree)
    (hdir : s.iter.data.dir = dir)
    (pending : Pending s.tree m s.iter.data s.iter.itersec nodes)
    (outside : ∀ n, gone n = true → ¬ Within s.tree.children dir n) :
    Shrunk m dir s ⟨s.tree.free gone, s.iter⟩ nodes nodes where
  linked := linked.free gone
  searched := hdir
  pending := by
    refine pending.congr linked (linked.free gone) (fun a ha => ?_) fun x hx => ?_
    · exact if_neg fun h => outside a h (hdir ▸ ha)
    · obtain ⟨p, hp, hchild⟩ := hx.exists_parent
      simp only [Image.free, linked.parent hchild]
      exact if_neg fun h => outside p h (hdir ▸ hp)
  subset _ h := h
  kept _ h _ := h
  smaller x h := by
    refine h.mono fun a c hc => ?_
    simp only [Image.free] at hc
    split at hc
    · exact absurd hc List.not_mem_nil
    · exact hc

end Steps

section Invariant

variable {trace : List (Event Node)} {s s' : State Node} {nodes nodes' : List Node}

omit [DecidableEq Node] in
theorem returnedNodes_append_changed :
    returnedNodes (trace ++ [.changed]) = returnedNodes trace := by
  simp [returnedNodes, Event.node?]

omit [DecidableEq Node] in
/-- A removal keeps the search right. -/
theorem Searching.shrunk (searching : Searching m dir trace s nodes)
    (shrunk : Shrunk m dir s s' nodes nodes') :
    Searching m dir (trace ++ [.changed]) s' nodes' where
  linked := shrunk.linked
  searched := shrunk.searched
  pending := shrunk.pending
  right n tree h := searching.right n tree (by simpa using h)
  noError err h := searching.noError err (by simpa using h)
  nodup := by
    rw [returnedNodes_append_changed]
    exact searching.nodup
  fresh n hn := by
    rw [returnedNodes_append_changed]
    exact searching.fresh n (shrunk.subset n hn)
  covered n hn hit := by
    rw [returnedNodes_append_changed]
    exact (searching.covered n (shrunk.smaller n hn) hit).imp_right fun h =>
      shrunk.kept n h hn
  ended h := by
    have hnone := searching.ended (by simpa using h)
    refine List.eq_nil_iff_forall_not_mem.mpr fun x hx => ?_
    exact List.not_mem_nil (hnone ▸ shrunk.subset x hx)

omit [DecidableEq Node] in
theorem shrunk_refl (searching : Searching m dir trace s nodes) :
    Shrunk m dir s s nodes nodes where
  linked := searching.linked
  searched := searching.searched
  pending := searching.pending
  subset _ h := h
  kept _ h _ := h
  smaller _ h := h

theorem Searching.taken (searching : Searching m dir trace s nodes)
    (allowed : NothingReadyBelow dir s n) {err : Option IsoError}
    (gives : Gives (fun k => isoNodeTake m k s n) (s', err)) :
    ∃ nodes', Searching m dir (trace ++ [.changed]) s' nodes' := by
  obtain ⟨r, nodes', hgives, shrunk⟩ :=
    isoNodeTake_spec searching.linked searching.searched searching.pending allowed
  obtain rfl : (s', err) = r := (stable_isoNodeTake m s n).unique gives hgives
  exact ⟨nodes', searching.shrunk shrunk⟩

/-- A call for the next node keeps the search right. -/
theorem Searching.next (searching : Searching m dir trace s nodes) {r : Fetched Node}
    {it : FindIter Node} (gives : Gives (fun k => findIterNext s.tree m k s.iter) (r, it)) :
    Searching m dir (trace ++ [Event.ofFetched s.tree r]) ⟨s.tree, it⟩ nodes.tail := by
  obtain ⟨it', hgives, hdir, -, hpending⟩ := findIterNext_spec searching.linked searching.pending
  obtain ⟨rfl, rfl⟩ : r = fetched nodes ∧ it = it' := by
    simpa using (stable_findIterNext s.tree m s.iter).unique gives hgives
  cases nodes with
  | nil =>
    have hsame : returnedNodes (trace ++ [.ended]) = returnedNodes trace := by
      simp [returnedNodes, Event.node?]
    refine ⟨searching.linked, hdir.trans searching.searched, hpending, ?_, ?_, ?_, ?_, ?_,
      fun _ => rfl⟩
    · intro n tree h
      exact searching.right n tree (by simpa [Event.ofFetched, fetched] using h)
    · intro err h
      exact searching.noError err (by simpa [Event.ofFetched, fetched] using h)
    · exact hsame ▸ searching.nodup
    · exact hsame ▸ searching.fresh
    · exact hsame ▸ searching.covered
  | cons n nodes =>
    have hadd : returnedNodes (trace ++ [.returned n s.tree]) = returnedNodes trace ++ [n] := by
      simp [returnedNodes, Event.node?]
    have hn := searching.fresh n List.mem_cons_self
    have htail := List.nodup_cons.mp (searching.pending.nodup searching.linked)
    refine ⟨searching.linked, hdir.trans searching.searched, hpending, ?_, ?_, ?_, ?_, ?_, ?_⟩
    · intro x tree h
      rcases List.mem_append.mp h with h | h
      · exact searching.right x tree h
      · obtain ⟨rfl, rfl⟩ : x = n ∧ tree = s.tree := by
          simpa [Event.ofFetched, fetched] using h
        rw [← searching.searched]
        exact searching.pending.descends searching.linked List.mem_cons_self
    · intro err h
      exact searching.noError err (by simpa [Event.ofFetched, fetched] using h)
    · exact hadd ▸ List.nodup_append.mpr ⟨searching.nodup, List.nodup_singleton n,
        fun x hx y hy hxy => hn (List.mem_singleton.mp hy ▸ hxy ▸ hx)⟩
    · intro x hx hmem
      rw [show returnedNodes (trace ++ [Event.ofFetched s.tree (fetched (n :: nodes))])
        = returnedNodes trace ++ [n] from hadd] at hmem
      rcases List.mem_append.mp hmem with h | h
      · exact searching.fresh x (List.mem_cons_of_mem _ hx) h
      · exact htail.1 (List.mem_singleton.mp h ▸ hx)
    · intro x hx hit
      rw [show returnedNodes (trace ++ [Event.ofFetched s.tree (fetched (n :: nodes))])
        = returnedNodes trace ++ [n] from hadd]
      rcases searching.covered x hx hit with h | h
      · exact Or.inl (List.mem_append_left _ h)
      · rcases List.mem_cons.mp h with rfl | h
        · exact Or.inl (by simp)
        · exact Or.inr h
    · intro h
      have hend := searching.ended (by simpa [Event.ofFetched, fetched] using h)
      exact absurd hend (List.cons_ne_nil _ _)

/-- The run lemma: all states of careful runs are right. -/
theorem Run.searching (linked : Linked t)
    (run : Run m (NothingReadyBelow dir) t dir trace s) :
    ∃ nodes, Searching m dir trace s nodes := by
  induction run with
  | @start it opened =>
    obtain ⟨it', hopen, hdir, hpending⟩ := (right_everywhere linked m dir).1
    obtain rfl := (stable_isoDirFindChildren t m dir).unique opened hopen
    refine ⟨_, linked, hdir, hpending, ?_, ?_, List.nodup_nil, ?_, ?_, ?_⟩
    · intro n tree h
      exact absurd h List.not_mem_nil
    · exact fun err => List.not_mem_nil
    · exact fun n _ => List.not_mem_nil
    · exact fun n hn hit => Or.inr (linked.mem_hitsBelow.mpr ⟨hn, hit⟩)
    · intro h
      exact absurd h List.not_mem_nil
  | next run gives ih =>
    obtain ⟨nodes, searching⟩ := ih
    exact ⟨_, searching.next gives⟩
  | @iterTake trace s s' err run allowed gives ih =>
    obtain ⟨nodes, searching⟩ := ih
    cases hprev : s.iter.data.prev with
    | none =>
      obtain ⟨k, hk⟩ := gives
      dsimp only at hk
      rw [findIterTake, hprev] at hk
      obtain rfl : s = s' := congrArg Prod.fst (Option.some.inj hk)
      exact ⟨nodes, searching.shrunk (shrunk_refl searching)⟩
    | some n =>
      have htake : Gives (fun k => isoNodeTake m k s n) (s', err) := by
        obtain ⟨k, hk⟩ := gives
        refine ⟨k, ?_⟩
        dsimp only at hk ⊢
        rw [findIterTake, hprev] at hk
        exact hk
      exact searching.taken (allowed n hprev) htake
  | nodeTake run allowed gives ih =>
    obtain ⟨nodes, searching⟩ := ih
    exact searching.taken allowed gives
  | free run outside _ ih =>
    obtain ⟨nodes, searching⟩ := ih
    exact ⟨nodes, searching.shrunk
      (free_spec searching.linked searching.searched searching.pending outside)⟩

/-- In a run in which no node is removed above a ready one, the iterator is right. -/
theorem found_once {fnmatch : (pattern string : Bytes) → Int} {attributes : Node → Attributes}
    {cond : FindCondition} (linked : Linked t)
    (run : Run (fun n => condMatches fnmatch (attributes n) cond) (NothingReadyBelow dir) t dir
      trace s) :
    FoundOnce (fun n => condMatches fnmatch (attributes n) cond) dir trace s := by
  obtain ⟨nodes, searching⟩ := run.searching linked
  have hone : ∀ n, Descends s.tree.children dir n → condMatches fnmatch (attributes n) cond = true →
      (returnedNodes trace ++ nodes).count n = 1 := by
    intro n hn hit
    refine List.count_eq_one_of_mem ?_ ?_
    · refine List.nodup_append.mpr ⟨searching.nodup, searching.pending.nodup searching.linked, ?_⟩
      exact fun x hx y hy hxy => searching.fresh y hy (hxy ▸ hx)
    · exact List.mem_append.mpr (searching.covered n hn hit)
  refine ⟨searching.right, searching.noError, ?_, ?_, nodes, ?_, hone⟩
  · exact fun n _ _ => List.nodup_iff_count_le_one.mp searching.nodup n
  · intro hended n hn hit
    have hall := hone n hn hit
    rw [searching.ended hended, List.append_nil] at hall
    exact hall
  · exact iterateToEnd_spec searching.linked searching.pending

end Invariant

section Samples

local instance neZero_nodes : NeZero 3 := ⟨by decide⟩

/-- The conditions in which all nodes match. -/
def anyNode (_ : Fin 3) : Bool :=
  condMatches (fun _ _ => 1) ⟨[], 0, 0, 0, 0, 0, 0⟩ (.not (.mode 0))

/-- The iterator has returned the directory and has its file ready. -/
def fileReady : FindIter (Fin 3) where
  data := ⟨0, some 1, some 1, some 2, some 1, none⟩
  itersec := [⟨1, some 1, some 2, none, some 2, none⟩]

def allReturned : FindIter (Fin 3) where
  data := ⟨0, some 0, some 1, none, some 2, none⟩
  itersec := []

/-- The iteration up to the return of the directory. -/
theorem run_fileReady (Allowed : State (Fin 3) → Fin 3 → Prop) :
    Run anyNode Allowed twoLevels 0 [.returned 1 twoLevels] ⟨twoLevels, fileReady⟩ := by
  have hopen : Gives (fun k => isoDirFindChildren twoLevels anyNode k 0)
      ⟨⟨0, some 0, some 1, some 1, none, none⟩, []⟩ := ⟨12, rfl⟩
  have hnext : Gives (fun k => findIterNext twoLevels anyNode k
      ⟨⟨0, some 0, some 1, some 1, none, none⟩, []⟩) (.node 1, fileReady) := ⟨12, rfl⟩
  exact .next (.start hopen) hnext

theorem twoLevels_found : ∃ trace s, returnedNodes trace = [1, 2] ∧
    FoundOnce (fun _ : Fin 3 => condMatches (fun _ _ => 1) ⟨[], 0, 0, 0, 0, 0, 0⟩ (.not (.mode 0)))
      0 trace s := by
  have hnext : Gives (fun k => findIterNext twoLevels anyNode k fileReady)
      (.node 2, allReturned) := ⟨12, rfl⟩
  have htake : Gives (fun k => findIterTake anyNode k ⟨twoLevels, allReturned⟩)
      (⟨twoLevels.take 2, allReturned⟩, none) := ⟨12, rfl⟩
  refine ⟨_, _, ?_, found_once linked_twoLevels
    (.iterTake (.next (run_fileReady (NothingReadyBelow 0)) hnext) (fun n _ _ c hc => ?_) htake)⟩
  · rfl
  · exact absurd hc (by simp [lookahead, allReturned])

/-- A directory gets removed right after its return. Its file is returned nevertheless. -/
theorem removed_directory_searched : ∃ trace s,
    Run anyNode (fun _ _ => True) twoLevels 0 trace s ∧
      ∃ n tree, Event.returned n tree ∈ trace ∧ ¬ Descends tree.children 0 n := by
  have htake : Gives (fun k => findIterTake anyNode k ⟨twoLevels, fileReady⟩)
      (⟨(twoLevels.unlink 1).take 1, ⟨{ fileReady.data with pos := none }, fileReady.itersec⟩⟩,
        none) := ⟨12, rfl⟩
  have hnext : Gives (fun k => findIterNext ((twoLevels.unlink 1).take 1) anyNode k
      ⟨{ fileReady.data with pos := none }, fileReady.itersec⟩)
      (.node 2, ⟨⟨0, some 0, none, none, some 2, none⟩, []⟩) := ⟨12, rfl⟩
  refine ⟨_, _, ((run_fileReady fun _ _ => True).iterTake (fun _ _ => trivial) htake).next hnext,
    2, (twoLevels.unlink 1).take 1, ?_, ?_⟩
  · simp [Event.ofFetched]
  · intro hbelow
    obtain ⟨c, hc, -⟩ := hbelow.exists_child
    revert c
    decide

end Samples

end FindIterators
