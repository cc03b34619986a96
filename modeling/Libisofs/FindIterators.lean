import Libisofs.DirTree
import Libisofs.Lib.Unrolling

/-!
# Iterators of find conditions

The conditions and iterators of find.c, the iterators of children which they use, and
iso_node_take() with its notifications. Memory is left out: an iterator holds references to
the nodes which it will look at, and other nodes get freed only if they are outside of the
searched tree. There is one find iterator. `k` is the fuel of the recursion, none as result
means that it was not enough.
-/

namespace FindIterators

open DirTree (IsoError)
open SymlinkTarget (Bytes)
open Unrollings

/-- The fields of nodes at which conditions look. -/
structure Attributes where
  name : Bytes
  mode : Nat
  uid : Nat
  gid : Nat
  atime : Int
  mtime : Int
  ctime : Int

inductive FindComparison where
  | greater
  | greaterOrEqual
  | equal
  | less
  | lessOrEqual

inductive WhatTime where
  | atime
  | mtime
  | ctime

inductive FindCondition where
  | name (wildcard : Bytes)
  | mode (mask : Nat)
  | gid (gid : Nat)
  | uid (uid : Nat)
  | time (what : WhatTime) (time : Int) (comparison : FindComparison)
  | and (a b : FindCondition)
  | or (a b : FindCondition)
  | not (negate : FindCondition)

def Attributes.time (node : Attributes) : WhatTime → Int
  | .atime => node.atime
  | .mtime => node.mtime
  | .ctime => node.ctime

def condTimeMatches (time : Int) (nodeTime : Int) : FindComparison → Bool
  | .greater => nodeTime > time
  | .greaterOrEqual => nodeTime ≥ time
  | .equal => nodeTime = time
  | .less => nodeTime < time
  | .lessOrEqual => nodeTime ≤ time

/-- The functions cond_*_matches(). fnmatch() is from the C library and returns 0 on match. -/
def condMatches (fnmatch : (pattern string : Bytes) → Int) (node : Attributes) :
    FindCondition → Bool
  | .name wildcard => fnmatch wildcard node.name = 0
  | .mode mask => node.mode &&& mask ≠ 0
  | .gid gid => node.gid = gid
  | .uid uid => node.uid = uid
  | .time what time comparison => condTimeMatches time (node.time what) comparison
  | .and a b => condMatches fnmatch node a && condMatches fnmatch node b
  | .or a b => condMatches fnmatch node a || condMatches fnmatch node b
  | .not negate => !condMatches fnmatch node negate

/-- The directories and their lists of children. -/
@[ext]
structure Image (Node : Type) where
  children : Node → List Node
  parent : Node → Option Node
  isDir : Node → Bool

/-- What a call for the next node brings. -/
inductive Fetched (Node : Type) where
  | node (n : Node)
  | ended
  | failed (err : IsoError)

/-- struct find_iter_data. `pos` is the position of the iterator of the children of `dir`,
`iterDir` is the directory which the find iterator is registered for. -/
structure FindIterData (Node : Type) where
  dir : Node
  iterDir : Option Node
  pos : Option Node
  current : Option Node
  prev : Option Node
  err : Option IsoError

/-- A find iterator, with its secondary iterator, the secondary iterator of that one, and
so on. -/
structure FindIter (Node : Type) where
  data : FindIterData Node
  itersec : List (FindIterData Node)

variable {Node : Type} [DecidableEq Node]

/-- The nodes which follow by the pointers `next`. -/
def after (n : Node) : List Node → List Node
  | [] => []
  | x :: nodes => if x = n then nodes else after n nodes

namespace Image

variable (t : Image Node)

/-- The function iter_next() of an iterator of children. -/
def iterNext (dir : Node) (pos : Option Node) : Fetched Node × Option Node :=
  match pos with
  | none =>
    match (t.children dir).head? with
    | none => (.ended, none)
    | some n => (.node n, some n)
  | some p =>
    if t.parent p ≠ some dir then (.failed .generalError, some p)
    else
      match (after p (t.children dir)).head? with
      | none => (.ended, some p)
      | some n => (.node n, some n)

/-- The node is not in the list of its parent any more. -/
def unlink (n : Node) : Image Node :=
  { t with children := fun d => if t.parent n = some d then (t.children d).erase n
                                else t.children d }

end Image

/-- What update_next() records of the result of get_next(). -/
def FindIterData.record (t : Image Node) (data : FindIterData Node) :
    Fetched Node → FindIterData Node
  | .node n => { data with current := some n, err := none, iterDir := t.parent n }
  | .ended => { data with current := none, err := none, iterDir := some data.dir }
  | .failed err => { data with current := none, err := some err, iterDir := some data.dir }

/-- The iterator before its first update_next(). -/
def newData (dir : Node) : FindIterData Node :=
  { dir := dir, iterDir := some dir, pos := none, current := none, prev := none, err := none }

section Iteration

variable (t : Image Node) (m : Node → Bool)

mutual

def getNext : (k : Nat) → FindIter Node → Option (Fetched Node × FindIter Node)
  | 0, _ => none
  | k + 1, ⟨data, []⟩ => nextChild k data
  | k + 1, ⟨data, sec :: itersec⟩ =>
    (findIterNext k ⟨sec, itersec⟩).bind fun r =>
      match r with
      | (.node n, it) => some (.node n, ⟨data, it.data :: it.itersec⟩)
      | (.failed err, _) => some (.failed err, ⟨data, []⟩)
      | (.ended, _) => nextChild k data

/-- The loop of get_next() over the children. -/
def nextChild : (k : Nat) → FindIterData Node → Option (Fetched Node × FindIter Node)
  | 0, _ => none
  | k + 1, data =>
    match t.iterNext data.dir data.pos with
    | (.node n, pos) =>
      if m n then some (.node n, ⟨{ data with pos := pos }, []⟩)
      else if t.isDir n then
        (isoDirFindChildren k n).bind fun it =>
          getNext k ⟨{ data with pos := pos }, it.data :: it.itersec⟩
      else nextChild k { data with pos := pos }
    | (r, pos) => some (r, ⟨{ data with pos := pos }, []⟩)

def updateNext : (k : Nat) → FindIter Node → Option (FindIter Node)
  | 0, _ => none
  | k + 1, ⟨data, itersec⟩ =>
    (match itersec, data.current with
      | [], some c =>
        if t.isDir c then
          (isoDirFindChildren k c).map fun it : FindIter Node => it.data :: it.itersec
        else some []
      | itersec, _ => some itersec).bind fun itersec =>
    (getNext k ⟨{ data with prev := data.current }, itersec⟩).map
      fun r : Fetched Node × FindIter Node => ⟨r.2.data.record t r.1, r.2.itersec⟩

def findIterNext : (k : Nat) → FindIter Node → Option (Fetched Node × FindIter Node)
  | 0, _ => none
  | k + 1, it =>
    match it.data.err with
    | some err => some (.failed err, it)
    | none =>
      (updateNext k it).map fun it' =>
        (match it.data.current with
          | none => .ended
          | some n => .node n, it')

def isoDirFindChildren : (k : Nat) → Node → Option (FindIter Node)
  | 0, _ => none
  | k + 1, dir => updateNext k ⟨newData dir, []⟩

end

/-- Calls of iso_dir_iter_next() until it returns 0, and the nodes which it returned. -/
def iterateToEnd : (k : Nat) → FindIter Node → Option (List Node)
  | 0, _ => none
  | k + 1, it =>
    (findIterNext t m k it).bind fun r =>
      match r with
      | (.node n, it) => (iterateToEnd k it).map fun nodes => n :: nodes
      | (.ended, _) => some []
      | (.failed _, _) => none

/-- All nodes which the find iterator of a directory returns. -/
def findAll (k : Nat) (dir : Node) : Option (List Node) :=
  (isoDirFindChildren t m k dir).bind fun it => iterateToEnd t m k it

end Iteration

section Removal

variable (m : Node → Bool)

/-- iter_notify_child_taken() for the iterator of children. It unlinks the node, too. -/
def iterNotifyChildTaken (t : Image Node) (data : FindIterData Node) (node : Node) :
    Image Node × FindIterData Node :=
  if data.pos = some node ∧ node ∈ t.children data.dir then
    (t.unlink node,
      { data with pos := ((t.children data.dir).takeWhile (· ≠ node)).getLast? })
  else (t, data)

def findNotifyChildTaken (t : Image Node) (k : Nat) (it : FindIter Node) (node : Node) :
    Option (FindIter Node) :=
  if it.data.prev = some node then some ⟨{ it.data with prev := none }, it.itersec⟩
  else if it.data.current = some node then
    updateNext t m k ⟨{ it.data with current := none }, it.itersec⟩
  else some it

/-- The notification of a find iterator which is registered for the parent of the node. -/
def notifyFind (t : Image Node) (k : Nat) (it : FindIter Node) (node : Node) :
    Option (FindIter Node) :=
  if it.data.iterDir = t.parent node then findNotifyChildTaken m t k it node else some it

/-- The notification of the iterator of children under a find iterator. -/
def notifyChildren (t : Image Node) (data : FindIterData Node) (node : Node) :
    Image Node × FindIterData Node :=
  if t.parent node = some data.dir then iterNotifyChildTaken t data node else (t, data)

def notifyIter (t : Image Node) (k : Nat) (it : FindIter Node) (node : Node) :
    Option (Image Node × FindIter Node) :=
  (notifyFind m t k it node).map fun it =>
    ((notifyChildren t it.data node).1, ⟨(notifyChildren t it.data node).2, it.itersec⟩)

/-- iso_notify_dir_iters(). The registry begins by the youngest iterator, which is the last
secondary one. An iterator of children is older than its find iterator. -/
def isoNotifyDirIters (t : Image Node) (k : Nat) (node : Node) (data : FindIterData Node) :
    List (FindIterData Node) → Option (Image Node × FindIter Node)
  | [] => notifyIter m t k ⟨data, []⟩ node
  | sec :: itersec =>
    (isoNotifyDirIters t k node sec itersec).bind fun r =>
      notifyIter m r.1 k ⟨data, r.2.data :: r.2.itersec⟩ node

/-- The end of iso_node_take(). -/
def Image.take (t : Image Node) (n : Node) : Image Node :=
  { t.unlink n with parent := fun x => if x = n then none else t.parent x }

/-- The tree with the find iterator which searches in it. -/
structure State (Node : Type) where
  tree : Image Node
  iter : FindIter Node

/-- iso_node_take(), and iso_node_remove(), which also drops a reference. -/
def isoNodeTake (k : Nat) (s : State Node) (node : Node) :
    Option (State Node × Option IsoError) :=
  match s.tree.parent node with
  | none => some (s, some .nodeNotAddedToDir)
  | some _ =>
    (isoNotifyDirIters m s.tree k node s.iter.data s.iter.itersec).map fun r =>
      (⟨r.1.take node, r.2⟩, none)

/-- find_iter_take() and find_iter_remove(). -/
def findIterTake (k : Nat) (s : State Node) : Option (State Node × Option IsoError) :=
  match s.iter.data.prev with
  | none => some (s, some .generalError)
  | some node => isoNodeTake m k s node

end Removal

section Fuel

variable {t : Image Node} {m : Node → Bool} {k : Nat}

/-- What the first computation yields, the second one yields, too. -/
def Extends {α : Type} (x y : Option α) : Prop := ∀ r, x = some r → y = some r

theorem Extends.refl {α : Type} (x : Option α) : Extends x x := fun _ h => h

theorem Extends.bind {α β : Type} {x y : Option α} {f g : α → Option β} (h : Extends x y)
    (hfun : ∀ a, Extends (f a) (g a)) : Extends (x.bind f) (y.bind g) := by
  intro r hr
  obtain ⟨a, ha, hfa⟩ := Option.bind_eq_some_iff.mp hr
  exact Option.bind_eq_some_iff.mpr ⟨a, h a ha, hfun a r hfa⟩

theorem Extends.map {α β : Type} {x y : Option α} (f : α → β) (h : Extends x y) :
    Extends (x.map f) (y.map f) := by
  intro r hr
  obtain ⟨a, ha, hfa⟩ := Option.map_eq_some_iff.mp hr
  exact Option.map_eq_some_iff.mpr ⟨a, h a ha, hfa⟩

/-- More fuel does not change results. -/
theorem fuel_extends (t : Image Node) (m : Node → Bool) (k : Nat) :
    (∀ it, Extends (getNext t m k it) (getNext t m (k + 1) it)) ∧
    (∀ data, Extends (nextChild t m k data) (nextChild t m (k + 1) data)) ∧
    (∀ it, Extends (updateNext t m k it) (updateNext t m (k + 1) it)) ∧
    (∀ it, Extends (findIterNext t m k it) (findIterNext t m (k + 1) it)) ∧
    ∀ dir, Extends (isoDirFindChildren t m k dir) (isoDirFindChildren t m (k + 1) dir) := by
  induction k with
  | zero =>
    refine ⟨fun it r h => ?_, fun data r h => ?_, fun it r h => ?_, fun it r h => ?_,
      fun dir r h => ?_⟩
    · rw [getNext] at h; cases h
    · rw [nextChild] at h; cases h
    · rw [updateNext] at h; cases h
    · rw [findIterNext] at h; cases h
    · rw [isoDirFindChildren] at h; cases h
  | succ k ih =>
    obtain ⟨hget, hchild, hupdate, hfind, hopen⟩ := ih
    refine ⟨?_, ?_, ?_, ?_, ?_⟩
    · rintro ⟨data, _ | ⟨sec, itersec⟩⟩
      · exact hchild data
      · refine (hfind ⟨sec, itersec⟩).bind fun r => ?_
        rcases r with ⟨_ | _ | _, it⟩
        · exact .refl _
        · exact hchild data
        · exact .refl _
    · intro data
      rw [nextChild, nextChild]
      rcases t.iterNext data.dir data.pos with ⟨n | _ | err, pos⟩
      · dsimp only
        split
        · exact .refl _
        · split
          · exact (hopen n).bind fun it => hget _
          · exact hchild _
      · exact .refl _
      · exact .refl _
    · rintro ⟨data, itersec⟩
      refine Extends.bind ?_ fun itersec => (hget _).map _
      rcases itersec with _ | ⟨sec, itersec⟩
      · rcases data.current with _ | c
        · exact .refl _
        · dsimp only
          split
          · exact (hopen c).map _
          · exact .refl _
      · exact .refl _
    · intro it
      rw [findIterNext, findIterNext]
      rcases it.data.err with _ | err
      · exact (hupdate it).map _
      · exact .refl _
    · intro dir
      exact hupdate _

end Fuel

end FindIterators
