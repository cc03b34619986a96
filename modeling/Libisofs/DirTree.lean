import Mathlib.Data.Fintype.Card
import Mathlib.Data.Finset.Card
import Libisofs.Lib.CellLists
import Libisofs.Lib.ThreeWay
import Libisofs.SymlinkTarget
import Mathlib.Algebra.Ring.Nat

/-!
# Directories and their iterators

The directory tree of node.c: the sorted lists of children, the insertion, taking and
renaming of nodes, the reference counts, and the registered iterators of directories.
The nodes of a run are the elements of a finite type. A node with reference count 0 is
not allocated, or is freed. Allocation succeeds. None as result of a function is for a
loop over a list which does not end.
-/

namespace DirTree

open CellLists
open ThreeWay (strcmp)
open SymlinkTarget (Bytes isoNodeIsValidName)

inductive IsoError where
  | generalError
  | wrongArgValue
  | nodeAlreadyAdded
  | nodeNameNotUnique
  | nodeNotAddedToDir
  | assertFailure
  | name (e : SymlinkTarget.IsoError)
  deriving DecidableEq

/-- Where a pointer to the first or the next child is stored. -/
inductive Link (Node : Type) where
  | children (dir : Node)
  | next (node : Node)
  deriving DecidableEq

/-- The previous node, if the link is not that to the first child. -/
def Link.pre {Node : Type} : Link Node → Option Node
  | children _ => none
  | next pre => some pre

/-- The fields of nodes which matter for their place in the tree. `fmt` is mode & S_IFMT,
`cell` holds the pointers children and next. -/
structure Dirs (Node : Type) where
  name : Node → Bytes
  mtime : Node → Int
  fmt : Node → Nat
  isDir : Node → Bool
  parent : Node → Option Node
  cell : Link Node → Option Node
  nchildren : Node → Nat

/-- Iso_Dir_Iter and its struct dir_iter_data; `flag` is bit 0. -/
structure DirIter (Node : Type) where
  dir : Node
  pos : Option Node
  flag : Bool

/-- data->pos = pos -/
def DirIter.moveTo {Node : Type} (it : DirIter Node) (pos : Option Node) : DirIter Node :=
  ⟨it.dir, pos, it.flag⟩

/-- The registered iterators are numbers here. -/
structure Tree (Node : Type) extends Dirs Node where
  refcount : Node → Nat
  reg : List Nat
  iter : Nat → DirIter Node

/-- An error code, a number, or success with a node. -/
inductive Ret (Node : Type) where
  | error (e : IsoError)
  | value (v : Int)
  | node (n : Node)
  deriving DecidableEq

def isoSuccess : Int := 1

/-- Return values below 0 are errors. -/
def Ret.isError {Node : Type} : Ret Node → Bool
  | error _ => true
  | value v => decide (v < 0)
  | node _ => false

inductive ReplaceMode where
  | never | always | ifSameType | ifSameTypeAndNewer | ifNewer
  deriving DecidableEq

/-- A size_t which gets returned as int. -/
def toInt (n : Nat) : Int := (n : Int).bmod (2 ^ 32)

variable {Node : Type} [DecidableEq Node]

namespace Tree

variable (t : Tree Node)

def Live (n : Node) : Prop := 0 < t.refcount n

instance (n : Node) : Decidable (t.Live n) := inferInstanceAs (Decidable (0 < _))

def setParent (n : Node) (p : Option Node) : Tree Node :=
  { t with parent := Function.update t.parent n p }

def setCell (k : Link Node) (v : Option Node) : Tree Node :=
  { t with cell := Function.update t.cell k v }

def setNchildren (d : Node) (n : Nat) : Tree Node :=
  { t with nchildren := Function.update t.nchildren d n }

def setName (n : Node) (name : Bytes) : Tree Node :=
  { t with name := Function.update t.name n name }

def setRefcount (n : Node) (count : Nat) : Tree Node :=
  { t with refcount := Function.update t.refcount n count }

def setIter (i : Nat) (it : DirIter Node) : Tree Node :=
  { t with iter := Function.update t.iter i it }

def ref (n : Node) : Tree Node := t.setRefcount n (t.refcount n + 1)

/-- `--node->refcount` -/
def decr (n : Node) : Tree Node := t.setRefcount n (t.refcount n - 1)

end Tree

section Walks

variable [Fintype Node]

/-- More steps than there are nodes: a walk which takes more goes in a circle. -/
def steps (Node : Type) [Fintype Node] : Nat := Fintype.card Node + 1

namespace Tree

variable (t : Tree Node)

/-- The children of a directory in the order of their links. -/
def childList (d : Node) : Option (List Node) :=
  toList Link.next t.cell (steps Node) (.children d)

def liveCount : Nat := (Finset.univ.filter fun n => t.refcount n ≠ 0).card

theorem liveCount_decr_lt {c : Node} (hc : t.refcount c = 1) (p : Option Node) :
    ((t.setParent c p).decr c).liveCount < t.liveCount := by
  apply Finset.card_lt_card
  refine Finset.ssubset_iff_subset_ne.mpr ⟨?_, fun heq => ?_⟩
  · intro n hn
    simp only [Finset.mem_filter, Finset.mem_univ, true_and] at hn ⊢
    by_cases hnc : n = c
    · simp [hnc, hc]
    · simpa [decr, setRefcount, setParent, Function.update_of_ne hnc] using hn
  · have hmem : c ∈ Finset.univ.filter fun n => t.refcount n ≠ 0 := by simp [hc]
    rw [← heq] at hmem
    simp [decr, setRefcount, setParent, hc] at hmem

theorem liveCount_decr_le (c : Node) (p : Option Node) :
    ((t.setParent c p).decr c).liveCount ≤ t.liveCount := by
  apply Finset.card_le_card
  intro n hn
  simp only [Finset.mem_filter, Finset.mem_univ, true_and] at hn ⊢
  by_cases hnc : n = c
  · subst hnc
    simp [decr, setRefcount, setParent] at hn
    omega
  · simpa [decr, setRefcount, setParent, Function.update_of_ne hnc] using hn

/-- The loops in iso_node_unref() over the children of directories which get freed: each
child loses its parent and a reference. -/
def release (t : Tree Node) : List Node → Option (Tree Node)
  | [] => some t
  | child :: rest =>
    let t' := (t.setParent child none).decr child
    if _h : t.refcount child = 1 ∧ t.isDir child then
      match t'.childList child with
      | none => none
      | some children => release t' (children ++ rest)
    else release t' rest
termination_by work => (t.liveCount, work.length)
decreasing_by
  · exact Prod.Lex.left _ _ (t.liveCount_decr_lt _h.1 none)
  · rcases Nat.lt_or_eq_of_le (t.liveCount_decr_le child none) with hlt | heq
    · exact Prod.Lex.left _ _ hlt
    · have hlen : rest.length < (child :: rest).length := Nat.lt_succ_self _
      rw [heq]
      exact Prod.Lex.right _ hlen

/-- iso_node_unref() -/
def unref (n : Node) : Option (Tree Node) :=
  let t' := t.decr n
  if t.refcount n = 1 ∧ t.isDir n then
    match t'.childList n with
    | none => none
    | some children => t'.release children
  else some t'

/-- The place of the first child which has not a smaller name. -/
def isoDirFind (dir : Node) (name : Bytes) : Option (Link Node) :=
  seek Link.next t.cell (fun n => decide (strcmp (t.name n) name < 0)) (steps Node)
    (.children dir)

def isoDirExists (dir : Node) (name : Bytes) : Option Bool :=
  match t.isoDirFind dir name with
  | none => none
  | some pos =>
    match t.cell pos with
    | none => some false
    | some n => some (decide (strcmp (t.name n) name = 0))

/-- The replace mode keeps the old node. -/
def keepsOld (replace : ReplaceMode) (old node : Node) : Bool :=
  match replace with
  | .never => true
  | .ifNewer => decide (t.mtime old ≥ t.mtime node)
  | .ifSameTypeAndNewer =>
    decide (t.mtime old ≥ t.mtime node) || decide (t.fmt node ≠ t.fmt old)
  | .ifSameType => decide (t.fmt node ≠ t.fmt old)
  | .always => false

/-- The replaced node leaves the list, which for now ends with it. -/
def detachOld (old node : Node) : Tree Node :=
  ((t.setCell (.next node) (t.cell (.next old))).setParent old none).setCell (.next old) none

/-- The new node takes the place. -/
def putAt (dir node : Node) (pos : Link Node) : Tree Node :=
  (t.setCell pos (some node)).setParent node (some dir)

def isoDirInsert (dir node : Node) (pos : Link Node) (replace : ReplaceMode) :
    Option (Tree Node × Ret Node) :=
  let link : Tree Node × Ret Node :=
    let t := (t.setCell (.next node) (t.cell pos)).putAt dir node pos
    let count := (t.nchildren dir + 1) % 2 ^ 64
    (t.setNchildren dir count, .value (toInt count))
  match t.cell pos with
  | none => some link
  | some old =>
    if strcmp (t.name old) (t.name node) = 0 then
      if t.keepsOld replace old node then some (t, .error .nodeNameNotUnique)
      else
        match (t.detachOld old node).unref old with
        | none => none
        | some t => some (t.putAt dir node pos, .value (toInt (t.nchildren dir)))
    else some link

def isoDirAddNode (dir child : Node) (replace : ReplaceMode) : Option (Tree Node × Ret Node) :=
  if dir = child then some (t, .error .wrongArgValue)
  else if t.parent child ≠ none then some (t, .error .nodeAlreadyAdded)
  else
    match t.isoDirFind dir (t.name child) with
    | none => none
    | some pos => t.isoDirInsert dir child pos replace

/-- iter_notify_child_taken(). The walk stops at the link to the node of the iterator. -/
def iterNotifyChildTaken (i : Nat) (node : Node) : Option (Tree Node) :=
  if (t.iter i).pos = some node then
    match seek Link.next t.cell (fun n => decide (n ≠ node)) (steps Node)
        (.children (t.iter i).dir) with
    | none => none
    | some link =>
      if t.cell link = none then some t
      else
        match t.unref node with
        | none => none
        | some t =>
          let t := t.setCell link (t.cell (.next node))
          let t := t.setIter i ((t.iter i).moveTo link.pre)
          match link.pre with
          | none => some t
          | some pre => some (t.ref pre)
  else some t

/-- iso_notify_dir_iters() over the iterators which are still to be notified. -/
def isoNotifyDirIters (node : Node) : List Nat → Tree Node → Option (Tree Node)
  | [], t => some t
  | i :: rest, t =>
    if t.parent node = some (t.iter i).dir then
      match t.iterNotifyChildTaken i node with
      | none => none
      | some t => isoNotifyDirIters node rest t
    else isoNotifyDirIters node rest t

def isoNodeTake (node : Node) : Option (Tree Node × Ret Node) :=
  match t.parent node with
  | none => some (t, .error .nodeNotAddedToDir)
  | some dir =>
    match seek Link.next t.cell (fun n => decide (n ≠ node)) (steps Node) (.children dir) with
    | none => none
    | some pos =>
      match isoNotifyDirIters node t.reg t with
      | none => none
      | some t =>
        let t := t.setCell pos (t.cell (.next node))
        let t := (t.setParent node none).setCell (.next node) none
        some (t.setNchildren dir ((t.nchildren dir + 2 ^ 64 - 1) % 2 ^ 64), .value isoSuccess)

/-- Release the node if the operation was successful. -/
def thenUnref (node : Node) : Tree Node × Ret Node → Option (Tree Node × Ret Node)
  | (t, ret) =>
    if ret = .value isoSuccess then (t.unref node).map (·, ret) else some (t, ret)

def isoNodeRemove (node : Node) : Option (Tree Node × Ret Node) :=
  (t.isoNodeTake node).bind (thenUnref node)

/-- iso_node_set_name(), i.e. without truncation. -/
def isoNodeSetName (node : Node) (name : Bytes) : Option (Tree Node × Ret Node) :=
  if t.parent node = some node then some (t, .error .wrongArgValue)
  else
    match isoNodeIsValidName name with
    | .error e => some (t, .error (.name e))
    | .ok () =>
      match t.parent node with
      | none => some (t.setName node name, .value isoSuccess)
      | some parent =>
        match t.isoDirExists parent name with
        | none => none
        | some true => some (t, .error .nodeNameNotUnique)
        | some false =>
          -- take and add again to ensure correct children order
          match (t.setName node name).isoNodeTake node with
          | none => none
          | some (t, _) =>
            match t.isoDirAddNode parent node .never with
            | none => none
            | some (t, res) => some (t, if res.isError then res else .value isoSuccess)

/-- iso_dir_get_children(); `i` is the new iterator. -/
def isoDirGetChildren (dir : Node) (i : Nat) : Tree Node × Ret Node :=
  let t := t.setIter i ⟨dir, none, false⟩
  ({ t with reg := i :: t.reg }.ref dir, .value isoSuccess)

/-- The iterator comes to a child. -/
def arriveAt (i : Nat) (node : Node) : Tree Node × Ret Node :=
  ((t.setIter i { t.iter i with pos := some node, flag := true }).ref node, .node node)

/-- Clear the next flag. -/
def unflag (i : Nat) : Tree Node := t.setIter i { t.iter i with flag := false }

/-- iter_next() -/
def isoDirIterNext (i : Nat) : Option (Tree Node × Ret Node) :=
  let it := t.iter i
  let t := t.unflag i
  match it.pos with
  | none =>
    match t.cell (.children it.dir) with
    | none => some (t, .value 0)
    | some first => some (t.arriveAt i first)
  | some pos =>
    if t.parent pos ≠ some it.dir then some (t, .error .generalError)
    else
      match t.cell (.next pos) with
      | none => some (t, .value 0)
      | some next =>
        match t.unref pos with
        | none => none
        | some t => some (t.arriveAt i next)

/-- iter_take() -/
def isoDirIterTake (i : Nat) : Option (Tree Node × Ret Node) :=
  if (t.iter i).flag = false then some (t, .error .generalError)
  else
    match (t.iter i).pos with
    | none => some (t, .error .assertFailure)
    | some pos => (t.unflag i).isoNodeTake pos

/-- iter_remove() -/
def isoDirIterRemove (i : Nat) : Option (Tree Node × Ret Node) :=
  match (t.iter i).pos with
  | none => t.isoDirIterTake i
  | some pos => (t.isoDirIterTake i).bind (thenUnref pos)

def isoDirIterFree (i : Nat) : Option (Tree Node) :=
  let it := t.iter i
  let t := { t with reg := t.reg.erase i }
  match it.pos with
  | none => t.unref it.dir
  | some pos => (t.unref pos).bind (·.unref it.dir)

end Tree

/-- The calls. An insertion is done where iso_dir_find() tells, as all callers do it. -/
inductive Op (Node : Type) where
  | insert (dir node : Node) (replace : ReplaceMode)
  | addNode (dir child : Node) (replace : ReplaceMode)
  | take (node : Node)
  | remove (node : Node)
  | setName (node : Node) (name : Bytes)
  | getChildren (dir : Node) (i : Nat)
  | iterNext (i : Nat)
  | iterTake (i : Nat)
  | iterRemove (i : Nat)
  | iterFree (i : Nat)
  deriving DecidableEq

/-- The references to a node by its directory and by iterators. -/
def Tree.held (t : Tree Node) (n : Node) : Nat :=
  (if t.parent n = none then 0 else 1) +
    t.reg.countP (fun i => decide ((t.iter i).pos = some n)) +
    t.reg.countP (fun i => decide ((t.iter i).dir = n))

/-- The caller has a reference to the node. -/
def Tree.Owned (t : Tree Node) (n : Node) : Prop := t.held n < t.refcount n

instance (t : Tree Node) (n : Node) : Decidable (t.Owned n) :=
  inferInstanceAs (Decidable (_ < _))

/-- Arguments are existing nodes and iterators, dir is a directory. The node for an
insertion is in no directory, and the caller gives away a reference to it. -/
def Enabled (t : Tree Node) : Op Node → Prop
  | .insert dir node _ =>
    t.Live dir ∧ t.isDir dir = true ∧ t.Owned node ∧ t.parent node = none ∧ dir ≠ node
  | .addNode dir child _ =>
    t.Live dir ∧ t.isDir dir = true ∧ t.Live child ∧ (t.parent child = none → t.Owned child)
  | .take node | .remove node | .setName node _ => t.Live node
  | .getChildren dir i => t.Live dir ∧ t.isDir dir = true ∧ i ∉ t.reg
  | .iterNext i | .iterTake i | .iterRemove i | .iterFree i => i ∈ t.reg

instance (t : Tree Node) (op : Op Node) : Decidable (Enabled t op) := by
  cases op <;> unfold Enabled <;> infer_instance

def exec (t : Tree Node) : Op Node → Option (Tree Node × Ret Node)
  | .insert dir node replace =>
    match t.isoDirFind dir (t.name node) with
    | none => none
    | some pos => t.isoDirInsert dir node pos replace
  | .addNode dir child replace => t.isoDirAddNode dir child replace
  | .take node => t.isoNodeTake node
  | .remove node => t.isoNodeRemove node
  | .setName node name => t.isoNodeSetName node name
  | .getChildren dir i => some (t.isoDirGetChildren dir i)
  | .iterNext i => t.isoDirIterNext i
  | .iterTake i => t.isoDirIterTake i
  | .iterRemove i => t.isoDirIterRemove i
  | .iterFree i => (t.isoDirIterFree i).map (·, .value isoSuccess)

end Walks

end DirTree
