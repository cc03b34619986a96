import Libisofs.Lib.Halting
import Libisofs.Lib.RedBlack
import Mathlib.Data.List.Nodup
import Mathlib.Algebra.Order.Ring.Int

/-!
# The red-black tree of util_rbtree.c

iso_rbtree_insert() walks down once and restructures the tree on its way by flips and rotations.
Nodes are addresses in a memory which holds each of their components. The NULL pointer as owner
of links stands for the false root, of which only the links get used.
-/

namespace RbTree

universe u
variable {α : Type u}

structure Memory (α : Type u) where
  data : Nat → Option α
  ch : Option Nat → Bool → Option Nat
  red : Nat → Bool
  next : Nat

namespace Memory

def setCh (m : Memory α) (owner : Option Nat) (d : Bool) (child : Option Nat) : Memory α :=
  { m with ch := fun o e => if o = owner ∧ e = d then child else m.ch o e }

def setRed (m : Memory α) (node : Nat) (red : Bool) : Memory α :=
  { m with red := fun n => if n = node then red else m.red n }

end Memory

structure IsoRBTree (α : Type u) where
  root : Option Nat
  size : Nat
  mem : Memory α

def isoRbtreeNew : IsoRBTree α where
  root := none
  size := 0
  mem := ⟨fun _ => none, fun _ _ => none, fun _ => false, 0⟩

def isRed (m : Memory α) : Option Nat → Bool
  | none => false
  | some node => m.red node

/-- The result is `none` if a NULL pointer gets dereferenced. -/
def isoRbtreeSingle (m : Memory α) (root : Nat) (dir : Bool) : Option (Nat × Memory α) :=
  match m.ch (some root) (!dir) with
  | none => none
  | some save =>
    let m := m.setCh (some root) (!dir) (m.ch (some save) dir)
    let m := m.setCh (some save) dir (some root)
    some (save, (m.setRed root true).setRed save false)

def isoRbtreeDouble (m : Memory α) (root : Nat) (dir : Bool) : Option (Nat × Memory α) :=
  match m.ch (some root) (!dir) with
  | none => none
  | some child =>
    match isoRbtreeSingle m child (!dir) with
    | none => none
    | some (top, m) => isoRbtreeSingle (m.setCh (some root) (!dir) (some top)) root dir

/-- iso_rbnode_new() with enough memory. -/
def isoRbnodeNew (m : Memory α) (data : α) : Nat × Memory α :=
  (m.next,
    { data := fun n => if n = m.next then some data else m.data n
      ch := fun o d => if o = some m.next then none else m.ch o d
      red := fun n => if n = m.next then true else m.red n
      next := m.next + 1 })

def isoOutOfMem : Int := 0xF030FFFA - 2 ^ 32

/-- The variables of the search. The false root is `none` as value of `t`. -/
structure Walk (α : Type u) where
  mem : Memory α
  t : Option Nat
  g : Option Nat
  p : Option Nat
  q : Option Nat
  dir : Bool
  last : Bool

structure Returned (α : Type u) where
  ret : Int
  item : Option α
  tree : IsoRBTree α

inductive State (α : Type u) where
  | walking (w : Walk α)
  | returned (r : Returned α)
  | crashed

/-- What the upper part of the loop yields: the node at `q`, and whether it was added. -/
inductive Arrival (α : Type u) where
  | at (q : Nat) (added : Bool) (m : Memory α)
  | outOfMemory (m : Memory α)
  | crashed

section Code

variable [DecidableEq α] (compare : α → α → Int) (memory : Bool) (tree : IsoRBTree α) (data : α)

/-- Insertion of a new node at the bottom, or else color flip. -/
def arrive (w : Walk α) : Arrival α :=
  match w.q with
  | none =>
    match w.p with
    | none => .crashed
    | some p =>
      if memory then
        let (q, m) := isoRbnodeNew w.mem data
        .at q true (m.setCh (some p) w.dir (some q))
      else .outOfMemory (w.mem.setCh (some p) w.dir none)
  | some q =>
    match w.mem.ch (some q) false, w.mem.ch (some q) true with
    | some left, some right =>
      if w.mem.red left && w.mem.red right then
        .at q false (((w.mem.setRed q true).setRed left false).setRed right false)
      else .at q false w.mem
    | _, _ => .at q false w.mem

/-- Fix of a red violation. -/
def fixViolation (w : Walk α) (q : Nat) (m : Memory α) : Option (Memory α) :=
  if m.red q && isRed m w.p then
    match w.p, w.g with
    | some p, some g =>
      let dir2 := m.ch w.t true == some g
      let rotated :=
        if some q = m.ch (some p) w.last then isoRbtreeSingle m g (!w.last)
        else isoRbtreeDouble m g (!w.last)
      rotated.map fun (top, m) => m.setCh w.t dir2 (some top)
    | _, _ => none
  else some m

/-- What follows the search: the root is updated and made black. -/
def finish (m : Memory α) (root : Option Nat) (item : α) (added : Bool) : State α :=
  match root with
  | none => .crashed
  | some node =>
    .returned
      { ret := if added then 1 else 0
        item := some item
        tree := ⟨some node, if added then tree.size + 1 else tree.size, m.setRed node false⟩ }

/-- The loop body after the fix of a red violation. -/
def compareAndTurn (w : Walk α) (q : Nat) (added : Bool) (m : Memory α) : State α :=
  match m.data q with
  | none => .crashed
  | some x =>
    let comp := if x = data then 0 else compare x data
    if comp = 0 then finish tree m (m.ch none true) x added
    else
      let dir := decide (comp < 0)
      .walking
        { mem := m
          t := if w.g = none then w.t else w.g
          g := w.p
          p := some q
          q := m.ch (some q) dir
          dir := dir
          last := w.dir }

def walkStep (w : Walk α) : State α :=
  match arrive memory data w with
  | .crashed => .crashed
  | .outOfMemory m => .returned ⟨isoOutOfMem, none, { tree with mem := m }⟩
  | .at q added m =>
    match fixViolation w q m with
    | none => .crashed
    | some m => compareAndTurn compare tree data w q added m

def step : State α → State α
  | .walking w => walkStep compare memory tree data w
  | .returned r => .returned r
  | .crashed => .crashed

/-- iso_rbtree_insert() up to its loop. -/
def start : State α :=
  match tree.root with
  | none =>
    if memory then
      let (root, m) := isoRbnodeNew tree.mem data
      finish tree m (some root) data true
    else .returned ⟨isoOutOfMem, none, tree⟩
  | some root =>
    .walking
      { mem := { tree.mem with
          ch := fun o d => if o = none then if d then some root else none else tree.mem.ch o d }
        t := none
        g := none
        p := none
        q := some root
        dir := false
        last := false }

/-- iso_rbtree_insert() of `data`, where malloc() succeeds if `memory`. -/
def Returns (r : Returned α) : Prop :=
  ∃ n, (step compare memory tree data)^[n] (start memory tree data) = .returned r

end Code

section Listing

/-- rbtree_to_array_aux() on the array as filled up to now. The result is `none` if the recursion
is deeper than `fuel`. -/
def rbtreeToArrayAux (m : Memory α) (includeItem : α → Bool) :
    Nat → Option Nat → List α → Option (List α)
  | 0, _, _ => none
  | _ + 1, none, array => some array
  | fuel + 1, some root, array =>
    match m.data root, rbtreeToArrayAux m includeItem fuel (m.ch (some root) false) array with
    | some x, some array =>
      let array := if includeItem x then array ++ [x] else array
      rbtreeToArrayAux m includeItem fuel (m.ch (some root) true) array
    | _, _ => none

/-- iso_rbtree_to_array() with enough memory, without the terminating NULL. A NULL pointer as
`include_item` includes everything. -/
def isoRbtreeToArray (includeItem : α → Bool) (fuel : Nat) (tree : IsoRBTree α) :
    Option (List α) :=
  rbtreeToArrayAux tree.mem includeItem fuel tree.root []

end Listing

end RbTree
