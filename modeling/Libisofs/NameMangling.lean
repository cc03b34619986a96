import Libisofs.Ecma119Tree
import Libisofs.Lib.ChainedTables

/-!
# Mangling with a hash table

mangle_single_dir() of iso1999.c and the one of joliet.c differ in the units of names and in how
the name and the extension are cut. The hash table holds the names of all children, duplicates
included. A new name gets into the table only if there is memory for it, which is not checked.
-/

namespace NameMangling

open Identifiers (IsoError)
open CLibrary ThreeWay SortedFamilies Results ChainedTables

variable {Key Stem : Type} [DecidableEq Key]

/-- What the two functions do differently. -/
structure Scheme (Key Stem : Type) where
  hash : Key → Nat
  cmp : Key → Key → Int
  /-- The name of the first child as it is cut to leave room for the number. -/
  stem : (digits : Nat) → (isDir : Bool) → Key → Except IsoError Stem
  candidate : Stem → (digits change : Nat) → Key
  /-- Whether memory is needed to compose a candidate. -/
  allocates : Bool

/-- Which requests for memory succeed. The new names of the program run are counted. -/
structure Memory where
  buffers : Bool
  table : Bool
  added : Nat → Bool
  composed : (names change : Nat) → Bool
  duplicated : Nat → Bool
  /-- The result of iso_htable_add() which is not checked. -/
  stored : Nat → Bool

structure Child (Key : Type) where
  node : Nat
  isDir : Bool
  name : KeyPtr Key

def Child.setName (name : KeyPtr Key) (child : Child Key) : Child Key := { child with name := name }

/-- The hash table, the next pointer from strdup(), and the number of new names up to now. -/
structure State (Key : Type) where
  table : Table Key
  next : Nat
  names : Nat

section Mangle

variable (s : Scheme Key Stem) (m : Memory)

/-- The loop around the composing of a name and iso_htable_get(), with `left` numbers to try. -/
def findFree (table : Table Key) (stem : Stem) (digits names : Nat) :
    (left change : Nat) → Except IsoError (Option (Key × Nat))
  | 0, change => if s.allocates && !m.composed names change then .error .outOfMem else .ok none
  | left + 1, change =>
    if s.allocates && !m.composed names change then .error .outOfMem
    else
      let tmp := s.candidate stem digits change
      if table.get tmp then findFree table stem digits names left (change + 1)
      else .ok (some (tmp, change + 1))

/-- The table after a child has got a new name. -/
def retable (table : Table Key) (old new : KeyPtr Key) (stored : Bool) : Table Key :=
  if stored then (table.removePtr old).add new else table.removePtr old

/-- "change name of each file" -/
def renameGroup (stem : Stem) (digits : Nat) :
    State Key → (renamed rest : List (Child Key)) → (change : Nat) →
      Except IsoError (State Key × List (Child Key) × Bool)
  | st, renamed, [], _ => .ok (st, renamed, true)
  | st, renamed, child :: rest, change => do
    match ← findFree s m st.table stem digits st.names (10 ^ digits - change) change with
    | none => .ok (st, renamed ++ child :: rest, false)
    | some (tmp, change) =>
      if !m.duplicated st.names then .error .outOfMem
      else
        let new : KeyPtr Key := ⟨st.next, tmp⟩
        let table := retable st.table child.name new (m.stored st.names)
        renameGroup stem digits ⟨table, st.next + 1, st.names + 1⟩
          (renamed ++ [child.setName new]) rest change

/-- The loop over the number of digits. -/
def mangleGroup : (attempts digits : Nat) → State Key → List (Child Key) →
    Except IsoError (State Key × List (Child Key))
  | 0, _, _, _ => .error .mangleTooMuchFiles
  | _, _, st, [] => .ok (st, [])
  | attempts + 1, digits, st, first :: rest => do
    let stem ← s.stem digits first.isDir first.name.key
    let (st, group, ok) ← renameGroup s m stem digits st [] (first :: rest) 0
    if ok then pure (st, group) else mangleGroup attempts (digits + 1) st group

def cmpNode (f g : Child Key) : Int := s.cmp f.name.key g.name.key

def sameName (f g : Child Key) : Bool := cmpNode s f g = 0

/-- Neighbours with the same name. -/
def groups : List (Child Key) → List (List (Child Key))
  | [] => []
  | child :: rest => families (sameName s) [child] child rest

/-- The main loop. The flag is need_sort. -/
def mangleGroups : State Key → (done : List (Child Key)) → (needSort : Bool) →
    List (List (Child Key)) → Except IsoError (List (Child Key) × Bool)
  | _, done, needSort, [] => .ok (done, needSort)
  | st, done, needSort, group :: more =>
    if group.length ≤ 1 then mangleGroups st (done ++ group) needSort more
    else do
      let (st, group) ← mangleGroup s m 7 1 st group
      mangleGroups st (done ++ group) true more

/-- The names of the children get into the table. -/
def addNames : Table Key → (i : Nat) → List (Child Key) → Except IsoError (Table Key)
  | table, _, [] => .ok table
  | table, i, child :: rest =>
    if m.added i then addNames (table.add child.name) (i + 1) rest else .error .outOfMem

/-- The children of a directory. The pointers of their names differ, and strdup() returns
others. -/
structure Dir (Key : Type) where
  children : List (Child Key)
  next : Nat
  names : Nat
  pointers : (children.map fun child => child.name.ptr).Nodup
  old : ∀ child ∈ children, child.name.ptr < next

/-- The number of children in an `int` variable. -/
def Dir.nchildren (dir : Dir Key) : Int := (BitVec.ofNat 32 dir.children.length).toInt

/-- The children which the loops get to see. -/
def Dir.handled (dir : Dir Key) : List (Child Key) := dir.children.take dir.nchildren.toNat

/-- `(nchildren * 100) / 80` as `int`, where the product wraps around. -/
def tableSize (nchildren : Int) : Int := (BitVec.ofInt 32 (nchildren * 100)).toInt.tdiv 80

/-- `iso_htable_create()`. A negative number becomes a `size_t` for which there is no memory. -/
def createTable (size : Int) : Except IsoError (Table Key) :=
  if size = 0 then .error .wrongArgValue
  else if size < 0 ∨ m.table = false then .error .outOfMem
  else .ok (create size.toNat s.hash)

def fillTable (dir : Dir Key) : Except IsoError (Table Key) := do
  let table ← createTable s m (tableSize dir.nchildren)
  addNames m table 0 dir.handled

/-- `mangle_single_dir()` -/
def mangleSingleDir (qsort : Qsort) (dir : Dir Key) : Except IsoError (List (Child Key)) :=
  if dir.nchildren ≤ 0 then .ok dir.children
  else if !m.buffers then .error .outOfMem
  else do
    let table ← fillTable s m dir
    let (children, needSort) ←
      mangleGroups s m ⟨table, dir.next, dir.names⟩ [] false (groups s dir.handled)
    pure ((if needSort then qsort.run (cmpNode s) children else children) ++
      dir.children.drop dir.nchildren.toNat)

end Mangle

end NameMangling
