import Libisofs.NodeCmp
import Libisofs.Lib.Qsort
import Mathlib.Algebra.Ring.Nat

/-!
# Hard link families

match_hardlinks() of ecma119_tree.c with family_set_ino() and the inode number
generator img_give_ino_number() of image.c. Allocation of the node array succeeds. At this stage each
Ecma119Node is made for an IsoNode of its own, and its type follows from that node.
-/

namespace HardLinks

open StreamCmp NodeCmp CLibrary

/-- enum ecma119_node_type, without the placeholders which are made later. -/
inductive Ecma119NodeType where
  | file
  | dir
  | symlink
  | special
  deriving DecidableEq

structure Ecma119Node where
  addr : Nat
  node : IsoNode
  ino : Nat
  nlink : Nat

def Ecma119Node.type (n : Ecma119Node) : Ecma119NodeType :=
  match n.node.body with
  | .dir => .dir
  | .file _ | .boot => .file
  | .symlink .. => .symlink
  | .special .. => .special

/-- A node with the children which it has if it is a directory. -/
inductive Ecma119Tree where
  | mk (self : Ecma119Node) (children : List Ecma119Tree)

mutual

/-- What a child puts into the array: itself and, as a directory, all below it. -/
def makeChildArray : Ecma119Tree → List Ecma119Node
  | .mk self children =>
    self :: (if self.type = .dir then makeChildrenArray children else [])

def makeChildrenArray : List Ecma119Tree → List Ecma119Node
  | [] => []
  | child :: rest => makeChildArray child ++ makeChildrenArray rest

end

/-- The array for a whole tree. The root gets registered first. -/
def makeNodeArray : Ecma119Tree → List Ecma119Node
  | .mk dir children => dir :: makeChildrenArray children

def ecma119NodeCmpFlag (classAddr : IsoStreamIface → Nat) (flag : Nat) (n1 n2 : Ecma119Node)
    (ranks : Ranks) : Int × Ranks :=
  if n1.addr = n2.addr then (0, ranks)
  else isoNodeCmpFlag classAddr n1.node n2.node (flag &&& 3) ranks

def ecma119NodeCmpHard (classAddr : IsoStreamIface → Nat) :
    Ecma119Node → Ecma119Node → Ranks → Int × Ranks :=
  ecma119NodeCmpFlag classAddr 1

def ecma119NodeCmpNohard (classAddr : IsoStreamIface → Nat) :
    Ecma119Node → Ecma119Node → Ranks → Int × Ranks :=
  ecma119NodeCmpFlag classAddr 3

/-- A node of the image tree. A directory has children. -/
inductive IsoTree where
  | other (node : IsoNode)
  | dir (node : IsoNode) (children : List IsoTree)

/-- The tree of an image and its inode number management. `usedInodes` holds the byte and bit
indice of the bits which are set, `memory` tells which of the requests to come get memory. -/
structure IsoImage where
  root : IsoNode
  children : List IsoTree
  inodeCounter : Nat
  usedInodes : Option (List (Nat × Nat))
  usedInodesStart : Nat
  memory : Nat → Bool

/-- ISO_USED_INODE_RANGE. -/
def isoUsedInodeRange : Nat := 2 ^ 18

/-- The variable limit of img_give_ino_number(). -/
def inoLimit : Nat := 0xffffffff

def inodeBit (start ino : Nat) : Nat × Nat := ((ino - start) / 8, ino % 8)

def imgRegisterIno (node : IsoNode) (image : IsoImage) : IsoImage :=
  let (ret, id) := isoNodeGetId node 1
  let start := image.usedInodesStart
  if 0 < ret ∧ start ≤ id.inoId ∧ id.inoId ≤ start + (isoUsedInodeRange - 1) then
    { image with usedInodes := some (inodeBit start id.inoId :: image.usedInodes.getD []) }
  else image

/-- The next request for memory. -/
def allocate (image : IsoImage) : Bool × IsoImage :=
  (image.memory 0, { image with memory := fun i => image.memory (i + 1) })

/-- The begin of img_collect_inos(), up to the iterator of iso_dir_get_children(). -/
def beginCollect (recursion : Bool) (dir : IsoNode) (image : IsoImage) : Bool × IsoImage :=
  match image.usedInodes with
  | none =>
    let (calloc, image) := allocate image
    if !calloc then (false, image)
    else allocate (imgRegisterIno dir { image with usedInodes := some [] })
  | some _ =>
    if !recursion then allocate (imgRegisterIno dir { image with usedInodes := some [] })
    else allocate image

mutual

/-- A turn of the loop over the children, with the call for a subdirectory. -/
def collectChild : IsoTree → IsoImage → Bool × IsoImage
  | .other node, image => (true, imgRegisterIno node image)
  | .dir node children, image =>
    let (ok, image) := beginCollect true node (imgRegisterIno node image)
    if !ok then (false, image) else collectChildren children image

def collectChildren : List IsoTree → IsoImage → Bool × IsoImage
  | [], image => (true, image)
  | child :: rest, image =>
    let (ok, image) := collectChild child image
    if !ok then (false, image) else collectChildren rest image

end

/-- img_collect_inos() for the root directory with flag 0. It fails if memory is short. -/
def imgCollectInos (image : IsoImage) : Bool × IsoImage :=
  let (ok, image) := beginCollect false image.root image
  if !ok then (false, image) else collectChildren image.children image

/-- One turn of the search in used territory begins with the next range of numbers if
the current one is exhausted. -/
def nextRange (newIno : Nat) (image : IsoImage) : Bool × Nat × IsoImage :=
  if newIno = 0 ∨ newIno > inoLimit ∨ newIno ≥ image.usedInodesStart + isoUsedInodeRange then
    let start := image.usedInodesStart + isoUsedInodeRange
    let start := if start > 0xffffffff then 0 else start
    let (ok, image) := imgCollectInos { image with usedInodesStart := start }
    (ok, if ok then start + (if start = 0 then 1 else 0) else newIno, image)
  else (true, newIno, image)

/-- The result, also of a failed search, as uint32_t. -/
def returnResult (newIno : Nat) (image : IsoImage) : Nat × IsoImage :=
  (newIno % 2 ^ 32, { image with inodeCounter := newIno % 2 ^ 32 })

/-- The search for a free number. With `fuel` exhausted there is none, because all
numbers have been visited several times. The C loop then never ends. It neither returns anything
if it looks up a number below the window, far outside of the bitmap. -/
def searchIno : Nat → Nat → IsoImage → Option (Nat × IsoImage)
  | 0, _, _ => none
  | fuel + 1, newIno, image =>
    let (ok, newIno, image) := nextRange newIno image
    if !ok then some (returnResult newIno image)
    else if newIno < image.usedInodesStart then none
    else
      let used := image.usedInodes.getD []
      let bit := inodeBit image.usedInodesStart newIno
      if bit ∈ used then searchIno fuel (newIno + 1) image
      else some (returnResult newIno { image with usedInodes := some (bit :: used) })

/-- img_give_ino_number() with flag 0. -/
def imgGiveInoNumber (image : IsoImage) : Option (Nat × IsoImage) :=
  let newIno := image.inodeCounter + 1
  if image.usedInodes = none ∧ newIno ≤ inoLimit then
    some (newIno, { image with inodeCounter := newIno })
  else searchIno (2 ^ 34) newIno image

/-- The image inode number of a node, or 0. -/
def Ecma119Node.imgIno (n : Ecma119Node) : Nat := (isoNodeGetId n.node 1).2.inoId

def familySetIno (image : IsoImage) (family : List Ecma119Node) (imgIno prevIno : Nat) :
    Option (List Ecma119Node × IsoImage) :=
  let imgIno :=
    if imgIno ≠ 0 then
      -- the same number as in the previous family, or not in the 32 bit range
      if imgIno = prevIno then 0 else if imgIno > 0xffffffff then 0 else imgIno
    else imgIno
  let numbered := fun ino => family.map fun n => { n with ino := ino, nlink := family.length }
  if imgIno = 0 then (imgGiveInoNumber image).map fun given => (numbered given.1, given.2)
  else some (numbered imgIno, image)

/-- The test whether nodes[i] is "still in same ino family". -/
def sameFamily (classAddr : IsoStreamIface → Nat) (last n : Ecma119Node) (ranks : Ranks) :
    Bool × Ranks :=
  if n.type = .dir then (false, ranks)
  else
    let (ret, ranks) := ecma119NodeCmpHard classAddr last n ranks
    (decide (ret = 0), ranks)

/-- The loop of match_hardlinks(). `family` are the nodes from `family_start` on, `last`
is the one of them which was visited most recently. -/
def matchLoop (classAddr : IsoStreamIface → Nat) (first : Ecma119Node)
    (family : List Ecma119Node) (last : Ecma119Node) (imgIno prevIno : Nat) (image : IsoImage) :
    List Ecma119Node → Ranks → Option (List Ecma119Node × IsoImage × Ranks)
  | [], ranks => do
    let (numbered, image) ← familySetIno image family imgIno prevIno
    some (numbered, image, ranks)
  | n :: rest, ranks =>
    let (same, ranks) := sameFamily classAddr last n ranks
    if same then
      -- "Just in case any member knows its img_ino", but asked is the first node of all
      let imgIno := if imgIno = 0 then first.imgIno else imgIno
      matchLoop classAddr first (family ++ [n]) n imgIno prevIno image rest ranks
    else do
      let (numbered, image) ← familySetIno image family imgIno prevIno
      let (more, image, ranks) ← matchLoop classAddr first [n] n n.imgIno imgIno image rest ranks
      some (numbered ++ more, image, ranks)

/-- The result is the array of nodes with their new numbers. -/
def matchHardlinks (qsort : RecordingQsort) (classAddr : IsoStreamIface → Nat)
    (hardlinks : Bool) (image : IsoImage) (ranks : Ranks) (dir : Ecma119Tree) :
    Option (List Ecma119Node × IsoImage × Ranks) :=
  let cmp := if hardlinks then ecma119NodeCmpHard classAddr else ecma119NodeCmpNohard classAddr
  let (nodes, ranks) := qsort.run cmp (makeNodeArray dir) ranks
  match nodes with
  | [] => some ([], image, ranks)
  | first :: rest => matchLoop classAddr first [first] first first.imgIno 0 image rest ranks

end HardLinks
