import Libisofs.RecursiveAdd

/-!
# Cloning of trees

iso_tree_clone() without its flag for merging, of tree.c, with iso_node_clone_xinfo() and
iso_node_remove_tree() of node.c. A node which shall be cloned may be in the tree which gets
the clone, even above the target directory. So the children of a directory are read only after
the new directory has been taken out of the tree.
-/

namespace TreeClone

open RecursiveAdd (isoDirFind isoDirExists)
open SymlinkTarget (Bytes IsoError isoNodeIsValidName isoNodeIsValidLinkDest)
open ThreeWay (strcmp strcmp_eq_zero strcmp_self strcmp_lt_trans)

section Nodes

/-- What iso_tree_copy_node_attr() copies, except the extended info. -/
structure Attr where
  mode : Nat
  uid : Nat
  gid : Nat
  atime : Int
  mtime : Int
  ctime : Int
  hidden : Nat

/-- IsoExtendedInfo. The function `proc` tells the kind of the data. -/
structure XInfo (Proc Data : Type) where
  proc : Proc
  data : Data

structure Head (Proc Data : Type) where
  name : Bytes
  attr : Attr
  xinfo : List (XInfo Proc Data)

/-- fs_id, st_dev and st_ino of symbolic links and special files. -/
structure Inode where
  fsId : Nat
  stDev : Nat
  stIno : Nat
  deriving DecidableEq

inductive Leaf (Stream : Type) where
  | file (stream : Stream) (sortWeight : Int) (explicitWeight fromOldSession : Bool)
  | symlink (dest : Bytes) (inode : Inode)
  | special (dev : Nat) (inode : Inode)
  | boot
  deriving DecidableEq

inductive IsoNode (Stream Proc Data : Type) where
  | leaf (head : Head Proc Data) (content : Leaf Stream)
  | dir (head : Head Proc Data) (children : List (IsoNode Stream Proc Data))

variable {Stream Proc Data : Type}

namespace IsoNode

def head : IsoNode Stream Proc Data → Head Proc Data
  | .leaf head _ => head
  | .dir head _ => head

def withHead (head : Head Proc Data) : IsoNode Stream Proc Data → IsoNode Stream Proc Data
  | .leaf _ content => .leaf head content
  | .dir _ children => .dir head children

def name (node : IsoNode Stream Proc Data) : Bytes := node.head.name

def mapLeaf (f : Leaf Stream → Leaf Stream) : IsoNode Stream Proc Data → IsoNode Stream Proc Data
  | .leaf head content => .leaf head (f content)
  | .dir head children => .dir head children

end IsoNode

def names (children : List (IsoNode Stream Proc Data)) : List Bytes := children.map IsoNode.name

mutual

/-- iso_node_add_xinfo() adds no second info of a kind, and the children of a directory are
kept sorted by their names, which are unique there. -/
def WellFormed : IsoNode Stream Proc Data → Prop
  | .leaf head _ => (head.xinfo.map XInfo.proc).Nodup
  | .dir head children => (head.xinfo.map XInfo.proc).Nodup ∧
    (names children).Pairwise (fun a b => strcmp a b < 0) ∧ AllWellFormed children

def AllWellFormed : List (IsoNode Stream Proc Data) → Prop
  | [] => True
  | node :: rest => WellFormed node ∧ AllWellFormed rest

end

/-- The functions which copy streams and extended info. A copy of extended info has the same
data. Streams of class version below 4 and infos without a registered cloner cannot be copied. -/
structure Cloners (Stream Proc Data : Type) where
  stream : Stream → Except Int Stream
  xinfo : Proc → Option (Data → Except Int Data)
  xinfo_copies : ∀ proc clone old new, xinfo proc = some clone → clone old = .ok new → new = old

inductive Error where
  | nodeNameNotUnique
  | wrongArgValue
  | invalid (error : IsoError)
  | noStreamClone (ret : Int)
  | xinfoNoClone
  | xinfoClone (ret : Int)

end Nodes

section Adding

variable {Stream Proc Data : Type}

/-- A node which is linked into the list of children. -/
structure Placed (Stream Proc Data : Type) where
  before : List (IsoNode Stream Proc Data)
  node : IsoNode Stream Proc Data
  after : List (IsoNode Stream Proc Data)

def Placed.children (placed : Placed Stream Proc Data) : List (IsoNode Stream Proc Data) :=
  placed.before ++ placed.node :: placed.after

/-- iso_node_take(): the children which are left. -/
def Placed.take (placed : Placed Stream Proc Data) : List (IsoNode Stream Proc Data) :=
  placed.before ++ placed.after

/-- The place which iso_dir_find() tells. -/
def place (children : List (IsoNode Stream Proc Data)) (node : IsoNode Stream Proc Data) :
    Placed Stream Proc Data :=
  let pos := isoDirFind (names children) node.name
  ⟨children.take pos, node, children.drop pos⟩

/-- iso_dir_add_node() and iso_dir_insert() with ISO_REPLACE_NEVER. -/
def isoDirAddNode (children : List (IsoNode Stream Proc Data)) (node : IsoNode Stream Proc Data) :
    Except Error (Placed Stream Proc Data) :=
  if isoDirExists (names children) node.name then .error .nodeNameNotUnique
  else .ok (place children node)

def sIfmt : Nat := 0xF000
def sIfdir : Nat := 0x4000
def sIfreg : Nat := 0x8000
def sIflnk : Nat := 0xA000

/-- iso_node_set_permissions() on a new node. -/
def withPermissions (fmt mode : Nat) : Nat := fmt ||| (mode &&& 0xFFFF0FFF)

/-- Owner and hiding are taken from the parent, the times are the current time. -/
def newHead (parent : Attr) (now : Int) (name : Bytes) (mode : Nat) : Head Proc Data :=
  ⟨name, { parent with mode := mode, atime := now, mtime := now, ctime := now }, []⟩

/-- What the functions iso_tree_add_new_*() have in common. `valid` is the check of the other
text which gets stored in the node. -/
def addNewNode (children : List (IsoNode Stream Proc Data)) (name : Bytes)
    (valid : Except IsoError Unit) (node : IsoNode Stream Proc Data) :
    Except Error (Placed Stream Proc Data) :=
  if isoDirExists (names children) name then .error .nodeNameNotUnique
  else
    match isoNodeIsValidName name with
    | .error e => .error (.invalid e)
    | .ok () =>
      match valid with
      | .error e => .error (.invalid e)
      | .ok () => isoDirAddNode children node

variable (parent : Attr) (now : Int) (children : List (IsoNode Stream Proc Data)) (name : Bytes)

def isoTreeAddNewDir : Except Error (Placed Stream Proc Data) :=
  addNewNode children name (.ok ())
    (.dir (newHead parent now name (withPermissions sIfdir parent.mode)) [])

def isoTreeAddNewFile (stream : Stream) : Except Error (Placed Stream Proc Data) :=
  addNewNode children name (.ok ())
    (.leaf (newHead parent now name (withPermissions sIfreg 0o444)) (.file stream 0 false false))

def isoTreeAddNewSymlink (dest : Bytes) : Except Error (Placed Stream Proc Data) :=
  addNewNode children name (isoNodeIsValidLinkDest dest)
    (.leaf (newHead parent now name (withPermissions sIflnk 0o777)) (.symlink dest ⟨0, 0, 0⟩))

/-- S_ISLNK(), S_ISREG() or S_ISDIR(). -/
def notSpecial (mode : Nat) : Bool :=
  mode &&& sIfmt = sIflnk || mode &&& sIfmt = sIfreg || mode &&& sIfmt = sIfdir

def isoTreeAddNewSpecial (mode dev : Nat) : Except Error (Placed Stream Proc Data) :=
  if notSpecial mode then .error .wrongArgValue
  else addNewNode children name (.ok ())
    (.leaf (newHead parent now name mode) (.special dev ⟨0, 0, 0⟩))

end Adding

section Cloning

variable {Stream Proc Data : Type} [DecidableEq Proc] (cloners : Cloners Stream Proc Data)

/-- iso_node_add_xinfo(). Nothing happens if there is already an info of this kind. -/
def isoNodeAddXinfo (list : List (XInfo Proc Data)) (info : XInfo Proc Data) :
    List (XInfo Proc Data) :=
  if info.proc ∈ list.map XInfo.proc then list else info :: list

/-- The loop of iso_node_clone_xinfo(). `new` is the list of the new node. It stays as it is if
there is no cloner, and gets emptied if the cloner fails. -/
def isoNodeCloneXinfo : (old new : List (XInfo Proc Data)) →
    Except Error Unit × List (XInfo Proc Data)
  | [], new => (.ok (), new.reverse)
  | info :: old, new =>
    match cloners.xinfo info.proc with
    | none => (.error .xinfoNoClone, new)
    | some clone =>
      match clone info.data with
      | .error ret => (.error (.xinfoClone ret), [])
      | .ok data => isoNodeCloneXinfo old (isoNodeAddXinfo new ⟨info.proc, data⟩)

def isoTreeCopyNodeAttr (old new : Head Proc Data) : Except Error Unit × Head Proc Data :=
  let copied := isoNodeCloneXinfo cloners old.xinfo []
  (copied.1, { new with attr := old.attr, xinfo := copied.2 })

def Leaf.withSortWeight (weight : Int) : Leaf Stream → Leaf Stream
  | file stream _ explicitWeight fromOldSession =>
    file stream weight explicitWeight fromOldSession
  | other => other

def Leaf.withInode (inode : Inode) : Leaf Stream → Leaf Stream
  | symlink dest _ => symlink dest inode
  | special dev _ => special dev inode
  | other => other

def Placed.mapLeaf (placed : Placed Stream Proc Data) (f : Leaf Stream → Leaf Stream) :
    Placed Stream Proc Data :=
  { placed with node := placed.node.mapLeaf f }

variable (now : Int)

section Leaves

variable (parent : Attr) (children : List (IsoNode Stream Proc Data)) (name : Bytes)

def isoTreeCloneFile (stream : Stream) (sortWeight : Int) :
    Except Error (Placed Stream Proc Data) :=
  match cloners.stream stream with
  | .error ret => .error (.noStreamClone ret)
  | .ok new =>
    match isoTreeAddNewFile parent now children name new with
    | .error e => .error e
    | .ok placed => .ok (placed.mapLeaf (Leaf.withSortWeight sortWeight))

def isoTreeCloneSymlink (dest : Bytes) (inode : Inode) : Except Error (Placed Stream Proc Data) :=
  match isoTreeAddNewSymlink parent now children name dest with
  | .error e => .error e
  | .ok placed => .ok (placed.mapLeaf (Leaf.withInode inode))

def isoTreeCloneSpecial (mode dev : Nat) (inode : Inode) : Except Error (Placed Stream Proc Data) :=
  match isoTreeAddNewSpecial parent now children name mode dev with
  | .error e => .error e
  | .ok placed => .ok (placed.mapLeaf (Leaf.withInode inode))

/-- The choice of the function for nodes which are not directories. None is for boot catalogs,
for which no function gets called. -/
def cloneLeaf (mode : Nat) : Leaf Stream → Option (Except Error (Placed Stream Proc Data))
  | .file stream weight _ _ =>
    some (isoTreeCloneFile cloners now parent children name stream weight)
  | .symlink dest inode => some (isoTreeCloneSymlink now parent children name dest inode)
  | .special dev inode => some (isoTreeCloneSpecial now parent children name mode dev inode)
  | .boot => none

end Leaves

/-- The children of the target directory after an error, or the new node among them. -/
inductive CloneResult (Stream Proc Data : Type) where
  | failed (error : Error) (children : List (IsoNode Stream Proc Data))
  | done (placed : Placed Stream Proc Data)

/-- iso_node_remove_tree() on a directory: the children of its boss. The function gives up if
the directory is not grafted into a boss, and so the directory only stays in memory. -/
def isoNodeRemoveTree (boss : Option (Placed Stream Proc Data))
    (children : List (IsoNode Stream Proc Data)) : List (IsoNode Stream Proc Data) :=
  match boss with
  | none => children
  | some placed => placed.take

/-- iso_tree_clone_dir(). The loop is `fill`, to which the children are given which the target
directory has while the new directory is not in it, and the attributes of the new directory. -/
def isoTreeCloneDir (parent : Attr) (children : List (IsoNode Stream Proc Data)) (name : Bytes)
    (fill : List (IsoNode Stream Proc Data) → Attr →
      Option (Except Error Unit × List (IsoNode Stream Proc Data))) :
    Option (CloneResult Stream Proc Data) :=
  match isoTreeAddNewDir parent now children name with
  | .error e => some (.failed e children)
  | .ok placed =>
    match fill placed.take placed.node.head.attr with
    | none => none
    | some (.error e, _) => some (.failed e (isoNodeRemoveTree none placed.take))
    | some (.ok (), subs) =>
      match isoDirAddNode placed.take (.dir placed.node.head subs) with
      | .error e => some (.failed e (isoNodeRemoveTree none placed.take))
      | .ok placed => some (.done placed)

/-- The end of iso_tree_clone_trunc(). -/
def copyAttr (old : Head Proc Data) (placed : Placed Stream Proc Data) :
    CloneResult Stream Proc Data :=
  let copied := isoTreeCopyNodeAttr cloners old placed.node.head
  let placed := { placed with node := placed.node.withHead copied.2 }
  match copied.1 with
  | .error e => .failed e placed.children
  | .ok () => .done placed

/-- iso_tree_clone_trunc() without merging and truncation of names. None is for the use of
*new_node which is NULL, because no node was made for a boot catalog. -/
def cloneTrunc (fill : List (IsoNode Stream Proc Data) → Attr →
      Option (Except Error Unit × List (IsoNode Stream Proc Data)))
    (node : IsoNode Stream Proc Data) (parent : Attr) (children : List (IsoNode Stream Proc Data))
    (name : Bytes) : Option (CloneResult Stream Proc Data) :=
  if isoDirExists (names children) name then some (.failed .nodeNameNotUnique children)
  else
    match node with
    | .dir old _ =>
      match isoTreeCloneDir now parent children name fill with
      | some (.done placed) => some (copyAttr cloners old placed)
      | other => other
    | .leaf old content =>
      match cloneLeaf cloners now parent children name old.attr.mode content with
      | none => none
      | some (.error e) => some (.failed e children)
      | some (.ok placed) => some (copyAttr cloners old placed)

mutual

/-- A new node in a directory which is not in the tree. -/
def cloneSub : IsoNode Stream Proc Data → Attr → List (IsoNode Stream Proc Data) →
    Option (CloneResult Stream Proc Data)
  | .leaf old content, parent, new =>
    cloneTrunc cloners now (fun _ _ => none) (.leaf old content) parent new old.name
  | .dir old subs, parent, new =>
    cloneTrunc cloners now (fun _ attr => cloneSubs subs attr []) (.dir old subs) parent new
      old.name

/-- The loop of iso_tree_clone_dir(), with the children of the new directory. -/
def cloneSubs : List (IsoNode Stream Proc Data) → Attr → List (IsoNode Stream Proc Data) →
    Option (Except Error Unit × List (IsoNode Stream Proc Data))
  | [], _, new => some (.ok (), new)
  | sub :: rest, attr, new =>
    match cloneSub sub attr new with
    | none => none
    | some (.failed e new) => some (.error e, new)
    | some (.done placed) => cloneSubs rest attr placed.children

end

end Cloning

section Images

variable {Stream Proc Data : Type}

def nodeAt : List Bytes → IsoNode Stream Proc Data → Option (IsoNode Stream Proc Data)
  | [], node => some node
  | _ :: _, .leaf _ _ => none
  | name :: path, .dir _ children =>
    match children.find? fun child => child.name = name with
    | none => none
    | some child => nodeAt path child

/-- The tree with other children of the directory at the path. -/
def setChildren : List Bytes → (children : List (IsoNode Stream Proc Data)) →
    IsoNode Stream Proc Data → IsoNode Stream Proc Data
  | _, _, .leaf head content => .leaf head content
  | [], children, .dir head _ => .dir head children
  | name :: path, children, .dir head old =>
    .dir head (old.map fun child =>
      if child.name = name then setChildren path children child else child)

/-- The node to be cloned is in the tree of the target directory, or somewhere else. -/
inductive Source (Stream Proc Data : Type) where
  | inTree (path : List Bytes)
  | apart (node : IsoNode Stream Proc Data)

def Source.read (root : IsoNode Stream Proc Data) :
    Source Stream Proc Data → Option (IsoNode Stream Proc Data)
  | inTree path => nodeAt path root
  | apart node => some node

/-- A call of iso_tree_clone(). -/
structure Request (Stream Proc Data : Type) where
  root : IsoNode Stream Proc Data
  wellFormed_root : WellFormed root
  source : Source Stream Proc Data
  node : IsoNode Stream Proc Data
  read_source : source.read root = some node
  wellFormed_node : WellFormed node
  target : List Bytes
  head : Head Proc Data
  children : List (IsoNode Stream Proc Data)
  nodeAt_target : nodeAt target root = some (.dir head children)
  newName : Bytes

structure Outcome (Stream Proc Data : Type) where
  ret : Except Error Unit
  root : IsoNode Stream Proc Data

variable [DecidableEq Proc] (cloners : Cloners Stream Proc Data) (now : Int)

namespace Request

variable (request : Request Stream Proc Data)

/-- The tree when the target directory has these children. -/
def graft (children : List (IsoNode Stream Proc Data)) : IsoNode Stream Proc Data :=
  setChildren request.target children request.root

/-- The children of the old directory while the target directory has the given ones. -/
def oldChildren (left : List (IsoNode Stream Proc Data)) :
    Option (List (IsoNode Stream Proc Data)) :=
  match request.source.read (request.graft left) with
  | some (.dir _ subs) => some subs
  | _ => none

def fill (left : List (IsoNode Stream Proc Data)) (attr : Attr) :
    Option (Except Error Unit × List (IsoNode Stream Proc Data)) :=
  match request.oldChildren left with
  | none => none
  | some subs => cloneSubs cloners now subs attr []

def outcome : CloneResult Stream Proc Data → Outcome Stream Proc Data
  | .failed e children => ⟨.error e, request.graft children⟩
  | .done placed => ⟨.ok (), request.graft placed.children⟩

end Request

def isoTreeClone (request : Request Stream Proc Data) : Option (Outcome Stream Proc Data) :=
  (cloneTrunc cloners now (request.fill cloners now) request.node request.head.attr
    request.children request.newName).map request.outcome

end Images

section Purpose

variable {Stream Proc Data : Type}

/-- Node types with link targets and device numbers. -/
inductive Kind where
  | file
  | symlink (dest : Bytes)
  | special (dev : Nat)
  | boot

/-- What a copy shall have in common with the original. -/
inductive Shape (Proc Data : Type) where
  | leaf (head : Head Proc Data) (kind : Kind)
  | dir (head : Head Proc Data) (children : List (Shape Proc Data))

def Shape.named (name : Bytes) : Shape Proc Data → Shape Proc Data
  | leaf head kind => .leaf { head with name := name } kind
  | dir head children => .dir { head with name := name } children

def Leaf.kind : Leaf Stream → Kind
  | file _ _ _ _ => .file
  | symlink dest _ => .symlink dest
  | special dev _ => .special dev
  | boot => .boot

def IsoNode.isBoot : IsoNode Stream Proc Data → Bool
  | .leaf _ .boot => true
  | _ => false

mutual

/-- The shape of a node. Boot catalogs among the children are left out on demand. -/
def shape (withBoots : Bool) : IsoNode Stream Proc Data → Shape Proc Data
  | .leaf head content => .leaf head content.kind
  | .dir head children => .dir head (shapes withBoots children)

def shapes (withBoots : Bool) : List (IsoNode Stream Proc Data) → List (Shape Proc Data)
  | [] => []
  | node :: rest =>
    if node.isBoot && !withBoots then shapes withBoots rest
    else shape withBoots node :: shapes withBoots rest

end

/-- The tree without the child of this name in the directory at the path. -/
def without (path : List Bytes) (name : Bytes) (root : IsoNode Stream Proc Data) :
    IsoNode Stream Proc Data :=
  match nodeAt path root with
  | some (.dir _ children) =>
    setChildren path (children.eraseP fun child => child.name = name) root
  | _ => root

/-- After success there is a node with the shape of the old one and the new name, and nothing
else has changed. After an error the target directory is as before. -/
def ClonesOrKeeps (request : Request Stream Proc Data) :
    Option (Outcome Stream Proc Data) → Prop
  | none => False
  | some ⟨.error _, root⟩ => nodeAt request.target root = some (.dir request.head request.children)
  | some ⟨.ok (), root⟩ =>
    (∃ copy, nodeAt (request.target ++ [request.newName]) root = some copy ∧
      shape true copy = (shape false request.node).named request.newName) ∧
    without request.target request.newName root = request.root

end Purpose

section Obstacles

variable {Stream Proc Data : Type} (cloners : Cloners Stream Proc Data)

/-- Why the copying of a tree may end before all is done. -/
inductive Obstacle where
  | refused
  | bootCatalog

def leafRefused (name : Bytes) (mode : Nat) : Leaf Stream → Bool
  | .file stream _ _ _ => !(cloners.stream stream).isOk || !(isoNodeIsValidName name).isOk
  | .symlink dest _ => !(isoNodeIsValidName name).isOk || !(isoNodeIsValidLinkDest dest).isOk
  | .special _ _ => notSpecial mode || !(isoNodeIsValidName name).isOk
  | .boot => false

def xinfoClonable (list : List (XInfo Proc Data)) : Bool :=
  list.all fun info =>
    match cloners.xinfo info.proc with
    | none => false
    | some clone => (clone info.data).isOk

mutual

/-- The first obstacle on the way through the tree, apart from the extended info of its top
node. -/
def obstacle : IsoNode Stream Proc Data → (newName : Bytes) → Option Obstacle
  | .leaf _ .boot, _ => some .bootCatalog
  | .leaf head content, newName =>
    if leafRefused cloners newName head.attr.mode content then some .refused else none
  | .dir _ children, newName =>
    if (isoNodeIsValidName newName).isOk then obstacles children else some .refused

def obstacles : List (IsoNode Stream Proc Data) → Option Obstacle
  | [] => none
  | node :: rest =>
    match obstacle node node.name with
    | some found => some found
    | none => if xinfoClonable cloners node.head.xinfo then obstacles rest else some .refused

end

/-- The name is in use, or the copying ends because something gets refused below the top node,
or else there is no boot catalog and the extended info of the top node can be copied. -/
def Undisturbed (request : Request Stream Proc Data) : Prop :=
  isoDirExists (names request.children) request.newName = true ∨
    match obstacle cloners request.node request.newName with
    | some .bootCatalog => False
    | some .refused => True
    | none => xinfoClonable cloners request.node.head.xinfo = true

end Obstacles

end TreeClone
