import Libisofs.Identifiers
import Libisofs.Lib.Families
import Libisofs.Lib.Qsort
import Mathlib.Algebra.Ring.Nat

/-!
# The ECMA-119 tree

ecma119_tree_create() of ecma119_tree.c: creation of the low level tree from the tree of
IsoNodes, sorting and mangling of the names, relocation of deep directories, and mangling
of the relocation directory. Allocation succeeds, even in iso_htable_add(), of which
mangle_single_dir() does not check the result, and no directory has so many children
(42949673) that the size of its hash table rolls over as int. The inode numbers which
match_hardlinks() hands out in between are of no influence here.
-/

namespace Ecma119Tree

open Identifiers CLibrary ThreeWay SortedFamilies

/-- LIBISO_HIDE_ON_RR and LIBISO_HIDE_BUT_WRITE. -/
def hideOnRr : Nat := 1
def hideButWrite : Nat := 8

/-- MAX_ISO_FILE_SECTION_SIZE. -/
def maxIsoFileSectionSize : Nat := 0xffffffff

/-- A node of the image tree at its address. `size` is the size of a file's stream. -/
inductive IsoNode where
  | mk (addr : Nat) (name : Option Bytes) (type : IsoNodeType) (hidden size : Nat)
    (children : List IsoNode)

mutual

/-- The addresses of a node and all below it. -/
def IsoNode.addrs : IsoNode → List Nat
  | .mk addr _ _ _ _ children => addr :: IsoNode.addrsOf children

def IsoNode.addrsOf : List IsoNode → List Nat
  | [] => []
  | child :: rest => child.addrs ++ IsoNode.addrsOf rest

end

structure IsoImage where
  root : IsoNode
  distinct : root.addrs.Nodup

inductive Ecma119NodeType where
  | file
  | symlink
  | special

/-- A node is known by the address of its IsoNode. A placeholder takes over the IsoNode of
the directory which it stands for, `realMe` is that directory. -/
inductive Ecma119Node where
  | dir (node : Nat) (isoName : Bytes) (realParent : Option Nat) (children : List Ecma119Node)
  | other (type : Ecma119NodeType) (node : Nat) (isoName : Bytes)
  | placeholder (node : Nat) (isoName : Bytes) (realMe : Nat)

namespace Ecma119Node

def node : Ecma119Node → Nat
  | dir n _ _ _ | other _ n _ | placeholder n _ _ => n

def isoName : Ecma119Node → Bytes
  | dir _ name _ _ | other _ _ name | placeholder _ name _ => name

def isDir : Ecma119Node → Bool
  | dir .. => true
  | other .. | placeholder .. => false

def children : Ecma119Node → List Ecma119Node
  | dir _ _ _ cs => cs
  | other .. | placeholder .. => []

def setName (name : Bytes) : Ecma119Node → Ecma119Node
  | dir n _ rp cs => dir n name rp cs
  | other type n _ => other type n name
  | placeholder n _ realMe => placeholder n name realMe

end Ecma119Node

def names (nodes : List Ecma119Node) : List Bytes := nodes.map Ecma119Node.isoName

/-- The messages which may cause an abort, depending on the severity threshold. -/
inductive IsoMsg where
  | fileImgpathWrong
  | fileIgnored

structure Ecma119Image where
  opts : IsoWriteOpts
  /-- The character set conversion of names. -/
  str2ascii : Bytes → Except IsoError Bytes
  /-- Whether there is a boot catalog. -/
  eltorito : Bool
  msgIsAbort : IsoMsg → Bool
  qsort : Qsort

section Create

variable (image : Ecma119Image)

/-- A node gets ignored with a message. -/
def ignored {α : Type} (msg : IsoMsg) (rr : Option Nat) :
    Except IsoError (Option α × Option Nat) :=
  if image.msgIsAbort msg then .error .canceled else .ok (none, rr)

def createFileSrc (size : Nat) : Except IsoError Unit :=
  if size > maxIsoFileSectionSize ∧ image.opts.isoLevel ≠ 3 then .error .fileTooBig else .ok ()

/-- img->rr_reloc_node after a visible directory has been made for `iso`. -/
def rrRelocNode (addr depth : Nat) (name : Option Bytes) (rr : Option Nat) : Option Nat :=
  if depth = 1 then some addr
  else if depth = 2 ∧ image.opts.rrRelocDir.any (· ≠ []) ∧ name = image.opts.rrRelocDir then
    some addr
  else rr

mutual

/-- The result is the new node, unless `iso` gets ignored, and img->rr_reloc_node. -/
def createTree : IsoNode → (depth pathlen : Nat) → (hidden : Bool) → (rr : Option Nat) →
    Except IsoError (Option Ecma119Node × Option Nat)
  | .mk addr name type hiddenOn size children, depth, pathlen, hidden, rr =>
    if hiddenOn &&& hideOnRr ≠ 0 ∧ ¬ (hiddenOn &&& hideButWrite ≠ 0 ∨ type = .boot) then
      .ok (none, rr)
    else if hidden ∨ hiddenOn &&& hideOnRr ≠ 0 then
      -- nothing but the file sources gets created
      match type with
      | .file => (createFileSrc image size).map fun _ => (none, rr)
      | .symlink | .special => .ok (none, rr)
      | .boot => if image.eltorito then .ok (none, rr) else ignored image .fileIgnored rr
      | .dir =>
        (createChildren children (depth + 1) pathlen true rr).map fun made => (none, made.2)
    else do
      let isoname ← isoGetEcma119Name image.opts image.str2ascii name type
      let isoname := isoname.getD []
      let maxPath := pathlen + 1 + isoname.length
      if !image.opts.rockridge ∧ type = .dir ∧ depth > 8 ∧ !image.opts.allowDeepPaths then
        ignored image .fileImgpathWrong rr
      else if !image.opts.rockridge ∧ maxPath > 255 ∧ !image.opts.allowLongerPaths then
        ignored image .fileImgpathWrong rr
      else
        match type with
        | .file =>
          (createFileSrc image size).map fun _ => (some (.other .file addr isoname), rr)
        | .symlink =>
          if image.opts.rockridge then .ok (some (.other .symlink addr isoname), rr)
          else ignored image .fileIgnored rr
        | .special =>
          if image.opts.rockridge then .ok (some (.other .special addr isoname), rr)
          else ignored image .fileIgnored rr
        | .boot =>
          if image.eltorito then .ok (some (.other .file addr isoname), rr)
          else ignored image .fileIgnored rr
        | .dir =>
          (createChildren children (depth + 1) maxPath false
            (rrRelocNode image addr depth name rr)).map fun made =>
              (some (.dir addr isoname none made.1), made.2)

def createChildren : List IsoNode → (depth pathlen : Nat) → (hidden : Bool) →
    (rr : Option Nat) → Except IsoError (List Ecma119Node × Option Nat)
  | [], _, _, _, rr => .ok ([], rr)
  | pos :: rest, depth, pathlen, hidden, rr => do
    let (child, rr) ← createTree pos depth pathlen hidden rr
    let (more, rr) ← createChildren rest depth pathlen hidden rr
    pure (child.toList ++ more, rr)

end

end Create

def cmpNodeName (f g : Ecma119Node) : Int := strcmp f.isoName g.isoName

section Sorting

variable (image : Ecma119Image)

mutual

/-- The subdirectories get sorted first here. Their names stay as they are. -/
def sortTree : Ecma119Node → Ecma119Node
  | .dir n name rp children => .dir n name rp (image.qsort.run cmpNodeName (sortTrees children))
  | .other type n name => .other type n name
  | .placeholder n name realMe => .placeholder n name realMe

def sortTrees : List Ecma119Node → List Ecma119Node
  | [] => []
  | child :: rest => sortTree child :: sortTrees rest

end

end Sorting

/-- The number `n` with leading zeros. -/
def padded : (digits n : Nat) → Bytes
  | 0, _ => []
  | digits + 1, n => padded digits (n / 10) ++ [UInt8.ofNat (0x30 + n % 10)]

/-- What new names are composed of, besides their number. -/
structure Stem where
  name : Bytes
  ext : Bytes
  dotted : Bool

def Stem.candidate (stem : Stem) (digits change : Nat) : Bytes :=
  stem.name ++ padded digits change ++ (if stem.dotted then [dot] else []) ++ stem.ext

section Mangle

variable (image : Ecma119Image) (maxFileLen maxDirLen : Nat)

/-- The name without `digits` of its characters, and the extension, which is reduced if
nothing would be left of the name. -/
def nameStem (digits : Nat) (first : Ecma119Node) : Except IsoError Stem :=
  let fullName := first.isoName.take 39
  match strrchr dot fullName, (!first.isDir || image.opts.allowDirIdExt : Bool) with
  | some dotPos, true =>
    let name := fullName.take dotPos
    let ext := fullName.drop (dotPos + 1)
    let extlen : Int := if maxFileLen = 12 then 3 else ext.length
    let max : Int := maxFileLen - extlen - 1 - digits
    if max ≤ 0 then
      if extlen + max > 3 then
        let extlen := extlen + max - 1
        let max := maxFileLen - extlen - 1 - digits
        .ok ⟨name.take max.toNat, ext.take extlen.toNat, true⟩
      else .error .error
    else .ok ⟨name.take max.toNat, ext, true⟩
  | _, _ =>
    let max := if first.isDir then maxDirLen - digits else maxFileLen - digits
    .ok ⟨fullName.take max, [], false⟩

/-- The loop around sprintf() and iso_htable_get(), with `left` numbers to try, and the
next number afterwards. The hash table holds the current names of all children. -/
def findFree (table : List Bytes) (stem : Stem) (digits : Nat) :
    (left change : Nat) → Option (Bytes × Nat)
  | 0, _ => none
  | left + 1, change =>
    let tmp := stem.candidate digits change
    if tmp ∈ table then findFree table stem digits left (change + 1) else some (tmp, change + 1)

/-- "change name of each file". If the numbers get exhausted, the names which are already
changed stay so. -/
def renameGroup (others : List Bytes) (stem : Stem) (digits : Nat) (renamed : List Ecma119Node) :
    List Ecma119Node → (change : Nat) → List Ecma119Node × Bool
  | [], _ => (renamed, true)
  | child :: rest, change =>
    match findFree (others ++ names renamed ++ names (child :: rest)) stem digits
        (10 ^ digits - change) change with
    | none => (renamed ++ child :: rest, false)
    | some (new, change) =>
      renameGroup others stem digits (renamed ++ [child.setName new]) rest change

/-- The loop over the number of digits. `others` are the names of the other children. -/
def mangleGroup (others : List Bytes) :
    (attempts digits : Nat) → List Ecma119Node → Except IsoError (List Ecma119Node)
  | 0, _, _ => .error .mangleTooMuchFiles
  | _, _, [] => .ok []
  | attempts + 1, digits, first :: rest => do
    let stem ← nameStem image maxFileLen maxDirLen digits first
    let (group, ok) := renameGroup others stem digits [] (first :: rest) 0
    if ok then pure group else mangleGroup others attempts (digits + 1) group

def sameName (f g : Ecma119Node) : Bool := cmpNodeName f g = 0

/-- Neighbours with the same name. -/
def groups : List Ecma119Node → List (List Ecma119Node)
  | [] => []
  | child :: rest => families sameName [child] child rest

/-- The main loop. `done` are the children which it has passed, and the flag is
need_sort. -/
def mangleGroups (done : List Ecma119Node) (needSort : Bool) :
    List (List Ecma119Node) → Except IsoError (List Ecma119Node × Bool)
  | [] => .ok (done, needSort)
  | group :: more =>
    if group.length ≤ 1 then mangleGroups (done ++ group) needSort more
    else if image.opts.untranslatedNameLen > 0 then .error .nameNeedsTransl
    else do
      let group ← mangleGroup image maxFileLen maxDirLen (names done ++ names more.flatten) 7 1 group
      mangleGroups (done ++ group) true more

def mangleSingleDir (children : List Ecma119Node) : Except IsoError (List Ecma119Node) := do
  let (children, needSort) ← mangleGroups image maxFileLen maxDirLen [] false (groups children)
  pure (if needSort then image.qsort.run cmpNodeName children else children)

mutual

/-- The subdirectories are mangled first here, which makes a difference only for the
error, if several directories cannot be mangled. -/
def mangleDir : Ecma119Node → Except IsoError Ecma119Node
  | .dir n name rp children => do
    let children ← mangleDirs children
    let children ← mangleSingleDir image maxFileLen maxDirLen children
    pure (.dir n name rp children)
  | .other type n name => .ok (.other type n name)
  | .placeholder n name realMe => .ok (.placeholder n name realMe)

def mangleDirs : List Ecma119Node → Except IsoError (List Ecma119Node)
  | [] => .ok []
  | child :: rest => do
    let child ← mangleDir child
    let rest ← mangleDirs rest
    pure (child :: rest)

end

end Mangle

/-- img->rr_reloc_node: the root or a directory in the root. -/
structure RelocDir where
  node : Nat
  isRoot : Bool
  isoName : Bytes

def findDir (node : Nat) (children : List Ecma119Node) : Option Ecma119Node :=
  children.find? fun child => child.isDir && child.node == node

def relocDir (root : Ecma119Node) (rr : Option Nat) : RelocDir :=
  match rr.bind (findDir · root.children) with
  | some child => ⟨child.node, false, child.isoName⟩
  | none => ⟨root.node, true, root.isoName⟩

def maxChildNameLen (children : List Ecma119Node) : Nat :=
  (names children).foldl (fun ret name => max ret name.length) 0

section Reorder

variable (opts : IsoWriteOpts) (reloc : RelocDir)

/-- ecma119_is_dedicated_reloc_dir(). -/
def isDedicatedRelocDir (node : Nat) : Bool :=
  node = reloc.node ∧ !reloc.isRoot ∧ opts.rrRelocFlags &&& 2 ≠ 0

/-- The variables level and pathlen after a directory has been relocated into a directory
which is not the root. -/
def relocatedLevel : Nat := if opts.rrRelocDir.any (· ≠ []) then 3 else 2

def relocatedPathlen : Nat :=
  37 + 1 + (if opts.rrRelocDir.isSome then reloc.isoName.length + 1 else 0)

mutual

/-- The nodes which reparent() appends to the children of the relocation directory are
kept apart as `moved`. The result is what stands at the place of `dir`, and `moved`. There
is none if `fuel` does not suffice, or if `dir` has no other directory to go to. -/
def reorderTree : (fuel : Nat) → (parent : Option Nat) → (dir : Ecma119Node) →
    (level pathlen : Nat) → (moved : List Ecma119Node) →
    Option (Ecma119Node × List Ecma119Node)
  | fuel + 1, parent, .dir n name rp children, level, pathlen, moved =>
    let current := if n = reloc.node then children ++ moved else children
    let maxPath := pathlen + 1 + maxChildNameLen current
    if level > 8 ∨ maxPath > 255 then
      match parent with
      | none => none
      | some parent =>
        if n = reloc.node then none
        else if reloc.isRoot then
          -- "the root will hit us again"
          some (.placeholder n name n, moved ++ [.dir n name (some parent) children])
        else do
          let (children', moved') ← reorderChildren fuel n children (relocatedLevel opts)
            (relocatedPathlen opts reloc) (moved ++ [.dir n name (some parent) children])
          some (.placeholder n name n, moved'.set moved.length (.dir n name (some parent) children'))
    else if isDedicatedRelocDir opts reloc n then some (.dir n name rp children, moved)
    else do
      let (children, moved) ← reorderChildren fuel n children level pathlen moved
      if n = reloc.node then
        let moved ← reorderMoved fuel n 0 level pathlen moved
        some (.dir n name rp children, moved)
      else some (.dir n name rp children, moved)
  | _, _, _, _, _, _ => none
termination_by structural fuel => fuel

/-- The loop over the children of directory `n`. -/
def reorderChildren : (fuel n : Nat) → (children : List Ecma119Node) →
    (level pathlen : Nat) → (moved : List Ecma119Node) →
    Option (List Ecma119Node × List Ecma119Node)
  | fuel + 1, n, child :: rest, level, pathlen, moved => do
    let (child, moved) ←
      (if child.isDir then
        reorderTree fuel (some n) child (level + 1) (pathlen + 1 + child.isoName.length) moved
      else some (child, moved))
    let (rest, moved) ← reorderChildren fuel n rest level pathlen moved
    some (child :: rest, moved)
  | _ + 1, _, [], _, _, moved => some ([], moved)
  | 0, _, _, _, _, _ => none
termination_by structural fuel => fuel

/-- The loop goes on with the children which the relocation directory `n` has got, and gets
while the loop is running. -/
def reorderMoved : (fuel n i level pathlen : Nat) → (moved : List Ecma119Node) →
    Option (List Ecma119Node)
  | fuel + 1, n, i, level, pathlen, moved =>
    match moved[i]? with
    | none => some moved
    | some child => do
      let (child, moved) ←
        (if child.isDir then
          reorderTree fuel (some n) child (level + 1) (pathlen + 1 + child.isoName.length) moved
        else some (child, moved))
      reorderMoved fuel n (i + 1) level pathlen (moved.set i child)
  | 0, _, _, _, _, _ => none
termination_by structural fuel => fuel

end

end Reorder

/-- Application of `f` to the children array of directory `node` in `children`. -/
def inDir (node : Nat) (f : List Ecma119Node → Except IsoError (List Ecma119Node)) :
    List Ecma119Node → Except IsoError (List Ecma119Node)
  | [] => .ok []
  | child :: rest =>
    match child with
    | .dir n name rp children =>
      if n = node then do
        let children ← f children
        pure (.dir n name rp children :: rest)
      else (inDir node f rest).map (child :: ·)
    | .other .. | .placeholder .. => (inDir node f rest).map (child :: ·)

/-- Application of `f` to the children array of the relocation directory. -/
def atReloc (reloc : RelocDir) (f : List Ecma119Node → Except IsoError (List Ecma119Node)) :
    Ecma119Node → Except IsoError Ecma119Node
  | .dir n name rp children => do
    let children ← (if reloc.isRoot then f children else inDir reloc.node f children)
    pure (.dir n name rp children)
  | leaf => .ok leaf

/-- Why ecma119_tree_create() does not succeed: an error, or it has not come to an end. -/
inductive Failure where
  | error (e : IsoError)
  | assertFailure
  | notFinished

def orError {α : Type} : Except IsoError α → Except Failure α
  | .ok a => .ok a
  | .error e => .error (.error e)

def orNotFinished {α : Type} : Option α → Except Failure α
  | some a => .ok a
  | none => .error .notFinished

section Pipeline

variable (image : Ecma119Image) (iso : IsoImage)

/-- The steps until the first mangling. The second result is img->rr_reloc_node. -/
def mangledTree : Except Failure (Ecma119Node × Option Nat) := do
  let (made, rr) ← orError (createTree image iso.root 1 0 false none)
  match made with
  | none => .error .assertFailure
  | some root =>
    let (maxFile, maxDir) := mangleLimits image.opts
    let root ← orError (mangleDir image maxFile maxDir (sortTree image root))
    pure (root, rr)

/-- "Relocate deep directories, according to RRIP, 4.1.5". -/
def relocates : Bool := image.opts.rockridge ∧ !image.opts.allowDeepPaths

/-- The tree as reorder_tree() leaves it, and the nodes which it has appended to the
children of the relocation directory. -/
def reorderedTree (fuel : Nat) : Except Failure (Ecma119Node × List Ecma119Node × RelocDir) := do
  let (root, rr) ← mangledTree image iso
  let reloc := relocDir root rr
  let (root, moved) ← orNotFinished (reorderTree image.opts reloc fuel none root 1 0 [])
  pure (root, moved, reloc)

def ecma119TreeCreate (fuel : Nat) : Except Failure Ecma119Node := do
  if relocates image then
    let (root, moved, reloc) ← reorderedTree image iso fuel
    let (maxFile, maxDir) := mangleLimits image.opts
    orError (atReloc reloc (fun own => mangleSingleDir image maxFile maxDir (own ++ moved)) root)
  else
    let (root, _) ← mangledTree image iso
    pure root

end Pipeline

section DeepTree

def plainOpts : IsoWriteOpts where
  isoLevel := 3
  rockridge := true
  allowDirIdExt := false
  allowDeepPaths := false
  allowLongerPaths := false
  max37CharFilenames := false
  noForceDots := 0
  allowLowercase := false
  allowFullAscii := false
  allow7bitAscii := false
  untranslatedNameLen := 0
  untranslatedNameLen_le := by decide
  rrRelocDir := none
  rrRelocFlags := 0

def plainImage : Ecma119Image where
  opts := plainOpts
  str2ascii name := .ok name
  eltorito := false
  msgIsAbort _ := false
  qsort := smallQsort

/-- Directories B, C, D, ... with `depth` levels, and directory A at their end. -/
def isoChain : (depth addr : Nat) → IsoNode
  | 0, addr => .mk addr (some [0x41]) .dir 0 0 []
  | depth + 1, addr =>
    .mk addr (some [UInt8.ofNat (0x41 + addr)]) .dir 0 0 [isoChain depth (addr + 1)]

/-- The path /B/C/D/E/F/G/H/A, where A is at level 9. -/
def deepIso : IsoImage where
  root := .mk 0 none .dir 0 0 [isoChain 7 1]
  distinct := by decide

/-- Directories with `last` at their end. -/
def ecmaChain (last : Nat → Ecma119Node) : (depth addr : Nat) → Ecma119Node
  | 0, addr => last addr
  | depth + 1, addr =>
    .dir addr [UInt8.ofNat (0x41 + addr)] none [ecmaChain last depth (addr + 1)]

def unrelocatedTree : Ecma119Node :=
  .dir 0 [] none [ecmaChain (fun addr => .dir addr [0x41] none []) 7 1]

def remainingTree : Ecma119Node :=
  .dir 0 [] none [ecmaChain (fun addr => .placeholder addr [0x41] addr) 7 1]

def relocatedA : Ecma119Node := .dir 8 [0x41] (some 7) []

/-- The root gets children B and A. -/
def deepTree : Ecma119Node := .dir 0 [] none (remainingTree.children ++ [relocatedA])

theorem deepIso_reordered :
    reorderedTree plainImage deepIso 30 = .ok (remainingTree, [relocatedA], ⟨0, true, []⟩) := by
  have hmangled : mangledTree plainImage deepIso = .ok (unrelocatedTree, some 0) := rfl
  have hrun : reorderTree plainOpts ⟨0, true, []⟩ 30 none unrelocatedTree 1 0 [] =
      some (remainingTree, [relocatedA]) := rfl
  rw [reorderedTree, hmangled]
  exact congrArg
    (fun x => orNotFinished x >>= fun run => pure (run.1, run.2, RelocDir.mk 0 true [])) hrun

theorem deepIso_created : ecma119TreeCreate plainImage deepIso 30 = .ok deepTree := by
  rw [ecma119TreeCreate, deepIso_reordered]
  rfl

end DeepTree

end Ecma119Tree
