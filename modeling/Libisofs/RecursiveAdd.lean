import Libisofs.DirTree
import Libisofs.UniqueNames
import Mathlib.Algebra.Order.Ring.Int

/-!
# Recursive addition of directories

iso_add_dir_src_rec() and iso_tree_add_dir_rec() of tree.c, with iso_dir_insert() on sorted
lists of children. Beside it stands what the replace modes are documented to do. The files
of the source and the answers of their filesystem are given.
-/

namespace RecursiveAdd

open DirTree (ReplaceMode)
open Identifiers (strrchr)
open ThreeWay (strcmp)
open UniqueNames (Bytes makeReallyUniqueName)

variable {Data : Type}

/-- What stat() tells of a file. `fmt` is st_mode & S_IFMT. -/
structure Stat (Data : Type) where
  fmt : Nat
  mtime : Int
  rest : Data

/-- A node of the image. All nodes but directories are leaves. -/
inductive IsoNode (Data : Type) where
  | leaf (name : Bytes) (stat : Stat Data)
  | dir (name : Bytes) (stat : Stat Data) (children : List (IsoNode Data))

namespace IsoNode

def name : IsoNode Data → Bytes
  | leaf name _ => name
  | dir name _ _ => name

def stat : IsoNode Data → Stat Data
  | leaf _ stat => stat
  | dir _ stat _ => stat

end IsoNode

/-- A file of the source. `createFault` is the error of create_node(), if its type or its
content makes it fail. -/
structure SourceFile (Data : Type) where
  path : Bytes
  stat : Except Int (Stat Data)
  lstat : Except Int (Stat Data)
  createFault : Option Int

/-- A file with what is found if it gets read as directory: an error of opening, the files,
and an error behind the last one of them. -/
inductive FileSource (Data : Type) where
  | mk (file : SourceFile Data) (openFault : Option Int) (files : List (FileSource Data))
    (readFault : Option Int)

def FileSource.file : FileSource Data → SourceFile Data
  | mk file _ _ _ => file

/-- The settings of IsoImage which matter here. fnmatch() is from the C library. `truncate` is
iso_truncate_rr_name() for names which are longer than `truncateLength`, which cannot be set to
less than 64. -/
structure IsoImage (Data : Type) where
  followSymlinks : Bool
  excludes : List Bytes
  fnmatch : (pattern text : Bytes) → Bool
  ignoreHidden : Bool
  ignoreSpecial : Nat
  replace : ReplaceMode
  report : Option (SourceFile Data → Int)
  truncateLength : Nat
  truncateLength_ge : 64 ≤ truncateLength
  truncate : Bytes → Except Int Bytes
  abortThreshold : Nat

section Messages

def isoSuccess : Int := 1
def isoCanceled : Int := 0xE830FFFF - 2 ^ 32
def isoFileIsNotDir : Int := 0xE830FF78 - 2 ^ 32
def isoFileCantAdd : Int := 0xE030FF71 - 2 ^ 32
def isoImportCollision : Int := 0xD030FE72 - 2 ^ 32
def isoImportCollWarnMax : Nat := 10

def errSev (e : Int) : Nat := (e % 2 ^ 32).toNat &&& 0x7F000000

def isAbort (image : IsoImage Data) (errcode : Int) : Bool :=
  image.abortThreshold ≤ errSev errcode

/-- iso_msg_submit() with a text. Severity FATAL of the cause aborts in any case. -/
def msgSubmit (image : IsoImage Data) (errcode causedby : Int) : Int :=
  if causedby ≠ 0 ∧ errSev causedby = 0x70000000 then isoCanceled
  else if isAbort image errcode then isoCanceled
  else 0

/-- iso_msg_submit() without a text of its own. -/
def msgSubmitCode (image : IsoImage Data) (errcode : Int) : Int :=
  if errcode = isoCanceled then isoCanceled else msgSubmit image errcode 0

end Messages

section Checks

def sIfifo : Nat := 0x1000
def sIfchr : Nat := 0x2000
def sIfdir : Nat := 0x4000
def sIfblk : Nat := 0x6000
def sIfsock : Nat := 0xC000

/-- The texts behind the slashes. -/
def afterSlashes : Bytes → List Bytes
  | [] => []
  | c :: s => if c = 0x2f then s :: afterSlashes s else afterSlashes s

/-- A relative pattern may match at the second byte of the path or behind any later slash. -/
def checkExcludes (image : IsoImage Data) (path : Bytes) : Bool :=
  image.excludes.any fun exclude =>
    if exclude.head? = some 0x2f then image.fnmatch exclude path
    else (path.drop 1 :: afterSlashes (path.drop 1)).any (image.fnmatch exclude)

def checkHidden (image : IsoImage Data) (name : Bytes) : Bool :=
  image.ignoreHidden && name.head? = some 0x2e

def checkSpecial (image : IsoImage Data) (fmt : Nat) : Bool :=
  if fmt = sIfblk then image.ignoreSpecial.testBit 3
  else if fmt = sIfchr then image.ignoreSpecial.testBit 2
  else if fmt = sIfsock then image.ignoreSpecial.testBit 1
  else if fmt = sIfifo then image.ignoreSpecial.testBit 0
  else false

def SourceFile.name (file : SourceFile Data) : Bytes :=
  match strrchr 0x2f file.path with
  | some i => file.path.drop (i + 1)
  | none => file.path

def SourceFile.info (file : SourceFile Data) (image : IsoImage Data) : Except Int (Stat Data) :=
  if image.followSymlinks then file.stat else file.lstat

def skips (image : IsoImage Data) (file : SourceFile Data) (info : Stat Data) : Bool :=
  checkExcludes image file.path || checkHidden image file.name || checkSpecial image info.fmt

/-- The answer of the user's callback, if there is one. -/
def reported (image : IsoImage Data) (file : SourceFile Data) : Int :=
  match image.report with
  | some report => report file
  | none => 1

def createNode (image : IsoImage Data) (file : SourceFile Data) (name : Bytes) :
    Except Int (IsoNode Data) :=
  match file.info image with
  | .error ret => .error ret
  | .ok info =>
    match if image.truncateLength < name.length then image.truncate name else .ok name with
    | .error ret => .error ret
    | .ok name =>
      match file.createFault with
      | some fault => .error fault
      | none => .ok (if info.fmt = sIfdir then .dir name info [] else .leaf name info)

end Checks

section Insertion

/-- The place of the first child which has not a smaller name. -/
def isoDirFind (names : List Bytes) (name : Bytes) : Nat :=
  names.findIdx fun child => ¬ strcmp child name < 0

def isoDirExists (names : List Bytes) (name : Bytes) : Bool :=
  match names[isoDirFind names name]? with
  | some child => strcmp child name = 0
  | none => false

def keepsOld (replace : ReplaceMode) (old node : Stat Data) : Bool :=
  match replace with
  | .never => true
  | .ifNewer => decide (old.mtime ≥ node.mtime)
  | .ifSameTypeAndNewer => decide (old.mtime ≥ node.mtime) || decide (node.fmt ≠ old.fmt)
  | .ifSameType => decide (node.fmt ≠ old.fmt)
  | .always => false

def names (children : List (IsoNode Data)) : List Bytes := children.map IsoNode.name

def insertAt {α : Type} (list : List α) (pos : Nat) (a : α) : List α :=
  list.take pos ++ a :: list.drop pos

/-- None is for ISO_NODE_NAME_NOT_UNIQUE. -/
def isoDirInsert (children : List (IsoNode Data)) (node : IsoNode Data) (pos : Nat)
    (replace : ReplaceMode) : Option (List (IsoNode Data)) :=
  match children[pos]? with
  | none => some (insertAt children pos node)
  | some old =>
    if strcmp old.name node.name = 0 then
      if keepsOld replace old.stat node.stat then none else some (children.set pos node)
    else some (insertAt children pos node)

end Insertion

/-- The children of the directory, the counter of the image, and the value of `ret`. -/
structure Outcome (Data : Type) where
  children : List (IsoNode Data)
  collisionWarnings : Nat
  ret : Int

section Adding

variable (image : IsoImage Data) (tries : Nat)

/-- The name to be used, the counter, and `ret`. -/
def resolveCollision (names : List Bytes) (warnings : Nat) (name : Bytes) :
    Option (Bytes × Nat × Int) :=
  if isoDirExists names name then
    (makeReallyUniqueName (isoDirExists names) tries name).map fun unique =>
      (unique, warnings + 1,
        if warnings + 1 < isoImportCollWarnMax then msgSubmit image isoImportCollision 0
        else isoSuccess)
  else some (name, warnings, 0)

/-- A directory which has been inserted at `pos` and now gets its content. -/
structure Entered (Data : Type) where
  inserted : List (IsoNode Data)
  pos : Nat
  name : Bytes
  info : Stat Data
  collisionWarnings : Nat

/-- What is done with a single file, before a new directory gets filled by recursion. -/
def addFile (file : SourceFile Data) (children : List (IsoNode Data)) (warnings : Nat) :
    Option (Outcome Data ⊕ Entered Data) :=
  match file.info image with
  | .error ret => some (.inl ⟨children, warnings, msgSubmit image isoFileCantAdd ret⟩)
  | .ok info =>
    if skips image file info then some (.inl ⟨children, warnings, isoSuccess⟩)
    else
      match resolveCollision image tries (names children) warnings file.name with
      | none => none
      | some (name, warnings, ret) =>
        if ret < 0 then some (.inl ⟨children, warnings, ret⟩)
        else if reported image file ≤ 0 then
          some (.inl ⟨children, warnings,
            if reported image file < 0 then isoCanceled else isoSuccess⟩)
        else
          match createNode image file name with
          | .error ret => some (.inl ⟨children, warnings, msgSubmit image isoFileCantAdd ret⟩)
          | .ok new =>
            let pos := isoDirFind (names children) name
            match isoDirInsert children new pos image.replace with
            | none => none
            | some inserted =>
              if info.fmt = sIfdir then some (.inr ⟨inserted, pos, new.name, info, warnings⟩)
              else some (.inl ⟨inserted, warnings, isoSuccess⟩)

/-- The inserted directory with its content. -/
def Entered.filled (dir : Entered Data) (sub : Outcome Data) : Outcome Data :=
  ⟨dir.inserted.set dir.pos (.dir dir.name dir.info sub.children), sub.collisionWarnings, sub.ret⟩

mutual

/-- None as result is for a search for a unique name which does not end after `tries` names, and
for the use of a node which has been freed. -/
def addDirSrcRec : FileSource Data → (children : List (IsoNode Data)) → (warnings : Nat) →
    Option (Outcome Data)
  | .mk _ (some fault) _ _, children, warnings =>
    some ⟨children, warnings, msgSubmit image isoFileCantAdd fault⟩
  | .mk _ none files readFault, children, warnings => addFiles files readFault children warnings

/-- The loop with readdir(). -/
def addFiles : List (FileSource Data) → (readFault : Option Int) →
    (children : List (IsoNode Data)) → (warnings : Nat) → Option (Outcome Data)
  | [], some fault, children, warnings => some ⟨children, warnings, msgSubmit image fault fault⟩
  | [], none, children, warnings => some ⟨children, warnings, isoSuccess⟩
  | source :: rest, readFault, children, warnings =>
    let step := match addFile image tries source.file children warnings with
      | none => none
      | some (.inl outcome) => some outcome
      | some (.inr dir) => (addDirSrcRec source [] dir.collisionWarnings).map dir.filled
    match step with
    | none => none
    | some step =>
      if step.ret < 0 ∧ msgSubmitCode image step.ret < 0 then
        some ⟨step.children, step.collisionWarnings, msgSubmitCode image step.ret⟩
      else addFiles rest readFault step.children step.collisionWarnings

end

/-- `found` is what is at the given path, or the error of looking for it. -/
def treeAddDirRec (found : Except Int (FileSource Data)) (children : List (IsoNode Data))
    (warnings : Nat) : Option (Outcome Data) :=
  match found with
  | .error ret => some ⟨children, warnings, ret⟩
  | .ok source =>
    match source.file.stat with
    | .error ret => some ⟨children, warnings, ret⟩
    | .ok info =>
      if info.fmt = sIfdir then addDirSrcRec image tries source children warnings
      else some ⟨children, warnings, isoFileIsNotDir⟩

end Adding

section Replacing

variable (image : IsoImage Data)

/-- What becomes of a file if only its own name matters. -/
inductive Offer (Data : Type) where
  | skipped (ret : Int)
  | declined (ret : Int)
  | node (new : IsoNode Data)

def offer (file : SourceFile Data) : Offer Data :=
  match file.info image with
  | .error ret => .skipped (msgSubmit image isoFileCantAdd ret)
  | .ok info =>
    if skips image file info then .skipped isoSuccess
    else if reported image file ≤ 0 then
      .declined (if reported image file < 0 then isoCanceled else isoSuccess)
    else
      match createNode image file file.name with
      | .error ret => .declined (msgSubmit image isoFileCantAdd ret)
      | .ok new => .node new

def IsoNode.isDir : IsoNode Data → Bool
  | .leaf _ _ => false
  | .dir _ _ _ => true

def IsoNode.withChildren (children : List (IsoNode Data)) : IsoNode Data → IsoNode Data
  | .leaf name stat => .leaf name stat
  | .dir name stat _ => .dir name stat children

/-- What shall be done with a new node. -/
inductive Rule (Data : Type) where
  | add (pos : Nat)
  | merge (pos : Nat) (old : Stat Data) (children : List (IsoNode Data))
  | replace (pos : Nat)
  | keep

/-- Directories of the same name get merged. In all other cases the replace mode decides. -/
def ruleFor (children : List (IsoNode Data)) (new : IsoNode Data) : Rule Data :=
  match children.findIdx? fun child => child.name = new.name with
  | none => .add (isoDirFind (names children) new.name)
  | some pos =>
    match children[pos]?, new with
    | some (.dir _ old olds), .dir _ _ _ => .merge pos old olds
    | some old, _ => if keepsOld image.replace old.stat new.stat then .keep else .replace pos
    | none, _ => .keep

variable (mergedStat : (old new : Stat Data) → Stat Data)

mutual

/-- The children of the directory after each file has been inserted under its own name, and the
value of `ret`. `mergedStat` gives the attributes of merged directories. -/
def mergeDirRec : FileSource Data → (children : List (IsoNode Data)) → List (IsoNode Data) × Int
  | .mk _ (some fault) _ _, children => (children, msgSubmit image isoFileCantAdd fault)
  | .mk _ none files readFault, children => mergeFiles files readFault children

def mergeFiles : List (FileSource Data) → (readFault : Option Int) →
    (children : List (IsoNode Data)) → List (IsoNode Data) × Int
  | [], some fault, children => (children, msgSubmit image fault fault)
  | [], none, children => (children, isoSuccess)
  | source :: rest, readFault, children =>
    let step : List (IsoNode Data) × Int := match offer image source.file with
      | .skipped ret => (children, ret)
      | .declined ret => (children, ret)
      | .node new =>
        let content olds := if new.isDir then mergeDirRec source olds else (olds, isoSuccess)
        match ruleFor image children new with
        | .add pos => (insertAt children pos (new.withChildren (content []).1), (content []).2)
        | .merge pos old olds =>
          (children.set pos (.dir new.name (mergedStat old new.stat) (content olds).1),
            (content olds).2)
        | .replace pos => (children.set pos (new.withChildren (content []).1), (content []).2)
        | .keep => (children, 0)
    if step.2 < 0 ∧ msgSubmitCode image step.2 < 0 then (step.1, msgSubmitCode image step.2)
    else mergeFiles rest readFault step.1

end

/-- What iso_tree_add_dir_rec() shall do. -/
def treeMergeDirRec (found : Except Int (FileSource Data)) (children : List (IsoNode Data)) :
    List (IsoNode Data) × Int :=
  match found with
  | .error ret => (children, ret)
  | .ok source =>
    match source.file.stat with
    | .error ret => (children, ret)
    | .ok info =>
      if info.fmt = sIfdir then mergeDirRec image mergedStat source children
      else (children, isoFileIsNotDir)

end Replacing

section Conditions

variable (image : IsoImage Data) (tries : Nat)

local instance lawfulBEq_bytes : LawfulBEq Bytes := inferInstance

mutual

/-- The value of the collision counter, if no new node has the name of an existing one. A file
which gets declined may have such a name if its collision gets resolved. -/
def undisturbedDir : FileSource Data → List Bytes → (warnings : Nat) → Option Nat
  | .mk _ (some _) _ _, _, warnings => some warnings
  | .mk _ none files _, names, warnings => undisturbedFiles files names warnings

def undisturbedFiles : List (FileSource Data) → List Bytes → (warnings : Nat) → Option Nat
  | [], _, warnings => some warnings
  | source :: rest, names, warnings =>
    match offer image source.file with
    | .skipped _ => undisturbedFiles rest names warnings
    | .declined _ =>
      match resolveCollision image tries names warnings source.file.name with
      | none => none
      | some (_, warnings, ret) => if ret < 0 then none else undisturbedFiles rest names warnings
    | .node new =>
      if new.name ∈ names then none
      else
        match if new.isDir then undisturbedDir source [] warnings else some warnings with
        | none => none
        | some warnings =>
          undisturbedFiles rest (insertAt names (isoDirFind names new.name) new.name) warnings

end

mutual

/-- No name of the source gets truncated. -/
def NamesFit : FileSource Data → Prop
  | .mk _ _ files _ => AllFit files

def AllFit : List (FileSource Data) → Prop
  | [] => True
  | source :: rest =>
    source.file.name.length ≤ image.truncateLength ∧ NamesFit source ∧ AllFit rest

end

end Conditions

end RecursiveAdd
