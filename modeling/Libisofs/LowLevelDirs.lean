import Libisofs.Joliet

/-!
# Directories of ECMA-119 and of ISO 9660:1999

calc_dir_pos(), write_one_dir_record(), write_one_dir() and write_dirs() of ecma119.c and
of iso1999.c. SUSP fields are of interest only by their lengths. rrip_calc_len() predicts
them, and rrip_get_susp_fields() yields the fields which get written.
-/

namespace LowLevelDirs

open ByteBuffers BlockPacking Joliet

mutual

/-- A file, which may consist of several sections, a node without content, or a directory. -/
inductive LowNode where
  | file (name : List UInt8) (time : Datetime) (sections : List Section)
  | other (placeholder : Bool) (name : List UInt8) (time : Datetime)
  | dir (name : List UInt8) (info : LowDir)

/-- A directory without its name, which the root does not have. `addr` is its address in
memory. `block` and `len` get set by calc_dir_pos(). -/
inductive LowDir where
  | mk (addr : Nat) (time : Datetime) (block len : Nat) (children : List LowNode)

end

namespace LowDir

def addr : LowDir → Nat
  | mk addr _ _ _ _ => addr

def time : LowDir → Datetime
  | mk _ time _ _ _ => time

def block : LowDir → Nat
  | mk _ _ block _ _ => block

def len : LowDir → Nat
  | mk _ _ _ len _ => len

def children : LowDir → List LowNode
  | mk _ _ _ _ children => children

end LowDir

namespace LowNode

def name : LowNode → List UInt8
  | file name _ _ => name
  | other _ name _ => name
  | dir name _ => name

def nsections : LowNode → Nat
  | file _ _ sections => sections.length
  | other _ _ _ => 1
  | dir _ _ => 1

def subdir : LowNode → Option (List UInt8 × LowDir)
  | file _ _ _ => none
  | other _ _ _ => none
  | dir name info => some (name, info)

end LowNode

/-- What differs between the formats. `ancestors` are the directories above a directory,
beginning by its parent. `dotDotNode` is the node which write_one_dir() gives to the record
of "..", with the parent of that node. -/
structure DirFormat where
  version : LowNode → Bool
  recordBlock : (block : Nat) → Nat
  emptyBlock : Nat
  suspLen : (children : List LowNode) → (record : Nat) → Nat
  ceLen : (children : List LowNode) → Nat
  suspFields : LowDir → (record : Nat) → List UInt8
  ceBlocks : LowDir → List (List UInt8)
  dotDotNode : LowDir → (ancestors : List LowDir) → LowDir × Option LowDir

/-- The options of Ecma119Image which matter for the ECMA-119 tree. -/
structure Ecma119Image where
  omitVersionNumbers : Nat
  max37CharFilenames : Bool
  untranslatedNameLen : Nat
  oldEmpty : Bool
  emptyFileBlock : UInt32
  effPartitionOffset : UInt32
  suspLen : (children : List LowNode) → (record : Nat) → Nat
  ceLen : (children : List LowNode) → Nat
  suspFields : LowDir → (record : Nat) → List UInt8
  ceBlocks : LowDir → List (List UInt8)

def needVersionNumber (t : Ecma119Image) (n : LowNode) : Bool :=
  if t.omitVersionNumbers.testBit 0 || t.max37CharFilenames || 0 < t.untranslatedNameLen then false
  else match n with
    | .dir _ _ => false
    | .other placeholder _ _ => !placeholder
    | .file _ _ _ => true

/-- write_dirs() hands over the parent as node of "..". The root is its own parent. -/
def ecma119Format (t : Ecma119Image) : DirFormat where
  version := needVersionNumber t
  recordBlock block := (block + 2 ^ 32 - t.effPartitionOffset.toNat) % 2 ^ 32
  emptyBlock := if t.oldEmpty then 0 else t.emptyFileBlock.toNat
  suspLen := t.suspLen
  ceLen := t.ceLen
  suspFields := t.suspFields
  ceBlocks := t.ceBlocks
  dotDotNode dir ancestors := match ancestors with
    | [] => (dir, none)
    | parent :: above => (parent, above.head?)

/-- The directory itself is the node of "..". -/
def iso1999Format : DirFormat where
  version _ := false
  recordBlock block := block % 2 ^ 32
  emptyBlock := 0
  suspLen _ _ := 0
  ceLen _ := 0
  suspFields _ _ := []
  ceBlocks _ := []
  dotDotNode dir ancestors := (dir, ancestors.head?)

section Sizes

variable (f : DirFormat)

def calcDirentLen (n : LowNode) : Nat :=
  let ret := n.name.length + 33 + if f.version n then 2 else 0
  ret + ret % 2

/-- The lengths of all records but "." and "..", those of file sections one by one. -/
def direntLens (children : List LowNode) : List Nat :=
  (children.flatMap fun child => List.replicate child.nsections (calcDirentLen f child)).mapIdx
    fun i len => len + f.suspLen children (i + 2)

def calcDirSize (children : List LowNode) : Nat :=
  roundUp blockSize (predict blockSize
    (34 + 34 + f.suspLen children 0 + f.suspLen children 1) (direntLens f children))

/-- The blocks which calc_dir_pos() reserves, those of the Continuation Area included. -/
def dirBlockCount (children : List LowNode) : Nat :=
  divUp (calcDirSize f children) blockSize + divUp (f.ceLen children) blockSize

mutual

/-- Yields the directory, with address and length set, and the next free block. Block
addresses have 32 bits. -/
def calcDirPos : LowDir → (curblock : Nat) → LowDir × Nat
  | .mk addr time _ _ children, curblock =>
    let (positioned, next) :=
      calcDirPosChildren children ((curblock + dirBlockCount f children) % 2 ^ 32)
    (.mk addr time curblock (calcDirSize f children) positioned, next)

def calcDirPosChildren : List LowNode → (curblock : Nat) → List LowNode × Nat
  | [], curblock => ([], curblock)
  | .file name time sections :: rest, curblock =>
    let (rest, next) := calcDirPosChildren rest curblock
    (.file name time sections :: rest, next)
  | .other placeholder name time :: rest, curblock =>
    let (rest, next) := calcDirPosChildren rest curblock
    (.other placeholder name time :: rest, next)
  | .dir name info :: rest, curblock =>
    let (info, next) := calcDirPos info curblock
    let (rest, next) := calcDirPosChildren rest next
    (.dir name info :: rest, next)

end

end Sizes

section Writing

variable (f : DirFormat)

/-- What write_one_dir_record() takes from the node. -/
structure DirRecord where
  isDir : Bool
  block : Nat
  len : Nat
  multiExtend : Bool
  time : Datetime
  name : List UInt8
  version : Bool

/-- `pad` bytes follow the identifier to make the length even, then the SUSP fields. -/
def writeOneDirRecord (r : DirRecord) (susp : List UInt8) : List UInt8 :=
  let version : List UInt8 := if r.version then [0x3b, 0x31] else []
  let pad := if r.name.length % 2 = 1 then 0 else 1
  let lenDr := 33 + r.name.length + pad + version.length
  [UInt8.ofNat (lenDr + susp.length), 0] ++ isoBb 4 (f.recordBlock r.block) ++ isoBb 4 r.len ++
    r.time.toList ++ [(if r.isDir then 2 else 0) ||| (if r.multiExtend then 0x80 else 0), 0, 0] ++
    isoBb 2 1 ++ [UInt8.ofNat (r.name.length + version.length)] ++ r.name ++ version ++
    List.replicate pad 0 ++ susp

/-- "." or "..", if `fileId` is 1. Address and length are taken before the node gets replaced
by its parent. -/
def dotRecord (node : LowDir) (parent : Option LowDir) (fileId : UInt8) : DirRecord :=
  let replaced := if fileId = 1 then parent.getD node else node
  ⟨true, node.block, node.len, false, replaced.time, [fileId], false⟩

def childRecords (child : LowNode) : List DirRecord :=
  match child with
  | .dir name info => [⟨true, info.block, info.len, false, info.time, name, f.version child⟩]
  | .other _ name time => [⟨false, f.emptyBlock, 0, false, time, name, f.version child⟩]
  | .file name time sections =>
    sections.mapIdx fun extent s =>
      ⟨false, s.block.toNat, s.size.toNat, sections.length - 1 ≠ extent, time, name,
        f.version child⟩

/-- A directory in the tree. -/
structure DirEntry where
  name : Option (List UInt8)
  ancestors : List LowDir
  dir : LowDir

def subdirs (e : DirEntry) : List DirEntry :=
  e.dir.children.filterMap fun child =>
    child.subdir.map fun (name, info) => ⟨some name, e.dir :: e.ancestors, info⟩

/-- All records of a directory, "." and ".." at first. -/
def dirRecords (e : DirEntry) : List DirRecord :=
  let (node, parent) := f.dotDotNode e.dir e.ancestors
  dotRecord e.dir e.ancestors.head? 0 :: dotRecord node parent 1 ::
    e.dir.children.flatMap (childRecords f)

def writtenRecords (e : DirEntry) : List (List UInt8) :=
  (dirRecords f e).mapIdx fun i r => writeOneDirRecord f r (f.suspFields e.dir i)

/-- The records of write_one_dir() block by block. -/
def dirBlocks (e : DirEntry) : List (List (List UInt8)) :=
  pack blockSize List.length [] ((writtenRecords f e).take 2) ((writtenRecords f e).drop 2)

def writeOneDir (e : DirEntry) : List (List UInt8) :=
  (dirBlocks f e).map padBlock ++ f.ceBlocks e.dir

variable {f} in
/-- No record gets lost between the blocks. -/
theorem flatten_dirBlocks (e : DirEntry) : (dirBlocks f e).flatten = writtenRecords f e := by
  rw [dirBlocks, pack_flatten, List.flatten_nil, List.nil_append, List.take_append_drop]

mutual

def writeDirs : (name : Option (List UInt8)) → (ancestors : List LowDir) → LowDir →
    List (List UInt8)
  | name, ancestors, .mk addr time block len children =>
    writeOneDir f ⟨name, ancestors, .mk addr time block len children⟩ ++
      writeDirsChildren (.mk addr time block len children :: ancestors) children

def writeDirsChildren : (ancestors : List LowDir) → List LowNode → List (List UInt8)
  | _, [] => []
  | ancestors, .file _ _ _ :: rest => writeDirsChildren ancestors rest
  | ancestors, .other _ _ _ :: rest => writeDirsChildren ancestors rest
  | ancestors, .dir name info :: rest =>
    writeDirs (some name) ancestors info ++ writeDirsChildren ancestors rest

end

end Writing

section Listing

mutual

/-- The number of directories as it gets counted by calc_dir_pos(). -/
def ndirs : LowDir → Nat
  | .mk _ _ _ _ children => 1 + ndirsChildren children

def ndirsChildren : List LowNode → Nat
  | [] => 0
  | .file _ _ _ :: rest => ndirsChildren rest
  | .other _ _ _ :: rest => ndirsChildren rest
  | .dir _ info :: rest => ndirs info + ndirsChildren rest

end

mutual

/-- All directories in the sequence of a depth-first traversal. -/
def entries : (name : Option (List UInt8)) → (ancestors : List LowDir) → LowDir → List DirEntry
  | name, ancestors, .mk addr time block len children =>
    ⟨name, ancestors, .mk addr time block len children⟩ ::
      entriesChildren (.mk addr time block len children :: ancestors) children

def entriesChildren : (ancestors : List LowDir) → List LowNode → List DirEntry
  | _, [] => []
  | ancestors, .file _ _ _ :: rest => entriesChildren ancestors rest
  | ancestors, .other _ _ _ :: rest => entriesChildren ancestors rest
  | ancestors, .dir name info :: rest =>
    entries (some name) ancestors info ++ entriesChildren ancestors rest

end

/-- To prove something of all directories, prove it of a directory if it is true of the
directories in it. -/
theorem LowDir.induction {P : LowDir → Prop}
    (step : ∀ addr time block len children,
      (∀ name info, LowNode.dir name info ∈ children → P info) →
        P (.mk addr time block len children)) (d : LowDir) : P d := by
  refine @LowDir.rec (fun n => ∀ name info, n = .dir name info → P info) P
    (fun l => ∀ name info, LowNode.dir name info ∈ l → P info) ?_ ?_ ?_ ?_ ?_ ?_ d
  · intro name time sections name' info h
    cases h
  · intro placeholder name time name' info h
    cases h
  · intro name info ih name' info' h
    obtain ⟨-, rfl⟩ := LowNode.dir.inj h
    exact ih
  · intro addr time block len children ih
    exact step addr time block len children ih
  · intro name info h
    cases h
  · intro head tail hhead htail name info h
    rcases List.mem_cons.mp h with rfl | hmem
    · exact hhead name info rfl
    · exact htail name info hmem

/-- An entry with all directories below it. -/
def DirEntry.all (e : DirEntry) : List DirEntry := entries e.name e.ancestors e.dir

theorem entriesChildren_eq (ancestors : List LowDir) (children : List LowNode) :
    entriesChildren ancestors children =
      (children.filterMap fun child => child.subdir.map fun (name, info) =>
        (⟨some name, ancestors, info⟩ : DirEntry)).flatMap DirEntry.all := by
  induction children with
  | nil => simp [entriesChildren]
  | cons child rest ih =>
    cases child with
    | file name time sections => simpa [entriesChildren, LowNode.subdir] using ih
    | other placeholder name time => simpa [entriesChildren, LowNode.subdir] using ih
    | dir name info => simp [entriesChildren, LowNode.subdir, DirEntry.all, ih]

theorem all_eq (e : DirEntry) : e.all = e :: (subdirs e).flatMap DirEntry.all := by
  obtain ⟨name, ancestors, dir⟩ := e
  cases dir with
  | mk addr time block len children =>
    rw [DirEntry.all, entries, entriesChildren_eq]
    rfl

theorem ndirs_eq (d : LowDir) (name : Option (List UInt8)) (ancestors : List LowDir) :
    ndirs d = (entries name ancestors d).length := by
  induction d using LowDir.induction generalizing name ancestors with
  | step addr time block len children ih =>
    rw [ndirs, entries, List.length_cons, Nat.add_comm]
    refine congrArg (· + 1) ?_
    generalize LowDir.mk addr time block len children :: ancestors = above
    induction children with
    | nil => rfl
    | cons child rest ih' =>
      have hrest := ih' fun name info hmem => ih name info (List.mem_cons_of_mem _ hmem)
      cases child with
      | file name time sections => rw [ndirsChildren, entriesChildren, hrest]
      | other placeholder name time => rw [ndirsChildren, entriesChildren, hrest]
      | dir name info =>
        rw [ndirsChildren, entriesChildren, List.length_append, hrest,
          ih name info List.mem_cons_self (some name) above]

/-- Subdirectories are directories of the tree. -/
theorem mem_subdirs {e : DirEntry} {name : List UInt8} {info : LowDir}
    (h : .dir name info ∈ e.dir.children) :
    (⟨some name, e.dir :: e.ancestors, info⟩ : DirEntry) ∈ subdirs e :=
  List.mem_filterMap.mpr ⟨.dir name info, h, rfl⟩

theorem ancestors_of_mem {p e : DirEntry} (h : e ∈ subdirs p) :
    e.ancestors = p.dir :: p.ancestors := by
  obtain ⟨child, -, hchild⟩ := List.mem_filterMap.mp h
  obtain ⟨z, -, rfl⟩ := Option.map_eq_some_iff.mp hchild
  rfl

/-- A tree of which each directory has an address of its own. -/
structure LowTree where
  root : LowDir
  distinct : ((entries none [] root).map fun e => e.dir.addr).Nodup

end Listing

end LowLevelDirs
