import Libisofs.Lib.Bytes
import Libisofs.Lib.Packing
import Libisofs.Lib.ParentSearch
import Mathlib.Data.Vector.Basic

/-!
# Joliet directories and path tables

Before an image gets written, calc_dir_pos() of joliet.c reserves blocks for each
directory and calc_path_table_size() predicts the size of the path tables. When it is
written, write_dirs() emits the directories by a depth-first traversal, while
write_path_tables() lists them by a breadth-first traversal.
-/

namespace Joliet

open ByteBuffers BlockPacking ConsecutiveLayout LevelOrder

def blockSize : Nat := 2048

/-- Names get composed in buffers of so many 16-bit units, the final zero included. -/
def jolietNameMax : Nat := 105

/-- A name as a string of 16-bit units. -/
structure JolietName where
  units : List UInt16
  units_lt : units.length < jolietNameMax

def JolietName.ucslen (name : JolietName) : Nat := name.units.length

/-- The bytes of the name. Its units are stored big endian already. -/
def JolietName.bytes (name : JolietName) : List UInt8 :=
  name.units.flatMap fun c => toMsb 2 c.toNat

/-- struct iso_file_section. -/
structure Section where
  block : UInt32
  size : UInt32
  deriving DecidableEq

/-- A date of a directory record as of iso_datetime_7(). -/
abbrev Datetime := List.Vector UInt8 7

mutual

/-- A file, which may consist of several sections, or a directory. -/
inductive JolietNode where
  | file (name : JolietName) (time : Datetime) (sections : List Section)
  | dir (name : JolietName) (info : JolietDir)

/-- A directory without its name, which the root does not have. `addr` is its address in
memory. `block` and `len` get set by calc_dir_pos(). -/
inductive JolietDir where
  | mk (addr : Nat) (time : Datetime) (block len : Nat) (children : List JolietNode)

end

namespace JolietDir

def addr : JolietDir → Nat
  | mk addr _ _ _ _ => addr

def time : JolietDir → Datetime
  | mk _ time _ _ _ => time

def block : JolietDir → Nat
  | mk _ _ block _ _ => block

def len : JolietDir → Nat
  | mk _ _ _ len _ => len

def children : JolietDir → List JolietNode
  | mk _ _ _ _ children => children

end JolietDir

namespace JolietNode

def name : JolietNode → JolietName
  | file name _ _ => name
  | dir name _ => name

def isFile : JolietNode → Bool
  | file _ _ _ => true
  | dir _ _ => false

def nsections : JolietNode → Nat
  | file _ _ sections => sections.length
  | dir _ _ => 1

def subdir : JolietNode → Option (JolietName × JolietDir)
  | file _ _ _ => none
  | dir name info => some (name, info)

end JolietNode

/-- The options of Ecma119Image which matter here. -/
structure Ecma119Image where
  omitVersionNumbers : Nat
  effPartitionOffset : UInt32

section Sizes

variable (t : Ecma119Image)

/-- Whether files get a version number. -/
def versions : Bool := t.omitVersionNumbers &&& 3 = 0

def calcDirentLen (n : JolietNode) : Nat :=
  n.name.ucslen * 2 + 34 + if n.isFile ∧ versions t then 4 else 0

/-- The lengths of all records but "." and "..", those of file sections one by one. -/
def direntLens (children : List JolietNode) : List Nat :=
  children.flatMap fun child => List.replicate child.nsections (calcDirentLen t child)

def calcDirSize (children : List JolietNode) : Nat :=
  roundUp blockSize (predict blockSize (34 + 34) (direntLens t children))

def divUp (n d : Nat) : Nat := (n + d - 1) / d

mutual

/-- Yields the directory, with address and length set, and the next free block. Block
addresses have 32 bits. -/
def calcDirPos : JolietDir → (curblock : Nat) → JolietDir × Nat
  | .mk addr time _ _ children, curblock =>
    let len := calcDirSize t children
    let (children, next) :=
      calcDirPosChildren children ((curblock + divUp len blockSize) % 2 ^ 32)
    (.mk addr time curblock len children, next)

def calcDirPosChildren : List JolietNode → (curblock : Nat) → List JolietNode × Nat
  | [], curblock => ([], curblock)
  | .file name time sections :: rest, curblock =>
    let (rest, next) := calcDirPosChildren rest curblock
    (.file name time sections :: rest, next)
  | .dir name info :: rest, curblock =>
    let (info, next) := calcDirPos info curblock
    let (rest, next) := calcDirPosChildren rest next
    (.dir name info :: rest, next)

end

mutual

/-- The number `joliet_ndirs` as it gets counted by calc_dir_pos(). -/
def ndirs : JolietDir → Nat
  | .mk _ _ _ _ children => 1 + ndirsChildren children

def ndirsChildren : List JolietNode → Nat
  | [] => 0
  | .file _ _ _ :: rest => ndirsChildren rest
  | .dir _ info :: rest => ndirs info + ndirsChildren rest

end

/-- What a name adds to the path table. The root has got no name. -/
def pathTableNameLen : Option JolietName → Nat
  | some name => name.ucslen * 2
  | none => 2

mutual

/-- The size gets summed up as uint32_t. -/
def calcPathTableSize : (name : Option JolietName) → JolietDir → Nat
  | name, .mk _ _ _ _ children =>
    (8 + pathTableNameLen name + calcPathTableSizeChildren children) % 2 ^ 32

def calcPathTableSizeChildren : List JolietNode → Nat
  | [] => 0
  | .file _ _ _ :: rest => calcPathTableSizeChildren rest
  | .dir name info :: rest =>
    (calcPathTableSize (some name) info + calcPathTableSizeChildren rest) % 2 ^ 32

end

end Sizes

section Writing

variable (t : Ecma119Image)

def isoBb (bytes num : Nat) : List UInt8 := toLsb bytes num ++ toMsb bytes num

/-- What write_one_dir_record() takes from the node and its section number `extent`. -/
structure RecordNode where
  isFile : Bool
  isDir : Bool
  block : Nat
  len : Nat
  multiExtend : Bool
  time : Datetime

/-- A record with the identifier bytes `name`. `pad` bytes follow to make its length even. -/
def writeOneDirRecord (node : RecordNode) (name : List UInt8) : List UInt8 :=
  let version : List UInt8 := if node.isFile ∧ versions t then [0, 0x3b, 0, 0x31] else []
  let pad := if name.length % 2 = 1 then 0 else 1
  let lenDr := 33 + name.length + pad + version.length
  [UInt8.ofNat lenDr, 0] ++
    isoBb 4 ((node.block + 2 ^ 32 - t.effPartitionOffset.toNat) % 2 ^ 32) ++ isoBb 4 node.len ++
    node.time.toList ++
    [(if node.isDir then 2 else 0) ||| (if node.multiExtend then 0x80 else 0), 0, 0] ++
    isoBb 2 1 ++ [UInt8.ofNat (name.length + version.length)] ++ name ++ version ++
    List.replicate pad 0

/-- "." and "..". The address and the length are those of the directory itself in both
cases. Only the date comes from the parent. -/
def dotRecord (dir : JolietDir) (fileId : UInt8) (time : Datetime) : List UInt8 :=
  writeOneDirRecord t ⟨false, true, dir.block, dir.len, false, time⟩ [fileId]

def childRecords (child : JolietNode) : List (List UInt8) :=
  match child with
  | .dir name info =>
    [writeOneDirRecord t ⟨false, true, info.block, info.len, false, info.time⟩ name.bytes]
  | .file name time sections =>
    sections.mapIdx fun extent s =>
      writeOneDirRecord t
        ⟨true, false, s.block.toNat, s.size.toNat, sections.length - 1 ≠ extent, time⟩ name.bytes

/-- The date of the parent, or of the directory itself if it has no parent. -/
def parentTime (dir : JolietDir) : (parent : Option JolietDir) → Datetime
  | some parent => parent.time
  | none => dir.time

/-- The records of write_one_dir() block by block. `buf - buffer` is the number of bytes
of the records which are in the current block. -/
def dirBlocks (dir : JolietDir) (parent : Option JolietDir) : List (List (List UInt8)) :=
  pack blockSize List.length []
    [dotRecord t dir 0 dir.time, dotRecord t dir 1 (parentTime dir parent)]
    (dir.children.flatMap (childRecords t))

/-- A block of the buffer, of which the rest is zero. -/
def padBlock (records : List (List UInt8)) : List UInt8 :=
  records.flatten ++ List.replicate (blockSize - records.flatten.length) 0

def writeOneDir (dir : JolietDir) (parent : Option JolietDir) : List (List UInt8) :=
  (dirBlocks t dir parent).map padBlock

mutual

def writeDirs : JolietDir → (parent : Option JolietDir) → List (List UInt8)
  | .mk addr time block len children, parent =>
    writeOneDir t (.mk addr time block len children) parent ++
      writeDirsChildren children (.mk addr time block len children)

def writeDirsChildren : List JolietNode → (parent : JolietDir) → List (List UInt8)
  | [], _ => []
  | .file _ _ _ :: rest, parent => writeDirsChildren rest parent
  | .dir _ info :: rest, parent => writeDirs info (some parent) ++ writeDirsChildren rest parent

end

/-- An element of `pathlist`. The root has neither name nor parent. -/
structure PathEntry where
  name : Option JolietName
  parent : Option JolietDir
  dir : JolietDir

def subdirs (e : PathEntry) : List PathEntry :=
  e.dir.children.filterMap fun child =>
    child.subdir.map fun (name, info) => ⟨some name, some e.dir, info⟩

/-- The array `pathlist`. Each entry comes with the index of the one which appended it. -/
def pathlist (root : JolietDir) : List (PathEntry × Nat) :=
  levelOrder subdirs (ndirs root) ⟨none, none, root⟩

def pathTableRecord (e : PathEntry) (parent : Nat) (writeInt : Nat → Nat → List UInt8) :
    List UInt8 :=
  let id : List UInt8 := match e.name with
    | some name => name.bytes
    | none => [0]
  [UInt8.ofNat id.length, 0] ++
    writeInt 4 ((e.dir.block + 2 ^ 32 - t.effPartitionOffset.toNat) % 2 ^ 32) ++
    writeInt 2 ((parent + 1) % 2 ^ 16) ++ id ++ List.replicate (id.length % 2) 0

/-- The loop which looks for the parent, beginning by the previous result. -/
def findParent (list : List PathEntry) (parent : Nat) (e : PathEntry) : Nat :=
  parent + (list.drop parent).findIdx fun p => some p.dir.addr = e.parent.map JolietDir.addr

/-- The parent indices which get found for the entries from the second one on. -/
def parents (list : List PathEntry) : (parent : Nat) → List PathEntry → List Nat
  | _, [] => []
  | parent, e :: rest =>
    let parent := findParent list parent e
    parent :: parents list parent rest

/-- Each entry with the parent index that is written for it. -/
def numbered (list : List PathEntry) : List (PathEntry × Nat) :=
  match list with
  | [] => []
  | root :: rest => (root, 0) :: rest.zip (parents list 0 rest)

def pathTableRecords (list : List PathEntry) (writeInt : Nat → Nat → List UInt8) :
    List (List UInt8) :=
  (numbered list).map fun (e, parent) => pathTableRecord t e parent writeInt

/-- The path table gets filled up to full blocks. -/
def writePathTable (list : List PathEntry) (writeInt : Nat → Nat → List UInt8) : List UInt8 :=
  let bytes := (pathTableRecords t list writeInt).flatten
  bytes ++ List.replicate (roundUp blockSize bytes.length - bytes.length) 0

end Writing

section Listing

mutual

/-- All directories in the sequence of a depth-first traversal. -/
def entries : (name : Option JolietName) → (parent : Option JolietDir) → JolietDir → List PathEntry
  | name, parent, .mk addr time block len children =>
    ⟨name, parent, .mk addr time block len children⟩ ::
      entriesChildren (.mk addr time block len children) children

def entriesChildren : (parent : JolietDir) → List JolietNode → List PathEntry
  | _, [] => []
  | parent, .file _ _ _ :: rest => entriesChildren parent rest
  | parent, .dir name info :: rest =>
    entries (some name) (some parent) info ++ entriesChildren parent rest

end

/-- A tree of which each directory has an address of its own. -/
structure JolietTree where
  root : JolietDir
  distinct : ((entries none none root).map fun e => e.dir.addr).Nodup

/-- To prove something of all directories, prove it of a directory if it is true of the
directories in it. -/
theorem JolietDir.induction {P : JolietDir → Prop}
    (step : ∀ addr time block len children,
      (∀ name info, JolietNode.dir name info ∈ children → P info) →
        P (.mk addr time block len children)) (d : JolietDir) : P d := by
  refine @JolietDir.rec (fun n => ∀ name info, n = .dir name info → P info) P
    (fun l => ∀ name info, JolietNode.dir name info ∈ l → P info) ?_ ?_ ?_ ?_ ?_ d
  · intro name time sections name' info h
    cases h
  · intro name info ih name' info' h
    obtain ⟨-, rfl⟩ := JolietNode.dir.inj h
    exact ih
  · intro addr time block len children ih
    exact step addr time block len children ih
  · intro name info h
    cases h
  · intro head tail hhead htail name info h
    rcases List.mem_cons.mp h with rfl | hmem
    · exact hhead name info rfl
    · exact htail name info hmem

/-- An entry with all directories below it. -/
def PathEntry.all (e : PathEntry) : List PathEntry := entries e.name e.parent e.dir

theorem entriesChildren_eq (parent : JolietDir) (children : List JolietNode) :
    entriesChildren parent children =
      (children.filterMap fun child => child.subdir.map fun (name, info) =>
        (⟨some name, some parent, info⟩ : PathEntry)).flatMap PathEntry.all := by
  induction children with
  | nil => simp [entriesChildren]
  | cons child rest ih =>
    cases child with
    | file name time sections => simpa [entriesChildren, JolietNode.subdir] using ih
    | dir name info => simp [entriesChildren, JolietNode.subdir, PathEntry.all, ih]

theorem all_eq (e : PathEntry) : e.all = e :: (subdirs e).flatMap PathEntry.all := by
  obtain ⟨name, parent, dir⟩ := e
  cases dir with
  | mk addr time block len children =>
    rw [PathEntry.all, entries, entriesChildren_eq]
    rfl

theorem ndirs_eq (d : JolietDir) (name : Option JolietName) (parent : Option JolietDir) :
    ndirs d = (entries name parent d).length := by
  induction d using JolietDir.induction generalizing name parent with
  | step addr time block len children ih =>
    rw [ndirs, entries, List.length_cons, Nat.add_comm]
    congr 1
    generalize JolietDir.mk addr time block len children = d
    induction children with
    | nil => rfl
    | cons child rest ih' =>
      have hrest := ih' fun name info hmem => ih name info (List.mem_cons_of_mem _ hmem)
      cases child with
      | file name time sections => rw [ndirsChildren, entriesChildren, hrest]
      | dir name info =>
        rw [ndirsChildren, entriesChildren, List.length_append, hrest,
          ih name info List.mem_cons_self (some name) (some d)]

end Listing

section Records

variable (t : Ecma119Image)

theorem JolietName.length_bytes (name : JolietName) : name.bytes.length = name.ucslen * 2 := by
  simp [JolietName.bytes, JolietName.ucslen, List.length_flatMap]

/-- The computed length of a record is its actual length. -/
theorem length_childRecords (child : JolietNode) :
    (childRecords t child).map List.length =
      List.replicate child.nsections (calcDirentLen t child) := by
  have hrecord : ∀ (node : RecordNode) (name : JolietName),
      (writeOneDirRecord t node name.bytes).length =
        name.ucslen * 2 + 34 + if node.isFile ∧ versions t then 4 else 0 := by
    intro node name
    have heven : ¬ name.ucslen * 2 % 2 = 1 := by omega
    simp only [writeOneDirRecord, isoBb, List.length_append, List.length_cons, List.length_nil,
      length_toLsb, length_toMsb, List.Vector.toList_length, List.length_replicate,
      name.length_bytes, heven, if_false]
    by_cases hversion : node.isFile = true ∧ versions t = true
    · simp only [hversion, and_self, if_true, List.length_cons, List.length_nil]
      omega
    · simp only [hversion, if_false, List.length_nil]
      omega
  cases child with
  | dir name info =>
    simp only [childRecords, List.map_cons, List.map_nil, hrecord]
    rfl
  | file name time sections =>
    apply List.ext_getElem
    · simp [childRecords, JolietNode.nsections]
    · intro i hi hi'
      simp only [childRecords, List.getElem_map, List.getElem_mapIdx, hrecord,
        List.getElem_replicate, calcDirentLen, JolietNode.name, JolietNode.isFile]

theorem direntLens_eq (children : List JolietNode) :
    (children.flatMap (childRecords t)).map List.length = direntLens t children := by
  rw [List.map_flatMap, direntLens]
  congr 1
  exact funext (length_childRecords t)

/-- All records are much shorter than a block. -/
theorem calcDirentLen_le (child : JolietNode) :
    0 < calcDirentLen t child ∧ calcDirentLen t child ≤ 246 := by
  have h := child.name.units_lt
  simp only [jolietNameMax] at h
  simp only [calcDirentLen, JolietName.ucslen]
  split
  · omega
  · omega

theorem record_le {children : List JolietNode} :
    ∀ r ∈ children.flatMap (childRecords t), 0 < r.length ∧ r.length ≤ blockSize := by
  intro r hr
  have hlen : r.length ∈ direntLens t children := by
    rw [← direntLens_eq]
    exact List.mem_map_of_mem hr
  obtain ⟨child, -, hmem⟩ := List.mem_flatMap.mp hlen
  have hbounds := calcDirentLen_le t child
  rw [List.eq_of_mem_replicate hmem, blockSize]
  omega

theorem length_dotRecord (dir : JolietDir) (fileId : UInt8) (time : Datetime) :
    (dotRecord t dir fileId time).length = 34 := by
  simp [dotRecord, writeOneDirRecord, isoBb]

theorem total_dots (dir : JolietDir) (parent : Option JolietDir) :
    total List.length [dotRecord t dir 0 dir.time, dotRecord t dir 1 (parentTime dir parent)] =
      34 + 34 := by
  simp [length_dotRecord]

/-- No record crosses the end of a block. -/
theorem dirBlocks_fit (dir : JolietDir) (parent : Option JolietDir) :
    ∀ block ∈ dirBlocks t dir parent, total List.length block ≤ blockSize := by
  apply pack_fit
  · simp
  · rw [total_dots]
    decide
  · exact fun r hr => (record_le t r hr).2

theorem length_padBlock {records : List (List UInt8)}
    (h : total List.length records ≤ blockSize) : (padBlock records).length = blockSize := by
  have hlen : records.flatten.length = total List.length records := by
    rw [List.length_flatten, total]
  rw [padBlock, List.length_append, List.length_replicate, hlen]
  omega

/-- The predicted size of a directory is the size of the blocks which get written. -/
theorem calcDirSize_eq (dir : JolietDir) (parent : Option JolietDir) :
    calcDirSize t dir.children = blockSize * (writeOneDir t dir parent).length := by
  have hpack := @roundUp_predict _ blockSize List.length
    [dotRecord t dir 0 dir.time, dotRecord t dir 1 (parentTime dir parent)]
    (dir.children.flatMap (childRecords t)) (by rw [total_dots]; decide)
    (by rw [total_dots]; decide)
    (record_le t)
  rw [total_dots, direntLens_eq] at hpack
  rw [calcDirSize, hpack, writeOneDir, List.length_map, dirBlocks]

end Records

section Positions

variable (t : Ecma119Image)

/-- The blocks which are reserved for a directory. -/
def reserved (e : PathEntry) : Nat := divUp e.dir.len blockSize

/-- Directories which have got consecutive addresses from `start` on, and their lengths. -/
structure Placed (start : Nat) (list : List PathEntry) : Prop where
  block : ∀ p ∈ place reserved start list, p.1.dir.block = p.2 % 2 ^ 32
  len : ∀ e ∈ list, e.dir.len = calcDirSize t e.dir.children

variable {t}

theorem Placed.append {start : Nat} {xs ys : List PathEntry} (hxs : Placed t start xs)
    (hys : Placed t (start + total reserved xs) ys) : Placed t start (xs ++ ys) := by
  constructor
  case block =>
    rw [place_append]
    exact List.forall_mem_append.mpr ⟨hxs.block, hys.block⟩
  case len => exact List.forall_mem_append.mpr ⟨hxs.len, hys.len⟩

/-- The records of a directory do not depend on the addresses of its children. -/
theorem direntLens_calcDirPosChildren (children : List JolietNode) (curblock : Nat) :
    direntLens t (calcDirPosChildren t children curblock).1 = direntLens t children := by
  induction children generalizing curblock with
  | nil => rfl
  | cons child rest ih =>
    cases child with
    | file name time sections =>
      simp only [calcDirPosChildren]
      rw [direntLens, List.flatMap_cons, ← direntLens, ih]
      rfl
    | dir name info =>
      simp only [calcDirPosChildren]
      rw [direntLens, List.flatMap_cons, ← direntLens, ih]
      rfl

/-- What calc_dir_pos() does with directories which begin at `start`. -/
structure Positioned (t : Ecma119Image) (start : Nat) (list : List PathEntry) (next : Nat) :
    Prop where
  placed : Placed t start list
  next_eq : next = (start + total reserved list) % 2 ^ 32

/-- The children, if it is known of each single directory among them. -/
theorem calcDirPosChildren_positioned {children : List JolietNode}
    (ih : ∀ name info, JolietNode.dir name info ∈ children →
      ∀ start parent, Positioned t start
        (entries (some name) (some parent) (calcDirPos t info (start % 2 ^ 32)).1)
        (calcDirPos t info (start % 2 ^ 32)).2) (start : Nat) (parent : JolietDir) :
    Positioned t start
      (entriesChildren parent (calcDirPosChildren t children (start % 2 ^ 32)).1)
      (calcDirPosChildren t children (start % 2 ^ 32)).2 := by
  induction children generalizing start with
  | nil =>
    constructor
    case placed => exact ⟨by simp [calcDirPosChildren, entriesChildren, place],
      by simp [calcDirPosChildren, entriesChildren]⟩
    case next_eq => rfl
  | cons child rest ih' =>
    have hrest := ih' fun name info hmem => ih name info (List.mem_cons_of_mem _ hmem)
    cases child with
    | file name time sections => exact hrest start
    | dir name info =>
      obtain ⟨hplaced, hnext⟩ := ih name info List.mem_cons_self start parent
      obtain ⟨hplaced', hnext'⟩ := hrest (start + total reserved
        (entries (some name) (some parent) (calcDirPos t info (start % 2 ^ 32)).1))
      rw [← hnext] at hplaced' hnext'
      constructor
      case placed => exact hplaced.append hplaced'
      case next_eq =>
        simp only [calcDirPosChildren, entriesChildren, total_append]
        rw [hnext', Nat.add_assoc]

theorem calcDirPos_positioned (d : JolietDir) (start : Nat) (name : Option JolietName)
    (parent : Option JolietDir) :
    Positioned t start (entries name parent (calcDirPos t d (start % 2 ^ 32)).1)
      (calcDirPos t d (start % 2 ^ 32)).2 := by
  induction d using JolietDir.induction generalizing start name parent with
  | step addr time block len children ih =>
    have hchildren := @calcDirPosChildren_positioned t children
      fun name info hmem start parent => ih name info hmem start (some name) (some parent)
    simp only [calcDirPos, entries, Nat.mod_add_mod]
    obtain ⟨hplaced, hnext⟩ :=
      hchildren (start + divUp (calcDirSize t children) blockSize) (.mk addr time (start % 2 ^ 32)
        (calcDirSize t children) (calcDirPosChildren t children
          ((start + divUp (calcDirSize t children) blockSize) % 2 ^ 32)).1)
    constructor
    case placed =>
      constructor
      case block => exact List.forall_mem_cons.mpr ⟨rfl, hplaced.block⟩
      case len =>
        intro e he
        rcases List.mem_cons.mp he with rfl | hlater
        · show calcDirSize t children = calcDirSize t (calcDirPosChildren t children _).1
          rw [calcDirSize, calcDirSize, direntLens_calcDirPosChildren]
        · exact hplaced.len e hlater
    case next_eq =>
      rw [hnext, total_cons, ← Nat.add_assoc]
      rfl

/-- Whatever depends on names and addresses in memory only, stays as it is. -/
theorem calcDirPos_map {α : Type} {f : PathEntry → α}
    (hf : ∀ name parent parent' d d', d.addr = d'.addr → f ⟨name, parent, d⟩ = f ⟨name, parent', d'⟩)
    (d : JolietDir) (start : Nat) (name : Option JolietName) (parent parent' : Option JolietDir) :
    (entries name parent (calcDirPos t d start).1).map f = (entries name parent' d).map f := by
  induction d using JolietDir.induction generalizing start name parent parent' with
  | step addr time block len children ih =>
    have hchildren : ∀ (children' : List JolietNode)
        (_ : ∀ name info, JolietNode.dir name info ∈ children' →
          JolietNode.dir name info ∈ children) (start : Nat) (p p' : JolietDir),
        (entriesChildren p (calcDirPosChildren t children' start).1).map f =
          (entriesChildren p' children').map f := by
      intro children' hsub start p p'
      induction children' generalizing start with
      | nil => rfl
      | cons child rest ih' =>
        have hrest := ih' fun name info hmem => hsub name info (List.mem_cons_of_mem _ hmem)
        cases child with
        | file name time sections => exact hrest start
        | dir name info =>
          simp only [calcDirPosChildren, entriesChildren, List.map_append]
          rw [hrest, ih name info (hsub name info List.mem_cons_self) start (some name) (some p)
            (some p')]
    simp only [calcDirPos, entries, List.map_cons]
    rw [hchildren children (fun _ _ h => h), hf]
    rfl

end Positions

section PathTable

variable (t : Ecma119Image)

/-- The directories get emitted in the sequence of the depth-first traversal. -/
theorem writeDirs_eq (d : JolietDir) (name : Option JolietName) (parent : Option JolietDir) :
    writeDirs t d parent =
      (entries name parent d).flatMap fun e => writeOneDir t e.dir e.parent := by
  induction d using JolietDir.induction generalizing name parent with
  | step addr time block len children ih =>
    rw [writeDirs, entries, List.flatMap_cons]
    congr 1
    generalize JolietDir.mk addr time block len children = d
    induction children with
    | nil => rfl
    | cons child rest ih' =>
      have hrest := ih' fun name info hmem => ih name info (List.mem_cons_of_mem _ hmem)
      cases child with
      | file name time sections => rw [writeDirsChildren, entriesChildren, hrest]
      | dir name info =>
        rw [writeDirsChildren, entriesChildren, List.flatMap_append, hrest,
          ih name info List.mem_cons_self (some name) (some d)]

/-- The length of a path table record. -/
def recordLen (e : PathEntry) : Nat := 8 + pathTableNameLen e.name

theorem calcPathTableSize_eq (d : JolietDir) (name : Option JolietName)
    (parent : Option JolietDir) :
    calcPathTableSize name d = total recordLen (entries name parent d) % 2 ^ 32 := by
  induction d using JolietDir.induction generalizing name parent with
  | step addr time block len children ih =>
    rw [calcPathTableSize, entries, total_cons]
    generalize JolietDir.mk addr time block len children = d
    have hchildren : calcPathTableSizeChildren children % 2 ^ 32 =
        total recordLen (entriesChildren d children) % 2 ^ 32 := by
      induction children with
      | nil => rfl
      | cons child rest ih' =>
        have hrest := ih' fun name info hmem => ih name info (List.mem_cons_of_mem _ hmem)
        cases child with
        | file name time sections => rw [calcPathTableSizeChildren, entriesChildren, hrest]
        | dir name info =>
          rw [calcPathTableSizeChildren, entriesChildren, total_append,
            ih name info List.mem_cons_self (some name) (some d)]
          omega
    rw [Nat.add_mod, hchildren, ← Nat.add_mod]
    rfl

theorem length_pathTableRecord {writeInt : Nat → Nat → List UInt8}
    (hint : ∀ bytes num, (writeInt bytes num).length = bytes) (e : PathEntry) (parent : Nat) :
    (pathTableRecord t e parent writeInt).length = recordLen e := by
  obtain ⟨name, parent', dir⟩ := e
  cases name with
  | none => simp [pathTableRecord, recordLen, pathTableNameLen, hint]
  | some name =>
    have heven : name.ucslen * 2 % 2 = 0 := by omega
    simp only [pathTableRecord, recordLen, pathTableNameLen, List.length_append,
      List.length_cons, List.length_nil,
      hint, name.length_bytes, heven, List.length_replicate]
    omega

/-- Directories are known by their addresses in memory. -/
theorem parents_eq_search (list : List PathEntry) (parent : Nat) (rest : List PathEntry) :
    parents list parent rest = ParentSearch.parents (fun e => e.dir.addr)
      (fun e => e.parent.map JolietDir.addr) list parent rest := by
  induction rest generalizing parent with
  | nil => rfl
  | cons e rest ih => exact congrArg (findParent list parent e :: ·) (ih _)

theorem numbered_eq_search (list : List PathEntry) :
    numbered list = ParentSearch.numbered (fun e => e.dir.addr)
      (fun e => e.parent.map JolietDir.addr) list := by
  cases list with
  | nil => rfl
  | cons root rest => rw [numbered, ParentSearch.numbered, parents_eq_search]

theorem numbered_fst (list : List PathEntry) : (numbered list).map Prod.fst = list := by
  rw [numbered_eq_search, ParentSearch.numbered_fst]

/-- The records together have the predicted size. -/
theorem length_pathTableRecords {writeInt : Nat → Nat → List UInt8}
    (hint : ∀ bytes num, (writeInt bytes num).length = bytes) (list : List PathEntry) :
    (pathTableRecords t list writeInt).flatten.length = total recordLen list := by
  have hlens : (pathTableRecords t list writeInt).map List.length = list.map recordLen := by
    nth_rewrite 2 [← numbered_fst list]
    rw [pathTableRecords, List.map_map, List.map_map]
    congr 1
    exact funext fun p => length_pathTableRecord t hint p.1 p.2
  rw [List.length_flatten, hlens, total]

theorem pathlist_perm (root : JolietDir) :
    ((pathlist root).map Prod.fst).Perm (entries none none root) :=
  levelOrder_perm all_eq (ndirs_eq root none none).symm

theorem parent_of_mem_subdirs {p e : PathEntry} (h : e ∈ subdirs p) : e.parent = some p.dir := by
  obtain ⟨child, -, hchild⟩ := List.mem_filterMap.mp h
  obtain ⟨z, -, hz⟩ := Option.map_eq_some_iff.mp hchild
  rw [← hz]

/-- The parent index which is written is the one of the entry that appended the entry. -/
theorem numbered_pathlist (root : JolietDir)
    (hnodup : ((entries none none root).map fun e => e.dir.addr).Nodup) :
    numbered ((pathlist root).map Prod.fst) = pathlist root := by
  obtain ⟨rest, hrest⟩ : ∃ rest, pathlist root = (⟨none, none, root⟩, 0) :: rest :=
    levelOrder_head _ _
  have hdistinct : (((pathlist root).map Prod.fst).map fun e => e.dir.addr).Nodup :=
    ((pathlist_perm root).map _).nodup_iff.mpr hnodup
  rw [numbered_eq_search]
  refine ParentSearch.numbered_eq (levelOrder_inOrder _ _) hrest hdistinct fun p c hc => ?_
  rw [parent_of_mem_subdirs hc, Option.map_some]

end PathTable

section Agreement

variable (t : Ecma119Image) (start : UInt32) (tree : JolietTree)

/-- The tree after calc_dir_pos(), beginning by block `start`. -/
def positionedRoot : JolietDir := (calcDirPos t tree.root start.toNat).1

def allDirs : List PathEntry := entries none none (positionedRoot t start tree)

def tableList : List PathEntry := (pathlist (positionedRoot t start tree)).map Prod.fst

/-- The size of the path table as sum over all directories of the tree. -/
def tableBytes : Nat := total recordLen (entries none none tree.root)

def emittedBlocks (e : PathEntry) : Nat := (writeOneDir t e.dir e.parent).length

/-- What has been predicted is what gets written. -/
structure SizesAgree : Prop where
  /-- Each record is in one block. -/
  fit : ∀ e ∈ allDirs t start tree, ∀ block ∈ dirBlocks t e.dir e.parent,
    total List.length block ≤ blockSize
  /-- Each record is written once, and the sections of a file one after the other. -/
  records : ∀ e ∈ allDirs t start tree, (dirBlocks t e.dir e.parent).flatten =
    [dotRecord t e.dir 0 e.dir.time, dotRecord t e.dir 1 (parentTime e.dir e.parent)] ++
      e.dir.children.flatMap (childRecords t)
  blocks : ∀ e ∈ allDirs t start tree, ∀ block ∈ writeOneDir t e.dir e.parent,
    block.length = blockSize
  size : ∀ e ∈ allDirs t start tree,
    e.dir.len = blockSize * emittedBlocks t e ∧ reserved e = emittedBlocks t e
  /-- The sequence of the emitted directories. -/
  order : writeDirs t (positionedRoot t start tree) none =
    (allDirs t start tree).flatMap fun e => writeOneDir t e.dir e.parent
  /-- Each directory is emitted at the address which is reserved for it. -/
  positions : ∀ p ∈ place (emittedBlocks t) start.toNat (allDirs t start tree),
    p.1.dir.block = p.2 % 2 ^ 32
  next : (calcDirPos t tree.root start.toNat).2 =
    (start.toNat + (writeDirs t (positionedRoot t start tree) none).length) % 2 ^ 32
  /-- The path tables have the predicted size, and are filled up to full blocks. -/
  tableSize : ∀ writeInt ∈ [toLsb, toMsb],
    (pathTableRecords t (tableList t start tree) writeInt).flatten.length =
        calcPathTableSize none (positionedRoot t start tree) ∧
      (writePathTable t (tableList t start tree) writeInt).length =
        roundUp blockSize (calcPathTableSize none (positionedRoot t start tree))
  /-- Each directory is listed exactly once. -/
  listed : (tableList t start tree).Perm (allDirs t start tree) ∧
    ((tableList t start tree).map fun e => e.dir.addr).Nodup
  /-- The parent number is the one of the parent, which has been listed before. -/
  parents : ∀ k e p, 0 < k → (numbered (tableList t start tree))[k]? = some (e, p) →
    p < k ∧ ∃ parent, (tableList t start tree)[p]? = some parent ∧ e.parent = some parent.dir
  /-- Up to 65535 directories can be numbered by 16 bits. -/
  numbers : (tableList t start tree).length ≤ 65535 →
    ∀ x ∈ numbered (tableList t start tree), (x.2 + 1) % 2 ^ 16 = x.2 + 1

variable {t start tree}

theorem positioned_root :
    Positioned t start.toNat (allDirs t start tree) (calcDirPos t tree.root start.toNat).2 := by
  have h := calcDirPos_positioned (t := t) tree.root start.toNat none none
  rwa [Nat.mod_eq_of_lt start.toNat_lt] at h

theorem size_emitted {e : PathEntry} (he : e ∈ allDirs t start tree) :
    e.dir.len = blockSize * emittedBlocks t e ∧ reserved e = emittedBlocks t e := by
  have hlen := positioned_root.placed.len e he
  rw [calcDirSize_eq t e.dir e.parent] at hlen
  refine ⟨hlen, ?_⟩
  rw [reserved, hlen, emittedBlocks]
  simp only [divUp, blockSize]
  omega

theorem place_congr {len len' : PathEntry → Nat} {list : List PathEntry} (start : Nat)
    (h : ∀ e ∈ list, len e = len' e) : place len start list = place len' start list := by
  induction list generalizing start with
  | nil => rfl
  | cons e rest ih =>
    rw [place, place, h e List.mem_cons_self,
      ih _ fun e' he' => h e' (List.mem_cons_of_mem _ he')]

theorem length_writeDirs : (writeDirs t (positionedRoot t start tree) none).length =
    total reserved (allDirs t start tree) := by
  rw [writeDirs_eq t _ none none, List.length_flatMap, total]
  congr 1
  exact List.map_congr_left fun e he => (size_emitted he).2.symm

theorem nodup_addr : ((allDirs t start tree).map fun e => e.dir.addr).Nodup := by
  rw [allDirs, positionedRoot, calcDirPos_map (fun _ _ _ _ _ h => h) tree.root start.toNat none none
    none]
  exact tree.distinct

theorem le_roundUp {n : Nat} : n ≤ roundUp blockSize n := by
  simp only [roundUp, blockSize]
  omega

theorem numbered_parents (k : Nat) (e : PathEntry) (p : Nat) (hk : 0 < k)
    (hget : (numbered (tableList t start tree))[k]? = some (e, p)) :
    p < k ∧ ∃ parent, (tableList t start tree)[p]? = some parent ∧ e.parent = some parent.dir := by
  rw [tableList, numbered_pathlist _ nodup_addr] at hget
  obtain ⟨hlt, parent, q, hparent, hmem⟩ := (levelOrder_inOrder _ _).child k e p hk hget
  refine ⟨hlt, parent, ?_, parent_of_mem_subdirs hmem⟩
  rw [tableList, List.getElem?_map, pathlist, hparent, Option.map_some]

/-- The names stay as they are, too. -/
theorem total_recordLen_allDirs : total recordLen (allDirs t start tree) = tableBytes tree := by
  rw [allDirs, positionedRoot, tableBytes, total, total]
  exact congrArg List.sum (calcDirPos_map (fun _ _ _ _ _ _ => rfl) tree.root start.toNat
    none none none)

theorem total_recordLen_tableList :
    total recordLen (tableList t start tree) = tableBytes tree := by
  rw [← @total_recordLen_allDirs t start tree, total, total]
  exact ((pathlist_perm _).map _).sum_eq

/-- All digits of the size above 32 bits get lost. -/
theorem calcPathTableSize_mod :
    calcPathTableSize none (positionedRoot t start tree) = tableBytes tree % 2 ^ 32 := by
  rw [calcPathTableSize_eq _ none none, ← allDirs, total_recordLen_allDirs]

/-- A predicted size has 32 bits. -/
theorem SizesAgree.tableBytes_lt (h : SizesAgree t start tree) : tableBytes tree < 2 ^ 32 := by
  have hsize := (h.tableSize toLsb List.mem_cons_self).1
  rw [length_pathTableRecords t length_toLsb, total_recordLen_tableList,
    calcPathTableSize_mod] at hsize
  rw [hsize]
  exact Nat.mod_lt _ (by decide)

/-- What gets predicted about Joliet directories and path tables is right, if and only if the
size of the path table fits into 32 bits. -/
theorem sizes_agree_iff (t : Ecma119Image) (start : UInt32) (tree : JolietTree) :
    SizesAgree t start tree ↔ tableBytes tree < 2 ^ 32 := by
  refine ⟨SizesAgree.tableBytes_lt, fun hbytes => ?_⟩
  constructor
  case fit => exact fun e _ => dirBlocks_fit t e.dir e.parent
  case records =>
    intro e _
    rw [dirBlocks, pack_flatten, List.flatten_nil, List.nil_append]
  case blocks =>
    intro e _ block hblock
    obtain ⟨records, hrecords, rfl⟩ := List.mem_map.mp hblock
    exact length_padBlock (dirBlocks_fit t e.dir e.parent records hrecords)
  case size => exact fun e he => size_emitted he
  case order => exact writeDirs_eq t _ none none
  case positions =>
    intro p hp
    rw [place_congr start.toNat fun e he => (size_emitted he).2.symm] at hp
    exact positioned_root.placed.block p hp
  case next => rw [length_writeDirs, positioned_root.next_eq]
  case tableSize =>
    intro writeInt hint
    have hsize := length_pathTableRecords t (length_toLsb_or_toMsb writeInt hint)
      (tableList t start tree)
    have hcalc := @calcPathTableSize_mod t start tree
    rw [Nat.mod_eq_of_lt hbytes, ← @total_recordLen_tableList t start tree] at hcalc
    rw [← hcalc] at hsize
    refine ⟨hsize, ?_⟩
    have hle := @le_roundUp (calcPathTableSize none (positionedRoot t start tree))
    simp only [writePathTable, List.length_append, List.length_replicate, hsize]
    omega
  case listed =>
    exact ⟨pathlist_perm _, ((pathlist_perm _).map _).nodup_iff.mpr nodup_addr⟩
  case parents => exact numbered_parents
  case numbers =>
    intro hfew x hx
    obtain ⟨k, hk⟩ := List.getElem?_of_mem hx
    have hbound : x.2 < 65535 := by
      rcases Nat.eq_zero_or_pos k with rfl | hpos
      · obtain ⟨rest, hrest⟩ := @levelOrder_head _ subdirs
          (ndirs (positionedRoot t start tree)) ⟨none, none, positionedRoot t start tree⟩
        rw [tableList, numbered_pathlist _ nodup_addr, pathlist, hrest] at hk
        obtain rfl := Option.some.inj hk
        exact Nat.succ_pos _
      · have hlt := (numbered_parents k x.1 x.2 hpos hk).1
        have hlen := congrArg List.length (numbered_fst (tableList t start tree))
        rw [List.length_map] at hlen
        have hk' := (List.getElem?_eq_some_iff.mp hk).1
        omega
    omega

end Agreement

section ManyDirectories

theorem someTime_length : ([125, 1, 1, 0, 0, 0, 0] : List UInt8).length = 7 := rfl

def someTime : Datetime := ⟨[125, 1, 1, 0, 0, 0, 0], someTime_length⟩

/-- A number as 30 binary digits. -/
def binaryName (i : Nat) : JolietName where
  units := (List.range 30).map fun k => if i.testBit (29 - k) then 0x31 else 0x30
  units_lt := by
    rw [List.length_map, List.length_range]
    decide

/-- A root with empty directories of different names. -/
def wideRoot (n : Nat) : JolietDir :=
  .mk 0 someTime 0 0 ((List.range n).map fun i =>
    .dir (binaryName i) (.mk (i + 1) someTime 0 0 []))

theorem entriesChildren_wide (is : List Nat) (parent : JolietDir) :
    entriesChildren parent (is.map fun i =>
      .dir (binaryName i) (.mk (i + 1) someTime 0 0 [])) =
        is.map fun i => ⟨some (binaryName i), some parent, .mk (i + 1) someTime 0 0 []⟩ := by
  induction is with
  | nil => rfl
  | cons i is ih => exact congrArg (_ :: ·) ih

theorem entries_wide (n : Nat) : entries none none (wideRoot n) =
    ⟨none, none, wideRoot n⟩ :: (List.range n).map fun i =>
      ⟨some (binaryName i), some (wideRoot n), .mk (i + 1) someTime 0 0 []⟩ := by
  rw [wideRoot, entries, entriesChildren_wide]

def wideTree (n : Nat) : JolietTree where
  root := wideRoot n
  distinct := by
    rw [entries_wide, List.map_cons, List.map_map, List.nodup_cons]
    constructor
    · intro h
      obtain ⟨i, -, hi⟩ := List.mem_map.mp h
      exact absurd hi (Nat.succ_ne_zero i)
    · exact (List.nodup_range).map fun i j hij => Nat.succ.inj hij

theorem tableBytes_wide (n : Nat) : tableBytes (wideTree n) = 10 + 68 * n := by
  rw [tableBytes, wideTree, entries_wide, total_cons, total, List.map_map]
  have hsizes : (recordLen ∘ fun i : Nat =>
      (⟨some (binaryName i), some (wideRoot n), .mk (i + 1) someTime 0 0 []⟩ : PathEntry)) =
        fun _ => 68 := by
    funext i
    simp [recordLen, pathTableNameLen, JolietName.ucslen, binaryName]
  rw [hsizes, List.map_const', List.sum_replicate, List.length_range, Nat.nsmul_eq_mul,
    Nat.mul_comm]
  exact congrArg (· + 68 * n) (rfl : recordLen ⟨none, none, wideRoot n⟩ = 10)

/-- The path table of so many directories has 26 bytes more than can be counted. -/
theorem wide_sizes_differ : ¬ SizesAgree ⟨0, 0⟩ 20 (wideTree 63161284) := by
  intro h
  have hbytes := h.tableBytes_lt
  rw [tableBytes_wide] at hbytes
  omega

end ManyDirectories

end Joliet
