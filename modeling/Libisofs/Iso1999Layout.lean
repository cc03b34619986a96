import Libisofs.Ecma119PathTables
import Libisofs.Iso1999Mangle

/-!
# Layout of ISO 9660:1999 directories and path tables

calc_dir_size(), calc_dir_pos() and calc_path_table_size() of iso1999.c predict what
write_one_dir(), write_dirs() and write_path_table() emit. The size of the path table gets
summed up in 32 bits.
-/

namespace Iso1999Layout

open ByteBuffers BlockPacking ConsecutiveLayout LevelOrder LowLevelDirs
open Joliet (blockSize divUp someTime)

/-- What an entry adds to `size` of calc_path_table_size(). -/
def entrySize (name : Option (List UInt8)) : Nat :=
  let size := 8 + match name with
    | some name => name.length
    | none => 2
  size + size % 2

mutual

def calcPathTableSize : (name : Option (List UInt8)) → LowDir → Nat
  | name, .mk _ _ _ _ children =>
    (entrySize name + calcPathTableSizeChildren children) % 2 ^ 32

def calcPathTableSizeChildren : List LowNode → Nat
  | [] => 0
  | .file _ _ _ :: rest => calcPathTableSizeChildren rest
  | .other _ _ _ :: rest => calcPathTableSizeChildren rest
  | .dir name info :: rest =>
    (calcPathTableSize (some name) info + calcPathTableSizeChildren rest) % 2 ^ 32

end

section Writing

/-- The array `pathlist`. Each entry comes with the index of the one which appended it. -/
def pathlist (root : LowDir) : List (DirEntry × Nat) :=
  levelOrder subdirs (ndirs root) ⟨none, [], root⟩

/-- Each entry with the parent index that is found for it. -/
def numbered (list : List DirEntry) : List (DirEntry × Nat) :=
  ParentSearch.numbered (fun e => e.dir.addr) (fun e => e.ancestors.head?.map LowDir.addr) list

/-- The size of `buf`. -/
def bufSize : Nat := 256

/-- Only the root has no parent, and no name either. Its identifier is a byte of the zeroed
buffer. The record is not defined if the identifier reaches over the end of `buf`. -/
def pathTableRecord (e : DirEntry) (parent : Nat) (writeInt : Nat → Nat → List UInt8) :
    Option (List UInt8) :=
  let lenDi := match e.name with
    | some name => name.length % 256
    | none => 1
  let dirId := match e.name with
    | some name => name.take lenDi
    | none => [0]
  if bufSize < 8 + lenDi then none
  else some ([UInt8.ofNat lenDi, 0] ++ writeInt 4 e.dir.block ++
    writeInt 2 ((parent + 1) % 2 ^ 16) ++ dirId ++ List.replicate (lenDi % 2) 0)

def pathTableRecords (list : List DirEntry) (writeInt : Nat → Nat → List UInt8) :
    Option (List (List UInt8)) :=
  (numbered list).mapM fun (e, parent) => pathTableRecord e parent writeInt

/-- The last block gets filled with zeros. -/
def fill (records : List (List UInt8)) : List UInt8 :=
  records.flatten ++
    List.replicate (roundUp blockSize records.flatten.length - records.flatten.length) 0

/-- The L path table and the M path table. -/
def writePathTables (root : LowDir) : Option (List UInt8 × List UInt8) := do
  let list := (pathlist root).map Prod.fst
  let l ← pathTableRecords list toLsb
  let m ← pathTableRecords list toMsb
  some (fill l, fill m)

end Writing

/-- A tree of nodes of which the names have been made fit. -/
structure Iso1999Tree extends LowTree where
  names : ∀ e ∈ entries none [] root, ∀ child ∈ e.dir.children, Iso1999.NameFits child.name

section Agreement

variable (start : UInt32) (tree : Iso1999Tree)

/-- The tree after calc_dir_pos(), beginning by block `start`. -/
def positionedRoot : LowDir := (calcDirPos iso1999Format tree.root start.toNat).1

def allDirs : List DirEntry := entries none [] (positionedRoot start tree)

def tableList : List DirEntry := (pathlist (positionedRoot start tree)).map Prod.fst

/-- The blocks which are reserved for a directory. -/
def reserved (e : DirEntry) : Nat := divUp e.dir.len blockSize

def emittedBlocks (e : DirEntry) : Nat := (writeOneDir iso1999Format e).length

/-- The record which describes a directory. -/
def properRecord (e : DirEntry) (parent : Nat) (writeInt : Nat → Nat → List UInt8) : List UInt8 :=
  let id := Ecma119PathTables.identifier e.name
  [UInt8.ofNat id.length, 0] ++ writeInt 4 e.dir.block ++ writeInt 2 (parent + 1) ++ id ++
    List.replicate (id.length % 2) 0

/-- What has been predicted is what gets written. -/
structure LayoutAgrees : Prop where
  /-- Each record is in one block. -/
  fit : ∀ e ∈ allDirs start tree, ∀ block ∈ dirBlocks iso1999Format e,
    total List.length block ≤ blockSize
  /-- Each record is written once, and the sections of a file one after the other. -/
  records : ∀ e ∈ allDirs start tree,
    (dirBlocks iso1999Format e).flatten = writtenRecords iso1999Format e
  blocks : ∀ e ∈ allDirs start tree, ∀ block ∈ writeOneDir iso1999Format e,
    block.length = blockSize
  size : ∀ e ∈ allDirs start tree,
    e.dir.len = blockSize * emittedBlocks e ∧ reserved e = emittedBlocks e
  /-- The sequence of the emitted directories. -/
  order : writeDirs iso1999Format none [] (positionedRoot start tree) =
    (allDirs start tree).flatMap (writeOneDir iso1999Format)
  /-- Each directory is emitted at the address which is reserved for it. -/
  positions : ∀ p ∈ place emittedBlocks start.toNat (allDirs start tree),
    p.1.dir.block = p.2 % 2 ^ 32
  next : (calcDirPos iso1999Format tree.root start.toNat).2 =
    (start.toNat + (writeDirs iso1999Format none [] (positionedRoot start tree)).length) % 2 ^ 32
  /-- The path tables have the predicted size, and are filled up to full blocks. -/
  tableSize : ∀ writeInt ∈ [toLsb, toMsb], ∃ records,
    pathTableRecords (tableList start tree) writeInt = some records ∧
      records.flatten.length = calcPathTableSize none (positionedRoot start tree) ∧
      (fill records).length =
        roundUp blockSize (calcPathTableSize none (positionedRoot start tree))
  tables : ∃ l m, pathTableRecords (tableList start tree) toLsb = some l ∧
    pathTableRecords (tableList start tree) toMsb = some m ∧
    writePathTables (positionedRoot start tree) = some (fill l, fill m)
  /-- Each directory is listed exactly once. -/
  listed : (tableList start tree).Perm (allDirs start tree) ∧
    ((tableList start tree).map fun e => e.dir.addr).Nodup
  /-- The parent has been listed before. -/
  parents : ∀ k e p, 0 < k → (numbered (tableList start tree))[k]? = some (e, p) →
    p < k ∧ ∃ parent, (tableList start tree)[p]? = some parent ∧ e ∈ subdirs parent
  /-- The numbers of up to 65535 directories are written entirely. -/
  numbers : (allDirs start tree).length ≤ 65535 → ∀ writeInt ∈ [toLsb, toMsb],
    pathTableRecords (tableList start tree) writeInt =
      some ((numbered (tableList start tree)).map fun x => properRecord x.1 x.2 writeInt)

/-- The size of the path table, if nothing gets lost of it. -/
def tableBytes : Nat := total (fun e => entrySize e.name) (entries none [] tree.root)

end Agreement

section Records

theorem calcDirentLen_le {child : LowNode} (h : Iso1999.NameFits child.name) :
    0 < calcDirentLen iso1999Format child ∧ calcDirentLen iso1999Format child ≤ 240 := by
  have hlen : child.name.length ≤ 207 := h
  simp only [calcDirentLen, iso1999Format, Bool.false_eq_true, if_false]
  omega

theorem length_writeOneDirRecord (r : DirRecord) (hversion : r.version = false) :
    (writeOneDirRecord iso1999Format r []).length =
      r.name.length + 33 + (r.name.length + 33) % 2 := by
  simp only [writeOneDirRecord, hversion, Joliet.isoBb, List.length_append, List.length_cons,
    List.length_nil, length_toLsb, length_toMsb, List.Vector.toList_length,
    List.length_replicate, Bool.false_eq_true, if_false]
  split
  · omega
  · omega

/-- The computed length of a record is its actual length. -/
theorem length_childRecords (child : LowNode) :
    ((childRecords iso1999Format child).map fun r =>
      (writeOneDirRecord iso1999Format r []).length) =
        List.replicate child.nsections (calcDirentLen iso1999Format child) := by
  cases child with
  | dir name info => exact congrArg (· :: []) (length_writeOneDirRecord _ rfl)
  | other placeholder name time => exact congrArg (· :: []) (length_writeOneDirRecord _ rfl)
  | file name time sections =>
    apply List.ext_getElem
    · simp [childRecords, LowNode.nsections]
    · intro i hi hi'
      simp only [childRecords, List.getElem_map, List.getElem_mapIdx, List.getElem_replicate]
      exact length_writeOneDirRecord _ rfl

theorem mapIdx_const {α β : Type} (g : α → β) (xs : List α) :
    (xs.mapIdx fun _ x => g x) = xs.map g := by
  rw [List.mapIdx_eq_zipIdx_map]
  exact (List.map_map.symm.trans (congrArg (List.map g) (List.zipIdx_map_fst 0 xs)))

/-- There are no SUSP fields in the records. -/
theorem writtenRecords_eq (e : DirEntry) : writtenRecords iso1999Format e =
    (dirRecords iso1999Format e).map fun r => writeOneDirRecord iso1999Format r [] :=
  mapIdx_const (fun r => writeOneDirRecord iso1999Format r []) (dirRecords iso1999Format e)

theorem direntLens_eq (children : List LowNode) :
    direntLens iso1999Format children =
      ((children.flatMap (childRecords iso1999Format)).map fun r =>
      writeOneDirRecord iso1999Format r []).map List.length := by
  rw [List.map_map, List.map_flatMap, direntLens]
  refine (mapIdx_const (fun len => len) _).trans ?_
  rw [List.map_id']
  exact congrArg (fun g => children.flatMap g)
    (funext fun child => (length_childRecords child).symm)

theorem record_le {children : List LowNode} (h : ∀ child ∈ children, Iso1999.NameFits child.name) :
    ∀ r ∈ (children.flatMap (childRecords iso1999Format)).map fun r =>
      writeOneDirRecord iso1999Format r [], 0 < r.length ∧ r.length ≤ blockSize := by
  intro r hr
  have hlen : r.length ∈ (children.flatMap fun child =>
      List.replicate child.nsections (calcDirentLen iso1999Format child)) := by
    have hmem := List.mem_map_of_mem (f := List.length) hr
    rw [← direntLens_eq, direntLens] at hmem
    have hid := mapIdx_const (fun len : Nat => len) (children.flatMap fun child =>
      List.replicate child.nsections (calcDirentLen iso1999Format child))
    rw [List.map_id'] at hid
    exact hid ▸ hmem
  obtain ⟨child, hchild, hmem⟩ := List.mem_flatMap.mp hlen
  have hbounds := calcDirentLen_le (h child hchild)
  rw [List.eq_of_mem_replicate hmem, blockSize]
  omega

theorem dirBlocks_eq (e : DirEntry) : ∃ first rest,
    dirBlocks iso1999Format e = pack blockSize List.length [] first rest ∧
      total List.length first = 34 + 34 ∧ rest = (e.dir.children.flatMap
        (childRecords iso1999Format)).map fun r => writeOneDirRecord iso1999Format r [] := by
  refine ⟨_, _, rfl, ?_, ?_⟩
  · rw [writtenRecords_eq]
    have hdot : ∀ node parent fileId, (writeOneDirRecord iso1999Format
        (dotRecord node parent fileId) []).length = 34 := by
      intro node parent fileId
      rw [length_writeOneDirRecord _ rfl, dotRecord, List.length_singleton]
    simp only [dirRecords, List.map_cons, List.take_succ_cons, List.take_zero, total_cons,
      total_nil, hdot]
  · rw [writtenRecords_eq]
    rfl

section Dirs

variable {e : DirEntry} (h : ∀ child ∈ e.dir.children, Iso1999.NameFits child.name)
include h

/-- No record crosses the end of a block. -/
theorem dirBlocks_fit : ∀ block ∈ dirBlocks iso1999Format e,
    total List.length block ≤ blockSize := by
  obtain ⟨first, rest, hblocks, hfirst, hrest⟩ := dirBlocks_eq e
  rw [hblocks]
  apply pack_fit
  · simp
  · rw [hfirst]
    decide
  · intro r hr
    exact (record_le h r (hrest ▸ hr)).2

/-- The predicted size of a directory is the size of the blocks which get written. -/
theorem calcDirSize_eq : calcDirSize iso1999Format e.dir.children =
    blockSize * (writeOneDir iso1999Format e).length := by
  obtain ⟨first, rest, hblocks, hfirst, hrest⟩ := dirBlocks_eq e
  have hpack := @roundUp_predict _ blockSize List.length first rest (by rw [hfirst]; decide)
    (by rw [hfirst]; decide) (fun r hr => record_le h r (hrest ▸ hr))
  have hno : writeOneDir iso1999Format e = (dirBlocks iso1999Format e).map Joliet.padBlock :=
    List.append_nil _
  have hlens : rest.map List.length = direntLens iso1999Format e.dir.children := by
    rw [hrest, direntLens_eq]
  rw [hfirst, hlens] at hpack
  rw [hno, List.length_map, hblocks, ← hpack]
  rfl

theorem length_writtenBlocks : ∀ block ∈ writeOneDir iso1999Format e,
    block.length = blockSize := by
  intro block hblock
  have hno : writeOneDir iso1999Format e = (dirBlocks iso1999Format e).map Joliet.padBlock :=
    List.append_nil _
  rw [hno] at hblock
  obtain ⟨records, hrecords, rfl⟩ := List.mem_map.mp hblock
  exact Joliet.length_padBlock (dirBlocks_fit h records hrecords)

end Dirs

end Records

section Positions

variable {f : DirFormat}

/-- What calc_dir_pos() does not change in a directory. -/
def kept (e : DirEntry) : Option (List UInt8) × Nat × List (List UInt8) :=
  (e.name, e.dir.addr, e.dir.children.map LowNode.name)

theorem names_calcDirPosChildren (children : List LowNode) (curblock : Nat) :
    (calcDirPosChildren f children curblock).1.map LowNode.name = children.map LowNode.name := by
  induction children generalizing curblock with
  | nil => rfl
  | cons child rest ih =>
    cases child with
    | file name time sections => exact congrArg (name :: ·) (ih curblock)
    | other placeholder name time => exact congrArg (name :: ·) (ih curblock)
    | dir name info => exact congrArg (name :: ·) (ih _)

theorem kept_calcDirPos (d : LowDir) (start : Nat) (name : Option (List UInt8))
    (ancestors ancestors' : List LowDir) :
    (entries name ancestors (calcDirPos f d start).1).map kept =
      (entries name ancestors' d).map kept := by
  induction d using LowDir.induction generalizing start name ancestors ancestors' with
  | step addr time block len children ih =>
    have hchildren : ∀ (children' : List LowNode)
        (_ : ∀ name info, LowNode.dir name info ∈ children' →
          LowNode.dir name info ∈ children) (start : Nat) (above above' : List LowDir),
        (entriesChildren above (calcDirPosChildren f children' start).1).map kept =
          (entriesChildren above' children').map kept := by
      intro children' hsub start above above'
      induction children' generalizing start with
      | nil => rfl
      | cons child rest ih' =>
        have hrest := ih' fun name info hmem => hsub name info (List.mem_cons_of_mem _ hmem)
        cases child with
        | file name time sections => exact hrest start
        | other placeholder name time => exact hrest start
        | dir name info =>
          simp only [calcDirPosChildren, entriesChildren, List.map_append]
          rw [hrest, ih name info (hsub name info List.mem_cons_self) start (some name) above
            above']
    simp only [calcDirPos, entries, List.map_cons]
    rw [hchildren children (fun _ _ h => h)]
    refine congrArg (· :: _) ?_
    simp only [kept, LowDir.addr, LowDir.children, names_calcDirPosChildren]

/-- The directories get emitted in the sequence of the depth-first traversal. -/
theorem writeDirs_eq (d : LowDir) (name : Option (List UInt8)) (ancestors : List LowDir) :
    writeDirs f name ancestors d = (entries name ancestors d).flatMap (writeOneDir f) := by
  induction d using LowDir.induction generalizing name ancestors with
  | step addr time block len children ih =>
    rw [writeDirs, entries, List.flatMap_cons]
    rw [List.append_right_inj]
    generalize LowDir.mk addr time block len children :: ancestors = above
    induction children with
    | nil => rfl
    | cons child rest ih' =>
      have hrest := ih' fun name info hmem => ih name info (List.mem_cons_of_mem _ hmem)
      cases child with
      | file name time sections => rw [writeDirsChildren, entriesChildren, hrest]
      | other placeholder name time => rw [writeDirsChildren, entriesChildren, hrest]
      | dir name info =>
        rw [writeDirsChildren, entriesChildren, List.flatMap_append, hrest,
          ih name info List.mem_cons_self (some name) above]

/-- Directories which have got consecutive addresses from `start` on, and their lengths. -/
structure Placed (start : Nat) (list : List DirEntry) : Prop where
  block : ∀ p ∈ place reserved start list, p.1.dir.block = p.2 % 2 ^ 32
  len : ∀ e ∈ list, e.dir.len = calcDirSize iso1999Format e.dir.children

theorem Placed.append {start : Nat} {xs ys : List DirEntry} (hxs : Placed start xs)
    (hys : Placed (start + total reserved xs) ys) : Placed start (xs ++ ys) := by
  constructor
  case block =>
    rw [place_append]
    exact List.forall_mem_append.mpr ⟨hxs.block, hys.block⟩
  case len => exact List.forall_mem_append.mpr ⟨hxs.len, hys.len⟩

/-- What calc_dir_pos() does with directories which begin at `start`. -/
structure Positioned (start : Nat) (list : List DirEntry) (next : Nat) : Prop where
  placed : Placed start list
  next_eq : next = (start + total reserved list) % 2 ^ 32

/-- The records of a directory do not depend on the addresses of its children. -/
theorem calcDirSize_calcDirPosChildren (children : List LowNode) (curblock : Nat) :
    calcDirSize iso1999Format (calcDirPosChildren iso1999Format children curblock).1 =
      calcDirSize iso1999Format children := by
  have hlens : ∀ curblock, (calcDirPosChildren iso1999Format children curblock).1.flatMap
      (fun child => List.replicate child.nsections (calcDirentLen iso1999Format child)) =
        children.flatMap fun child =>
          List.replicate child.nsections (calcDirentLen iso1999Format child) := by
    induction children with
    | nil => intro curblock; rfl
    | cons child rest ih =>
      intro curblock
      cases child with
      | file name time sections =>
        rw [calcDirPosChildren, List.flatMap_cons, List.flatMap_cons, ih]
      | other placeholder name time =>
        rw [calcDirPosChildren, List.flatMap_cons, List.flatMap_cons, ih]
      | dir name info =>
        rw [calcDirPosChildren, List.flatMap_cons, List.flatMap_cons, ih]
        rfl
  simp only [calcDirSize, direntLens, hlens]
  rfl

/-- The children, if it is known of each single directory among them. -/
theorem calcDirPosChildren_positioned {children : List LowNode}
    (ih : ∀ name info, LowNode.dir name info ∈ children → ∀ start ancestors, Positioned start
      (entries (some name) ancestors (calcDirPos iso1999Format info (start % 2 ^ 32)).1)
      (calcDirPos iso1999Format info (start % 2 ^ 32)).2) (start : Nat) (above : List LowDir) :
    Positioned start
      (entriesChildren above (calcDirPosChildren iso1999Format children (start % 2 ^ 32)).1)
      (calcDirPosChildren iso1999Format children (start % 2 ^ 32)).2 := by
  induction children generalizing start with
  | nil =>
    constructor
    case placed => exact ⟨by simp [calcDirPosChildren, entriesChildren, place],
      by simp [calcDirPosChildren, entriesChildren]⟩
    case next_eq => rfl
  | cons child rest ih' =>
    have hrest := ih' fun name info hmem => ih name info (List.mem_cons_of_mem _ hmem)
    cases child with
    | file name time sections => exact hrest start
    | other placeholder name time => exact hrest start
    | dir name info =>
      obtain ⟨hplaced, hnext⟩ := ih name info List.mem_cons_self start above
      obtain ⟨hplaced', hnext'⟩ := hrest (start + total reserved
        (entries (some name) above (calcDirPos iso1999Format info (start % 2 ^ 32)).1))
      rw [← hnext] at hplaced' hnext'
      constructor
      case placed => exact hplaced.append hplaced'
      case next_eq =>
        simp only [calcDirPosChildren, entriesChildren, total_append]
        rw [hnext', Nat.add_assoc]

theorem dirBlockCount_eq (children : List LowNode) : dirBlockCount iso1999Format children =
    divUp (calcDirSize iso1999Format children) blockSize := by
  have hnone : divUp (iso1999Format.ceLen children) blockSize = 0 := by
    simp [iso1999Format, divUp, blockSize]
  rw [dirBlockCount, hnone, Nat.add_zero]

theorem calcDirPos_positioned (d : LowDir) (start : Nat) (name : Option (List UInt8))
    (ancestors : List LowDir) :
    Positioned start (entries name ancestors (calcDirPos iso1999Format d (start % 2 ^ 32)).1)
      (calcDirPos iso1999Format d (start % 2 ^ 32)).2 := by
  induction d using LowDir.induction generalizing start name ancestors with
  | step addr time block len children ih =>
    have hchildren := @calcDirPosChildren_positioned children
      fun name info hmem start above => ih name info hmem start (some name) above
    simp only [calcDirPos, entries, Nat.mod_add_mod, dirBlockCount_eq]
    obtain ⟨hplaced, hnext⟩ :=
      hchildren (start + divUp (calcDirSize iso1999Format children) blockSize)
        (.mk addr time (start % 2 ^ 32) (calcDirSize iso1999Format children)
          (calcDirPosChildren iso1999Format children ((start +
            divUp (calcDirSize iso1999Format children) blockSize) % 2 ^ 32)).1 :: ancestors)
    constructor
    case placed =>
      constructor
      case block => exact List.forall_mem_cons.mpr ⟨rfl, hplaced.block⟩
      case len =>
        exact List.forall_mem_cons.mpr
          ⟨(calcDirSize_calcDirPosChildren children _).symm, hplaced.len⟩
    case next_eq =>
      rw [hnext, total_cons, ← Nat.add_assoc]
      rfl

end Positions

section PathTable

theorem entrySize_eq (name : Option (List UInt8)) :
    entrySize name = Ecma119PathTables.entrySize name := by
  cases name with
  | none => rfl
  | some name => rfl

theorem calcPathTableSize_eq (d : LowDir) (name : Option (List UInt8)) :
    calcPathTableSize name d = Ecma119PathTables.calcPathTableSize name d := by
  induction d using LowDir.induction generalizing name with
  | step addr time block len children ih =>
    have hchildren : calcPathTableSizeChildren children =
        Ecma119PathTables.calcPathTableSizeChildren children := by
      induction children with
      | nil => rfl
      | cons child rest ih' =>
        have hrest := ih' fun name info hmem => ih name info (List.mem_cons_of_mem _ hmem)
        cases child with
        | file name time sections => exact hrest
        | other placeholder name time => exact hrest
        | dir name info =>
          rw [calcPathTableSizeChildren, Ecma119PathTables.calcPathTableSizeChildren, hrest,
            ih name info List.mem_cons_self (some name)]
    rw [calcPathTableSize, Ecma119PathTables.calcPathTableSize, hchildren, entrySize_eq]

variable {start : UInt32} {tree : Iso1999Tree}

theorem kept_allDirs : (allDirs start tree).map kept = (entries none [] tree.root).map kept :=
  kept_calcDirPos tree.root start.toNat none [] []

/-- The same for whatever is known from what has been kept. -/
theorem map_allDirs {α : Type} (g : Option (List UInt8) × Nat × List (List UInt8) → α) :
    ((allDirs start tree).map fun e => g (kept e)) =
      (entries none [] tree.root).map fun e => g (kept e) := by
  have h := congrArg (List.map g) (@kept_allDirs start tree)
  rwa [List.map_map, List.map_map] at h

variable (start tree) in
/-- The tree with the addresses set. -/
def positionedTree : LowTree where
  root := positionedRoot start tree
  distinct := by
    have h := @map_allDirs start tree Nat fun k => k.2.1
    exact h ▸ tree.distinct

theorem tableBytes_eq :
    total (fun e => entrySize e.name) (allDirs start tree) = tableBytes tree :=
  congrArg List.sum (map_allDirs fun k => entrySize k.1)

theorem total_tableList :
    total (fun e => entrySize e.name) (tableList start tree) = tableBytes tree := by
  rw [← @tableBytes_eq start tree, total, total]
  exact ((Ecma119PathTables.pathlist_perm (positionedRoot start tree)).map _).sum_eq

/-- All digits of the size above 32 bits get lost. -/
theorem calcPathTableSize_mod :
    calcPathTableSize none (positionedRoot start tree) = tableBytes tree % 2 ^ 32 := by
  rw [calcPathTableSize_eq, Ecma119PathTables.calcPathTableSize_eq _ none [], ← allDirs,
    ← @tableBytes_eq start tree]
  simp only [entrySize_eq]

theorem children_fit {e : DirEntry} (he : e ∈ allDirs start tree) :
    ∀ child ∈ e.dir.children, Iso1999.NameFits child.name := by
  have hkept : kept e ∈ (entries none [] tree.root).map kept :=
    @kept_allDirs start tree ▸ List.mem_map_of_mem he
  obtain ⟨e', he', heq⟩ := List.mem_map.mp hkept
  have hnames : e'.dir.children.map LowNode.name = e.dir.children.map LowNode.name :=
    congrArg (fun k => k.2.2) heq
  intro child hchild
  have hname : child.name ∈ e'.dir.children.map LowNode.name :=
    hnames ▸ List.mem_map_of_mem hchild
  obtain ⟨child', hchild', hsame⟩ := List.mem_map.mp hname
  exact hsame ▸ tree.names e' he' child' hchild'

theorem numbered_parents (k : Nat) (e : DirEntry) (p : Nat) (hk : 0 < k)
    (hget : (numbered (tableList start tree))[k]? = some (e, p)) :
    p < k ∧ ∃ parent, (tableList start tree)[p]? = some parent ∧ e ∈ subdirs parent :=
  @Ecma119PathTables.numbered_parents (positionedTree start tree) k e p hk hget

theorem numbered_head : ∃ rest, numbered (tableList start tree) =
    (⟨none, [], positionedRoot start tree⟩, 0) :: rest := by
  obtain ⟨rest, hrest⟩ := Ecma119PathTables.pathlist_head (positionedRoot start tree)
  exact ⟨rest, (@Ecma119PathTables.numbered_tableList (positionedTree start tree)).trans hrest⟩

theorem mem_allDirs {e : DirEntry} (he : e ∈ tableList start tree) : e ∈ allDirs start tree :=
  (Ecma119PathTables.pathlist_perm (positionedRoot start tree)).mem_iff.mp he

/-- The name of a directory is the name of a node in its parent. -/
theorem name_fits {e : DirEntry} {p : Nat} (he : (e, p) ∈ numbered (tableList start tree)) :
    ∀ name, e.name = some name → Iso1999.NameFits name := by
  intro name hname
  obtain ⟨k, hk⟩ := List.getElem?_of_mem he
  rcases Nat.eq_zero_or_pos k with rfl | hpos
  · obtain ⟨rest, hrest⟩ := @numbered_head start tree
    rw [hrest] at hk
    obtain ⟨rfl, -⟩ := Prod.mk.inj (Option.some.inj hk)
    cases hname
  · obtain ⟨-, parent, hparent, hmem⟩ := numbered_parents k e p hpos hk
    obtain ⟨child, hchild, hsub⟩ := List.mem_filterMap.mp hmem
    obtain ⟨z, hz, rfl⟩ := Option.map_eq_some_iff.mp hsub
    have hfits := children_fit (mem_allDirs (List.mem_of_getElem? hparent)) child hchild
    cases child with
    | file name' time sections => cases hz
    | other placeholder name' time => cases hz
    | dir name' info =>
      obtain rfl := Option.some.inj hz
      obtain rfl := Option.some.inj hname
      exact hfits

theorem length_identifier {e : DirEntry}
    (h : ∀ name, e.name = some name → Iso1999.NameFits name) :
    (Ecma119PathTables.identifier e.name).length ≤ 207 := by
  cases hname : e.name with
  | none => decide
  | some name => exact h name hname

/-- The buffer suffices for names which fit. -/
theorem pathTableRecord_eq {e : DirEntry} (parent : Nat) (writeInt : Nat → Nat → List UInt8)
    (h : ∀ name, e.name = some name → Iso1999.NameFits name) :
    pathTableRecord e parent writeInt =
      some ([UInt8.ofNat (Ecma119PathTables.identifier e.name).length, 0] ++
        writeInt 4 e.dir.block ++ writeInt 2 ((parent + 1) % 2 ^ 16) ++
          Ecma119PathTables.identifier e.name ++
            List.replicate ((Ecma119PathTables.identifier e.name).length % 2) 0) := by
  have hlen := length_identifier h
  obtain ⟨name, ancestors, dir⟩ := e
  cases name with
  | none => rfl
  | some name =>
    have hlen' : name.length ≤ 207 := hlen
    have hmod : name.length % 256 = name.length := Nat.mod_eq_of_lt (by omega)
    have hbuf : ¬ bufSize < 8 + name.length := by
      rw [bufSize]
      omega
    simp only [pathTableRecord, hmod, hbuf, if_false, List.take_length]
    rfl

theorem length_pathTableRecord {e : DirEntry} {parent : Nat}
    {writeInt : Nat → Nat → List UInt8} (hint : ∀ bytes num, (writeInt bytes num).length = bytes)
    (h : ∀ name, e.name = some name → Iso1999.NameFits name) :
    ∃ record, pathTableRecord e parent writeInt = some record ∧
      record.length = entrySize e.name := by
  refine ⟨_, pathTableRecord_eq parent writeInt h, ?_⟩
  simp only [entrySize_eq, Ecma119PathTables.entrySize, List.length_append, List.length_cons,
    List.length_nil, List.length_replicate, hint]
  omega

/-- All records get composed, and together they have the size which does not get lost. -/
theorem pathTableRecords_length {writeInt : Nat → Nat → List UInt8}
    (hint : ∀ bytes num, (writeInt bytes num).length = bytes) :
    ∃ records, pathTableRecords (tableList start tree) writeInt = some records ∧
      records.flatten.length = tableBytes tree := by
  have hall : ∀ x ∈ numbered (tableList start tree), ∃ record,
      pathTableRecord x.1 x.2 writeInt = some record ∧ record.length = entrySize x.1.name :=
    fun x hx => length_pathTableRecord hint (name_fits hx)
  have hrecords : ∀ xs : List (DirEntry × Nat), (∀ x ∈ xs, ∃ record,
      pathTableRecord x.1 x.2 writeInt = some record ∧ record.length = entrySize x.1.name) →
      ∃ records, (xs.mapM fun (e, parent) => pathTableRecord e parent writeInt) = some records ∧
        records.flatten.length = total (fun e => entrySize e.name) (xs.map Prod.fst) := by
    intro xs hxs
    induction xs with
    | nil => exact ⟨[], rfl, rfl⟩
    | cons x xs ih =>
      obtain ⟨record, hrecord, hlen⟩ := hxs x List.mem_cons_self
      obtain ⟨records, hrest, hsum⟩ := ih fun y hy => hxs y (List.mem_cons_of_mem _ hy)
      refine ⟨record :: records, ?_, ?_⟩
      · simp only [List.mapM_cons, hrecord, hrest]
        rfl
      · rw [List.flatten_cons, List.length_append, hlen, hsum, List.map_cons, total_cons]
  obtain ⟨records, hmap, hsum⟩ := hrecords _ hall
  refine ⟨records, hmap, ?_⟩
  have hfst : (numbered (tableList start tree)).map Prod.fst = tableList start tree :=
    ParentSearch.numbered_fst _ _ _
  rw [hsum, hfst, total_tableList]

/-- The parent numbers of few directories fit into 16 bits. -/
theorem parent_lt (hfew : (allDirs start tree).length ≤ 65535) {x : DirEntry × Nat}
    (hx : x ∈ numbered (tableList start tree)) : x.2 < 65535 := by
  obtain ⟨k, hk⟩ := List.getElem?_of_mem hx
  rcases Nat.eq_zero_or_pos k with rfl | hpos
  · obtain ⟨rest, hrest⟩ := @numbered_head start tree
    rw [hrest] at hk
    obtain rfl := Option.some.inj hk
    exact Nat.succ_pos _
  · have hlt := (numbered_parents k x.1 x.2 hpos hk).1
    have hfst : (numbered (tableList start tree)).map Prod.fst = tableList start tree :=
      ParentSearch.numbered_fst _ _ _
    have hlen := congrArg List.length hfst
    have hperm : (tableList start tree).length = (allDirs start tree).length :=
      (Ecma119PathTables.pathlist_perm (positionedRoot start tree)).length_eq
    have hk' := (List.getElem?_eq_some_iff.mp hk).1
    rw [List.length_map] at hlen
    omega

theorem pathTableRecords_proper (hfew : (allDirs start tree).length ≤ 65535)
    (writeInt : Nat → Nat → List UInt8) : pathTableRecords (tableList start tree) writeInt =
      some ((numbered (tableList start tree)).map fun x => properRecord x.1 x.2 writeInt) := by
  rw [pathTableRecords, Ecma119PathTables.mapM_eq_some_iff]
  intro x hx
  have hparent := parent_lt hfew hx
  have hrecord := pathTableRecord_eq x.2 writeInt (name_fits hx)
  rw [Nat.mod_eq_of_lt (by omega : x.2 + 1 < 2 ^ 16)] at hrecord
  exact hrecord

end PathTable

section Agreement

variable {start : UInt32} {tree : Iso1999Tree}

theorem positioned_root : Positioned start.toNat (allDirs start tree)
    (calcDirPos iso1999Format tree.root start.toNat).2 := by
  have h := calcDirPos_positioned tree.root start.toNat none []
  rwa [Nat.mod_eq_of_lt start.toNat_lt] at h

theorem size_emitted {e : DirEntry} (he : e ∈ allDirs start tree) :
    e.dir.len = blockSize * emittedBlocks e ∧ reserved e = emittedBlocks e := by
  have hlen := positioned_root.placed.len e he
  rw [calcDirSize_eq (children_fit he)] at hlen
  refine ⟨hlen, ?_⟩
  rw [reserved, hlen, emittedBlocks]
  simp only [divUp, blockSize]
  omega

theorem place_emitted : place emittedBlocks start.toNat (allDirs start tree) =
    place reserved start.toNat (allDirs start tree) := by
  have hcongr : ∀ (list : List DirEntry) (first : Nat), (∀ e ∈ list, reserved e = emittedBlocks e) →
      place emittedBlocks first list = place reserved first list := by
    intro list
    induction list with
    | nil => intro first h; rfl
    | cons e rest ih =>
      intro first h
      rw [place, place, h e List.mem_cons_self,
        ih _ fun e' he' => h e' (List.mem_cons_of_mem _ he')]
  exact hcongr _ _ fun e he => (size_emitted he).2

theorem length_writeDirs : (writeDirs iso1999Format none [] (positionedRoot start tree)).length =
    total reserved (allDirs start tree) := by
  rw [writeDirs_eq, List.length_flatMap, total]
  exact congrArg List.sum (List.map_congr_left fun e he => (size_emitted he).2.symm)

theorem length_fill (records : List (List UInt8)) :
    (fill records).length = roundUp blockSize records.flatten.length := by
  have hle := @Joliet.le_roundUp records.flatten.length
  rw [fill, List.length_append, List.length_replicate]
  omega

/-- A predicted size has 32 bits. -/
theorem LayoutAgrees.tableBytes_lt (h : LayoutAgrees start tree) : tableBytes tree < 2 ^ 32 := by
  obtain ⟨records, hrecords, hsize, -⟩ := h.tableSize toLsb List.mem_cons_self
  obtain ⟨records', hrecords', hbytes⟩ := @pathTableRecords_length start tree toLsb length_toLsb
  obtain rfl := Option.some.inj (hrecords.symm.trans hrecords')
  rw [hbytes, calcPathTableSize_mod] at hsize
  rw [hsize]
  exact Nat.mod_lt _ (by decide)

/-- Everything agrees, if and only if the size of the path table fits into 32 bits. -/
theorem layout_agrees_iff (start : UInt32) (tree : Iso1999Tree) :
    LayoutAgrees start tree ↔ tableBytes tree < 2 ^ 32 := by
  constructor
  · exact LayoutAgrees.tableBytes_lt
  · intro hbytes
    obtain ⟨l, hl, -⟩ := @pathTableRecords_length start tree toLsb length_toLsb
    obtain ⟨m, hm, -⟩ := @pathTableRecords_length start tree toMsb length_toMsb
    constructor
    case fit => exact fun e he => dirBlocks_fit (children_fit he)
    case records => exact fun e _ => flatten_dirBlocks e
    case blocks => exact fun e he => length_writtenBlocks (children_fit he)
    case size => exact fun e he => size_emitted he
    case order => exact writeDirs_eq _ none []
    case positions =>
      intro p hp
      rw [place_emitted] at hp
      exact positioned_root.placed.block p hp
    case next => rw [length_writeDirs, positioned_root.next_eq]
    case tableSize =>
      intro writeInt hmem
      obtain ⟨records, hrecords, hsize⟩ := @pathTableRecords_length start tree writeInt
        (length_toLsb_or_toMsb writeInt hmem)
      have hcalc := @calcPathTableSize_mod start tree
      rw [Nat.mod_eq_of_lt hbytes, ← hsize] at hcalc
      exact ⟨records, hrecords, hcalc.symm, hcalc ▸ length_fill records⟩
    case tables =>
      refine ⟨l, m, hl, hm, ?_⟩
      rw [tableList] at hl hm
      simp only [writePathTables, hl, hm, Option.bind_eq_bind, Option.bind_some]
    case listed =>
      exact ⟨Ecma119PathTables.pathlist_perm _,
        @Ecma119PathTables.tableList_nodup (positionedTree start tree)⟩
    case parents => exact numbered_parents
    case numbers => exact fun hfew writeInt _ => pathTableRecords_proper hfew writeInt

end Agreement

section ManyDirectories

/-- A number as 30 binary digits. -/
def binaryName (i : Nat) : List UInt8 :=
  (List.range 30).map fun k => if i.testBit (29 - k) then 0x31 else 0x30

/-- A root with empty directories of different names. -/
def wideRoot (n : Nat) : LowDir :=
  .mk 0 someTime 0 0 ((List.range n).map fun i =>
    .dir (binaryName i) (.mk (i + 1) someTime 0 0 []))

theorem length_binaryName (i : Nat) : (binaryName i).length = 30 := by
  simp [binaryName]

theorem entriesChildren_wide (is : List Nat) (above : List LowDir) :
    entriesChildren above (is.map fun i =>
      .dir (binaryName i) (.mk (i + 1) someTime 0 0 [])) =
        is.map fun i => ⟨some (binaryName i), above, .mk (i + 1) someTime 0 0 []⟩ := by
  induction is with
  | nil => rfl
  | cons i is ih => exact congrArg (_ :: ·) ih

theorem entries_wide (n : Nat) : entries none [] (wideRoot n) =
    ⟨none, [], wideRoot n⟩ :: (List.range n).map fun i =>
      ⟨some (binaryName i), [wideRoot n], .mk (i + 1) someTime 0 0 []⟩ := by
  rw [wideRoot, entries, entriesChildren_wide]

def wideTree (n : Nat) : Iso1999Tree where
  root := wideRoot n
  distinct := by
    rw [entries_wide, List.map_cons, List.map_map, List.nodup_cons]
    constructor
    · intro h
      obtain ⟨i, -, hi⟩ := List.mem_map.mp h
      exact absurd hi (Nat.succ_ne_zero i)
    · exact (List.nodup_range).map fun i j hij => Nat.succ.inj hij
  names := by
    rw [entries_wide]
    intro e he child hchild
    rcases List.mem_cons.mp he with rfl | hlater
    · obtain ⟨i, -, rfl⟩ := List.mem_map.mp hchild
      have hlen := length_binaryName i
      show (binaryName i).length ≤ 207
      omega
    · obtain ⟨i, -, rfl⟩ := List.mem_map.mp hlater
      exact absurd hchild List.not_mem_nil

theorem tableBytes_wide (n : Nat) : tableBytes (wideTree n) = 10 + 38 * n := by
  have hentry : ∀ i : Nat, entrySize (some (binaryName i)) = 38 := by
    intro i
    rw [entrySize, length_binaryName]
  rw [tableBytes, wideTree, entries_wide, total_cons, total, List.map_map]
  have hsizes : ((fun e : DirEntry => entrySize e.name) ∘ fun i : Nat =>
      (⟨some (binaryName i), [wideRoot n], .mk (i + 1) someTime 0 0 []⟩ : DirEntry)) =
        fun _ => 38 := funext hentry
  rw [hsizes, List.map_const', List.sum_replicate, List.length_range, Nat.nsmul_eq_mul,
    Nat.mul_comm]
  exact congrArg (· + 38 * n) (rfl : entrySize none = 10)

/-- The path table of so many directories has 4 bytes more than can be counted. -/
theorem wide_layout_differs : ¬ LayoutAgrees 20 (wideTree 113025455) := by
  intro h
  have hbytes := h.tableBytes_lt
  rw [tableBytes_wide] at hbytes
  omega

end ManyDirectories

end Iso1999Layout
