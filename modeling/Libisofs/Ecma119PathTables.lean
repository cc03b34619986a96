import Libisofs.Ecma119Tree
import Libisofs.LowLevelDirs

/-!
# Path tables of ECMA-119

calc_path_table_size(), write_path_table() and write_path_tables() of ecma119.c. A record
gets composed in a buffer of 64 bytes, which a directory name may overflow.
-/

namespace Ecma119PathTables

open ByteBuffers BlockPacking ConsecutiveLayout LevelOrder ThreeWay LowLevelDirs

/-- The identifier in a path table. The root has no name. -/
def identifier : Option (List UInt8) → List UInt8
  | some name => name
  | none => [0]

/-- What an entry adds to `size` of calc_path_table_size(). -/
def entrySize (name : Option (List UInt8)) : Nat :=
  let size := 8 + (identifier name).length
  size + size % 2

mutual

def calcPathTableSize : (name : Option (List UInt8)) → LowDir → Nat
  | name, .mk _ _ _ _ children =>
    (entrySize name + calcPathTableSizeChildren children) % 2 ^ 32

def calcPathTableSizeChildren : List LowNode → Nat
  | [] => 0
  | .file _ _ _ :: rest => calcPathTableSizeChildren rest
  | .other _ _ _ :: rest => calcPathTableSizeChildren rest
  | .dir name info :: rest =>
    (calcPathTableSize (some name) info + calcPathTableSizeChildren rest) % 2 ^ 32

end

section Writing

variable (offset : UInt32)

/-- The array `pathlist`. Each entry comes with the index of the one which appended it. -/
def pathlist (root : LowDir) : List (DirEntry × Nat) :=
  levelOrder subdirs (ndirs root) ⟨none, [], root⟩

/-- Each entry with the parent index that is found for it. -/
def numbered (list : List DirEntry) : List (DirEntry × Nat) :=
  ParentSearch.numbered (fun e => e.dir.addr) (fun e => e.ancestors.head?.map LowDir.addr) list

/-- The size of `buf`. -/
def bufSize : Nat := 64

/-- The record is not defined if the identifier reaches over the end of `buf`. -/
def pathTableRecord (e : DirEntry) (parent : Nat) (writeInt : Nat → Nat → List UInt8) :
    Option (List UInt8) :=
  let lenDi := (identifier e.name).length % 256
  if bufSize < 8 + lenDi then none
  else some ([UInt8.ofNat lenDi, 0] ++
    writeInt 4 ((e.dir.block + 2 ^ 32 - offset.toNat) % 2 ^ 32) ++
    writeInt 2 ((parent + 1) % 2 ^ 16) ++ (identifier e.name).take lenDi ++
    List.replicate (lenDi % 2) 0)

def pathTableRecords (list : List DirEntry) (writeInt : Nat → Nat → List UInt8) :
    Option (List (List UInt8)) :=
  (numbered list).mapM fun (e, parent) => pathTableRecord offset e parent writeInt

/-- The last block gets filled with zeros. -/
def fill (records : List (List UInt8)) : List UInt8 :=
  records.flatten ++
    List.replicate (roundUp Joliet.blockSize records.flatten.length - records.flatten.length) 0

/-- The L path table and the M path table. -/
def writePathTables (root : LowDir) : Option (List UInt8 × List UInt8) := do
  let list := (pathlist root).map Prod.fst
  let l ← pathTableRecords offset list toLsb
  let m ← pathTableRecords offset list toMsb
  some (fill l, fill m)

end Writing

section Correctness

variable (offset : UInt32) (tree : LowTree)

/-- The record which describes a directory. -/
def properRecord (e : DirEntry) (parent : Nat) (writeInt : Nat → Nat → List UInt8) : List UInt8 :=
  [UInt8.ofNat (identifier e.name).length, 0] ++
    writeInt 4 ((e.dir.block + 2 ^ 32 - offset.toNat) % 2 ^ 32) ++ writeInt 2 (parent + 1) ++
    identifier e.name ++ List.replicate ((identifier e.name).length % 2) 0

def tableList : List DirEntry := (pathlist tree.root).map Prod.fst

def properRecords (writeInt : Nat → Nat → List UInt8) : List (List UInt8) :=
  (numbered (tableList tree)).map fun x => properRecord offset x.1 x.2 writeInt

/-- Order by names. -/
def NameLe (d e : DirEntry) : Prop := strcmp (identifier d.name) (identifier e.name) ≤ 0

/-- Both path tables list all directories in the right way. -/
structure TablesCorrect : Prop where
  records : ∀ writeInt ∈ [toLsb, toMsb],
    pathTableRecords offset (tableList tree) writeInt = some (properRecords offset tree writeInt)
  tables : writePathTables offset tree.root =
    some (fill (properRecords offset tree toLsb), fill (properRecords offset tree toMsb))
  size : ∀ writeInt ∈ [toLsb, toMsb],
    (properRecords offset tree writeInt).flatten.length = calcPathTableSize none tree.root
  /-- Each directory is listed exactly once. -/
  listed : (tableList tree).Perm (entries none [] tree.root) ∧
    ((tableList tree).map fun e => e.dir.addr).Nodup
  breadthFirst : (tableList tree).Pairwise fun d e => d.ancestors.length ≤ e.ancestors.length
  /-- The parent number is the one of the parent, which has been listed before. -/
  parents : ∀ k e p, 0 < k → (numbered (tableList tree))[k]? = some (e, p) →
    p < k ∧ ∃ parent, (tableList tree)[p]? = some parent ∧ e ∈ subdirs parent
  sorted : (numbered (tableList tree)).tail.Pairwise fun x y =>
    x.2 < y.2 ∨ x.2 = y.2 ∧ NameLe x.1 y.1

/-- The names of all directories fit into the buffer. -/
def ShortNames : Prop :=
  ∀ e ∈ entries none [] tree.root, (identifier e.name).length ≤ 56

/-- The subdirectories of each directory are sorted by their names. -/
def SortedSubdirs : Prop :=
  ∀ e ∈ entries none [] tree.root, (subdirs e).Pairwise NameLe

instance : DecidableRel NameLe := fun d e =>
  inferInstanceAs (Decidable (strcmp (identifier d.name) (identifier e.name) ≤ 0))

instance : Decidable (ShortNames tree) :=
  inferInstanceAs (Decidable (∀ e ∈ entries none [] tree.root, (identifier e.name).length ≤ 56))

instance : Decidable (SortedSubdirs tree) :=
  inferInstanceAs (Decidable (∀ e ∈ entries none [] tree.root, (subdirs e).Pairwise NameLe))

end Correctness

section Listing

variable {tree : LowTree}

theorem pathlist_perm (root : LowDir) :
    ((pathlist root).map Prod.fst).Perm (entries none [] root) :=
  levelOrder_perm all_eq (ndirs_eq root none []).symm

theorem tableList_nodup : ((tableList tree).map fun e => e.dir.addr).Nodup :=
  ((pathlist_perm tree.root).map _).nodup_iff.mpr tree.distinct

theorem pathlist_head (root : LowDir) :
    ∃ rest, pathlist root = (⟨none, [], root⟩, 0) :: rest :=
  levelOrder_head _ _

theorem pathlist_inOrder (root : LowDir) : InOrder subdirs (pathlist root) :=
  levelOrder_inOrder _ _

/-- The parent index which is written is the one of the entry that appended the entry. -/
theorem numbered_tableList : numbered (tableList tree) = pathlist tree.root := by
  obtain ⟨rest, hrest⟩ := pathlist_head tree.root
  refine ParentSearch.numbered_eq (pathlist_inOrder tree.root) hrest tableList_nodup ?_
  intro p c hc
  rw [ancestors_of_mem hc]
  rfl

theorem numbered_parents (k : Nat) (e : DirEntry) (p : Nat) (hk : 0 < k)
    (hget : (numbered (tableList tree))[k]? = some (e, p)) :
    p < k ∧ ∃ parent, (tableList tree)[p]? = some parent ∧ e ∈ subdirs parent := by
  rw [numbered_tableList] at hget
  obtain ⟨hlt, parent, q, hparent, hmem⟩ := (pathlist_inOrder tree.root).child k e p hk hget
  refine ⟨hlt, parent, ?_, hmem⟩
  rw [tableList, List.getElem?_map, hparent, Option.map_some]

/-- The depth of a directory is the number of directories above it. -/
theorem tableList_breadthFirst :
    (tableList tree).Pairwise fun d e => d.ancestors.length ≤ e.ancestors.length := by
  obtain ⟨rest, hrest⟩ := pathlist_head tree.root
  rw [tableList, List.pairwise_map, List.pairwise_iff_getElem]
  intro k l hk hl hlt
  have hdepth : ∀ p, ∀ c ∈ subdirs p, c.ancestors.length = p.ancestors.length + 1 := by
    intro p c hc
    rw [ancestors_of_mem hc]
    rfl
  exact (pathlist_inOrder tree.root).depth_le hrest hdepth rfl k l (Nat.le_of_lt hlt) _ _
    (List.getElem?_eq_getElem hk) (List.getElem?_eq_getElem hl)

/-- The list is sorted by parents and names, if and only if the arrays of children are. -/
theorem sorted_iff : ((numbered (tableList tree)).tail.Pairwise fun x y =>
    x.2 < y.2 ∨ x.2 = y.2 ∧ NameLe x.1 y.1) ↔ SortedSubdirs tree := by
  have hlist : pathlist tree.root =
      (⟨none, [], tree.root⟩, 0) :: appended subdirs 0 (pathlist tree.root) :=
    levelOrder_eq all_eq (ndirs_eq tree.root none []).symm
  rw [numbered_tableList, hlist, List.tail_cons, appended_sorted_iff]
  constructor
  · intro h e he
    obtain ⟨x, hx, rfl⟩ := List.mem_map.mp ((pathlist_perm tree.root).mem_iff.mpr he)
    exact h x hx
  · intro h x hx
    exact h x.1 ((pathlist_perm tree.root).mem_iff.mp (List.mem_map_of_mem hx))

end Listing

section Sizes

theorem calcPathTableSize_eq (d : LowDir) (name : Option (List UInt8)) (ancestors : List LowDir) :
    calcPathTableSize name d =
      total (fun e => entrySize e.name) (entries name ancestors d) % 2 ^ 32 := by
  induction d using LowDir.induction generalizing name ancestors with
  | step addr time block len children ih =>
    rw [calcPathTableSize, entries, total_cons]
    generalize LowDir.mk addr time block len children :: ancestors = above
    have hchildren : calcPathTableSizeChildren children % 2 ^ 32 =
        total (fun e => entrySize e.name) (entriesChildren above children) % 2 ^ 32 := by
      induction children with
      | nil => rfl
      | cons child rest ih' =>
        have hrest := ih' fun name info hmem => ih name info (List.mem_cons_of_mem _ hmem)
        cases child with
        | file name time sections =>
          rw [calcPathTableSizeChildren, entriesChildren, hrest]
        | other placeholder name time =>
          rw [calcPathTableSizeChildren, entriesChildren, hrest]
        | dir name info =>
          rw [calcPathTableSizeChildren, entriesChildren, total_append,
            ih name info List.mem_cons_self (some name) above]
          omega
    rw [Nat.add_mod, hchildren, ← Nat.add_mod]

variable {offset : UInt32} {tree : LowTree} {writeInt : Nat → Nat → List UInt8}

theorem length_properRecord (hint : ∀ bytes num, (writeInt bytes num).length = bytes)
    (e : DirEntry) (parent : Nat) :
    (properRecord offset e parent writeInt).length = entrySize e.name := by
  simp only [properRecord, entrySize, List.length_append, List.length_cons, List.length_nil,
    List.length_replicate, hint]
  omega

theorem length_properRecords (hint : ∀ bytes num, (writeInt bytes num).length = bytes) :
    (properRecords offset tree writeInt).flatten.length =
      total (fun e => entrySize e.name) (tableList tree) := by
  have hfst : (numbered (tableList tree)).map Prod.fst = tableList tree :=
    ParentSearch.numbered_fst _ _ _
  have hlens : (properRecords offset tree writeInt).map List.length =
      (tableList tree).map fun e => entrySize e.name := by
    conv_rhs => rw [← hfst]
    rw [properRecords, List.map_map, List.map_map]
    exact List.map_congr_left fun x _ => length_properRecord hint x.1 x.2
  rw [List.length_flatten, hlens, total]

/-- Short records of up to 65535 directories have a size of less than 32 bits. -/
theorem size_eq (hfew : ndirs tree.root ≤ 65535) (hshort : ShortNames tree)
    (hint : ∀ bytes num, (writeInt bytes num).length = bytes) :
    (properRecords offset tree writeInt).flatten.length = calcPathTableSize none tree.root := by
  have hsum : total (fun e => entrySize e.name) (tableList tree) =
      total (fun e => entrySize e.name) (entries none [] tree.root) := by
    rw [total, total]
    exact ((pathlist_perm tree.root).map _).sum_eq
  have hbound : total (fun e => entrySize e.name) (entries none [] tree.root) ≤
      (entries none [] tree.root).length * 64 := by
    refine total_le _ fun e he => ?_
    have := hshort e he
    simp only [entrySize]
    omega
  rw [← ndirs_eq] at hbound
  rw [length_properRecords hint, hsum, calcPathTableSize_eq tree.root none [],
    Nat.mod_eq_of_lt (by omega)]

end Sizes

section Records

variable {offset : UInt32} {tree : LowTree} {writeInt : Nat → Nat → List UInt8}

theorem mapM_eq_some_iff {α β : Type} {f : α → Option β} {g : α → β} {xs : List α} :
    xs.mapM f = some (xs.map g) ↔ ∀ x ∈ xs, f x = some (g x) := by
  induction xs with
  | nil => simp
  | cons x xs ih =>
    rw [List.mapM_cons, List.map_cons, List.forall_mem_cons, ← ih]
    cases hx : f x with
    | none => simp
    | some y =>
      cases hxs : xs.mapM f with
      | none => simp
      | some ys => simp

/-- A record is right, if and only if its identifier fits into the buffer. -/
theorem pathTableRecord_iff (hint : ∀ bytes num, (writeInt bytes num).length = bytes)
    {e : DirEntry} {parent : Nat} (hparent : parent < 65535) :
    pathTableRecord offset e parent writeInt = some (properRecord offset e parent writeInt) ↔
      (identifier e.name).length ≤ 56 := by
  have hlen := @length_properRecord offset writeInt hint e parent
  have hbuf : bufSize = 64 := rfl
  rw [pathTableRecord]
  constructor
  · intro h
    split at h
    next => cases h
    next hfits =>
      have hwritten := congrArg List.length (Option.some.inj h)
      have hle := Nat.mod_le (identifier e.name).length 256
      rw [hlen] at hwritten
      simp only [List.length_append, List.length_cons, List.length_nil, List.length_take,
        List.length_replicate, hint, Nat.min_eq_left hle, entrySize] at hwritten
      omega
  · intro hshort
    have hlenDi : (identifier e.name).length % 256 = (identifier e.name).length :=
      Nat.mod_eq_of_lt (by omega)
    have hnumber : (parent + 1) % 2 ^ 16 = parent + 1 := Nat.mod_eq_of_lt (by omega)
    rw [if_neg (by omega), hlenDi, List.take_length, hnumber, properRecord]

theorem parent_lt (hfew : ndirs tree.root ≤ 65535) {x : DirEntry × Nat}
    (hx : x ∈ numbered (tableList tree)) : x.2 < 65535 := by
  obtain ⟨k, hk⟩ := List.getElem?_of_mem hx
  rcases Nat.eq_zero_or_pos k with rfl | hpos
  · obtain ⟨rest, hrest⟩ := pathlist_head tree.root
    rw [numbered_tableList, hrest] at hk
    obtain rfl := Option.some.inj hk
    exact Nat.succ_pos _
  · have hlt := (numbered_parents k x.1 x.2 hpos hk).1
    have hlen := (pathlist_perm tree.root).length_eq
    have hk' := (List.getElem?_eq_some_iff.mp hk).1
    rw [numbered_tableList] at hk'
    rw [List.length_map, ← ndirs_eq] at hlen
    omega

theorem records_iff (hfew : ndirs tree.root ≤ 65535)
    (hint : ∀ bytes num, (writeInt bytes num).length = bytes) :
    pathTableRecords offset (tableList tree) writeInt = some (properRecords offset tree writeInt) ↔
      ShortNames tree := by
  rw [pathTableRecords, properRecords, mapM_eq_some_iff]
  constructor
  · intro h e he
    have hmem : e ∈ (numbered (tableList tree)).map Prod.fst := by
      rw [numbered, ParentSearch.numbered_fst]
      exact (pathlist_perm tree.root).mem_iff.mpr he
    obtain ⟨x, hx, rfl⟩ := List.mem_map.mp hmem
    exact (pathTableRecord_iff hint (parent_lt hfew hx)).mp (h x hx)
  · intro hshort x hx
    refine (pathTableRecord_iff hint (parent_lt hfew hx)).mpr (hshort x.1 ?_)
    have hmem : x.1 ∈ tableList tree := by
      rw [← ParentSearch.numbered_fst (fun e => e.dir.addr)
        (fun e => e.ancestors.head?.map LowDir.addr) (tableList tree)]
      exact List.mem_map_of_mem hx
    exact (pathlist_perm tree.root).mem_iff.mp hmem

/-- The path tables are right, if and only if the names are short enough and the arrays of
children are sorted. -/
theorem tables_correct_iff (offset : UInt32) (tree : LowTree) (hfew : ndirs tree.root ≤ 65535) :
    TablesCorrect offset tree ↔ ShortNames tree ∧ SortedSubdirs tree := by
  constructor
  · intro h
    exact ⟨(records_iff hfew length_toLsb).mp (h.records toLsb (List.mem_cons_self ..)),
      sorted_iff.mp h.sorted⟩
  · rintro ⟨hshort, hsorted⟩
    have hrecords : ∀ writeInt ∈ [toLsb, toMsb], pathTableRecords offset (tableList tree) writeInt =
        some (properRecords offset tree writeInt) := fun writeInt hmem =>
      (records_iff hfew (length_toLsb_or_toMsb writeInt hmem)).mpr hshort
    have hl := hrecords toLsb (List.mem_cons_self ..)
    have hm := hrecords toMsb (List.mem_cons_of_mem _ (List.mem_singleton_self _))
    constructor
    case records => exact hrecords
    case tables =>
      rw [tableList] at hl hm
      simp only [writePathTables, hl, hm, Option.bind_eq_bind, Option.bind_some]
    case size =>
      exact fun writeInt hmem => size_eq hfew hshort (length_toLsb_or_toMsb writeInt hmem)
    case listed => exact ⟨pathlist_perm tree.root, tableList_nodup⟩
    case breadthFirst => exact tableList_breadthFirst
    case parents => exact numbered_parents
    case sorted => exact sorted_iff.mpr hsorted

end Records

section RelocatedDirs

open Ecma119Tree
open Joliet (someTime)

variable (time : Joliet.Datetime)

mutual

/-- A node of the tree which ecma119_tree_create() yields, as the directory writer sees it. -/
def lowNode : Ecma119Node → LowNode
  | .dir node name _ children => .dir name (.mk node time 0 0 (lowNodes children))
  | .other .file _ name => .file name time []
  | .other .symlink _ name => .other false name time
  | .other .special _ name => .other false name time
  | .placeholder _ name _ => .other true name time

def lowNodes : List Ecma119Node → List LowNode
  | [] => []
  | child :: rest => lowNode child :: lowNodes rest

end

def lowRoot (root : Ecma119Node) : LowDir := .mk root.node time 0 0 (lowNodes time root.children)

/-- The tree before the relocation of its deepest directory. -/
def unrelocatedLow : LowTree := ⟨lowRoot someTime unrelocatedTree, by decide⟩

theorem tables_correct_unrelocated : TablesCorrect 0 unrelocatedLow :=
  (tables_correct_iff 0 unrelocatedLow (by decide)).mpr ⟨by decide, by decide⟩

/-- The tree with directory A behind directory B in the root. -/
def deepLow : LowTree := ⟨lowRoot someTime deepTree, by decide⟩

theorem relocated_listed_unsorted : ecma119TreeCreate plainImage deepIso 30 = .ok deepTree ∧
    ndirs deepLow.root ≤ 65535 ∧ ¬ TablesCorrect 0 deepLow := by
  refine ⟨deepIso_created, by decide, fun h => ?_⟩
  have hroot := (sorted_iff.mp h.sorted) ⟨none, [], deepLow.root⟩ (List.mem_cons_self ..)
  have hle : strcmp [0x42] [0x41] ≤ 0 := (List.pairwise_cons.mp hroot).1 _ (List.mem_cons_self ..)
  exact absurd hle (by decide)

end RelocatedDirs

end Ecma119PathTables
