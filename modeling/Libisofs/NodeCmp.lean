import Libisofs.StreamCmp
import Libisofs.Lib.Runs

/-!
# Comparison of nodes

iso_node_cmp_flag() and iso_node_get_id() of node.c, over the comparison of streams.
Of the extended info of a node only the two kinds are kept which get looked up here.
-/

namespace NodeCmp

open ThreeWay StreamCmp LabelledRuns

/-- IsoDir, IsoFile, IsoSymlink, IsoSpecial and IsoBoot behind their common part. -/
inductive NodeBody where
  | dir
  | file (stream : IsoStream)
  | symlink (dest : List UInt8) (fsId stDev stIno : Nat)
  | special (dev : Nat) (fsId stDev stIno : Nat)
  | boot

/-- `inoXinfo` is the data of iso_px_ino_xinfo_func, `aaXinfo` of aaip_xinfo_func. -/
structure IsoNode where
  addr : Nat
  body : NodeBody
  mode : Nat
  uid : Nat
  gid : Nat
  atime : Int
  mtime : Int
  ctime : Int
  inoXinfo : Option Nat
  aaXinfo : Option (List UInt8)

/-- enum IsoNodeType. -/
def NodeBody.type : NodeBody → Nat
  | .dir => 0
  | .file _ => 1
  | .symlink .. => 2
  | .special .. => 3
  | .boot => 4

/-- ISO_IMAGE_FS_ID of fsource.h. -/
def isoImageFsId : Nat := 2

/-- The id which a node has from its stream or its own fields. -/
def NodeBody.ownId : NodeBody → Option IdTriple
  | .file stream => some (isoStreamGetId stream)
  | .symlink _ fsId stDev stIno => some ⟨fsId, stDev, stIno⟩
  | .special _ fsId stDev stIno => some ⟨fsId, stDev, stIno⟩
  | .dir | .boot => none

/-- The return value and the three ids. -/
def isoNodeGetId (node : IsoNode) (flag : Nat) : Nat × IdTriple :=
  match node.inoXinfo with
  | some ino => (2, ⟨isoImageFsId, 0, ino⟩)
  | none =>
    match node.body.ownId with
    | some id =>
      if id.fsId ≠ isoImageFsId ∧ flag.testBit 0 then (0, ⟨0, 0, 0⟩) else (1, id)
    | none => (0, ⟨0, 0, 0⟩)

/-- aaip_count_bytes(): the sum of the lengths of the fields up to the first one
without continuation bit. A string of n bytes has at most n fields. -/
def countFields : Nat → List UInt8 → Nat
  | 0, _ => 0
  | fuel + 1, data =>
    let len := (data.getD 2 0).toNat
    if (data.getD 4 0) &&& 1 = 0 then len else len + countFields fuel (data.drop len)

def aaipCountBytes (data : List UInt8) : Nat := countFields data.length data

/-- The comparison of the two AAIP strings at the end of iso_node_cmp_flag(). -/
def cmpAaString : Option (List UInt8) → Option (List UInt8) → Int
  | none, none => 0
  | none, some _ => -1
  | some _, none => 1
  | some x1, some x2 =>
    byValue (aaipCountBytes x1) (aaipCountBytes x2) <|
    strcmp (x1.take (aaipCountBytes x1)) (x2.take (aaipCountBytes x1))

/-- The first test behind label image_inode_match. -/
def cmpTarget (b1 b2 : NodeBody) (rest : Int) : Int :=
  match b1, b2 with
  | .symlink dest1 .., .symlink dest2 .. => unlessZero (strcmp dest1 dest2) rest
  | .special dev1 .., .special dev2 .. => byValue dev1 dev2 rest
  | _, _ => rest

/-- What follows behind label image_inode_match. -/
def imageInodeMatch (n1 n2 : IsoNode) (flag : Nat) : Int :=
  if ¬ flag.testBit 0 then 0
  else
    cmpTarget n1.body n2.body <|
    byValue n1.mode n2.mode <|
    byValue n1.uid n2.uid <|
    byValue n1.gid n2.gid <|
    byValue n1.atime n2.atime <|
    byValue n1.mtime n2.mtime <|
    byValue n1.ctime n2.ctime <|
    cmpAaString n1.aaXinfo n2.aaXinfo

/-- What follows behind label inode_match. -/
def inodeMatch (n1 n2 : IsoNode) (flag : Nat) : Int :=
  if flag.testBit 1 then (if n1.addr < n2.addr then -1 else 1) else imageInodeMatch n1 n2 flag

/-- Symbolic links and special files by their own ids. -/
def cmpOwnId (n1 n2 : IsoNode) (id1 id2 : IdTriple) (flag : Nat) : Int :=
  byValue id1.fsId id2.fsId <|
  byValue id1.devId id2.devId <|
  byValue id1.inoId id2.inoId <|
  if id1.fsId = 0 ∧ id1.devId = 0 ∧ id1.inoId = 0 then
    (if n1.addr < n2.addr then -1 else 1)
  else inodeMatch n1 n2 flag

/-- The part of iso_node_cmp_flag() for nodes without image inode number. -/
def cmpByBody (classAddr : IsoStreamIface → Nat) (n1 n2 : IsoNode) (flag : Nat)
    (ranks : Ranks) : Int × Ranks :=
  match n1.body, n2.body with
  | .file stream1, .file stream2 =>
    let r := isoStreamCmpIno classAddr (some stream1) (some stream2) 0 ranks
    (unlessZero r.1 (inodeMatch n1 n2 flag), r.2)
  | .symlink _ fs1 dev1 ino1, .symlink _ fs2 dev2 ino2 =>
    (cmpOwnId n1 n2 ⟨fs1, dev1, ino1⟩ ⟨fs2, dev2, ino2⟩ flag, ranks)
  | .special _ fs1 dev1 ino1, .special _ fs2 dev2 ino2 =>
    (cmpOwnId n1 n2 ⟨fs1, dev1, ino1⟩ ⟨fs2, dev2, ino2⟩ flag, ranks)
  | _, _ => (if n1.addr < n2.addr then -1 else 1, ranks)

/-- flag bit0= compare stat properties and attributes,
bit1= treat all nodes with image ino == 0 as unique. -/
def isoNodeCmpFlag (classAddr : IsoStreamIface → Nat) (n1 n2 : IsoNode) (flag : Nat)
    (ranks : Ranks) : Int × Ranks :=
  if n1.addr = n2.addr then (0, ranks)
  else if n1.body.type ≠ n2.body.type then
    (if n1.body.type < n2.body.type then -1 else 1, ranks)
  else
    let (ret1, id1) := isoNodeGetId n1 1
    let (ret2, id2) := isoNodeGetId n2 1
    if ¬ (0 < ret1 ↔ 0 < ret2) then (if 0 < ret2 then -1 else 1, ranks)
    else if 0 < ret1 then
      (byValue id1.inoId id2.inoId <|
        if id1.inoId = 0 then (if n1.addr < n2.addr then -1 else 1)
        else imageInodeMatch n1 n2 flag, ranks)
    else cmpByBody classAddr n1 n2 flag ranks

/-- The nodes of the process by their addresses, above the streams. -/
structure NodeHeap where
  objects : Heap
  node : Nat → Option IsoNode

structure IsoNode.Live (h : NodeHeap) (n : IsoNode) : Prop where
  stored : h.node n.addr = some n
  stream : ∀ stream, n.body = .file stream → stream.Live h.objects

theorem IsoNode.Live.eq_of_addr {h : NodeHeap} {n1 n2 : IsoNode} (live1 : n1.Live h)
    (live2 : n2.Live h) (haddr : n1.addr = n2.addr) : n1 = n2 := by
  have := live1.stored
  rw [haddr, live2.stored] at this
  exact (Option.some.inj this).symm

section Keys

variable (flag : Nat)

def aaWords : Option (List UInt8) → Key
  | none => [[0]]
  | some x => [[1], [(aaipCountBytes x : Int)], letters (x.take (aaipCountBytes x))]

def NodeBody.targetWords : NodeBody → Key
  | .symlink dest .. => [letters dest]
  | .special dev .. => [[(dev : Int)]]
  | _ => []

def attributeWords (n : IsoNode) : Key :=
  if flag.testBit 0 then
    n.body.targetWords ++ [(n.mode : Int)] :: [(n.uid : Int)] :: [(n.gid : Int)] ::
      [n.atime] :: [n.mtime] :: [n.ctime] :: aaWords n.aaXinfo
  else []

def inodeWords (n : IsoNode) : Key :=
  if flag.testBit 1 then [[(n.addr : Int)]] else attributeWords flag n

def ownIdKey (n : IsoNode) (id : IdTriple) : List Key :=
  [[[(id.fsId : Int)], [(id.devId : Int)], [(id.inoId : Int)]],
    if id.fsId = 0 ∧ id.devId = 0 ∧ id.inoId = 0 then [[(n.addr : Int)]]
    else inodeWords flag n]

/-- The place of a node among those without image inode number. -/
def bodyKey (h : NodeHeap) (final : Ranks) (n : IsoNode) : List Key :=
  match n.body with
  | .file stream => [streamKey h.objects 0 final (some stream), inodeWords flag n]
  | .symlink _ fsId stDev stIno => ownIdKey flag n ⟨fsId, stDev, stIno⟩
  | .special _ fsId stDev stIno => ownIdKey flag n ⟨fsId, stDev, stIno⟩
  | .dir | .boot => [[[(n.addr : Int)]]]

/-- Nodes are ordered by type, then those without image inode number, then those with
one. Number 0 and nodes of unknown origin are equal to themselves only. -/
def nodeKey (h : NodeHeap) (final : Ranks) (n : IsoNode) : List Key :=
  [[(n.body.type : Int)]] ::
    if 0 < (isoNodeGetId n 1).1 then
      [[[1]], [[((isoNodeGetId n 1).2.inoId : Int)]],
        if (isoNodeGetId n 1).2.inoId = 0 then [[(n.addr : Int)]] else attributeWords flag n]
    else [[0]] :: bodyKey flag h final n

end Keys

theorem sign_cmpAaString (x1 x2 : Option (List UInt8)) :
    sign (cmpAaString x1 x2) = compare (aaWords x1) (aaWords x2) := by
  cases x1 with
  | none => cases x2 <;> rfl
  | some x1 =>
    cases x2 with
    | none => rfl
    | some x2 =>
      simp only [cmpAaString, aaWords, sign_byValue, sign_strcmp, List.compare_cons_cons,
        Std.compare_self, Ordering.eq_then, Ordering.then_eq]
      exact then_congr fun hcount => by rw [Int.natCast_inj.mp hcount]

theorem sign_cmpTarget {b1 b2 : NodeBody} (htype : b1.type = b2.type) (rest : Int) (k k' : Key)
    (hrest : sign rest = compare k k') :
    sign (cmpTarget b1 b2 rest) = compare (b1.targetWords ++ k) (b2.targetWords ++ k') := by
  cases b1 <;> cases b2 <;> cases htype <;>
    simp [cmpTarget, NodeBody.targetWords, sign_unlessZero, sign_byValue, sign_strcmp,
      List.compare_cons_cons, hrest]

theorem sign_imageInodeMatch {n1 n2 : IsoNode} (htype : n1.body.type = n2.body.type)
    (flag : Nat) :
    sign (imageInodeMatch n1 n2 flag) =
      compare (attributeWords flag n1) (attributeWords flag n2) := by
  by_cases hflag : flag.testBit 0
  · simp only [imageInodeMatch, attributeWords, hflag, not_true_eq_false, if_false, if_true]
    apply sign_cmpTarget htype
    simp only [sign_byValue, sign_cmpAaString, List.compare_cons_cons, List.compare_nil_nil,
      Ordering.then_eq]
  · simp only [imageInodeMatch, attributeWords, hflag]
    rfl

theorem sign_inodeMatch {n1 n2 : IsoNode} (hne : n1.addr ≠ n2.addr)
    (htype : n1.body.type = n2.body.type) (flag : Nat) :
    sign (inodeMatch n1 n2 flag) = compare (inodeWords flag n1) (inodeWords flag n2) := by
  simp only [inodeMatch, inodeWords]
  split
  · rw [sign_of_ne hne]
    simp [List.compare_cons_cons]
  · exact sign_imageInodeMatch htype flag

theorem sign_cmpOwnId {n1 n2 : IsoNode} (hne : n1.addr ≠ n2.addr)
    (htype : n1.body.type = n2.body.type) (id1 id2 : IdTriple) (flag : Nat) :
    sign (cmpOwnId n1 n2 id1 id2 flag) =
      compare (ownIdKey flag n1 id1) (ownIdKey flag n2 id2) := by
  simp only [cmpOwnId, ownIdKey, sign_byValue, List.compare_cons_cons, List.compare_nil_nil,
    Ordering.then_eq, Ordering.then_assoc]
  refine then_congr fun hfs => then_congr fun hdev => then_congr fun hino => ?_
  have hfs' : id1.fsId = id2.fsId := by omega
  have hdev' : id1.devId = id2.devId := by omega
  have hino' : id1.inoId = id2.inoId := by omega
  simp only [hfs', hdev', hino']
  split
  · rw [sign_of_ne hne]
    simp [List.compare_cons_cons]
  · exact sign_inodeMatch hne htype flag

theorem type_ne_words {n1 n2 : IsoNode} {k1 k2 : List Key}
    (htype : n1.body.type ≠ n2.body.type) :
    sign (if n1.body.type < n2.body.type then -1 else 1) =
      compare ([[(n1.body.type : Int)]] :: k1) ([[(n2.body.type : Int)]] :: k2) := by
  simp only [List.compare_cons_cons, List.compare_nil_nil, Ordering.then_assoc]
  exact (compare_then_of_ne htype _).symm

theorem cmpByBody_answered {h : NodeHeap} {n1 n2 : IsoNode} (live1 : n1.Live h)
    (live2 : n2.Live h) (hne : n1.addr ≠ n2.addr) (htype : n1.body.type = n2.body.type)
    (flag : Nat) (ranks : Ranks) :
    ranks <+: (cmpByBody h.objects.classAddr n1 n2 flag ranks).2 ∧
    ∀ final, (cmpByBody h.objects.classAddr n1 n2 flag ranks).2 <+: final →
      Agrees (bodyKey flag h final) n1 n2
        (cmpByBody h.objects.classAddr n1 n2 flag ranks).1 := by
  have pointers : sign (if n1.addr < n2.addr then -1 else 1) =
      compare [[[(n1.addr : Int)]]] [[[(n2.addr : Int)]]] := by
    rw [sign_of_ne hne]
    simp [List.compare_cons_cons]
  have inodes := sign_inodeMatch hne htype flag
  have ownIds := fun id1 id2 => sign_cmpOwnId hne htype id1 id2 flag
  cases h1 : n1.body <;> cases h2 : n2.body <;> rw [h1, h2] at htype <;> cases htype
  case file.file.refl stream1 stream2 =>
    have hlive1 : ∀ s ∈ some stream1, s.Live h.objects := by simpa using live1.stream _ h1
    have hlive2 : ∀ s ∈ some stream2, s.Live h.objects := by simpa using live2.stream _ h2
    have answered := isoStreamCmpIno_answered hlive1 hlive2 0 ranks
    simp only [cmpByBody, h1, h2]
    refine ⟨answered.1, fun final hfinal => ?_⟩
    simp only [Agrees, bodyKey, h1, h2, sign_unlessZero, List.compare_cons_cons,
      List.compare_nil_nil, Ordering.then_eq]
    rw [answered.2 final hfinal, inodes]
  case symlink.symlink.refl | special.special.refl =>
    simp only [cmpByBody, h1, h2]
    refine ⟨List.prefix_rfl, fun final _ => ?_⟩
    simpa only [Agrees, bodyKey, h1, h2] using ownIds _ _
  case dir.dir.refl | boot.boot.refl =>
    simp only [cmpByBody, h1, h2]
    refine ⟨List.prefix_rfl, fun final _ => ?_⟩
    simpa only [Agrees, bodyKey, h1, h2] using pointers

theorem isoNodeCmpFlag_answered {h : NodeHeap} {n1 n2 : IsoNode} (live1 : n1.Live h)
    (live2 : n2.Live h) (flag : Nat) (ranks : Ranks) :
    ranks <+: (isoNodeCmpFlag h.objects.classAddr n1 n2 flag ranks).2 ∧
    ∀ final, (isoNodeCmpFlag h.objects.classAddr n1 n2 flag ranks).2 <+: final →
      Agrees (nodeKey flag h final) n1 n2
        (isoNodeCmpFlag h.objects.classAddr n1 n2 flag ranks).1 := by
  rw [isoNodeCmpFlag]
  split
  next haddr =>
    obtain rfl := live1.eq_of_addr live2 haddr
    exact ⟨List.prefix_rfl, fun final _ => by simp [Agrees]⟩
  next hne =>
    split
    next htype => exact ⟨List.prefix_rfl, fun final _ => type_ne_words htype⟩
    next htype =>
      have htype : n1.body.type = n2.body.type := not_not.mp htype
      by_cases hret1 : 0 < (isoNodeGetId n1 1).1 <;> by_cases hret2 : 0 < (isoNodeGetId n2 1).1
      · simp only [hret1, hret2, iff_self, not_true_eq_false, if_false, if_true]
        refine ⟨List.prefix_rfl, fun final _ => ?_⟩
        simp only [Agrees, nodeKey, hret1, hret2, if_true, htype, sign_byValue,
          List.compare_cons_cons, Std.compare_self, Ordering.eq_then, Ordering.then_eq]
        refine then_congr fun hino => ?_
        rw [Int.natCast_inj.mp hino]
        split
        · rw [sign_of_ne hne]
          simp [List.compare_cons_cons]
        · exact sign_imageInodeMatch htype flag
      · simp only [hret1, hret2, iff_false, not_true_eq_false, not_false_eq_true, if_true]
        refine ⟨List.prefix_rfl, fun final _ => ?_⟩
        simp only [Agrees, nodeKey, hret1, hret2, if_true, htype, List.compare_cons_cons,
          Std.compare_self, Ordering.eq_then]
        rfl
      · simp only [hret1, hret2, iff_true, not_false_eq_true, if_true]
        refine ⟨List.prefix_rfl, fun final _ => ?_⟩
        simp only [Agrees, nodeKey, hret1, hret2, if_true, htype, List.compare_cons_cons,
          Std.compare_self, Ordering.eq_then]
        rfl
      · simp only [hret1, hret2, iff_self, not_true_eq_false, if_false]
        obtain ⟨hgrow, hagree⟩ := cmpByBody_answered live1 live2 hne htype flag ranks
        refine ⟨hgrow, fun final hfinal => ?_⟩
        simp only [Agrees, nodeKey, hret1, hret2, if_false, htype, List.compare_cons_cons,
          Std.compare_self, Ordering.eq_then]
        exact hagree final hfinal

/-- What a program can ask for. NULL is allowed as a stream. -/
inductive Question (h : NodeHeap) where
  | streams (s1 s2 : Option {s : IsoStream // s.Live h.objects}) (flag : Nat)
  | nodes (n1 n2 : {n : IsoNode // n.Live h}) (flag : Nat)

def Question.answer {h : NodeHeap} : Question h → Ranks → Int × Ranks
  | .streams s1 s2 flag, ranks =>
    isoStreamCmpIno h.objects.classAddr (s1.map Subtype.val) (s2.map Subtype.val) flag ranks
  | .nodes n1 n2 flag, ranks =>
    isoNodeCmpFlag h.objects.classAddr n1.val n2.val flag ranks

/-- Comparisons one after the other. The state is the list streamcmpranks, an event is
a question with its answer. -/
def comparing (h : NodeHeap) : System Ranks (Question h) (Question h × Int) where
  step ranks question :=
    some ((question.answer ranks).2, (question, (question.answer ranks).1))

/-- The answer is the one of the order which the list `final` decides. -/
def Explained {h : NodeHeap} (final : Ranks) : Question h × Int → Prop
  | (.streams s1 s2 flag, ret) =>
    Agrees (fun s : Option {s : IsoStream // s.Live h.objects} =>
      streamKey h.objects flag final (s.map Subtype.val)) s1 s2 ret
  | (.nodes n1 n2 flag, ret) =>
    Agrees (fun n : {n : IsoNode // n.Live h} => nodeKey flag h final n.val) n1 n2 ret

theorem answer_explained {h : NodeHeap} (question : Question h) (ranks : Ranks) :
    ranks <+: (question.answer ranks).2 ∧
    ∀ final, (question.answer ranks).2 <+: final →
      Explained final (question, (question.answer ranks).1) := by
  cases question with
  | streams s1 s2 flag =>
    have live : ∀ s : Option {s : IsoStream // s.Live h.objects},
        ∀ t ∈ s.map Subtype.val, t.Live h.objects := by
      rintro (_ | s) t ⟨⟩
      exact s.property
    exact isoStreamCmpIno_answered (live s1) (live s2) flag ranks
  | nodes n1 n2 flag => exact isoNodeCmpFlag_answered n1.property n2.property flag ranks

/-- Whatever gets compared in whatever order, the last rank list explains it all. -/
theorem run_explained {h : NodeHeap} {trace : List (Question h × Int)} {ranks : Ranks}
    (run : Run (comparing h) [] trace ranks) :
    ∀ final, ranks <+: final → ∀ event ∈ trace, Explained final event := by
  refine run.invariant
    (I := fun trace ranks =>
      ∀ final, ranks <+: final → ∀ event ∈ trace, Explained final event)
    (by simp) ?_
  intro trace ranks question ranks' event explained hstep final hfinal last hlast
  obtain ⟨rfl, rfl⟩ : (question.answer ranks).2 = ranks' ∧
      (question, (question.answer ranks).1) = event := by
    simpa [comparing] using hstep
  obtain ⟨hgrow, hnow⟩ := answer_explained question ranks
  rcases List.mem_append.mp hlast with hold | hnew
  · exact explained final (hgrow.trans hfinal) last hold
  · obtain rfl := List.mem_singleton.mp hnew
    exact hnow final hfinal

/-- All comparisons of streams with one flag value, and all comparisons of nodes with
one flag value, which are made during the life of a rank list, are those of a total
preorder. -/
theorem comparisons_total_preorder {h : NodeHeap} {trace : List (Question h × Int)}
    {ranks : Ranks} (run : Run (comparing h) [] trace ranks) (flag : Nat) :
    TotalPreorder (fun s1 s2 ret => (Question.streams s1 s2 flag, ret) ∈ trace) ∧
    TotalPreorder (fun n1 n2 ret => (Question.nodes n1 n2 flag, ret) ∈ trace) := by
  have explained := run_explained run ranks List.prefix_rfl
  exact ⟨.of_key fun hmem => explained _ hmem, .of_key fun hmem => explained _ hmem⟩

/-- Two files: one stream in memory below a zisofs and below a gzip filter. -/
def twoFilters : NodeHeap :=
  let mem : IsoStream := .plain 1 5 (.mem 1)
  let ziso : IsoStream := .filter 2 3 .zisoCompress 1 mem
  let gzip : IsoStream := .filter 3 3 .gzipCompress 1 mem
  { objects :=
      { classAddr := fun c => c.ctorIdx
        classAddr_injective := IsoStreamIface.ctorIdx_injective
        stream := fun a => [none, some mem, some ziso, some gzip].getD a none
        command := fun _ => none }
    node := fun a =>
      if a = 4 then some ⟨4, .file ziso, 0, 0, 0, 0, 0, 0, none, none⟩
      else if a = 5 then some ⟨5, .file gzip, 0, 0, 0, 0, 0, 0, none, none⟩
      else none }

def zisoFile : {n : IsoNode // n.Live twoFilters} where
  val :=
    ⟨4, .file (.filter 2 3 .zisoCompress 1 (.plain 1 5 (.mem 1))), 0, 0, 0, 0, 0, 0, none, none⟩
  property := ⟨rfl, by rintro _ ⟨⟩; exact ⟨rfl, by simp, rfl⟩⟩

def gzipFile : {n : IsoNode // n.Live twoFilters} where
  val :=
    ⟨5, .file (.filter 3 3 .gzipCompress 1 (.plain 1 5 (.mem 1))), 0, 0, 0, 0, 0, 0, none, none⟩
  property := ⟨rfl, by rintro _ ⟨⟩; exact ⟨rfl, by simp, rfl⟩⟩

/-- The function which gets asked for first ranks first. -/
theorem comparisons_total_preorder_two_filters :
    Run (comparing twoFilters) []
        [(.nodes gzipFile zisoFile 1, -1), (.nodes zisoFile gzipFile 1, 1)]
        [some .gzipCmpIno, some .zisoCmpIno] ∧
      TotalPreorder fun n1 n2 ret => (Question.nodes n1 n2 1, ret) ∈
        [(.nodes gzipFile zisoFile 1, -1), (.nodes zisoFile gzipFile 1, (1 : Int))] := by
  have run : Run (comparing twoFilters) []
      [(.nodes gzipFile zisoFile 1, -1), (.nodes zisoFile gzipFile 1, 1)]
      [some .gzipCmpIno, some .zisoCmpIno] :=
    .snoc (a := .nodes zisoFile gzipFile 1) (.snoc (a := .nodes gzipFile zisoFile 1) .refl rfl) rfl
  exact ⟨run, (comparisons_total_preorder run 1).2⟩

end NodeCmp
