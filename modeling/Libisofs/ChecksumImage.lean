import Libisofs.ChecksumCheck
import Mathlib.Data.Vector.Basic

/-!
# Images with checksum tags

ecma119_image_new() computes where the tags will be, and if the application provided a buffer
for the start of overwritable media, then it fills this buffer with a superblock and a
relocated superblock tag. write_function() writes the session with its three tags. Each tag
block is not part of its own range but of those which come later.
-/

namespace ChecksumImage

open Texts Unrollings ChecksumTags

abbrev Body := { bytes : Bytes // bytes.length = 2047 }

inductive VolDescType where
  | bootRecord
  | primary
  | supplementary
  | terminator

def VolDescType.byte : VolDescType → UInt8
  | .bootRecord => 0
  | .primary => 1
  | .supplementary => 2
  | .terminator => 255

structure VolDesc where
  type : VolDescType
  body : Body

def VolDesc.block (d : VolDesc) : Block where
  bytes := d.type.byte :: d.body.val
  length_eq := by rw [List.length_cons, d.body.property]

/-- The superblock gets written to the overwrite buffer, and then to the session. -/
inductive Copy where
  | overwrite
  | session

/-- The options, and what all writers together contribute to a session. `second` are padding
and volume descriptors for the partition offset, `tree` are directories and path tables,
`data` is all from there up to the end of the checksum array, and `tail` is the rest. All
block addresses have 32 bits. -/
structure Session where
  msBlock : UInt32
  partitionOffset : UInt32
  overwrite : Option (Nat → Block)
  scdbackupTagParm : Bytes
  systemArea : Copy → List.Vector Block 16
  primary : Copy → Body
  elTorito : Option (Copy → Body)
  joliet : Option (Copy → Body)
  iso1999 : Option (Copy → Body)
  terminator : Body
  second : List Block
  tree : List Block
  data : List Block
  tail : List Block
  fits : msBlock.toNat + 16 + (1 + elTorito.toList.length + joliet.toList.length +
    iso1999.toList.length) + 1 + 1 + second.length + tree.length + 1 + data.length + 1 +
      tail.length ≤ 2 ^ 32

/-- One volume descriptor for each writer which has one. -/
def Session.writerDescs (s : Session) (copy : Copy) : List VolDesc :=
  ⟨.primary, s.primary copy⟩ :: (s.elTorito.toList.map fun body => ⟨.bootRecord, body copy⟩) ++
    (s.joliet.toList.map fun body => ⟨.supplementary, body copy⟩) ++
    s.iso1999.toList.map fun body => ⟨.supplementary, body copy⟩

def Session.volDescs (s : Session) (copy : Copy) : List VolDesc :=
  s.writerDescs copy ++ [⟨.terminator, s.terminator⟩]

/-- write_head_part1() -/
def Session.superblock (s : Session) (copy : Copy) : List Block :=
  (s.systemArea copy).toList ++ (s.volDescs copy).map VolDesc.block

/-- The addresses which are computed before anything gets written. -/
def Session.layout (s : Session) : Ecma119Image :=
  let curblock := s.msBlock + 16
  let voldescSize := UInt32.ofNat (s.writerDescs .session).length
  let sbTagPos := curblock + voldescSize + 1
  let curblock := sbTagPos + 1 + UInt32.ofNat s.second.length
  let treeTagPos := curblock + UInt32.ofNat s.tree.length
  let tagPos := treeTagPos + 1 + UInt32.ofNat s.data.length
  { msBlock := s.msBlock
    scdbackupTagParm := s.scdbackupTagParm
    checksumRlsbTagPos := voldescSize + 16 + 1
    checksumSbTagPos := sbTagPos
    checksumTreeTagPos := treeTagPos
    checksumTagPos := tagPos
    checksumRangeStart := s.msBlock
    checksumRangeSize := tagPos - s.msBlock
    checksumCtx := []
    optsOverwrite := none
    written := [] }

/-- Production of the overwrite buffer. -/
def Session.relocate (s : Session) (overwrite : Nat → Block) : Except Int Ecma119Image :=
  let t := s.layout
  let buffer := fun i => (s.superblock .overwrite).getD i (overwrite i)
  if t.checksumRlsbTagPos < 32 then
    isoMd5WriteTag { t with
      optsOverwrite := some buffer
      checksumCtx := contents ((List.range t.checksumRlsbTagPos.toNat).map buffer) } 4
  else .ok { t with optsOverwrite := some buffer }

def ecma119ImageNew (s : Session) : Except Int Ecma119Image :=
  match s.overwrite with
  | none => .ok s.layout
  | some overwrite =>
    if s.msBlock ≠ 0 ∧ s.msBlock < s.partitionOffset + 32 then .error isoOvwrtMsTooSmall
    else (s.relocate overwrite).map fun t => { t with checksumCtx := [] }

def writeFunction (s : Session) (t : Ecma119Image) : Except Int Ecma119Image := do
  let t := (s.superblock .session).foldl isoWrite t
  let t ← isoMd5WriteTag t 2
  let t := (s.second ++ s.tree).foldl isoWrite t
  let t ← isoMd5WriteTag t 3
  let t := s.data.foldl isoWrite t
  let t ← isoMd5WriteTag t 1
  return s.tail.foldl isoWrite t

def writeImage (s : Session) : Except Int Ecma119Image := do
  let t ← ecma119ImageNew s
  writeFunction s t

/-- The medium after the session has been written, and then the overwrite buffer. -/
def medium (s : Session) (t : Ecma119Image) (old : Source) : Source := fun lba =>
  let behind := if s.msBlock ≤ lba then t.written[lba.toNat - s.msBlock.toNat]? else none
  match t.optsOverwrite with
  | some buffer =>
    if lba < s.partitionOffset + 32 then .ok (buffer lba.toNat)
    else behind.elim (old lba) .ok
  | none => behind.elim (old lba) .ok

/-! ## What is expected -/

/-- Where the tags are, counted from the start of the session. -/
def Session.sb (s : Session) : Nat := (s.superblock .session).length
def Session.treeIndex (s : Session) : Nat := s.sb + 1 + s.second.length + s.tree.length
def Session.tagIndex (s : Session) : Nat := s.treeIndex + 1 + s.data.length

def lbaOf (s : Session) (index : Nat) : UInt32 := s.msBlock + UInt32.ofNat index

/-- A tag which announces all blocks of the session in front of it. -/
def sessionTag (s : Session) (written : List Block) (tagType index : Nat) (next : UInt32) :
    Md5Tag :=
  ⟨tagType, lbaOf s index, s.msBlock, UInt32.ofNat index, next, md5 (contents (written.take index))⟩

/-- The tag of the overwrite buffer. -/
def relocatedTag (s : Session) (buffer : Nat → Block) : Md5Tag :=
  ⟨4, UInt32.ofNat s.sb, 0, UInt32.ofNat s.sb, s.msBlock,
    md5 (contents ((List.range s.sb).map buffer))⟩

/-- Blocks which may have been altered, but not the tag at this place. This tag is still the
first valid one behind the System Area. -/
structure KeepsTag (c : Clib) (start : UInt32) (image blocks : List Block) (index : Nat) :
    Prop where
  same : blocks[index]? = image[index]?
  first : ∀ i block, 16 ≤ i → i < index → blocks[i]? = some block →
    ∀ tag, Decodes c block tag → tag.tagType ∉ wanted start

/-- Tags are read as written. The check is content with the medium, and it reports each
altered range of which the MD5 differs from the recorded one. -/
structure TagsValid (c : Clib) (s : Session) (t : Ecma119Image) (old : Source) : Prop where
  sbTag : ∃ block, t.written[s.sb]? = some block ∧
    Decodes c block (sessionTag s t.written 2 s.sb (lbaOf s s.treeIndex))
  treeTag : ∃ block, t.written[s.treeIndex]? = some block ∧
    Decodes c block (sessionTag s t.written 3 s.treeIndex (lbaOf s s.tagIndex))
  tag : ∃ block, t.written[s.tagIndex]? = some block ∧
    Decodes c block (sessionTag s t.written 1 s.tagIndex 0)
  rlsbTag : ∀ buffer, t.optsOverwrite = some buffer →
    Decodes c (buffer s.sb) (relocatedTag s buffer)
  accepted : Gives (fun n => isoSrcCheckSbTree c (medium s t old) n s.msBlock) 1
  acceptedAtStart : t.optsOverwrite.isSome →
    Gives (fun n => isoSrcCheckSbTree c (medium s t old) n 0) 1
  reported : ∀ src blocks, Reads src s.msBlock blocks → KeepsTag c s.msBlock t.written blocks s.sb →
    blocks[s.treeIndex]? = t.written[s.treeIndex]? →
    (md5 (contents (blocks.take s.sb)) ≠ md5 (contents (t.written.take s.sb)) ∨
      md5 (contents (blocks.take s.treeIndex)) ≠ md5 (contents (t.written.take s.treeIndex))) →
    Gives (fun n => isoSrcCheckSbTree c src n s.msBlock) isoSbTreeCorrupted
  reportedAtStart : ∀ buffer, t.optsOverwrite = some buffer → ∀ src head blocks,
    Reads src 0 head → KeepsTag c 0 ((List.range (s.sb + 1)).map buffer) head s.sb →
    Reads src s.msBlock blocks → KeepsTag c s.msBlock t.written blocks s.sb →
    blocks[s.treeIndex]? = t.written[s.treeIndex]? →
    (md5 (contents (head.take s.sb)) ≠ md5 (contents ((List.range s.sb).map buffer)) ∨
      md5 (contents (blocks.take s.sb)) ≠ md5 (contents (t.written.take s.sb)) ∨
      md5 (contents (blocks.take s.treeIndex)) ≠ md5 (contents (t.written.take s.treeIndex))) →
    Gives (fun n => isoSrcCheckSbTree c src n 0) isoSbTreeCorrupted

end ChecksumImage
