import Libisofs.Rfc1321
import Libisofs.Lib.Doubles
import Libisofs.Lib.Unrolling

/-!
# Checksum tags

iso_md5_write_tag() of md5.c writes a block with a text which tells the position of the
block, a range of blocks, the position of the next tag, and the MD5 of the range. The text
ends with its own MD5. iso_util_decode_md5_tag() of util.c reads such a block, and
iso_src_check_sb_tree() of fs_image.c compares the ranges of superblock and directory tree
with their tags before an image gets loaded.
-/

namespace ChecksumTags

open Texts Unrollings

abbrev md5 : Bytes → Bytes := Rfc1321.md5

/-- Some error codes of libisofs.h. -/
def isoWrongArgValue : Int := 0xE830FFF8 - 2 ^ 32
def isoOvwrtMsTooSmall : Int := 0xE830FE98 - 2 ^ 32
def isoMd5AreaCorrupted : Int := 0xD030FEA0 - 2 ^ 32
def isoMd5TagMismatch : Int := 0xE830FE9F - 2 ^ 32
def isoSbTreeCorrupted : Int := 0xE830FE9E - 2 ^ 32
def isoMd5TagMisplaced : Int := 0xD030FE9C - 2 ^ 32
def isoMd5TagCopied : Int := 0xD030FE88 - 2 ^ 32

structure Block where
  bytes : Bytes
  length_eq : bytes.length = 2048

/-- A text at the start of a zeroed block. -/
def Block.ofText (s : Bytes) : Block where
  bytes := (s ++ List.replicate 2048 0).take 2048
  length_eq := by
    rw [List.length_take, List.length_append, List.length_replicate]
    omega

/-- What the C library and the memory contribute. `num` is the variable after
sscanf(dec, "%lf", &num) finds no number in the text. `stale` is a variable without initial
value. `behind` is in memory behind a block. -/
structure Clib where
  num : Bytes → ℚ
  stale : Nat
  behind : Bytes

/-! ## Reading of tags -/

def isoUtilDecToUint32 (c : Clib) (dec : Bytes) : Option UInt32 :=
  let num := (Doubles.scanDouble dec).getD (c.num dec)
  if num < 0 ∨ 4294967295 < num then none else some (UInt32.ofNat num.floor.toNat)

/-- sscanf(b, "%x", &u) of two characters, which are allowed ones. -/
def scanHex (u : Nat) (b₀ b₁ : UInt8) : Nat :=
  match hexValue b₀, hexValue b₁ with
  | some hi, some lo => 16 * hi + lo
  | some hi, none => hi
  | none, _ => u

/-- strchr() finds the zero byte at the end of the list of allowed characters, too. -/
def isAllowed (b : UInt8) : Bool := b == 0 || (hexValue b).isSome

/-- The bytes as far as the text is hexadecimal. -/
def isoUtilHexToBin : (binSize u : Nat) → Bytes → Bytes
  | 0, _, _ => []
  | binSize + 1, u, hex =>
    if isAllowed (hex.getD 0 0) && isAllowed (hex.getD 1 0) then
      let u := scanHex u (hex.getD 0 0) (hex.getD 1 0)
      UInt8.ofNat u :: isoUtilHexToBin binSize u (hex.drop 2)
    else []

def isoUtilTagMagic : Nat → Bytes
  | 1 => text "libisofs_checksum_tag_v1"
  | 2 => text "libisofs_sb_checksum_tag_v1"
  | 3 => text "libisofs_tree_checksum_tag_v1"
  | 4 => text "libisofs_rlsb32_checksum_tag_v1"
  | _ => []

structure Md5Tag where
  tagType : Nat
  pos : UInt32
  rangeStart : UInt32
  rangeSize : UInt32
  nextTag : UInt32
  md5 : Bytes

/-- The word in front of the position which goes to `next_tag`. -/
def nextWord (tagType : Nat) : Option Bytes :=
  if tagType = 2 ∨ tagType = 3 then some (text "next=")
  else if tagType = 4 then some (text "session_start=")
  else none

def parseNext (c : Clib) (tagType : Nat) (cpt : Bytes) : Option (UInt32 × Bytes) :=
  match nextWord tagType with
  | none => some (0, cpt)
  | some word => do
    let cpt ← strstr word cpt
    let nextTag ← isoUtilDecToUint32 c (cpt.drop word.length)
    return (nextTag, cpt)

/-- The parameters behind the magic text, and the place behind the MD5. -/
def parseTag (c : Clib) (tagType : Nat) (data : Bytes) : Option (Md5Tag × Bytes) := do
  let cpt := data.drop ((isoUtilTagMagic tagType).length + 1)
  guard ((text "pos=").isPrefixOf cpt)
  let cpt := cpt.drop 4
  let pos ← isoUtilDecToUint32 c cpt
  let cpt ← strstr (text "range_start=") cpt
  let rangeStart ← isoUtilDecToUint32 c (cpt.drop 12)
  let cpt ← strstr (text "range_size=") cpt
  let rangeSize ← isoUtilDecToUint32 c (cpt.drop 11)
  let (nextTag, cpt) ← parseNext c tagType cpt
  let cpt ← strstr (text "md5=") cpt
  let md5 := isoUtilHexToBin 16 c.stale (cpt.drop 4)
  guard (md5.length = 16)
  return (⟨tagType, pos, rangeStart, rangeSize, nextTag, md5⟩, cpt.drop (4 + 32))

/-- The self checksum of the text up to `cpt`. -/
def checkSelf (c : Clib) (data cpt : Bytes) : Int :=
  match strstr (text "self=") cpt with
  | none => 0
  | some self =>
    let selfMd5 := isoUtilHexToBin 16 c.stale (self.drop 5)
    if selfMd5.length ≠ 16 then 0
    else if selfMd5 ≠ md5 (data.take (data.length - cpt.length)) then isoMd5AreaCorrupted
    else if self.getD (5 + 32) 0 ≠ charByte '\n' then 0
    else 1

/-- Mode 0 accepts all tag types. -/
def isoUtilDecodeMd5Tag (c : Clib) (data : Bytes) (mode : Nat) : Int × Option Md5Tag :=
  if 4 < mode then (isoWrongArgValue, none)
  else
    let types := if mode = 0 then [1, 2, 3, 4] else [mode]
    match types.find? fun i => (isoUtilTagMagic i).isPrefixOf data with
    | none => (0, none)
    | some tagType =>
      match parseTag c tagType data with
      | none => (0, none)
      | some (tag, cpt) => (checkSelf c data cpt, some tag)

/-! ## Check of an image -/

/-- `ctx` are the bytes from block `ctxStartLba` on. -/
def isoUtilEvalMd5Tag (c : Clib) (block : Block) (desired : List Nat) (lba : UInt32)
    (ctx : Bytes) (ctxStartLba : UInt32) : Int × Option Md5Tag :=
  match isoUtilDecodeMd5Tag c (block.bytes ++ c.behind) 0 with
  | (_, none) => (0, none)
  | (decodeRet, some tag) =>
    let ret : Int :=
      if decodeRet = isoMd5AreaCorrupted then decodeRet
      else if decodeRet ≠ 1 then 0
      else if tag.tagType ∉ desired then 0
      else if tag.pos ≠ lba then
        if tag.tagType = 2 ∧ lba < 32 then
          -- possibly the copy of a superblock
          if tag.rangeStart - (tag.pos - lba) ≠ ctxStartLba then isoMd5TagMisplaced
          else isoMd5TagCopied
        else isoMd5TagMisplaced
      else if tag.rangeStart ≠ ctxStartLba then isoMd5TagMisplaced
      else if md5 ctx ≠ tag.md5 then isoMd5TagMismatch
      else 1
    (ret, some tag)

abbrev Source := UInt32 → Except Int Block

/-- The search for the superblock tag ends the function, or it finds the tag in block `i`. -/
inductive Scan where
  | leave (ret : Int)
  | found (tag : Md5Tag) (i : Nat) (block : Block) (ctx : Bytes)

/-- The loop over 32 blocks, of which `left` are left. -/
def scanSuperblock (c : Clib) (src : Source) (startLba : UInt32) : (left : Nat) → Bytes → Scan
  | 0, _ => .leave 2
  | left + 1, ctx =>
    let i := 31 - left
    let lba := startLba + UInt32.ofNat i
    match src lba with
    | .error ret => .leave ret
    | .ok block =>
      let desired := if startLba = 0 then [2, 4] else [2]
      let (ret, tag) :=
        if 16 ≤ i then isoUtilEvalMd5Tag c block desired lba ctx startLba else (0, none)
      if ret = isoMd5TagCopied then .leave 2
      else if ret = isoMd5AreaCorrupted ∨ ret = isoMd5TagMismatch then .leave isoSbTreeCorrupted
      else if ret < 0 then .leave ret
      else
        match ret, tag with
        | 1, some tag => .found tag i block (ctx ++ block.bytes)
        | _, _ => scanSuperblock c src startLba left (ctx ++ block.bytes)

/-- The variables of the loop over the blocks of the tree. -/
structure TreeWalk where
  i : UInt32
  block : Block
  ctx : Bytes

def treeTurn (src : Source) (startLba nextTag : UInt32) (w : TreeWalk) :
    Unrolling (TreeWalk ⊕ Except Int TreeWalk) := fun _ =>
  if startLba + w.i ≤ nextTag then
    match src (startLba + w.i) with
    | .error ret => some (.inr (.error ret))
    | .ok block =>
      some (.inl ⟨w.i + 1, block,
        if startLba + w.i < nextTag then w.ctx ++ block.bytes else w.ctx⟩)
  else some (.inr (.ok w))

def checkTree (c : Clib) (startLba : UInt32) : Except Int TreeWalk → Int
  | .error ret => ret
  | .ok w =>
    let ret := (isoUtilEvalMd5Tag c w.block [3] (startLba + w.i - 1) w.ctx startLba).1
    if ret = isoMd5AreaCorrupted ∨ ret = isoMd5TagMismatch then isoSbTreeCorrupted
    else if ret < 0 then ret
    else 1

/-- 1 is success, and 2 tells that there are no tags. -/
def isoSrcCheckSbTree (c : Clib) (src : Source) : Nat → UInt32 → Option Int
  | 0, _ => none
  | n + 1, startLba =>
    match scanSuperblock c src startLba 32 [] with
    | .leave ret => some ret
    | .found tag i block ctx =>
      if tag.tagType = 4 then
        if tag.nextTag < 32 then some isoSbTreeCorrupted
        else isoSrcCheckSbTree c src n tag.nextTag
      else
        (loop (treeTurn src startLba tag.nextTag) n ⟨UInt32.ofNat i + 1, block, ctx⟩).map
          (checkTree c startLba)

/-! ## Writing of tags -/

/-- Ecma119Image as far as tags are concerned. -/
structure Ecma119Image where
  msBlock : UInt32
  scdbackupTagParm : Bytes
  checksumRlsbTagPos : UInt32
  checksumSbTagPos : UInt32
  checksumTreeTagPos : UInt32
  checksumTagPos : UInt32
  checksumRangeStart : UInt32
  checksumRangeSize : UInt32
  checksumCtx : Bytes
  optsOverwrite : Option (Nat → Block)
  written : List Block

/-- The range and position which iso_md5_write_tag() announces, and the one of the next tag. -/
def announced (t : Ecma119Image) (mode : Nat) : Md5Tag where
  tagType := mode
  pos := tagPos
  rangeStart := start
  rangeSize := if mode = 1 then t.checksumRangeSize else tagPos - start
  nextTag :=
    if mode = 2 then t.checksumTreeTagPos
    else if mode = 3 then t.checksumTagPos
    else if mode = 4 then t.msBlock
    else 0
  md5 := md5 t.checksumCtx
where
  tagPos : UInt32 :=
    if mode = 1 then t.checksumTagPos
    else if mode = 2 then t.checksumSbTagPos
    else if mode = 3 then t.checksumTreeTagPos
    else t.checksumRlsbTagPos
  start : UInt32 :=
    if mode = 4 then tagPos - tagPos % 32 else t.checksumRangeStart

def nextText (tag : Md5Tag) : Bytes :=
  match nextWord tag.tagType with
  | none => []
  | some word => text " " ++ word ++ decimal tag.nextTag.toNat

/-- The text up to the MD5. -/
def parameterText (tag : Md5Tag) : Bytes :=
  isoUtilTagMagic tag.tagType ++ text " pos=" ++ decimal tag.pos.toNat ++
    text " range_start=" ++ decimal tag.rangeStart.toNat ++
    text " range_size=" ++ decimal tag.rangeSize.toNat ++ nextText tag ++
    text " md5=" ++ hex tag.md5

def tagText (tag : Md5Tag) : Bytes :=
  parameterText tag ++ text " self=" ++ hex (md5 (parameterText tag)) ++ text "\n"

/-- The printf() format %9.9u. -/
def decimal9 (n : Nat) : Bytes := List.replicate (9 - (decimal n).length) 48 ++ decimal n

/-- The line which iso_md5_write_scdbackup_tag() appends to the session tag. The tag becomes
part of the checksum once more. -/
def isoMd5WriteScdbackupTag (t : Ecma119Image) (tagBlock : Bytes) : Bytes × Bytes :=
  let ctx := t.checksumCtx ++ tagBlock
  let pos := t.checksumTagPos.toNat * 2048 + tagBlock.length
  let postext :=
    if 1000000000 ≤ pos then decimal (pos / 1000000000) ++ decimal9 (pos % 1000000000)
    else decimal pos
  let record := t.scdbackupTagParm ++ text " " ++ postext ++ text " " ++ hex (md5 ctx)
  (tagBlock ++ text "scdbackup_checksum_tag_v0.1 " ++ postext ++ text " " ++
    decimal record.length ++ text " " ++ record ++ text " " ++ hex (md5 record) ++ text "\n", ctx)

def isoWrite (t : Ecma119Image) (block : Block) : Ecma119Image :=
  { t with checksumCtx := t.checksumCtx ++ block.bytes, written := t.written ++ [block] }

/-- The content of the tag block, and the checksum context after it has been composed. -/
def composeTag (t : Ecma119Image) (mode : Nat) : Bytes × Bytes :=
  if mode = 1 ∧ t.scdbackupTagParm ≠ [] ∧ t.msBlock = 0 then
    isoMd5WriteScdbackupTag t (tagText (announced t mode))
  else (tagText (announced t mode), t.checksumCtx)

def isoMd5WriteTag (t : Ecma119Image) (mode : Nat) : Except Int Ecma119Image :=
  if mode < 1 ∨ 4 < mode then .error isoWrongArgValue
  else
    let (tagBlock, ctx) := composeTag t mode
    if mode = 4 then
      .ok { t with optsOverwrite := t.optsOverwrite.map fun overwrite =>
              Function.update overwrite t.checksumRlsbTagPos.toNat (Block.ofText tagBlock) }
    else .ok (isoWrite { t with checksumCtx := ctx } (Block.ofText tagBlock))

end ChecksumTags
