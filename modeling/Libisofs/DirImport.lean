import Libisofs.Joliet
import Libisofs.ReadDir
import Libisofs.SuspSafety
import Libisofs.Lib.Unrolling

/-!
# Import of directory trees

iso_add_dir_src_rec() of tree.c opens a directory, which makes read_dir() of fs_image.c parse
all its records, and then it calls itself for each directory among the children. A record may
tell by an RRIP CL entry that the attributes and the extent are those of a directory which is
elsewhere. No function remembers where it has been already. iso_file_source_new_ifs() collects
the sections of a file from one or more records, and the sum of their sizes as st_size. Of names,
link targets and other attributes of a record only matters here whether they make the function
fail.
-/

namespace DirImport

open ByteBuffers Unrollings
open Joliet (Section)
open ReadDir (IsoDataSource blockSize dirSize firstPos blockNumber nextBlock nextRecord)
open SuspIter (Medium SysUserEntry Status suspIterNew suspSig lenSue advance returned isoWrongRr)

abbrev Bytes := List UInt8

def isoSuccess : Int := 1
def isoCanceled : Int := 0xE830FFFF - 2 ^ 32
def isoFileReadError : Int := 0xE830FF79 - 2 ^ 32
def isoFileCantAdd : Int := 0xE030FF71 - 2 ^ 32
def isoUnsupportedRr : Int := 0xE030FEBE - 2 ^ 32
def isoUnsupportedSusp : Int := 0xE030FEB8 - 2 ^ 32
def isoWrongEcma119 : Int := 0xE830FEBD - 2 ^ 32
def isoUnsupportedEcma119 : Int := 0xE830FEBC - 2 ^ 32

/-- What was found out about the filesystem, and the settings of the import. `submit` tells
what iso_msg_submit() returns for an error code. `names` and `links` are some return value if
the name or the link target make iso_file_source_new_ifs() end with it. They are given the
record, the mode and the entries. -/
structure Reader where
  rr : Bool
  lenSkp : UInt8
  fsBlocks : UInt32
  behind : Buffer
  submit : Int → Int
  getName : Buffer → Option Bytes
  names : Buffer → Nat → List SysUserEntry → Option Int
  links : Buffer → Nat → List SysUserEntry → Option Int

/-- The content of a data source. The memory behind a block buffer is zero. -/
def source (blocks : List Buffer) : IsoDataSource where
  readBlock block :=
    match blocks[block.toNat]? with
    | some data => .ok fun i => if i < blockSize then data i else 0
    | none => .error isoFileReadError
  error_neg h := by
    split at h
    · cases h
    · cases h
      decide

/-- ImageFileSourceData with nsections as length of the list. The name is only used while
the file is incomplete. -/
structure FileSource where
  name : Option Bytes
  isDir : Bool
  sections : List Section
  stSize : UInt64

/-- The blocks where the sections begin. -/
def FileSource.extents (file : FileSource) : List UInt32 := file.sections.map Section.block

/-! ## Records -/

def flagsOf (record : Buffer) : UInt8 := record 25

def sIfdir : Nat := 0x4000
def sIfreg : Nat := 0x8000
def sIfmt : Nat := 0xF000

/-- The preliminary file type. -/
def preliminaryMode (record : Buffer) : Nat :=
  if flagsOf record &&& 2 ≠ 0 then sIfdir else sIfreg

/-- iso_read_bb(record->block, 4, NULL) + record->len_xa[0] -/
def extentOf (record : Buffer) : UInt32 :=
  UInt32.ofNat (ofLsb (slice record 2 4)) + (record 1).toUInt32

def lengthOf (record : Buffer) : UInt32 := UInt32.ofNat (ofLsb (slice record 10 4))

def sectionOf (record : Buffer) : Section := ⟨extentOf record, lengthOf record⟩

/-- As of calloc(), with the name set. -/
def blank (name : Option Bytes) : FileSource := ⟨name, false, [], 0⟩

/-- "store current extent" -/
def FileSource.store (data : FileSource) (s : Section) : FileSource :=
  { data with sections := data.sections ++ [s], stSize := data.stSize + s.size.toUInt64 }

/-- The checks in front of the System Use entries. A record of a file with several extents
adds one extent. -/
def precheck (r : Reader) (record : Buffer) (child : Option FileSource) :
    Option (Int × Option FileSource) :=
  if record 26 ≠ 0 ∨ record 27 ≠ 0 then some (isoUnsupportedEcma119, child)
  else
    match child with
    | none =>
      if flagsOf record &&& 0x80 = 0 then none
      else if flagsOf record &&& 2 ≠ 0 then some (isoWrongEcma119, none)
      else
        match r.getName record with
        | none => some (isoWrongEcma119, none)
        | some name => some (2, some ((blank (some name)).store (sectionOf record)))
    | some data =>
      if (r.getName record).isNone ∨ r.getName record ≠ data.name then
        some (isoWrongEcma119, child)
      else if flagsOf record &&& 0x80 = 0 then none
      else if flagsOf record &&& 2 ≠ 0 then some (isoWrongEcma119, child)
      else some (2, some (data.store (sectionOf record)))

def medium (r : Reader) (src : IsoDataSource) : Medium where
  readBlock block :=
    match src.readBlock block with
    | .error ret => (ret, fun _ => 0)
    | .ok buffer => (isoSuccess, buffer)
  fsBlocks := r.fsBlocks
  behind := r.behind
  submit := r.submit isoUnsupportedSusp

/-- The attributes which matter, and the entries so far. -/
structure RrState where
  mode : Nat
  relocated : UInt32
  seen : List SysUserEntry

/-- The function is left at once, or the loop over the entries has ended. -/
inductive RrEnd where
  | leave (ret : Int)
  | done (ret : Int) (st : RrState)

def version (sue : SysUserEntry) : UInt8 := sue.base (sue.pos + 3)

/-- Both-byte-order number at an offset of the entry. -/
def numberAt (sue : SysUserEntry) (offset : Nat) : Nat :=
  ofLsb (slice sue.base (sue.pos + offset) 4)

/-- One turn of the loop over the entries. `clTarget` is flag bit1. -/
def takeSue (r : Reader) (clTarget : Bool) (st : RrState) (sue : SysUserEntry) :
    RrState ⊕ RrEnd :=
  let sig := suspSig sue.base sue.pos
  let st := { st with seen := st.seen ++ [sue] }
  if version sue ≠ 1 ∧ ¬ (sig 'Z' 'F' ∨ sig 'Z' '2') then .inl st
  else if sig 'P' 'X' then
    if lenSue sue.base sue.pos = 44 ∨ lenSue sue.base sue.pos = 36 then
      .inl { st with mode := numberAt sue 4 }
    else .inl st
  else if sig 'R' 'E' then .inr (.leave 0)
  else if sig 'C' 'L' then
    if clTarget then .inl st
    else
      let st := { st with relocated := UInt32.ofNat (numberAt sue 4) }
      if st.relocated = 0 then .inr (.done (r.submit isoWrongRr) st) else .inl st
  else if sig 'S' 'F' then .inr (.done (r.submit isoUnsupportedRr) st)
  else .inl st

/-- A step of susp_iter_next(), and what is done with a returned entry. -/
def rrTurn (r : Reader) (src : IsoDataSource) (clTarget : Bool) :
    Status × RrState → Unrolling ((Status × RrState) ⊕ RrEnd)
  | (.ended ret, st), _ => some (.inr (.done ret st))
  | (status, st), _ =>
    match advance (medium r src) status with
    | (next, none) => some (.inl (next, st))
    | (next, some sue) =>
      match takeSue r clTarget st sue with
      | .inl st => some (.inl (next, st))
      | .inr last => some (.inr last)

/-- The rest of the function if no System Use entry has ended it. The result may be the
block of a relocated directory. The size is the one of the record plus the sum so far. -/
def finish (r : Reader) (record : Buffer) (child : Option FileSource) (st : RrState) :
    (Int × Option FileSource) ⊕ UInt32 :=
  match r.names record st.mode st.seen with
  | some ret => .inl (ret, child)
  | none =>
    if st.relocated ≠ 0 then .inr st.relocated
    else
      match r.links record st.mode st.seen with
      | some ret => .inl (ret, child)
      | none =>
        let data := child.getD (blank none)
        .inl (isoSuccess, some
          { name := none
            isDir := decide (Nat.land st.mode sIfmt = sIfdir)
            sections := data.sections ++ [sectionOf record]
            stSize := (lengthOf record).toUInt64 + data.stSize })

def afterRr (r : Reader) (record : Buffer) (child : Option FileSource) :
    RrEnd → (Int × Option FileSource) ⊕ UInt32
  | .leave ret => .inl (ret, child)
  | .done ret st =>
    if ret < 0 then .inl (ret, child)
    else if st.relocated = 0 ∧ st.mode = 0 ∧ r.submit isoWrongRr < 0 then
      .inl (r.submit isoWrongRr, child)
    else finish r record child st

def rrStart (r : Reader) (record : Buffer) : Status × RrState :=
  (.calling false (suspIterNew record r.lenSkp), ⟨preliminaryMode record, 0, []⟩)

/-- iso_file_source_new_ifs() up to the point where it deals with a relocated directory, or
the whole of it. -/
def parseRecord (r : Reader) (src : IsoDataSource) (record : Buffer)
    (child : Option FileSource) (clTarget : Bool) :
    Unrolling ((Int × Option FileSource) ⊕ UInt32) := fun n =>
  match precheck r record child with
  | some result => some (.inl result)
  | none =>
    if r.rr then
      (loop (rrTurn r src clTarget) n (rrStart r record)).map (afterRr r record child)
    else some (finish r record child ⟨preliminaryMode record, 0, []⟩)

/-- A positive result for the record "." of the relocated directory is success. No second
relocation is obeyed. -/
def fromTarget (child : Option FileSource) :
    (Int × Option FileSource) ⊕ UInt32 → Int × Option FileSource
  | .inl (ret, child') => if ret ≤ 0 then (ret, child') else (isoSuccess, child')
  | .inr _ => (0, child)

def newIfsAt (r : Reader) (src : IsoDataSource) (child : Option FileSource) :
    (Int × Option FileSource) ⊕ UInt32 → Unrolling (Int × Option FileSource)
  | .inl result => fun _ => some result
  | .inr block =>
    match src.readBlock block with
    | .error ret => fun _ => some (ret, child)
    | .ok buffer => fun n => (parseRecord r src buffer child true n).map (fromTarget child)

def isoFileSourceNewIfs (r : Reader) (src : IsoDataSource) (record : Buffer)
    (child : Option FileSource) : Unrolling (Int × Option FileSource) := fun n =>
  (parseRecord r src record child false n).bind fun parsed => newIfsAt r src child parsed n

/-! ## Directories -/

/-- The variables of read_dir(). -/
structure Reading where
  walk : ReadDir.State
  child : Option FileSource
  content : List FileSource

/-- The record to be read next. -/
def Reading.record (s : Reading) : Buffer := fun i => s.walk.buffer (s.walk.pos + i)

/-- The directory is not at its end, nor is the block. -/
def Reading.AtRecord (s : Reading) (size : Nat) : Prop :=
  s.walk.tlen < size ∧ ¬ (s.walk.pos = blockSize ∨ s.walk.buffer s.walk.pos = 0)

/-- A complete file source joins the list in front of the others. -/
def Reading.next (s : Reading) (ret : Int) (child : Option FileSource) : Reading :=
  if ret = 1 then ⟨nextRecord s.walk ret, none, child.toList ++ s.content⟩
  else ⟨nextRecord s.walk ret, child, s.content⟩

/-- One turn of the loop of read_dir(). -/
def readTurn (r : Reader) (src : IsoDataSource) (block : UInt32) (size : Nat) (s : Reading) :
    Unrolling (Reading ⊕ Except Int (List FileSource)) := fun n =>
  if s.walk.tlen < size then
    if s.walk.pos = blockSize ∨ s.walk.buffer s.walk.pos = 0 then
      match src.readBlock (blockNumber block (s.walk.advanced + 1)) with
      | .error ret => some (.inr (.error ret))
      | .ok buffer => some (.inl { s with walk := nextBlock s.walk buffer })
    else
      (isoFileSourceNewIfs r src s.record s.child n).map fun result =>
        if result.1 < 0 then .inr (.error result.1) else .inl (s.next result.1 result.2)
  else some (.inr (.ok s.content))

/-- Behind the records "." and "..". -/
def readStart (buffer : Buffer) : Reading :=
  ⟨⟨0, buffer, firstPos buffer, firstPos buffer, 0, []⟩, none, []⟩

def readDir (r : Reader) (src : IsoDataSource) (block : UInt32) :
    Unrolling (Except Int (List FileSource)) :=
  match src.readBlock block with
  | .error ret => fun _ => some (.error ret)
  | .ok buffer => fun n => loop (readTurn r src block (dirSize buffer)) n (readStart buffer)

/-! ## Records at the end of a block -/

section LongRecords

/-- No Rock Ridge, and no complaints about names or link targets. -/
def plainReader : Reader where
  rr := false
  lenSkp := 0
  fsBlocks := 0
  behind := fun _ => 0
  submit := fun ret => ret
  getName := fun _ => none
  names := fun _ _ _ => none
  links := fun _ _ _ => none

end LongRecords

/-! ## The tree -/

inductive IsoNode where
  | dir (children : List IsoNode)
  | other

inductive Verdict where
  | insert
  | pass
  | abort (ret : Int)

/-- What becomes of a child by exclusion, by the report function of the application, or by
errors. `fatal` is whether the error of a subordinate directory ends the import. -/
structure Decision where
  verdict : Verdict
  fatal : Bool

/-- The children as far as they get added. -/
def addChildren (choose : List Nat → Decision)
    (addDir : List Nat → UInt32 → Option (Int × List IsoNode)) (path : List Nat) :
    Nat → List FileSource → Option (Int × List IsoNode)
  | _, [] => some (isoSuccess, [])
  | k, file :: rest =>
    match (choose (k :: path)).verdict with
    | .abort ret => some (ret, [])
    | .pass => addChildren choose addDir path (k + 1) rest
    | .insert =>
      match file.isDir, file.extents with
      | true, block :: _ =>
        match addDir (k :: path) block with
        | none => none
        | some (ret, nodes) =>
          if ret < 0 ∧ (choose (k :: path)).fatal then some (isoCanceled, [.dir nodes])
          else
            (addChildren choose addDir path (k + 1) rest).map fun result =>
              (result.1, .dir nodes :: result.2)
      | _, _ =>
        (addChildren choose addDir path (k + 1) rest).map fun result =>
          (result.1, .other :: result.2)

/-- iso_add_dir_src_rec() for the directory in a block. `path` tells the place in the tree. -/
def isoAddDirSrcRec (r : Reader) (src : IsoDataSource) (choose : List Nat → Decision) :
    Nat → List Nat → UInt32 → Option (Int × List IsoNode)
  | 0, _, _ => none
  | n + 1, path, block =>
    match readDir r src block n with
    | none => none
    | some (.error _) => some (r.submit isoFileCantAdd, [])
    | some (.ok content) =>
      addChildren choose (isoAddDirSrcRec r src choose n) path 0 content

end DirImport
