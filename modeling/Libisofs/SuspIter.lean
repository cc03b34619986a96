import Libisofs.Lib.Bytes

/-!
# The iterator over System Use entries

It yields the entries of the System Use field of a directory record, and those of the
continuation areas which are announced by CE entries. A recursive call of the iterator is a
further step here.
-/

namespace SuspIter

open ByteBuffers

/-- More than 1 MiB in a single file's CE area is suspicious. -/
def isoSuspMaxCeBytes : UInt32 := 1024 * 1024

def isoSuspWrongCeSize : Int := 0xE830FE5D - 2 ^ 32

def isoWrongRr : Int := 0xE030FEBF - 2 ^ 32

/-- What a block read returns, and the bytes of the block. `behind` is the memory behind the
blocks which were read for a continuation area. `submit` is returned by `iso_msg_submit()`. -/
structure Medium where
  readBlock : UInt32 → Int × Buffer
  fsBlocks : UInt32
  behind : Buffer
  submit : Int

/-- Memory from `base` on, the position in it, and the size of the field or area. -/
structure SuspIterator where
  base : Buffer
  pos : Nat
  size : Int
  ceBlock : UInt32
  ceOff : UInt32
  ceLen : UInt32

/-- A returned entry is at a position of a field or area. -/
structure SysUserEntry where
  base : Buffer
  pos : Nat
  size : Int

def lenSue (base : Buffer) (pos : Nat) : Nat := (base (pos + 2)).toNat

def suspSig (base : Buffer) (pos : Nat) (a b : Char) : Bool :=
  (base pos).toNat = a.toNat && (base (pos + 1)).toNat = b.toNat

/-- The record begins a memory range. -/
def suspIterNew (record : Buffer) (lenSkp : UInt8) : SuspIterator :=
  let lenFi := (record 32).toNat
  let pad := (lenFi + 1) % 2
  { base := fun i => record (33 + lenFi + pad + i)
    pos := lenSkp.toNat
    size := ((record 0).toNat : Int) - lenFi - 33 - pad
    ceBlock := 0
    ceOff := 0
    ceLen := 0 }

/-- The blocks from `first` on. -/
def readBlocks (med : Medium) (first : UInt32) : Nat → Except Int Buffer
  | 0 => .ok med.behind
  | n + 1 =>
    match readBlocks med first n with
    | .error ret => .error ret
    | .ok buffer =>
      let (ret, data) := med.readBlock (first + UInt32.ofNat n)
      if ret < 0 then .error ret else .ok (copyInto buffer (n * 2048) 2048 data)

/-- Memory from the begin of the continuation area on. -/
def readCeArea (med : Medium) (ceBlock ceOff ceLen : UInt32) : Except Int Buffer :=
  let skippedBlocks := ceOff / 2048
  let skippedBytes := skippedBlocks * 2048
  let nblocks := (ceOff - skippedBytes + ceLen + 2048 - 1) / 2048
  if nblocks = 0 || isoSuspMaxCeBytes < ceLen then .error isoSuspWrongCeSize
  else if med.fsBlocks.toNat < ceBlock.toNat + skippedBlocks.toNat + nblocks.toNat then
    .error isoSuspWrongCeSize
  else
    match readBlocks med (ceBlock + skippedBlocks) nblocks.toNat with
    | .error ret => .error ret
    | .ok buffer => .ok fun i => buffer ((ceOff - skippedBytes).toNat + i)

inductive Status where
  | calling (first : Bool) (iter : SuspIterator)
  | atEntry (iter : SuspIterator)
  | ended (ret : Int)

/-- The field or area has no further entry. -/
def atEnd (iter : SuspIterator) : Bool :=
  iter.size < iter.pos + 4 || suspSig iter.base iter.pos 'S' 'T'

/-- With the first call on root it is unclear whether this is SUSP at all. -/
def notSusp (iter : SuspIterator) : Bool :=
  iter.size < 7 || !suspSig iter.base iter.pos 'S' 'P' || lenSue iter.base iter.pos < 7

/-- The part of the call before the entry gets inspected. -/
def findEntry (med : Medium) (first : Bool) (iter : SuspIterator) : Status :=
  if first && notSusp iter then .ended 0
  else if atEnd iter then
    if iter.ceLen ≠ 0 then
      match readCeArea med iter.ceBlock iter.ceOff iter.ceLen with
      | .error ret => .ended ret
      | .ok base =>
        .atEntry { iter with base, pos := 0, size := iter.ceLen.toNat, ceLen := 0 }
    else .ended 0
  else .atEntry iter

/-- The announcement by a CE entry. -/
def announce (iter : SuspIterator) (pos : Nat) : SuspIterator :=
  { iter with
    ceBlock := UInt32.ofNat (ofLsb (slice iter.base (pos + 4) 4))
    ceOff := UInt32.ofNat (ofLsb (slice iter.base (pos + 12) 4))
    ceLen := UInt32.ofNat (ofLsb (slice iter.base (pos + 20) 4)) }

/-- The other part. CE and PD entries are not returned to the user. -/
def takeEntry (med : Medium) (iter : SuspIterator) : Status × Option SysUserEntry :=
  let len := lenSue iter.base iter.pos
  if len = 0 then (.ended isoWrongRr, none)
  else
    let next := { iter with pos := iter.pos + len }
    if suspSig iter.base iter.pos 'C' 'E' then
      if iter.ceLen ≠ 0 then
        if med.submit < 0 then (.ended med.submit, none) else (.calling false next, none)
      else (.calling false (announce next iter.pos), none)
    else if suspSig iter.base iter.pos 'P' 'D' then (.calling false next, none)
    else (.calling false next, some ⟨iter.base, iter.pos, iter.size⟩)

/-- If an entry gets returned, then the next call follows. -/
def advance (med : Medium) : Status → Status × Option SysUserEntry
  | .calling first iter => (findEntry med first iter, none)
  | .atEntry iter => takeEntry med iter
  | .ended ret => (.ended ret, none)

/-- The status after some steps of repeated calls. `root` is the flag of the first one. -/
def statusAfter (med : Medium) (record : Buffer) (lenSkp : UInt8) (root : Bool) : Nat → Status
  | 0 => .calling root (suspIterNew record lenSkp)
  | n + 1 => (advance med (statusAfter med record lenSkp root n)).1

/-- The entry which a step returns. -/
def returned (med : Medium) (record : Buffer) (lenSkp : UInt8) (root : Bool) (n : Nat) :
    Option SysUserEntry :=
  (advance med (statusAfter med record lenSkp root n)).2

end SuspIter
