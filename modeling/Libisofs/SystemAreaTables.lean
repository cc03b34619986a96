import Libisofs.Lib.Bytes

/-!
# Partition tables in the System Area of an imported image

GPT and APM are looked up in the 32 KiB of the System Area, the backup GPT in blocks which get
read to a buffer of 34 KiB. Each function reports the byte ranges which it accesses there.
Comments about the backup GPT are left out, and so is what is not about table entries: the test
for overlapping partitions and the search for a partition offset.
-/

namespace SystemAreaTables

open ByteBuffers

inductive Area where
  | systemArea
  | backupBuffer
  deriving DecidableEq

def Area.size : Area → Nat
  | .systemArea => 32768
  | .backupBuffer => 34 * 1024

/-- `size` bytes get read or written from `offset` on. -/
structure Access where
  area : Area
  offset : Nat
  size : Nat
  deriving DecidableEq

/-- Return value and data of a block read. -/
abbrev DataSource := UInt32 → Int × Buffer

def isoReadLsb (buf : Buffer) (pos : Nat) : UInt32 := UInt32.ofNat (ofLsb (slice buf pos 4))

def isoReadLsb64 (buf : Buffer) (pos : Nat) : UInt64 := UInt64.ofNat (ofLsb (slice buf pos 8))

def isoReadMsb (buf : Buffer) (pos bytes : Nat) : UInt32 :=
  UInt32.ofNat (ofMsb (slice buf pos bytes))

def ascii (text : String) : List UInt8 := text.toList.map fun c => UInt8.ofNat c.toNat

/-- Characters before the terminating zero. -/
def cString (bytes : List UInt8) : List UInt8 := bytes.takeWhile (· ≠ 0)

/-- An unsigned 32-bit number taken for an `int`. -/
def toInt (x : UInt32) : Int := if x.toNat < 2 ^ 31 then x.toNat else x.toNat - 2 ^ 32

section Crc

def crcTurn (data : Buffer) (count acc : UInt32) (i : Nat) : UInt32 :=
  let top := acc &&& 0x80000000
  let acc := acc <<< 1
  let acc := if i < count.toNat * 8 then
    acc ||| ((data (i / 8)).toUInt32 >>> UInt32.ofNat (i % 8) &&& 1) else acc
  if top ≠ 0 then acc ^^^ 0x04c11db7 else acc

def mirror (acc : UInt32) : UInt32 :=
  (List.range 32).foldl (fun result i =>
    if acc &&& (1 <<< UInt32.ofNat i) ≠ 0 then result ||| (1 <<< UInt32.ofNat (31 - i))
    else result) 0

/-- A negative count yields neither bits nor flushing. -/
def isoCrc32Gpt (data : Buffer) (count : Int) : UInt32 :=
  let acc := (List.range (count * 8 + 32).toNat).foldl
    (crcTurn data (UInt32.ofNat count.toNat)) 0x46af6449
  mirror acc ^^^ 0xffffffff

end Crc

section Gpt

def isoSeemsUsableGptHead (head : Buffer) : Bool :=
  slice head 0 8 = ascii "EFI PART" && slice head 8 4 = [0, 0, 1, 0] &&
    92 ≤ (isoReadLsb head 12).toNat && isoReadLsb head 84 = 128

/-- The CRC matches the head, or all 512 bytes of its block. -/
def headCrcOk (head : Buffer) : Bool :=
  let crcBuf := copyInto head 16 4 fun _ => 0
  isoReadLsb head 16 = isoCrc32Gpt crcBuf 92 || isoReadLsb head 16 = isoCrc32Gpt crcBuf 512

/-- What is learned from the head. -/
structure GptInfo where
  partStart : UInt64
  maxEntries : UInt32
  diskGuid : List UInt8
  backupLba : UInt64
  firstLba : UInt64
  lastLba : UInt64
  headCrcFound : UInt32
  headCrcShould : UInt32
  arrayCrcFound : UInt32
  arrayCrcShould : UInt32

/-- Blocks get read to the buffer one after the other. -/
def readArray (src : DataSource) (isoBlock : UInt32) :
    Nat → Buffer → Option Buffer × List Access
  | 0, buf => (some buf, [])
  | n + 1, buf =>
    match readArray src isoBlock n buf with
    | (none, accesses) => (none, accesses)
    | (some buf, accesses) =>
      let (ret, data) := src (isoBlock + UInt32.ofNat n)
      let accesses := accesses ++ [⟨.backupBuffer, n * 2048, 2048⟩]
      if ret < 0 then (none, accesses)
      else (some (copyInto buf (n * 2048) 2048 data), accesses)

/-- The accesses by the comparison of entries, and whether all of them are equal. -/
def compareEntries (buf sad : Buffer) (bPart mPart : Nat) : Nat → Bool × List Access
  | 0 => (true, [])
  | n + 1 =>
    let (same, accesses) := compareEntries buf sad bPart mPart n
    (same && slice buf (bPart + 128 * n) 128 = slice sad (mPart + 128 * n) 128,
      accesses ++ [⟨.backupBuffer, bPart + 128 * n, 128⟩, ⟨.systemArea, mPart + 128 * n, 128⟩])

/-- `tables` tells the announced range of a table which got accepted. -/
structure Outcome where
  ret : Int
  accesses : List Access
  tables : List Access

/-- The part which reads the backup array and compares it with the main one. -/
def analyzeBackupArray (sad : Buffer) (src : DataSource) (info : GptInfo) (buf : Buffer)
    (arrayStart : UInt64) (entryCount : UInt32) : Outcome :=
  let isoBlock : UInt32 := (arrayStart / 4).toUInt32
  let numIsoBlocks := toInt
    ((arrayStart + ((entryCount + 3) / 4).toUInt64) / 4 - isoBlock.toUInt64 + 1).toUInt32
  match readArray src isoBlock numIsoBlocks.toNat buf with
  | (none, reads) => ⟨0, reads, []⟩
  | (some buf, reads) =>
    let partArray := (arrayStart % 4).toNat * 512
    let crcRange : Access := ⟨.backupBuffer, partArray, (toInt (128 * entryCount)).toNat⟩
    let (same, compared) := compareEntries buf sad partArray
      (info.partStart * 512).toNat (toInt entryCount).toNat
    ⟨if same then 1 else 0, reads ++ crcRange :: compared,
      if same then [⟨.backupBuffer, partArray, 128 * entryCount.toNat⟩] else []⟩

def isoAnalyzeGptBackup (sad : Buffer) (src : DataSource) (info : GptInfo) : Outcome :=
  let isoBlock : UInt32 := (info.backupLba / 4).toUInt32
  let (ret, data) := src isoBlock
  let read : Access := ⟨.backupBuffer, 0, 2048⟩
  if ret < 0 then ⟨0, [read], []⟩
  else
    let buf := copyInto (fun _ => 0) 0 2048 data
    let headPos := (info.backupLba % 4).toNat * 512
    let head : Buffer := fun i => buf (headPos + i)
    let accesses := [read, ⟨.backupBuffer, headPos, 512⟩]
    if !isoSeemsUsableGptHead head then ⟨0, accesses, []⟩
    else if !headCrcOk head then ⟨0, accesses, []⟩
    else if isoReadLsb head 80 ≠ info.maxEntries then ⟨0, accesses, []⟩
    else
      let array := analyzeBackupArray sad src info (copyInto buf (headPos + 16) 4 fun _ => 0)
        (isoReadLsb64 head 72) (isoReadLsb head 80)
      { array with accesses := accesses ++ array.accesses }

def gptInfo (sad : Buffer) : GptInfo :=
  let head : Buffer := fun i => sad (512 + i)
  let partStart := isoReadLsb64 head 72
  let maxEntries := isoReadLsb head 80
  { partStart
    maxEntries
    diskGuid := slice head 56 16
    backupLba := isoReadLsb64 head 32
    firstLba := isoReadLsb64 head 40
    lastLba := isoReadLsb64 head 48
    headCrcFound := isoReadLsb head 16
    headCrcShould := isoCrc32Gpt (copyInto head 16 4 fun _ => 0) 92
    arrayCrcFound := isoReadLsb head 88
    arrayCrcShould := isoCrc32Gpt (fun i => sad ((partStart * 512).toNat + i))
      (toInt (maxEntries * 128)) }

/-- The announced entries seem to end within the 64 blocks of the System Area. -/
def rangeOk (partStart : UInt64) (maxEntries : UInt32) : Bool :=
  partStart + ((maxEntries + 3) / 4).toUInt64 ≤ 64

def isoAnalyzeGptHead (sad : Buffer) (src : DataSource) : Outcome :=
  let head : Buffer := fun i => sad (512 + i)
  let headRange : Access := ⟨.systemArea, 512, 512⟩
  if !isoSeemsUsableGptHead head then ⟨0, [headRange], []⟩
  else if !headCrcOk head then ⟨0, [headRange], []⟩
  else
    let info := gptInfo sad
    if !rangeOk info.partStart info.maxEntries then ⟨0, [headRange], []⟩
    else
      let crcRange : Access := ⟨.systemArea, (info.partStart * 512).toNat,
        (toInt (info.maxEntries * 128)).toNat⟩
      let backup := isoAnalyzeGptBackup sad src info
      ⟨if backup.ret < 0 then backup.ret else 1, [headRange, crcRange] ++ backup.accesses,
        ⟨.systemArea, info.partStart.toNat * 512, 128 * info.maxEntries.toNat⟩ :: backup.tables⟩

structure GptRequest where
  startBlock : UInt64
  blockCount : UInt64
  flags : UInt64
  typeGuid : List UInt8
  partitionGuid : List UInt8
  name : List UInt8
  idx : Nat

def isoGptEntriesMax : Nat := 248

def isoBootTooManyGpt : Int := 0xE830FE7F - 2 ^ 32

/-- The loop over the entries from `i` on. -/
def gptEntries (sad : Buffer) (partStart : UInt64) : Nat → Nat → List GptRequest →
    Int × List GptRequest × List Access
  | 0, _, reqs => (1, reqs, [])
  | n + 1, i, reqs =>
    let part := (partStart * 512).toNat + 128 * i
    let access : Access := ⟨.systemArea, part, 128⟩
    let startBlock := isoReadLsb64 sad (part + 32)
    let blockCount := isoReadLsb64 sad (part + 40)
    if slice sad part 128 = List.replicate 128 0 ||
        (startBlock = 0 && blockCount = 0) || blockCount + 1 < startBlock then
      let (ret, reqs, accesses) := gptEntries sad partStart n (i + 1) reqs
      (ret, reqs, access :: accesses)
    else if isoGptEntriesMax ≤ reqs.length then (isoBootTooManyGpt, reqs, [access])
    else
      let (ret, reqs, accesses) := gptEntries sad partStart n (i + 1) (reqs ++
        [⟨startBlock, blockCount + 1 - startBlock, isoReadLsb64 sad (part + 48),
          slice sad part 16, slice sad (part + 16) 16, slice sad (part + 56) 72, i + 1⟩])
      (ret, reqs, access :: accesses)

def isoAnalyzeGpt (sad : Buffer) (src : DataSource) : Outcome :=
  let head := isoAnalyzeGptHead sad src
  if head.ret ≤ 0 then head
  else
    let info := gptInfo sad
    let (ret, _, accesses) := gptEntries sad info.partStart (toInt info.maxEntries).toNat 0 []
    ⟨ret, head.accesses ++ accesses, head.tables⟩

end Gpt

section Apm

/-- The block size. -/
def isoAnalyzeApmHead (sad : Buffer) : Option Nat :=
  if slice sad 0 2 ≠ ascii "ER" then none
  else
    let blockSize := (isoReadMsb sad 2 2).toNat
    if blockSize ≠ 2048 && blockSize ≠ 512 then none else some blockSize

structure ApmRequest where
  startBlock : UInt32
  blockCount : UInt32
  name : List UInt8
  type : List UInt8

/-- `gapFree` is for bit 1 of the flags: do not fill gaps. -/
structure ApmState where
  reqs : List ApmRequest
  gapCount : Nat
  gapFree : Bool

def isoApmEntriesMax : Nat := 63

def isoBootTooManyApm : Int := 0xE830FE81 - 2 ^ 32

def isDigit (c : UInt8) : Bool := 48 ≤ c && c ≤ 57

/-- The name of a filler for a gap. -/
def isGap (name type : List UInt8) : Bool :=
  name.take 3 = ascii "Gap" && cString type = ascii "ISO9660_data" && isDigit (name.getD 3 0) &&
    (name.getD 4 0 = 0 || (isDigit (name.getD 4 0) && name.getD 5 0 = 0))

/-- The loop over the map entries from `i` on. -/
def apmEntries (sad : Buffer) (blockSize : Nat) : Nat → Nat → ApmState →
    Int × ApmState × List Access
  | 0, _, st => (1, st, [])
  | n + 1, i, st =>
    let part := (i + 1) * blockSize
    let signature : Access := ⟨.systemArea, part, 2⟩
    if slice sad part 2 ≠ ascii "PM" then (1, st, [signature])
    else
      let access : Access := ⟨.systemArea, part, 92⟩
      let type := slice sad (part + 48) 32
      if isoReadMsb sad (part + 88) 4 &&& 3 = 0 || cString type = ascii "Apple_partition_map" then
        let (ret, st, accesses) := apmEntries sad blockSize n (i + 1) st
        (ret, st, signature :: access :: accesses)
      else if isoApmEntriesMax ≤ st.reqs.length then (isoBootTooManyApm, st, [signature, access])
      else
        let name := slice sad (part + 16) 32
        let reqs := st.reqs ++
          [⟨isoReadMsb sad (part + 8) 4, isoReadMsb sad (part + 12) 4, cString name, cString type⟩]
        let st := if isGap name type then ⟨reqs, st.gapCount + 1, false⟩ else { st with reqs }
        let (ret, st, accesses) := apmEntries sad blockSize n (i + 1) st
        (ret, st, signature :: access :: accesses)

def isoAnalyzeApm (sad : Buffer) : Outcome :=
  let headRange : Access := ⟨.systemArea, 0, 4⟩
  match isoAnalyzeApmHead sad with
  | none => ⟨0, [headRange], []⟩
  | some blockSize =>
    let mapEntries := isoReadMsb sad (blockSize + 4) 4
    let (ret, _, accesses) :=
      apmEntries sad blockSize (toInt mapEntries).toNat 0 ⟨[], 0, true⟩
    ⟨ret, headRange :: ⟨.systemArea, blockSize + 4, 4⟩ :: accesses,
      if ret = 1 then [⟨.systemArea, blockSize, mapEntries.toNat * blockSize⟩] else []⟩

end Apm

end SystemAreaTables
