import Libisofs.Lib.Bytes
import Mathlib.Data.PNat.Basic

/-!
# The interval reader

It cuts a byte interval out of the imported ISO filesystem or out of a local file, and
overwrites parts of it by zeros. Each call yields a block of 2048 bytes, of which the last
one may be incomplete. The description string is already parsed.
-/

namespace ReadIntervals

open ByteBuffers

def blockSize : Nat := 2048

/-- `interval` is for a range which the description string tells. The others look for
partition tables. -/
inductive ZType where
  | interval
  | zeroMbrpt
  | zeroGpt
  | zeroApm

/-- As long as no range is known, the end is -1. -/
structure Zeroizer where
  zType : ZType
  zeroStart : Int
  zeroEnd : Int

/-- The return value of `open()`, and what `read_block()` returns and leaves in the buffer. -/
structure IsoDataSource where
  openRet : Int
  readBlock : UInt32 → Buffer → Int × Buffer

/-- The n-th `read()` fails, or it yields at most as many bytes as `reads n` tells. -/
structure LocalFile where
  opens : Bool
  seeks : Bool
  content : Nat → UInt8
  size : Nat
  reads : Nat → Option ℕ+

inductive Source where
  | importedIso (importSrc : Option IsoDataSource)
  | localFs (file : LocalFile)

/-- `filePos` and `readsMade` are the state of the opened local file. `pendingReadPt` is an
index in `readBuf`. -/
structure IntervalReader where
  source : Source
  startByte : Nat
  endByte : Nat
  zeroizers : List Zeroizer
  initialized : Bool
  isBlockAligned : Bool
  curBlock : Nat
  filePos : Nat
  readsMade : Nat
  readBuf : Buffer
  pendingReadPt : Nat
  pendingReadBytes : Nat
  readCount : Nat
  eof : Bool
  srcIsOpen : Bool
  apmBlockSize : Nat
  isInterval : startByte ≤ endByte

/-- Zeroize the intersection of the range with the buffer. -/
def processInterval (readCount bufFill : Nat) (zr : Zeroizer) (buf : Buffer) : Buffer :=
  if zr.zeroStart ≤ zr.zeroEnd then
    let low := max (readCount : Int) zr.zeroStart
    let high := min ((readCount + bufFill : Int) - 1) zr.zeroEnd
    if low ≤ high then
      copyInto buf (low - readCount).toNat (high - low + 1).toNat fun _ => 0
    else buf
  else buf

def hasMbrSignature (readCount bufFill : Nat) (buf : Buffer) : Bool :=
  readCount = 0 && 512 ≤ bufFill && buf 510 = 0x55 && buf 511 = 0xaa

/-- The range of the entries behind a GPT header block. -/
def gptRange (readCount bufFill : Nat) (buf : Buffer) : Option (Int × Int) :=
  if 0 < readCount || bufFill < 512 + 92 then none
  else if slice buf 512 8 ≠ [0x45, 0x46, 0x49, 0x20, 0x50, 0x41, 0x52, 0x54] ||
      slice buf 520 4 ≠ [0, 0, 1, 0] then none
  else if ofLsb (slice buf 524 4) ≠ 92 || ofLsb (slice buf 536 4) ≠ 1 ||
      ofLsb (slice buf 596 4) ≠ 128 then none
  else
    let partStart := ofLsb (slice buf 584 4)
    let entryCount := ofLsb (slice buf 592 4)
    if partStart < 2 || 64 < partStart + (entryCount + 3) / 4 then none
    else some (partStart * 512, (partStart + (entryCount + 3) / 4) * 512 - 1)

/-- The block size of an APM, and where its first entry is in the buffer. -/
def findApm (readCount bufFill apmBlockSize : Nat) (buf : Buffer) : Nat × Option Nat :=
  if readCount = 0 then
    if bufFill < 512 || slice buf 0 2 ≠ [0x45, 0x52] then (apmBlockSize, none)
    else
      let size := ofMsb (slice buf 2 2)
      if (size ≠ 512 && size ≠ 1024 && size ≠ 2048) || bufFill < size then (0, none)
      else (size, if 2 * size ≤ bufFill then some size else none)
  else if readCount = 2048 && apmBlockSize = 2048 && bufFill = 2048 then (apmBlockSize, some 0)
  else (apmBlockSize, none)

/-- The range which is taken for the one of the map entries. -/
def apmRange (apmBlockSize apmOffset : Nat) (buf : Buffer) : Option (Int × Int) :=
  if slice buf apmOffset 2 ≠ [0x50, 0x4d] || ofMsb (slice buf (apmOffset + 8) 4) ≠ 1 then none
  else
    let mapEntries := ofMsb (slice buf (apmOffset + 4) 4)
    if 16 * 2048 < (1 + mapEntries) * apmBlockSize then none
    else some (apmBlockSize, (1 + mapEntries) * apmBlockSize)

structure ZeroizeState where
  buf : Buffer
  apmBlockSize : Nat

/-- The turn of the loop for one zeroizer. -/
def zeroizeTurn (readCount bufFill : Nat) (zr : Zeroizer) (st : ZeroizeState) :
    Zeroizer × ZeroizeState :=
  match zr.zType with
  | .interval => (zr, { st with buf := processInterval readCount bufFill zr st.buf })
  | .zeroMbrpt =>
    if hasMbrSignature readCount bufFill st.buf then
      (zr, { st with
        buf := processInterval readCount bufFill zr (copyInto st.buf 446 64 fun _ => 0) })
    else (zr, st)
  | .zeroGpt =>
    if zr.zeroStart ≤ zr.zeroEnd then
      (zr, { st with buf := processInterval readCount bufFill zr st.buf })
    else match gptRange readCount bufFill st.buf with
      | none => (zr, st)
      | some (zeroStart, zeroEnd) =>
        let zr := { zr with zeroStart, zeroEnd }
        (zr, { st with
          buf := processInterval readCount bufFill zr (copyInto st.buf 512 92 fun _ => 0) })
  | .zeroApm =>
    if zr.zeroStart ≤ zr.zeroEnd then
      (zr, { st with buf := processInterval readCount bufFill zr st.buf })
    else
      let (apmBlockSize, apmOffset) := findApm readCount bufFill st.apmBlockSize st.buf
      match apmOffset.bind fun off => apmRange apmBlockSize off st.buf with
      | none => (zr, { st with apmBlockSize })
      | some (zeroStart, zeroEnd) =>
        let zr := { zr with zeroStart, zeroEnd }
        (zr, ⟨processInterval readCount bufFill zr st.buf, apmBlockSize⟩)

def isoIvrZeroize (readCount bufFill : Nat) : List Zeroizer → ZeroizeState →
    List Zeroizer × ZeroizeState
  | [], st => ([], st)
  | zr :: rest, st =>
    let (zr, st) := zeroizeTurn readCount bufFill zr st
    let (rest, st) := isoIvrZeroize readCount bufFill rest st
    (zr :: rest, st)

/-- The number of bytes which the n-th `read()` yields. -/
def LocalFile.answer (file : LocalFile) (readNo pos count : Nat) : Option Nat :=
  (file.reads readNo).map fun most => min (min count (file.size - pos)) most

structure ReadLoop where
  buf : Buffer
  filePos : Nat
  readsMade : Nat
  readDone : Nat
  eof : Bool

/-- The loop of `read()` calls. Each one reads to the start of the buffer. -/
def readLoop (file : LocalFile) (toRead : Nat) (buf : Buffer) (filePos readsMade readDone : Nat) :
    ReadLoop :=
  if readDone < toRead then
    match file.answer readsMade filePos (toRead - readDone) with
    | none => ⟨buf, filePos, readsMade + 1, readDone, true⟩
    | some 0 => ⟨buf, filePos, readsMade + 1, readDone, true⟩
    | some (ret + 1) =>
      readLoop file toRead (copyInto buf 0 (ret + 1) fun i => file.content (filePos + i))
        (filePos + (ret + 1)) (readsMade + 1) (readDone + (ret + 1))
  else ⟨buf, filePos, readsMade, readDone, false⟩
termination_by toRead - readDone

/-- What `iso_interval_reader_read()` returns, and what it leaves behind. -/
structure ReadOutcome where
  ret : Int
  ivr : IntervalReader
  buf : Buffer
  bufFill : Nat

def isoBadPartitionFile : Int := 0xE830FE8E - 2 ^ 32

def isoErrorGetSeverity (e : Int) : Nat := (e % 2 ^ 32).toNat &&& 0x7F000000

def atEof (ivr : IntervalReader) (buf : Buffer) : ReadOutcome :=
  ⟨0, ivr, copyInto buf 0 blockSize fun _ => 0, 0⟩

/-- The next block gets current. With the first call, the source gets opened. -/
def nextBlock (ivr : IntervalReader) (buf : Buffer) : Except ReadOutcome IntervalReader :=
  if ivr.initialized then .ok { ivr with curBlock := ivr.curBlock + 1 }
  else
    let ivr := { ivr with
      curBlock := ivr.startByte / blockSize
      isBlockAligned := ivr.startByte % blockSize = 0 }
    match ivr.source with
    | .importedIso none => .error (atEof ivr buf)
    | .importedIso (some src) =>
      if src.openRet < 0 then .error ⟨src.openRet, { ivr with eof := true }, buf, 0⟩
      else .ok { ivr with srcIsOpen := true, initialized := true }
    | .localFs file =>
      if !file.opens then .error ⟨isoBadPartitionFile, { ivr with eof := true }, buf, 0⟩
      else if ivr.curBlock ≠ 0 && !file.seeks then .error (atEof { ivr with eof := true } buf)
      else .ok { ivr with filePos := ivr.curBlock * blockSize, initialized := true }

structure BlockRead where
  ivr : IntervalReader
  readBuf : Buffer
  readDone : Nat

/-- Read next block, unless the interval ends before it. An error of high severity is told by
its return value. -/
def readNextBlock (ivr : IntervalReader) (readBuf : Buffer) : Except Int BlockRead :=
  if ivr.curBlock * blockSize ≤ ivr.endByte then
    match ivr.source with
    | .importedIso none => .ok ⟨ivr, readBuf, 0⟩
    | .importedIso (some src) =>
      let (ret, readBuf) := src.readBlock (UInt32.ofNat ivr.curBlock) readBuf
      if ret < 0 then
        if isoErrorGetSeverity ret > 0x68000000 then .error ret
        else .ok ⟨{ ivr with eof := true }, readBuf, blockSize⟩
      else .ok ⟨ivr, readBuf, blockSize⟩
    | .localFs file =>
      let toRead := min (ivr.endByte - ivr.startByte + 1 - ivr.readCount) blockSize
      let loop := readLoop file toRead readBuf ivr.filePos ivr.readsMade 0
      .ok ⟨{ ivr with
        filePos := loop.filePos
        readsMade := loop.readsMade
        eof := ivr.eof || loop.eof }, loop.buf, loop.readDone⟩
  else .ok ⟨ivr, readBuf, 0⟩

/-- The end of the interval, the fill bytes, and the zeroizers. -/
def finishRead (ivr : IntervalReader) (buf : Buffer) (bufFill : Nat) : ReadOutcome :=
  let size := ivr.endByte - ivr.startByte + 1
  let ending : Bool := size < ivr.readCount + bufFill
  let bufFill := if ending then size - ivr.readCount else bufFill
  let buf := if bufFill < blockSize then copyInto buf bufFill (blockSize - bufFill) fun _ => 0
    else buf
  let (zeroizers, st) :=
    isoIvrZeroize ivr.readCount bufFill ivr.zeroizers ⟨buf, ivr.apmBlockSize⟩
  ⟨1, { ivr with
    eof := ivr.eof || ending
    zeroizers
    apmBlockSize := st.apmBlockSize
    readCount := ivr.readCount + bufFill }, st.buf, bufFill⟩

structure Pending where
  ivr : IntervalReader
  buf : Buffer
  bufFill : Nat

/-- Copy pending bytes from the previous read. -/
def takePending (ivr : IntervalReader) (buf : Buffer) (bufFill : Nat) : Pending :=
  if 0 < ivr.pendingReadBytes then
    ⟨{ ivr with pendingReadBytes := 0 },
      copyInto buf 0 ivr.pendingReadBytes fun i => ivr.readBuf (ivr.pendingReadPt + i),
      ivr.pendingReadBytes⟩
  else ⟨ivr, buf, bufFill⟩

/-- Pending bytes and those of the next block. -/
def processPending (ivr : IntervalReader) (buf : Buffer) (bufFill : Nat) : ReadOutcome :=
  let pending := takePending ivr buf bufFill
  match readNextBlock pending.ivr pending.ivr.readBuf with
  | .error ret => ⟨ret, pending.ivr, pending.buf, pending.bufFill⟩
  | .ok block =>
    if 0 < block.readDone then
      let toCopy := min block.readDone (blockSize - pending.bufFill)
      finishRead { block.ivr with
        readBuf := block.readBuf
        pendingReadPt := toCopy
        pendingReadBytes := block.readDone - toCopy }
        (copyInto pending.buf pending.bufFill toCopy block.readBuf) (pending.bufFill + toCopy)
    else finishRead { block.ivr with readBuf := block.readBuf } pending.buf pending.bufFill

/-- The first block gets read before the jump back to the processing of pending bytes. -/
def beginUnaligned (ivr : IntervalReader) (buf : Buffer) : ReadOutcome :=
  let pending := takePending ivr buf 0
  match readNextBlock pending.ivr pending.ivr.readBuf with
  | .error ret => ⟨ret, pending.ivr, pending.buf, pending.bufFill⟩
  | .ok block =>
    processPending { block.ivr with
      readBuf := block.readBuf
      pendingReadPt := ivr.startByte - ivr.curBlock * blockSize
      pendingReadBytes := (ivr.curBlock + 1) * blockSize - ivr.startByte }
      pending.buf pending.bufFill

def readAligned (ivr : IntervalReader) (buf : Buffer) : ReadOutcome :=
  match readNextBlock ivr buf with
  | .error ret => ⟨ret, ivr, buf, 0⟩
  | .ok block => finishRead block.ivr block.readBuf block.readDone

def isoIntervalReaderRead (ivr : IntervalReader) (buf : Buffer) : ReadOutcome :=
  if ivr.eof then atEof ivr buf
  else match nextBlock ivr buf with
    | .error out => out
    | .ok next =>
      if next.isBlockAligned then readAligned next buf
      else if ivr.initialized then processPending next buf 0
      else beginUnaligned next buf

end ReadIntervals
