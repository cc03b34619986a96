import Libisofs.Lib.PieceOffsets
import Libisofs.ZisofsUncompress

/-!
# Reading from a zisofs compression filter

ziso_stream_compress() of filters/zisofs.c with the size determination run, and with the
discarding of the block pointers which that run has gained. A runtime object has an identity, so
that the use of an object which has been freed can be told.
-/

namespace ZisofsCompress

open ByteBuffers (toLsb)
open FileData (Bytes)
open Halting PieceOffsets
open GzipConvert (ErrorCode isoZlibComprErr)
open ZisofsAccount (BlockSize toOffT toUint64 announcedPointers numBlocks isoZisofsTooLarge
  isoOutOfMem)
open ZisofsUncompress (zisofsMagic zisofs2Magic zeros isoFilterWrongInput isoZisofsTooManyPtr)

def isoFileNotOpened : Int := 0xE830FF7B - 2 ^ 32

section Parameters

/-- The static variables of zisofs.c which iso_zisofs_set_params() may change only while there are
no compression filters. -/
structure Params where
  zisoV2Enabled : Nat
  zisoBlockSizeLog2 : Nat
  zisoV2BlockSizeLog2 : Nat
  zisoBlockNumberTarget : Int
  zisoMaxFileBlocks : Nat
  log2_range : 15 ≤ zisoBlockSizeLog2 ∧ zisoBlockSizeLog2 ≤ 17
  v2_log2_range : 15 ≤ zisoV2BlockSizeLog2 ∧ zisoV2BlockSizeLog2 ≤ 20

def zisoDecideV2Usage (params : Params) (origSize : Nat) : Bool :=
  params.zisoV2Enabled > 1 || (params.zisoV2Enabled == 1 && origSize ≥ 2 ^ 32)

def zisoDecideBsLog2 (params : Params) (origSize : Nat) : Nat :=
  let bsLog2 :=
    if zisoDecideV2Usage params origSize then params.zisoV2BlockSizeLog2
    else params.zisoBlockSizeLog2
  if params.zisoBlockNumberTarget ≤ 0 then bsLog2
  else
    ((List.range' 15 (bsLog2 - 15)).find? fun i =>
      (origSize / 2 ^ i + (if origSize % 2 ^ i = 0 then 0 else 1) + 1 : Nat) ≤
        params.zisoBlockNumberTarget).getD bsLog2

theorem zisoDecideBsLog2_range (params : Params) (origSize : Nat) :
    15 ≤ zisoDecideBsLog2 params origSize ∧ zisoDecideBsLog2 params origSize ≤ 20 := by
  have hv1 := params.log2_range
  have hv2 := params.v2_log2_range
  rw [zisoDecideBsLog2]
  generalize hlog2 : (if zisoDecideV2Usage params origSize = true then params.zisoV2BlockSizeLog2
    else params.zisoBlockSizeLog2) = bsLog2
  have hrange : 15 ≤ bsLog2 ∧ bsLog2 ≤ 20 := by
    split at hlog2 <;> omega
  split
  · exact hrange
  · generalize hfind : List.find? _ _ = found
    cases found with
    | none => exact hrange
    | some i =>
      have hmem := List.mem_of_find?_eq_some hfind
      rw [List.mem_range'_1] at hmem
      rw [Option.getD_some]
      omega

def blockSizeFor (params : Params) (origSize : Nat) : BlockSize :=
  ⟨zisoDecideBsLog2 params origSize, (zisoDecideBsLog2_range params origSize).1,
    (zisoDecideBsLog2_range params origSize).2⟩

/-- compress2() fails or yields at most as many bytes as the offered buffer can take. -/
structure Zlib where
  compress2 : Bytes → (room : Nat) → Option { out : Bytes // out.length ≤ room }
  compressBound : Nat → Nat
  bound_ge : ∀ n, n ≤ compressBound n

/-- What a compression filter works on: each run over the input stream yields the same content.
`origSize` is the size which the input stream told when the filter was created. -/
structure Source where
  params : Params
  zlib : Zlib
  content : Bytes
  origSize : Nat
  origSize_lt : origSize < 2 ^ 63

/-- What a call depends on: ziso_block_pointer_mgt(num, mode), calloc() of a number of bytes,
the current size of the input stream, and failures to read a block of it. -/
structure Surroundings where
  fits : Nat → Nat → Bool
  memory : Nat → Bool
  sizeNow : Int
  readFails : Nat → Option ErrorCode

end Parameters

section State

/-- In the source 0, 1, 2, 3. -/
inductive State where
  | header
  | blockPointers
  | dataBlocks
  | ended
  deriving DecidableEq

/-- `object` is the identity of the runtime object. `blockBuffer` is the filled part of that
buffer. -/
structure ZisofsFilterRuntime where
  object : Nat
  state : State
  zisofsVersion : Nat
  blockSize : BlockSize
  blockPointerFill : Nat
  blockPointerRpos : Nat
  blockBuffer : Bytes
  bufferSize : Nat
  bufferRpos : Nat
  blockCounter : Nat
  inCounter : Nat
  outCounter : Nat
  errorRet : Int

/-- What waits in the block buffer. -/
def ZisofsFilterRuntime.pending (rng : ZisofsFilterRuntime) : Bytes :=
  rng.blockBuffer.drop rng.bufferRpos

/-- The input stream is represented by what is still to be read of it. New runtime objects are
numbered by `nextObject`. -/
structure ZisofsComprStreamData where
  size : Int
  running : Option ZisofsFilterRuntime
  blockPointers : Option (List Nat)
  blockPointersDropped : Bool
  orig : Bytes
  nextObject : Nat

/-- Where a call is: before the four parts of its loop, at its end, or at a number which is too
large for an int. -/
inductive Control where
  | header
  | blockPointers
  | dataBlocks
  | transfer
  | done (ret : Int)
  | overflow
  deriving DecidableEq

/-- `rng` is the runtime object of `data`, `buf` is what has been stored by this call so far. -/
structure Call where
  data : ZisofsComprStreamData
  rng : ZisofsFilterRuntime
  buf : Bytes
  control : Control

def Call.Final (c : Call) : Prop := (∃ ret, c.control = .done ret) ∨ c.control = .overflow

def Call.fail (c : Call) (code : Int) : Call :=
  { c with rng := { c.rng with errorRet := code }, control := .done code }

def Call.stop (c : Call) : Call := { c with control := .done c.buf.length }

def startCall (data : ZisofsComprStreamData) (rng : ZisofsFilterRuntime) : Call :=
  if rng.errorRet < 0 then ⟨data, rng, [], .done rng.errorRet⟩
  else ⟨data, rng, [], .header⟩

end State

section Code

variable (σ : Source) (around : Surroundings)

/-- The compressed form of a block. Zeros are represented by nothing. -/
def compressBlock (zlib : Zlib) (bufferSize : Nat) (block : Bytes) : Option Bytes :=
  if block.all (· = 0) then some [] else (zlib.compress2 block bufferSize).map (·.val)

def fileHeader (params : Params) (origSize : Nat) : Bytes :=
  if zisoDecideV2Usage params origSize then
    zisofs2Magic ++ [0, 6, 1, UInt8.ofNat (zisoDecideBsLog2 params origSize)] ++
      toLsb 8 origSize ++ [0, 0, 0, 0]
  else
    zisofsMagic ++ toLsb 4 origSize ++ [4, UInt8.ofNat (zisoDecideBsLog2 params origSize), 0, 0]

/-- Delivering file header -/
def makeHeader (c : Call) : Call :=
  let numBlocks := toUint64 (announcedPointers around.sizeNow c.rng.blockSize)
  if numBlocks > σ.params.zisoMaxFileBlocks then c.fail isoZisofsTooLarge
  else if !around.fits numBlocks 0 then c.fail isoZisofsTooManyPtr
  else if around.sizeNow ≠ toOffT σ.origSize then c.fail isoFilterWrongInput
  else if !zisoDecideV2Usage σ.params σ.origSize && σ.origSize ≥ 2 ^ 32 then
    c.fail isoZisofsTooLarge
  else
    { c with
      rng := { c.rng with
        zisofsVersion := if zisoDecideV2Usage σ.params σ.origSize then 2 else 1
        blockBuffer := fileHeader σ.params σ.origSize
        bufferRpos := 0 }
      control := .blockPointers }

def stepHeader (c : Call) : Call :=
  if c.rng.state = .header then
    if c.rng.blockBuffer = [] then makeHeader σ around c
    else if c.rng.blockBuffer.length ≤ c.rng.bufferRpos then
      -- header is delivered
      { c with
        rng := { c.rng with blockBuffer := [], bufferRpos := 0, state := .blockPointers }
        control := .blockPointers }
    else { c with control := .blockPointers }
  else { c with control := .blockPointers }

/-- Initialize block pointer writing. On the first pass, create pointer array with all 0s -/
def initBlockPointers (c : Call) : Call :=
  if c.rng.blockPointerFill ≠ 0 ∧ c.data.blockPointers.isSome then c
  else
    let num := numBlocks σ.origSize c.rng.blockSize
    let c := { c with rng := { c.rng with blockPointerRpos := 0 } }
    if 0 < c.rng.blockPointerFill ∧ num ≠ c.rng.blockPointerFill then c.fail isoFilterWrongInput
    else if c.data.blockPointers.isSome then
      { c with rng := { c.rng with blockPointerFill := num } }
    else if !around.fits num 1 then
      { c with rng := { c.rng with blockPointerFill := 0 } }.fail isoZisofsTooManyPtr
    else if !around.memory (num * 8) then
      { c with rng := { c.rng with blockPointerFill := 0 } }.fail isoOutOfMem
    else
      { c with
        rng := { c.rng with blockPointerFill := num }
        data := { c.data with blockPointers := some (List.replicate num 0) } }

/-- The number of bytes of a block pointer. -/
def pointerWidth (zisofsVersion : Nat) : Nat := if zisofsVersion = 1 then 4 else 8

/-- Provide a buffer full of block pointers -/
def fillPointers (pointers : List Nat) (c : Call) : Call :=
  let width := pointerWidth c.rng.zisofsVersion
  let rest := c.rng.blockPointerFill - c.rng.blockPointerRpos
  if 2 ^ 31 ≤ rest * width then { c with control := .overflow }
  else
    let todo := if rest * width > c.rng.bufferSize then c.rng.bufferSize / width else rest
    { c with
      rng := { c.rng with
        blockBuffer := ((pointers.drop c.rng.blockPointerRpos).take todo).flatMap (toLsb width)
        bufferRpos := 0
        blockPointerRpos := c.rng.blockPointerRpos + todo }
      control := .dataBlocks }

/-- The position of the first data block. -/
def firstBlock (zisofsVersion blockPointerFill : Nat) : Nat :=
  if zisofsVersion = 1 then 16 + blockPointerFill * 4 else 24 + blockPointerFill * 8

def deliverBlockPointers (c : Call) : Call :=
  if c.rng.blockBuffer.length ≤ c.rng.bufferRpos then
    let pointers := c.data.blockPointers.getD []
    if c.rng.blockPointerFill ≤ c.rng.blockPointerRpos then
      -- block pointers are delivered
      { c with
        rng := { c.rng with
          blockBuffer := []
          bufferRpos := 0
          blockCounter := 0
          state := .dataBlocks }
        data := { c.data with
          blockPointers :=
            some (pointers.set 0 (firstBlock c.rng.zisofsVersion c.rng.blockPointerFill)) }
        control := .dataBlocks }
    else fillPointers pointers c
  else { c with control := .dataBlocks }

/-- Delivering block pointers -/
def stepBlockPointers (c : Call) : Call :=
  if c.rng.state = .blockPointers then
    let c := initBlockPointers σ around c
    if c.control = .blockPointers then deliverBlockPointers c else c
  else { c with control := .dataBlocks }

/-- The block buffer is filled, or there is nothing to fill it. -/
def toTransfer (c : Call) : Call :=
  if c.rng.state = .ended ∧ c.rng.blockBuffer.length ≤ c.rng.bufferRpos then
    { c with control := .done 0 }
  else { c with control := .transfer }

/-- Check or record check block pointer -/
def checkPointer (out : Bytes) (c : Call) : Call :=
  let pointers := c.data.blockPointers.getD []
  let nextPt := pointers.getD c.rng.blockCounter 0 + out.length
  let c := { c with rng := { c.rng with blockBuffer := out, bufferRpos := 0 } }
  if 0 ≤ c.data.size ∧ (nextPt : Int) > c.data.size then c.fail isoFilterWrongInput
  else
    let next := c.rng.blockCounter + 1
    let c := { c with rng := { c.rng with blockCounter := next } }
    if 0 < pointers.getD next 0 ∧ nextPt ≠ pointers.getD next 0 then c.fail isoFilterWrongInput
    else
      let c :=
        if 0 < pointers.getD next 0 then c
        else
          { c with data := { c.data with blockPointers := some (pointers.set next nextPt) } }
      if out = [] then { c with control := .header } else toTransfer c

/-- Delivering data blocks -/
def nextBlock (c : Call) : Call :=
  match around.readFails c.rng.blockCounter with
  | some code => c.fail code
  | none =>
    let block := c.data.orig.take c.rng.blockSize.value
    if block = [] then
      let c := { c with rng := { c.rng with state := .ended } }
      if c.rng.inCounter ≠ σ.origSize then c.fail isoFilterWrongInput -- Input size shrunk
      else c.stop
    else
      let c := { c with
        data := { c.data with orig := c.data.orig.drop c.rng.blockSize.value }
        rng := { c.rng with inCounter := c.rng.inCounter + block.length } }
      if c.rng.inCounter > σ.origSize then c.fail isoFilterWrongInput -- Input size became larger
      else
        match compressBlock σ.zlib c.rng.bufferSize block with
        | none => c.fail isoZlibComprErr
        | some out => checkPointer out c

def stepDataBlocks (c : Call) : Call :=
  if c.rng.state = .dataBlocks ∧ c.rng.blockBuffer.length ≤ c.rng.bufferRpos then
    nextBlock σ around c
  else toTransfer c

/-- Transfer from rng->block_buffer to buf -/
def stepTransfer (desired : Nat) (c : Call) : Call :=
  let todo := min (desired - c.buf.length) (c.rng.blockBuffer.length - c.rng.bufferRpos)
  let c := { c with
    buf := c.buf ++ c.rng.pending.take todo
    rng := { c.rng with
      bufferRpos := c.rng.bufferRpos + todo
      outCounter := c.rng.outCounter + todo } }
  if desired ≤ c.buf.length then c.stop else { c with control := .header }

def step (desired : Nat) (c : Call) : Call :=
  match c.control with
  | .header => stepHeader σ around c
  | .blockPointers => stepBlockPointers σ around c
  | .dataBlocks => stepDataBlocks σ around c
  | .transfer => stepTransfer desired c
  | .done _ => c
  | .overflow => c

end Code

section Streams

/-- A read size which can be told in an int. -/
abbrev ReadSize := { n : Nat // 0 < n ∧ n < 2 ^ 31 }

/-- As ziso_filter_get_filter() creates it. -/
def zisoFilterGetFilter : ZisofsComprStreamData := ⟨-1, none, none, false, [], 0⟩

/-- ziso_running_new() for a compressor. -/
def zisoRunningNew (σ : Source) (object : Nat) : ZisofsFilterRuntime :=
  let blockSize := blockSizeFor σ.params σ.origSize
  ⟨object, .header, 0, blockSize, 0, 0, [], σ.zlib.compressBound blockSize.value, 0, 0, 0, 0, 0⟩

/-- ziso_stream_open_flag() of a stream which is not open. -/
def zisoStreamOpenFlag (σ : Source) (data : ZisofsComprStreamData) : ZisofsComprStreamData :=
  { data with
    running := some (zisoRunningNew σ data.nextObject)
    orig := σ.content
    nextObject := data.nextObject + 1 }

/-- ziso_discard_bpt(), if its conditions demand to discard. -/
def zisoDiscardBpt (data : ZisofsComprStreamData) : ZisofsComprStreamData :=
  if data.blockPointers.isNone then data
  else { data with blockPointers := none, blockPointersDropped := true }

/-- ziso_stream_close_flag(). -/
def zisoStreamCloseFlag (discard : Bool) (data : ZisofsComprStreamData) : ZisofsComprStreamData :=
  { (if discard then zisoDiscardBpt data else data) with running := none }

def zisoCloneStream (data : ZisofsComprStreamData) : ZisofsComprStreamData :=
  { size := data.size
    running := none
    blockPointers := none
    blockPointersDropped := data.blockPointers.isSome || data.blockPointersDropped
    orig := []
    nextObject := 0 }

/-- The stream after a call, with the runtime object as the call has left it. -/
def Call.finished (c : Call) : ZisofsComprStreamData := { c.data with running := some c.rng }

/-- A call which does not find its block pointers dropped returns a result. -/
def CallReturns (σ : Source) (around : Surroundings) (desired : Nat)
    (data : ZisofsComprStreamData) (ret : Int) (buf : Bytes) (data' : ZisofsComprStreamData) :
    Prop :=
  ∃ rng n c, data.running = some rng ∧ (step σ around desired)^[n] (startCall data rng) = c ∧
    c.control = .done ret ∧ c.buf = buf ∧ c.finished = data'

/-- The read loop of ziso_stream_measure_size() with its byte count and its last result. -/
inductive MeasureLoop (σ : Source) :
    ZisofsComprStreamData → Nat → Int → ZisofsComprStreamData → Prop where
  | last {data data' : ZisofsComprStreamData} {around : Surroundings} {ret : Int} {buf : Bytes} :
      CallReturns σ around (64 * 1024) data ret buf data' → ret ≤ 0 →
      MeasureLoop σ data 0 ret data'
  | more {data data₁ data' : ZisofsComprStreamData} {around : Surroundings} {ret last : Int}
      {buf : Bytes} {count : Nat} :
      CallReturns σ around (64 * 1024) data ret buf data₁ → 0 < ret →
      MeasureLoop σ data₁ count last data' →
      MeasureLoop σ data (ret.toNat + count) last data'

/-- What a call of ziso_stream_compress() yields. Access to an object which has been freed may lead
to anything. -/
inductive ReadResult where
  | returned (ret : Int) (buf : Bytes)
  | freedMemory

/-- ziso_stream_compress(). If block pointers were dropped, then they are regained by an extra
run. This run ends by closing the stream, so the runtime object from the begin of the call gets
freed. -/
inductive ZisoStreamCompress (σ : Source) (around : Surroundings) :
    ZisofsComprStreamData → Nat → ReadResult → ZisofsComprStreamData → Prop where
  | notOpened {data : ZisofsComprStreamData} {desired : Nat} : data.running = none →
      ZisoStreamCompress σ around data desired (.returned isoFileNotOpened []) data
  | direct {data data' : ZisofsComprStreamData} {rng : ZisofsFilterRuntime} {desired : Nat}
      {ret : Int} {buf : Bytes} :
      data.running = some rng → rng.errorRet < 0 ∨ data.blockPointersDropped = false →
      CallReturns σ around desired data ret buf data' →
      ZisoStreamCompress σ around data desired (.returned ret buf) data'
  | regainFails {data data₁ : ZisofsComprStreamData} {rng : ZisofsFilterRuntime}
      {desired count : Nat} {ret : Int} :
      data.running = some rng → ¬ rng.errorRet < 0 → data.blockPointersDropped = true →
      MeasureLoop σ { data with blockPointersDropped := false } count ret data₁ → ret < 0 →
      -- rng->error_ret is going to be set
      ZisoStreamCompress σ around data desired .freedMemory (zisoStreamCloseFlag false data₁)
  | regained {data data₁ data₂ : ZisofsComprStreamData} {rng rng₂ : ZisofsFilterRuntime}
      {desired count : Nat} :
      data.running = some rng → ¬ rng.errorRet < 0 → data.blockPointersDropped = true →
      MeasureLoop σ { data with blockPointersDropped := false } count 0 data₁ →
      data₂ = zisoStreamOpenFlag σ { zisoStreamCloseFlag false data₁ with size := count } →
      data₂.running = some rng₂ → rng.object ≠ rng₂.object →
      -- rng->state is going to be inquired
      ZisoStreamCompress σ around data desired .freedMemory data₂
  | regainedInPlace {data data₁ data₂ data' : ZisofsComprStreamData}
      {rng rng₂ : ZisofsFilterRuntime} {desired count : Nat} {ret : Int} {buf : Bytes} :
      data.running = some rng → ¬ rng.errorRet < 0 → data.blockPointersDropped = true →
      MeasureLoop σ { data with blockPointersDropped := false } count 0 data₁ →
      data₂ = zisoStreamOpenFlag σ { zisoStreamCloseFlag false data₁ with size := count } →
      data₂.running = some rng₂ → rng.object = rng₂.object →
      CallReturns σ around desired data₂ ret buf data' →
      ZisoStreamCompress σ around data desired (.returned ret buf) data'

/-- The life of a stream which ziso_add_filter() has not removed again. The bytes are those which
have been read since the stream was opened, unless it is closed or a read has failed. -/
inductive Life (σ : Source) : ZisofsComprStreamData → Option Bytes → Prop where
  | installed {data : ZisofsComprStreamData} {count : Nat} (discard : Bool) :
      MeasureLoop σ (zisoStreamOpenFlag σ zisoFilterGetFilter) count 0 data →
      count < σ.origSize →
      Life σ { zisoStreamCloseFlag discard data with size := count } none
  | opened {data : ZisofsComprStreamData} {delivered : Option Bytes} :
      Life σ data delivered → data.running = none →
      Life σ (zisoStreamOpenFlag σ data) (some [])
  | read {data data' : ZisofsComprStreamData} {delivered : Option Bytes} {ret : Int} {buf : Bytes}
      {around : Surroundings} {desired : ReadSize} :
      Life σ data delivered →
      ZisoStreamCompress σ around data desired (.returned ret buf) data' →
      Life σ data' (if ret < 0 then none else delivered.map (· ++ buf))
  | closed {data : ZisofsComprStreamData} {delivered : Option Bytes} (discard : Bool) :
      Life σ data delivered → Life σ (zisoStreamCloseFlag discard data) none
  | discarded {data : ZisofsComprStreamData} {delivered : Option Bytes} :
      Life σ data delivered → data.running = none → Life σ (zisoDiscardBpt data) none
  | cloned {data : ZisofsComprStreamData} {delivered : Option Bytes} :
      Life σ data delivered → Life σ (zisoCloneStream data) none

end Streams

end ZisofsCompress
