import Libisofs.Lib.GuardedReads
import Libisofs.GzipConvert
import Libisofs.ZisofsAccount

/-!
# Reading from a zisofs uncompression filter

ziso_stream_uncompress() of filters/zisofs.c with all its accesses to buffers and to the array
of block pointers. The input stream, uncompress() of zlib and calloc() are parameters.
-/

namespace ZisofsUncompress

open ByteBuffers (ofLsb ofLsb_lt)
open FileData (Bytes)
open GuardedReads Halting
open GzipConvert (ErrorCode isoZlibComprErr)
open ZisofsAccount (BlockSize toOffT toUint64 announcedPointers isoZisofsTooLarge isoOutOfMem)

variable {ρ : Type}

abbrev InputStream (ρ : Type) := Source UInt8 ρ ErrorCode

/-- uncompress() fails or yields at most as many bytes as the offered buffer can take. -/
abbrev Uncompress := Bytes → (room : Nat) → Option { out : Bytes // out.length ≤ room }

def isoFilterWrongInput : ErrorCode := ⟨0xE830FEA5 - 2 ^ 32, by decide⟩
def isoZisofsWrongInput : ErrorCode := ⟨0xE830FEA3 - 2 ^ 32, by decide⟩
def isoZisofsTooManyPtr : Int := 0xE830FE59 - 2 ^ 32

section Head

def zisofsMagic : Bytes := [0x37, 0xE4, 0x53, 0x96, 0xC9, 0xDB, 0xD6, 0x07]
def zisofs2Magic : Bytes := [0xEF, 0x22, 0x55, 0xA1, 0xBC, 0x1B, 0x95, 0xA0]

structure ZisofsHead where
  zisoAlgoNum : Nat
  headerSizeDiv4 : Nat
  blockSize : BlockSize
  uncompressedSize : Nat

abbrev HeadReading (ρ : Type) := Reading ρ ErrorCode

/-- Reading of a fixed number of bytes into a buffer. -/
def readFully (input : InputStream ρ) (capacity count : Nat) : HeadReading ρ Bytes := do
  let bytes ← readInto input capacity count
  if bytes.length = count then pure bytes else throw (.failed isoZisofsWrongInput)

/-- Skip surplus header words -/
def skipWords (input : InputStream ρ) : Nat → HeadReading ρ Unit
  | 0 => pure ()
  | n + 1 => do
    let _ ← readFully input 4 4
    skipWords input n

/-- The checked content of a header. -/
def checkedHead (algoNum headerSize log2 maxLog2 size : Nat) : HeadReading ρ ZisofsHead :=
  if h : 4 ≤ headerSize ∧ 15 ≤ log2 ∧ log2 ≤ maxLog2 ∧ maxLog2 ≤ 20 then
    pure ⟨algoNum, headerSize, ⟨log2, h.2.1, h.2.2.1.trans h.2.2.2⟩, size⟩
  else throw (.failed isoZisofsWrongInput)

/-- `bit0` and `bit1` are of parameter `flag`. -/
def zisoParseZisofsHead (input : InputStream ρ) (v2Enabled : Nat) (bit0 bit1 : Bool) :
    HeadReading ρ ZisofsHead := do
  let magic ← readFully input 24 8
  if magic = zisofsMagic then
    let rest ← readFully input (24 - 8) 8
    let zisofsHead := magic ++ rest
    let head ← checkedHead 0 (zisofsHead.getD 12 0).toNat (zisofsHead.getD 13 0).toNat 17
      (ofLsb ((zisofsHead.drop 8).take 4))
    skipWords input (head.headerSizeDiv4 - 16)
    pure head
  else if magic = zisofs2Magic ∧ ¬ (v2Enabled = 0 ∧ bit0) then
    let rest ← readFully input (24 - 8) 16
    let zisofsHead := magic ++ rest
    let head ← checkedHead (zisofsHead.getD 10 0).toNat (zisofsHead.getD 9 0).toNat
      (zisofsHead.getD 11 0).toNat 20 (ofLsb ((zisofsHead.drop 12).take 8))
    if head.zisoAlgoNum ≠ 1 ∧ bit1 then throw (.failed isoZisofsWrongInput)
    else
      skipWords input (head.headerSizeDiv4 - 24)
      pure head
  else throw (.failed isoZisofsWrongInput)

end Head

section Runtime

/-- Before the file header, in the data blocks, at the end. In the source 0, 2, 3. -/
inductive State where
  | header
  | blocks
  | ended
  deriving DecidableEq

/-- `readBuffer` is the size of that buffer. -/
structure ZisofsFilterRuntime where
  state : State
  blockSize : Nat
  blockPointerFill : Int
  blockPointerRpos : Nat
  blockPointers : List Nat
  readBuffer : Nat
  blockBuffer : Bytes
  bufferFill : Int
  bufferRpos : Nat
  inCounter : Nat
  outCounter : Nat
  errorRet : Int

structure ZisofsUncomprStreamData where
  size : Int
  headerSizeDiv4 : Nat
  blockSizeLog2 : Nat

/-- A new runtime object without buffers. -/
def zisoRunningNew : ZisofsFilterRuntime := ⟨.header, 0, 0, 0, [], 0, [], 0, 0, 0, 0, 0⟩

/-- Where a call of ziso_stream_uncompress() is: before the three parts of its loop, at its end,
or beyond the limits of a buffer or array. -/
inductive Control where
  | readHeader
  | deliverBlock
  | transfer
  | done (ret : Int)
  | overrun
  deriving DecidableEq

/-- `buf` is what has been stored by this call so far. -/
structure Call (ρ : Type) where
  data : ZisofsUncomprStreamData
  rng : ZisofsFilterRuntime
  orig : ρ
  buf : Bytes
  control : Control

def Call.Final (c : Call ρ) : Prop := (∃ ret, c.control = .done ret) ∨ c.control = .overrun

/-- What a call depends on: ziso_block_pointer_mgt(num, 1), calloc() of a number of bytes, and
two static variables. -/
structure Surroundings where
  fits : Nat → Bool
  memory : Nat → Bool
  zisoMaxFileBlocks : Nat
  zisoV2Enabled : Nat

/-- The cast to int. -/
def toInt (n : Int) : Int := n.bmod (2 ^ 32)

def Call.fail (c : Call ρ) (code : Int) : Call ρ :=
  { c with rng := { c.rng with errorRet := code }, control := .done code }

/-- The number of stored bytes is returned. -/
def Call.stop (c : Call ρ) : Call ρ := { c with control := .done (toInt c.buf.length) }

def startCall (data : ZisofsUncomprStreamData) (rng : ZisofsFilterRuntime) (orig : ρ) : Call ρ :=
  if rng.errorRet < 0 then ⟨data, rng, orig, [], .done rng.errorRet⟩
  else ⟨data, rng, orig, [], .readHeader⟩

/-- The difference of block pointers as int. -/
def pointerDifference (p q : Nat) : Int := toInt (toUint64 ((q : Int) - p))

/-- The largest difference of neighbors in the list of block pointers. -/
def blockMax : Int → List Nat → Int
  | m, p :: q :: rest =>
    blockMax (if pointerDifference p q > m then pointerDifference p q else m) (q :: rest)
  | m, _ => m

def zeros (n : Nat) : Bytes := List.replicate n 0

/-- Spread 4 byte little-endian pointer values over 8 byte -/
def spread : Nat → Bytes → Option Bytes
  | 0, mem => overwrite mem 4 (zeros 4)
  | k + 1, mem => do
    let mem' ← overwrite mem (8 * (k + 1)) ((mem.drop (4 * (k + 1))).take 4)
    let mem' ← overwrite mem' (8 * (k + 1) + 4) (zeros 4)
    spread k mem'

def pointersOf (fill : Nat) (mem : Bytes) : List Nat :=
  (List.range fill).map fun i => ofLsb ((mem.drop (8 * i)).take 8)

end Runtime

section Code

variable (around : Surroundings) (input : InputStream ρ) (uncompress : Uncompress)

/-- The block pointers are read. Get the buffers for data blocks. -/
def createBuffers (pointers : List Nat) (c : Call ρ) : Call ρ :=
  let max := blockMax 1 pointers
  let c := { c with rng := { c.rng with blockPointers := pointers } }
  if !around.memory max.toNat || !around.memory c.rng.blockSize then c.fail isoOutOfMem
  else
    { c with
      rng := { c.rng with
        readBuffer := max.toNat
        blockBuffer := zeros c.rng.blockSize
        state := .blocks
        bufferFill := 0
        bufferRpos := 0 }
      control := .deliverBlock }

/-- Read pointer array of `fill` elements. -/
def readPointers (algoNum fill : Nat) (c : Call ρ) : Call ρ :=
  let blptSize := if algoNum = 0 then 4 else 8
  match readInto input (fill * 8) (fill * blptSize) c.orig with
  | (.error .overrun, orig) => { c with orig := orig, control := .overrun }
  | (.error (.failed code), orig) => { c with orig := orig }.fail code
  | (.ok bytes, orig) =>
    let c := { c with orig := orig }
    let mem := bytes ++ zeros (fill * 8 - bytes.length)
    match if algoNum = 0 then spread (fill - 1) mem else some mem with
    | none => { c with control := .overrun }
    | some mem =>
      if bytes.length ≠ fill * blptSize then c.fail isoZisofsWrongInput
      else createBuffers around (pointersOf fill mem) c

/-- Create and read pointer array -/
def createPointers (algoNum : Nat) (blockSize : BlockSize) (c : Call ρ) : Call ρ :=
  let fill := announcedPointers c.data.size blockSize
  let c := { c with
    rng := { c.rng with blockPointerRpos := 0, blockPointerFill := fill } }
  if fill > around.zisoMaxFileBlocks then
    { c with rng := { c.rng with blockPointerFill := 0 } }.fail isoZisofsTooLarge
  else if !around.fits (toUint64 fill) then { c with control := .done isoZisofsTooManyPtr }
  else if fill < 0 || !around.memory (fill.toNat * 8) then
    { c with rng := { c.rng with blockPointerFill := 0 } }.fail isoOutOfMem
  else readPointers around input algoNum fill.toNat c

/-- Reading file header -/
def stepReadHeader (desired : Nat) (c : Call ρ) : Call ρ :=
  if c.rng.state ≠ .header then { c with control := .deliverBlock }
  else
    match zisoParseZisofsHead input around.zisoV2Enabled false true c.orig with
    | (.error .overrun, orig) => { c with orig := orig, control := .overrun }
    | (.error (.failed code), orig) => { c with orig := orig }.fail code
    | (.ok head, orig) =>
      let c : Call ρ :=
        { c with
          orig := orig
          data :=
            { size := toOffT head.uncompressedSize
              headerSizeDiv4 := head.headerSizeDiv4
              blockSizeLog2 := head.blockSize.log2 }
          rng := { c.rng with blockSize := head.blockSize.value } }
      if desired = 0 then { c with control := .done 0 }
      else createPointers around input head.zisoAlgoNum head.blockSize c

/-- The block buffer is filled, or there is nothing to fill it. -/
def toTransfer (c : Call ρ) : Call ρ :=
  if c.rng.state = .ended ∧ c.rng.bufferFill ≤ c.rng.bufferRpos then { c with control := .done 0 }
  else { c with control := .transfer }

/-- Uncompression must not yield more bytes than announced by header. -/
def checkAnnounced (c : Call ρ) : Call ρ :=
  let c := { c with rng := { c.rng with bufferRpos := 0 } }
  if (c.rng.outCounter : Int) + c.rng.bufferFill > c.data.size then c.fail isoFilterWrongInput
  else toTransfer c

/-- A block of zeros does not need to be read. -/
def zeroBlock (i : Nat) (c : Call ρ) : Call ρ :=
  match overwrite c.rng.blockBuffer 0 (zeros c.rng.blockSize) with
  | none => { c with control := .overrun }
  | some buffer =>
    let fill : Int :=
      if (c.rng.outCounter + c.rng.blockSize : Nat) > c.data.size ∧
          (i : Int) = c.rng.blockPointerFill - 1 then
        toInt (c.data.size - c.rng.outCounter)
      else c.rng.blockSize
    checkAnnounced { c with rng := { c.rng with blockBuffer := buffer, bufferFill := fill } }

def readBlock (todo : Int) (i : Nat) (c : Call ρ) : Call ρ :=
  match readInto input c.rng.readBuffer (toUint64 todo) c.orig with
  | (.error .overrun, orig) => { c with orig := orig, control := .overrun }
  | (.error (.failed code), orig) => { c with orig := orig }.fail code
  | (.ok [], orig) =>
    let c := { c with orig := orig, rng := { c.rng with state := .ended } }
    if (c.rng.outCounter : Int) ≠ c.data.size then c.fail isoFilterWrongInput -- Input size shrunk
    else c.stop
  | (.ok bytes, orig) =>
    let c := { c with
      orig := orig
      rng := { c.rng with inCounter := c.rng.inCounter + bytes.length } }
    match uncompress bytes c.rng.blockSize with
    | none => c.fail isoZlibComprErr
    | some out =>
      match overwrite c.rng.blockBuffer 0 out.val with
      | none => { c with control := .overrun }
      | some buffer =>
        let c := { c with
          rng := { c.rng with blockBuffer := buffer, bufferFill := out.val.length } }
        if out.val.length < c.rng.blockSize ∧ (i : Int) ≠ c.rng.blockPointerFill - 1 then
          c.fail isoZisofsWrongInput
        else checkAnnounced c

/-- Delivering data blocks -/
def nextBlock (c : Call ρ) : Call ρ :=
  let i := c.rng.blockPointerRpos + 1
  let c := { c with rng := { c.rng with blockPointerRpos := i } }
  if c.rng.blockPointerFill ≤ (i : Int) then
    if (c.rng.outCounter : Int) = c.data.size then
      { c with rng := { c.rng with state := .ended, blockPointerRpos := i - 1 } }.stop
    else c.fail isoFilterWrongInput -- More data blocks needed than announced
  else
    match c.rng.blockPointers[i - 1]?, c.rng.blockPointers[i]? with
    | some p, some q =>
      let todo := pointerDifference p q
      if todo = 0 then zeroBlock i c else readBlock input uncompress todo i c
    | _, _ => { c with control := .overrun }

def stepDeliverBlock (c : Call ρ) : Call ρ :=
  if c.rng.state = .blocks ∧ c.rng.bufferFill ≤ c.rng.bufferRpos then
    nextBlock input uncompress c
  else toTransfer c

/-- The number of bytes to copy, a value of type int. -/
def todo (desired : Nat) (c : Call ρ) : Int :=
  let room := toInt (desired - c.buf.length : Nat)
  if room > c.rng.bufferFill - c.rng.bufferRpos then c.rng.bufferFill - c.rng.bufferRpos else room

/-- Transfer from rng->block_buffer to buf -/
def stepTransfer (desired : Nat) (c : Call ρ) : Call ρ :=
  let n := todo desired c
  if n < 0 ∨ c.rng.blockBuffer.length < c.rng.bufferRpos + n.toNat ∨
      desired < c.buf.length + n.toNat then { c with control := .overrun }
  else
    let c := { c with
      buf := c.buf ++ (c.rng.blockBuffer.drop c.rng.bufferRpos).take n.toNat
      rng := { c.rng with
        bufferRpos := c.rng.bufferRpos + n.toNat
        outCounter := c.rng.outCounter + n.toNat } }
    if desired ≤ c.buf.length then c.stop else { c with control := .readHeader }

def step (desired : Nat) (c : Call ρ) : Call ρ :=
  match c.control with
  | .readHeader => stepReadHeader around input desired c
  | .deliverBlock => stepDeliverBlock input uncompress c
  | .transfer => stepTransfer desired c
  | .done _ => c
  | .overrun => c

end Code

section Conditions

/-- The number of bytes in the block buffer which wait for delivery. -/
def ZisofsFilterRuntime.waiting (rng : ZisofsFilterRuntime) : Int := rng.bufferFill - rng.bufferRpos

/-- The next step takes the block between these two pointers. -/
def TakesBlock (c : Call ρ) (p q : Nat) : Prop :=
  c.control = .deliverBlock ∧ c.rng.state = .blocks ∧ c.rng.bufferFill ≤ c.rng.bufferRpos ∧
    ((c.rng.blockPointerRpos + 1 : Nat) : Int) < c.rng.blockPointerFill ∧
    c.rng.blockPointers[c.rng.blockPointerRpos]? = some p ∧
    c.rng.blockPointers[c.rng.blockPointerRpos + 1]? = some q

/-- The input stream offers more bytes than the read buffer can take. -/
def Floods (input : InputStream ρ) (c : Call ρ) (todo : Int) : Prop :=
  ∃ bytes, (input.read c.orig (toUint64 todo)).1 = .ok bytes ∧ c.rng.readBuffer < bytes.length

/-- Pointers which decrease do not let the input stream flood the read buffer. No block of
zeros shall be put out if the announced size is negative as off_t. -/
def HarmlessBlock (input : InputStream ρ) (c : Call ρ) : Prop :=
  ∀ p q, TakesBlock c p q →
    (pointerDifference p q < 0 → ¬ Floods input c (pointerDifference p q)) ∧
      (pointerDifference p q = 0 → 0 ≤ c.data.size)

/-- The wanted number of bytes is not negative as int. It is 0 only if nothing more is wanted or
nothing is waiting. -/
def HarmlessTransfer (desired : Nat) (c : Call ρ) : Prop :=
  c.control = .transfer →
    0 ≤ toInt (desired - c.buf.length : Nat) ∧
      (toInt (desired - c.buf.length : Nat) = 0 →
        desired ≤ c.buf.length ∨ c.rng.waiting ≤ 0)

/-- A state from which the next step is harmless. -/
def Harmless (input : InputStream ρ) (desired : Nat) (c : Call ρ) : Prop :=
  HarmlessBlock input c ∧ HarmlessTransfer desired c

end Conditions

section Head

variable {input : InputStream ρ}

/-- A header of the first version has a size of 4 bytes. -/
def HeadOk (head : ZisofsHead) : Prop := head.zisoAlgoNum = 0 → head.uncompressedSize < 2 ^ 32

theorem safe_readFully {capacity count : Nat} (enough : count ≤ capacity) :
    Safe (readFully input capacity count) (fun bytes => bytes.length = count) := by
  apply (safe_readInto input enough).bind
  intro bytes _
  exact safe_ite (fun h => safe_pure h) (fun _ => safe_throw _)

theorem safe_skipWords (n : Nat) : Safe (skipWords input n) (fun _ => True) := by
  induction n with
  | zero => exact safe_pure trivial
  | succ n ih => exact (safe_readFully (Nat.le_refl 4)).bind fun _ _ => ih

theorem safe_checkedHead (algoNum headerSize log2 maxLog2 size : Nat) :
    Safe (checkedHead algoNum headerSize log2 maxLog2 size : HeadReading ρ ZisofsHead)
      (fun head => head.zisoAlgoNum = algoNum ∧ head.uncompressedSize = size) := by
  rw [checkedHead]
  split
  · exact safe_pure ⟨rfl, rfl⟩
  · exact safe_throw _

theorem ofLsb_take_lt (bytes : Bytes) (n : Nat) : ofLsb (bytes.take n) < 256 ^ n :=
  (ofLsb_lt _).trans_le (Nat.pow_le_pow_right (by decide) (List.length_take_le n bytes))

/-- No buffer is too small for what is read of a header. -/
theorem safe_zisoParseZisofsHead (input : InputStream ρ) (v2Enabled : Nat) (bit0 : Bool) :
    Safe (zisoParseZisofsHead input v2Enabled bit0 true) HeadOk := by
  apply (safe_readFully (by decide)).bind
  intro magic _
  apply safe_ite
  · intro _
    apply (safe_readFully (by decide)).bind
    intro rest _
    apply (safe_checkedHead _ _ _ _ _).bind
    rintro head ⟨-, hsize⟩
    apply (safe_skipWords _).bind
    intro _ _
    refine safe_pure fun _ => ?_
    rw [hsize]
    exact ofLsb_take_lt _ 4
  · intro _
    apply safe_ite
    · intro _
      apply (safe_readFully (by decide)).bind
      intro rest _
      apply (safe_checkedHead _ _ _ _ _).bind
      rintro head -
      apply safe_ite
      · exact fun _ => safe_throw _
      · intro hone
        apply (safe_skipWords _).bind
        intro _ _
        refine safe_pure fun hzero => absurd ⟨?_, rfl⟩ hone
        rw [hzero]
        decide
    · exact fun _ => safe_throw _

end Head

section PointerArray

/-- Spreading stays within an array of 8 bytes for each pointer. -/
theorem spread_of_le (k : Nat) (mem : Bytes) (enough : 8 * (k + 1) ≤ mem.length) :
    ∃ mem', spread k mem = some mem' ∧ mem'.length = mem.length := by
  induction k generalizing mem with
  | zero => exact overwrite_of_le mem 4 (zeros 4) (by simpa [zeros] using enough)
  | succ k ih =>
    have hword : ((mem.drop (4 * (k + 1))).take 4).length ≤ 4 := List.length_take_le _ _
    obtain ⟨mem₁, hfirst, hlen₁⟩ := overwrite_of_le mem (8 * (k + 1))
      ((mem.drop (4 * (k + 1))).take 4) (by omega)
    obtain ⟨mem₂, hsecond, hlen₂⟩ := overwrite_of_le mem₁ (8 * (k + 1) + 4) (zeros 4)
      (by simp only [zeros, List.length_replicate]; omega)
    obtain ⟨mem', hrest, hlen'⟩ := ih mem₂ (by omega)
    refine ⟨mem', ?_, by omega⟩
    simp only [spread, hfirst, hsecond, Option.bind_eq_bind, Option.bind_some, hrest]

theorem length_pointersOf (fill : Nat) (mem : Bytes) : (pointersOf fill mem).length = fill := by
  rw [pointersOf, List.length_map, List.length_range]

theorem le_blockMax (m : Int) (pointers : List Nat) : m ≤ blockMax m pointers := by
  fun_induction blockMax m pointers with
  | case1 m p q rest ih =>
    refine Int.le_trans ?_ ih
    generalize pointerDifference p q = difference
    split <;> omega
  | case2 => exact Int.le_refl _

/-- The read buffer can take each block the size of which is not negative. -/
theorem pointerDifference_le_blockMax (m : Int) {pointers : List Nat} {i p q : Nat}
    (hp : pointers[i]? = some p) (hq : pointers[i + 1]? = some q) :
    pointerDifference p q ≤ blockMax m pointers := by
  fun_induction blockMax m pointers generalizing i with
  | case1 m p₀ q₀ rest ih =>
    cases i with
    | zero =>
      obtain rfl : p₀ = p := by simpa using hp
      obtain rfl : q₀ = q := by simpa using hq
      refine Int.le_trans ?_ (le_blockMax _ _)
      generalize pointerDifference p₀ q₀ = difference
      split <;> omega
    | succ i => exact ih (by simpa using hp) (by simpa using hq)
  | case2 pointers m hshort =>
    match pointers, hshort with
    | [], _ => simp at hp
    | [_], _ => simp at hq
    | p₀ :: q₀ :: rest, hshort => exact (hshort p₀ q₀ rest rfl).elim

theorem BlockSize.value_pos (blockSize : BlockSize) : 0 < blockSize.value :=
  Nat.two_pow_pos blockSize.log2

theorem BlockSize.value_lt (blockSize : BlockSize) : blockSize.value < 2 ^ 21 :=
  Nat.pow_lt_pow_right (by decide) (Nat.lt_succ_of_le blockSize.log2_le)

/-- With a negative size there are at most two pointers, and then it is larger than the negative
block size. -/
theorem announcedPointers_neg {size : Int} (blockSize : BlockSize) (hneg : size < 0) :
    announcedPointers size blockSize ≤ 2 ∧
      (announcedPointers size blockSize = 2 → -(blockSize.value : Int) < size) := by
  have hpos : (0 : Int) < blockSize.value := by exact_mod_cast BlockSize.value_pos blockSize
  have hdiv : size.tdiv blockSize.value ≤ 0 := by
    have hopposite := Int.tdiv_nonneg (a := -size) (by omega) (Int.le_of_lt hpos)
    rw [Int.neg_tdiv] at hopposite
    omega
  have hsplit := Int.mul_tdiv_add_tmod size blockSize.value
  have hmod := Int.lt_tmod_of_pos size hpos
  rw [announcedPointers]
  split
  · omega
  · refine ⟨by omega, fun htwo => ?_⟩
    have hzero : size.tdiv blockSize.value = 0 := by omega
    rw [hzero, Int.mul_zero, Int.zero_add] at hsplit
    omega

theorem announcedPointers_pos {size : Int} (blockSize : BlockSize) (hsize : 0 ≤ size) :
    0 < announcedPointers size blockSize := by
  have hdiv : 0 ≤ size.tdiv blockSize.value := Int.tdiv_nonneg hsize (Int.natCast_nonneg _)
  rw [announcedPointers]
  split <;> omega

theorem toUint64_of_nonneg {n : Int} (hn : 0 ≤ n) (hless : n < 2 ^ 63) :
    (toUint64 n : Int) = n := by
  obtain ⟨k, rfl⟩ := Int.eq_ofNat_of_zero_le hn
  rw [ZisofsAccount.toUint64_of_lt (by omega)]

theorem toInt_eq {n : Int} (hle : -2 ^ 31 ≤ n) (hless : n < 2 ^ 31) : toInt n = n := by
  rw [toInt, Int.bmod_def]
  omega

/-- The cast to size_t of an int which is not negative. -/
theorem toUint64_toInt {n : Int} (hnonneg : 0 ≤ toInt n) :
    (toUint64 (toInt n) : Int) = toInt n := by
  have hless : toInt n < 2 ^ 63 := by
    rw [toInt, Int.bmod_def]
    omega
  exact toUint64_of_nonneg hnonneg hless

/-- As int, a natural number does not become larger. -/
theorem toInt_le (n : Nat) : toInt n ≤ n := by
  rw [toInt, Int.bmod_def]
  omega

end PointerArray

end ZisofsUncompress
