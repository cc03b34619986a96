import Libisofs.Lib.Bytes

/-!
# Computing MD5 checksums

A context takes up the bytes of any number of calls and yields the checksum in the end. A
clone of a context may be ended at any time.
-/

namespace Md5

open ByteBuffers

def md5F (x y z : UInt32) : UInt32 := (x &&& y) ||| (~~~x &&& z)

def md5G (x y z : UInt32) : UInt32 := (x &&& z) ||| (y &&& ~~~z)

def md5H (x y z : UInt32) : UInt32 := x ^^^ y ^^^ z

def md5I (x y z : UInt32) : UInt32 := y ^^^ (x ||| ~~~z)

def rotateLeft (x n : UInt32) : UInt32 := (x <<< n) ||| (x >>> (32 - n))

/-- The transformations for rounds 1, 2, 3, and 4. -/
inductive Macro where
  | ff
  | gg
  | hh
  | ii
  deriving DecidableEq

def Macro.function : Macro → UInt32 → UInt32 → UInt32 → UInt32
  | .ff => md5F
  | .gg => md5G
  | .hh => md5H
  | .ii => md5I

/-- The new value of the first argument. -/
def Macro.apply (m : Macro) (a b c d x s ac : UInt32) : UInt32 :=
  rotateLeft (a + (m.function b c d + x + ac)) s + b

/-- The order in which the four variables are the arguments. -/
inductive Order where
  | abcd
  | dabc
  | cdab
  | bcda
  deriving DecidableEq

/-- A line of the transformation. `word` is the index in `x`. -/
structure Line where
  mac : Macro
  order : Order
  word : Nat
  s : UInt32
  ac : UInt32
  deriving DecidableEq

structure Words where
  a : UInt32
  b : UInt32
  c : UInt32
  d : UInt32

def runLine (x : Nat → UInt32) (w : Words) (line : Line) : Words :=
  match line.order with
  | .abcd => { w with a := line.mac.apply w.a w.b w.c w.d (x line.word) line.s line.ac }
  | .dabc => { w with d := line.mac.apply w.d w.a w.b w.c (x line.word) line.s line.ac }
  | .cdab => { w with c := line.mac.apply w.c w.d w.a w.b (x line.word) line.s line.ac }
  | .bcda => { w with b := line.mac.apply w.b w.c w.d w.a (x line.word) line.s line.ac }

def lines : List Line :=
  [⟨.ff, .abcd, 0, 7, 0xd76aa478⟩, ⟨.ff, .dabc, 1, 12, 0xe8c7b756⟩,
   ⟨.ff, .cdab, 2, 17, 0x242070db⟩, ⟨.ff, .bcda, 3, 22, 0xc1bdceee⟩,
   ⟨.ff, .abcd, 4, 7, 0xf57c0faf⟩, ⟨.ff, .dabc, 5, 12, 0x4787c62a⟩,
   ⟨.ff, .cdab, 6, 17, 0xa8304613⟩, ⟨.ff, .bcda, 7, 22, 0xfd469501⟩,
   ⟨.ff, .abcd, 8, 7, 0x698098d8⟩, ⟨.ff, .dabc, 9, 12, 0x8b44f7af⟩,
   ⟨.ff, .cdab, 10, 17, 0xffff5bb1⟩, ⟨.ff, .bcda, 11, 22, 0x895cd7be⟩,
   ⟨.ff, .abcd, 12, 7, 0x6b901122⟩, ⟨.ff, .dabc, 13, 12, 0xfd987193⟩,
   ⟨.ff, .cdab, 14, 17, 0xa679438e⟩, ⟨.ff, .bcda, 15, 22, 0x49b40821⟩,
   ⟨.gg, .abcd, 1, 5, 0xf61e2562⟩, ⟨.gg, .dabc, 6, 9, 0xc040b340⟩,
   ⟨.gg, .cdab, 11, 14, 0x265e5a51⟩, ⟨.gg, .bcda, 0, 20, 0xe9b6c7aa⟩,
   ⟨.gg, .abcd, 5, 5, 0xd62f105d⟩, ⟨.gg, .dabc, 10, 9, 0x2441453⟩,
   ⟨.gg, .cdab, 15, 14, 0xd8a1e681⟩, ⟨.gg, .bcda, 4, 20, 0xe7d3fbc8⟩,
   ⟨.gg, .abcd, 9, 5, 0x21e1cde6⟩, ⟨.gg, .dabc, 14, 9, 0xc33707d6⟩,
   ⟨.gg, .cdab, 3, 14, 0xf4d50d87⟩, ⟨.gg, .bcda, 8, 20, 0x455a14ed⟩,
   ⟨.gg, .abcd, 13, 5, 0xa9e3e905⟩, ⟨.gg, .dabc, 2, 9, 0xfcefa3f8⟩,
   ⟨.gg, .cdab, 7, 14, 0x676f02d9⟩, ⟨.gg, .bcda, 12, 20, 0x8d2a4c8a⟩,
   ⟨.hh, .abcd, 5, 4, 0xfffa3942⟩, ⟨.hh, .dabc, 8, 11, 0x8771f681⟩,
   ⟨.hh, .cdab, 11, 16, 0x6d9d6122⟩, ⟨.hh, .bcda, 14, 23, 0xfde5380c⟩,
   ⟨.hh, .abcd, 1, 4, 0xa4beea44⟩, ⟨.hh, .dabc, 4, 11, 0x4bdecfa9⟩,
   ⟨.hh, .cdab, 7, 16, 0xf6bb4b60⟩, ⟨.hh, .bcda, 10, 23, 0xbebfbc70⟩,
   ⟨.hh, .abcd, 13, 4, 0x289b7ec6⟩, ⟨.hh, .dabc, 0, 11, 0xeaa127fa⟩,
   ⟨.hh, .cdab, 3, 16, 0xd4ef3085⟩, ⟨.hh, .bcda, 6, 23, 0x4881d05⟩,
   ⟨.hh, .abcd, 9, 4, 0xd9d4d039⟩, ⟨.hh, .dabc, 12, 11, 0xe6db99e5⟩,
   ⟨.hh, .cdab, 15, 16, 0x1fa27cf8⟩, ⟨.hh, .bcda, 2, 23, 0xc4ac5665⟩,
   ⟨.ii, .abcd, 0, 6, 0xf4292244⟩, ⟨.ii, .dabc, 7, 10, 0x432aff97⟩,
   ⟨.ii, .cdab, 14, 15, 0xab9423a7⟩, ⟨.ii, .bcda, 5, 21, 0xfc93a039⟩,
   ⟨.ii, .abcd, 12, 6, 0x655b59c3⟩, ⟨.ii, .dabc, 3, 10, 0x8f0ccc92⟩,
   ⟨.ii, .cdab, 10, 15, 0xffeff47d⟩, ⟨.ii, .bcda, 1, 21, 0x85845dd1⟩,
   ⟨.ii, .abcd, 8, 6, 0x6fa87e4f⟩, ⟨.ii, .dabc, 15, 10, 0xfe2ce6e0⟩,
   ⟨.ii, .cdab, 6, 15, 0xa3014314⟩, ⟨.ii, .bcda, 13, 21, 0x4e0811a1⟩,
   ⟨.ii, .abcd, 4, 6, 0xf7537e82⟩, ⟨.ii, .dabc, 11, 10, 0xbd3af235⟩,
   ⟨.ii, .cdab, 2, 15, 0x2ad7d2bb⟩, ⟨.ii, .bcda, 9, 21, 0xeb86d391⟩]

/-- The `i`-th word of a block. -/
def wordOf (block : Buffer) (i : Nat) : UInt32 :=
  (block (4 * i)).toUInt32 ||| ((block (4 * i + 1)).toUInt32 <<< 8) |||
    ((block (4 * i + 2)).toUInt32 <<< 16) ||| ((block (4 * i + 3)).toUInt32 <<< 24)

def md5Transform (state : Words) (block : Buffer) : Words :=
  let new := lines.foldl (runLine (wordOf block)) state
  ⟨state.a + new.a, state.b + new.b, state.c + new.c, state.d + new.d⟩

def encodeWord (input : UInt32) : List UInt8 :=
  [(input &&& 0xff).toUInt8, ((input >>> 8) &&& 0xff).toUInt8, ((input >>> 16) &&& 0xff).toUInt8,
    ((input >>> 24) &&& 0xff).toUInt8]

def md5Encode (input : List UInt32) : List UInt8 := input.flatMap encodeWord

/-- `count0` is the less significant half of the number of bits. -/
structure Md5Ctx where
  state : Words
  count0 : UInt32
  count1 : UInt32
  buffer : Buffer

/-- Memory from `calloc()`, or after zeroizing. -/
def zeroCtx : Md5Ctx := ⟨⟨0, 0, 0, 0⟩, 0, 0, fun _ => 0⟩

def md5Init (ctx : Md5Ctx) : Md5Ctx :=
  { ctx with
    count0 := 0
    count1 := 0
    state := ⟨0x67452301, 0xefcdab89, 0x98badcfe, 0x10325476⟩ }

/-- The loop over the blocks in the data from `i` on. There is no result if `i + 63` does not
fit into an `int`. -/
def transformData (data : Buffer) (datalen i : Nat) (state : Words) : Option (Words × Nat) :=
  if 2 ^ 31 ≤ i + 63 then none
  else if i + 63 < datalen then
    transformData data datalen (i + 64) (md5Transform state fun j => data (i + j))
  else some (state, i)
termination_by datalen - i

def md5Update (ctx : Md5Ctx) (data : Buffer) (datalen : Nat) : Option Md5Ctx :=
  let index := ((ctx.count0 >>> 3) &&& 0x3F).toNat
  let bits := UInt32.ofNat datalen <<< 3
  let count0 := ctx.count0 + bits
  let count1 := if count0 < bits then ctx.count1 + 1 else ctx.count1
  let count1 := count1 + (UInt32.ofNat datalen >>> 29)
  let partlen := 64 - index
  if partlen ≤ datalen then
    let buffer := copyInto ctx.buffer index partlen data
    match transformData data datalen partlen (md5Transform ctx.state buffer) with
    | none => none
    | some (state, i) =>
      some ⟨state, count0, count1, copyInto buffer 0 (datalen - i) fun j => data (i + j)⟩
  else some { ctx with count0, count1, buffer := copyInto ctx.buffer index datalen data }

def padding : Buffer := fun i => if i = 0 then 0x80 else 0

/-- The checksum. The context gets zeroized. -/
def md5Final (ctx : Md5Ctx) : Option (List UInt8 × Md5Ctx) :=
  let bits := md5Encode [ctx.count0, ctx.count1]
  let index := ((ctx.count0 >>> 3) &&& 0x3f).toNat
  let padlen := if index < 56 then 56 - index else 120 - index
  match md5Update ctx padding padlen with
  | none => none
  | some padded =>
    match md5Update padded (fun i => bits.getD i 0) 8 with
    | none => none
    | some done =>
      some (md5Encode [done.state.a, done.state.b, done.state.c, done.state.d], zeroCtx)

/-- The contexts which exist, by their addresses. A new one gets the next address. -/
structure Memory where
  ctxs : Nat → Option Md5Ctx
  next : Nat

def Memory.store (mem : Memory) (addr : Nat) (ctx : Option Md5Ctx) : Memory :=
  { mem with ctxs := fun i => if i = addr then ctx else mem.ctxs i }

def Memory.free (mem : Memory) : Option Nat → Memory
  | none => mem
  | some addr => mem.store addr none

/-- `data` is the address of the old context if `clone` is set. -/
inductive Payload where
  | bytes (data : List UInt8)
  | context (addr : Nat)

structure Md5Flag where
  allocate : Bool
  transfer : Bool
  clone : Bool
  dispose : Bool

structure Md5Outcome where
  ret : Int
  ctx : Option Nat
  mem : Memory
  result : List UInt8

/-- The new context, if one gets allocated. -/
def allocateCtx (mem : Memory) (ctx : Option Nat) (data : Payload) (flag : Md5Flag) :
    Option (Memory × Option Nat) :=
  if flag.allocate then
    let mem := mem.free ctx
    let addr := mem.next
    let mem := { mem.store addr (some (md5Init zeroCtx)) with next := addr + 1 }
    match flag.clone, data with
    | true, .context old => (mem.ctxs old).map fun c => (mem.store addr (some c), some addr)
    | true, .bytes _ => none
    | false, _ => some (mem, some addr)
  else some (mem, ctx)

def updateCtx (ctx : Md5Ctx) : Payload → Option Md5Ctx
  | .bytes [] => some ctx
  | .bytes data => md5Update ctx (fun i => data.getD i 0) data.length
  | .context _ => some ctx

/-- There is no outcome if the memory of a context is accessed which does not exist. -/
def libisofsMd5 (mem : Memory) (ctxIn : Option Nat) (data : Payload) (flag : Md5Flag) :
    Option Md5Outcome :=
  match allocateCtx mem ctxIn data flag with
  | none => none
  | some (mem, none) => some ⟨0, none, mem, []⟩
  | some (mem, some addr) =>
    match (mem.ctxs addr).bind fun ctx => updateCtx ctx data with
    | none => none
    | some ctx =>
      match if flag.transfer then md5Final ctx else some ([], ctx) with
      | none => none
      | some (result, ctx) =>
        let mem := mem.store addr (some ctx)
        if flag.dispose then some ⟨1, none, mem.free (some addr), result⟩
        else some ⟨1, some addr, mem, result⟩

def isoMd5Start (mem : Memory) (ctx : Option Nat) : Option Md5Outcome :=
  libisofsMd5 mem ctx (.bytes []) ⟨true, false, false, false⟩

def isoMd5Compute (mem : Memory) (ctx : Option Nat) (data : List UInt8) : Option Md5Outcome :=
  libisofsMd5 mem ctx (.bytes data) ⟨false, false, false, false⟩

def isoMd5Clone (mem : Memory) (old : Nat) (new : Option Nat) : Option Md5Outcome :=
  libisofsMd5 mem new (.context old) ⟨true, false, true, false⟩

def isoMd5End (mem : Memory) (ctx : Option Nat) : Option Md5Outcome :=
  libisofsMd5 mem ctx (.bytes []) ⟨false, true, false, true⟩

/-- Bytes get submitted, or the checksum so far is taken by help of a clone. -/
inductive Call where
  | compute (data : List UInt8)
  | peek

/-- What a sequence of calls leaves behind. -/
structure Session where
  mem : Memory
  digests : List (List UInt8)

def runCall (addr : Nat) (s : Session) : Call → Option Session
  | .compute data => (isoMd5Compute s.mem (some addr) data).map fun out => { s with mem := out.mem }
  | .peek =>
    (isoMd5Clone s.mem addr none).bind fun new =>
      (isoMd5End new.mem new.ctx).map fun out => ⟨out.mem, s.digests ++ [out.result]⟩

def runCalls (addr : Nat) : Session → List Call → Option Session
  | s, [] => some s
  | s, call :: rest => (runCall addr s call).bind fun s => runCalls addr s rest

/-- From `iso_md5_start()` until `iso_md5_end()`. -/
def checksum (mem : Memory) (calls : List Call) : Option (List UInt8 × Session) :=
  (isoMd5Start mem none).bind fun start =>
    (runCalls mem.next ⟨start.mem, []⟩ calls).bind fun s =>
      (isoMd5End s.mem start.ctx).map fun out => (out.result, { s with mem := out.mem })

end Md5
