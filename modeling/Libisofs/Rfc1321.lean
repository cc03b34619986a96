import Libisofs.Lib.BlockFold
import Libisofs.Lib.Bytes

/-!
# The MD5 message digest of RFC 1321

The message gets padded to a multiple of 64 bytes. Each block of 64 bytes is taken for 16 words
of 32 bits, by which four registers get transformed in 64 steps.
-/

namespace Rfc1321

open BlockFold ByteBuffers

structure Registers where
  a : BitVec 32
  b : BitVec 32
  c : BitVec 32
  d : BitVec 32

/-- The auxiliary functions F, G, H, I of the four rounds. -/
def auxiliary (round : Nat) (x y z : BitVec 32) : BitVec 32 :=
  match round with
  | 0 => (x &&& y) ||| (~~~x &&& z)
  | 1 => (x &&& z) ||| (y &&& ~~~z)
  | 2 => x ^^^ y ^^^ z
  | _ => y ^^^ (x ||| ~~~z)

/-- The integer parts of 4294967296 times abs(sin(i)), with i from 1 on. -/
def sineTable : List (BitVec 32) :=
  [0xd76aa478, 0xe8c7b756, 0x242070db, 0xc1bdceee, 0xf57c0faf, 0x4787c62a,
   0xa8304613, 0xfd469501, 0x698098d8, 0x8b44f7af, 0xffff5bb1, 0x895cd7be,
   0x6b901122, 0xfd987193, 0xa679438e, 0x49b40821, 0xf61e2562, 0xc040b340,
   0x265e5a51, 0xe9b6c7aa, 0xd62f105d, 0x2441453, 0xd8a1e681, 0xe7d3fbc8,
   0x21e1cde6, 0xc33707d6, 0xf4d50d87, 0x455a14ed, 0xa9e3e905, 0xfcefa3f8,
   0x676f02d9, 0x8d2a4c8a, 0xfffa3942, 0x8771f681, 0x6d9d6122, 0xfde5380c,
   0xa4beea44, 0x4bdecfa9, 0xf6bb4b60, 0xbebfbc70, 0x289b7ec6, 0xeaa127fa,
   0xd4ef3085, 0x4881d05, 0xd9d4d039, 0xe6db99e5, 0x1fa27cf8, 0xc4ac5665,
   0xf4292244, 0x432aff97, 0xab9423a7, 0xfc93a039, 0x655b59c3, 0x8f0ccc92,
   0xffeff47d, 0x85845dd1, 0x6fa87e4f, 0xfe2ce6e0, 0xa3014314, 0x4e0811a1,
   0xf7537e82, 0xbd3af235, 0x2ad7d2bb, 0xeb86d391]

/-- The word which is used in a step. -/
def wordIndex (i : Nat) : Nat :=
  match i / 16 with
  | 0 => i
  | 1 => (1 + 5 * i) % 16
  | 2 => (5 + 3 * i) % 16
  | _ => 7 * i % 16

def shiftAmount (i : Nat) : Nat :=
  match i / 16 with
  | 0 => [7, 12, 17, 22].getD (i % 4) 0
  | 1 => [5, 9, 14, 20].getD (i % 4) 0
  | 2 => [4, 11, 16, 23].getD (i % 4) 0
  | _ => [6, 10, 15, 21].getD (i % 4) 0

/-- The new value of the register which gets changed by a step. -/
def operation (words : Nat → BitVec 32) (i : Nat) (a b c d : BitVec 32) : BitVec 32 :=
  b + (a + auxiliary (i / 16) b c d + words (wordIndex i) + sineTable.getD i 0).rotateLeft
    (shiftAmount i)

/-- The registers change their roles with each step. -/
def step (words : Nat → BitVec 32) (r : Registers) (i : Nat) : Registers :=
  ⟨r.d, operation words i r.a r.b r.c r.d, r.b, r.c⟩

/-- The words of a block, least significant byte first. -/
def blockWords (block : List UInt8) (k : Nat) : BitVec 32 :=
  BitVec.ofNat 32 (ofLsb ((block.drop (4 * k)).take 4))

def transform (r : Registers) (block : List UInt8) : Registers :=
  let new := (List.range 64).foldl (step (blockWords block)) r
  ⟨r.a + new.a, r.b + new.b, r.c + new.c, r.d + new.d⟩

def initialRegisters : Registers := ⟨0x67452301, 0xefcdab89, 0x98badcfe, 0x10325476⟩

/-- A single 1-bit, and 0-bits until the length is 56 modulo 64. -/
def paddingBytes (length : Nat) : List UInt8 :=
  0x80 :: List.replicate ((119 - length % 64) % 64) 0

/-- The padded message with the number of its bits as 8 bytes. -/
def pad (message : List UInt8) : List UInt8 :=
  message ++ paddingBytes message.length ++ toLsb 8 (8 * message.length)

def output (r : Registers) : List UInt8 :=
  toLsb 4 r.a.toNat ++ toLsb 4 r.b.toNat ++ toLsb 4 r.c.toNat ++ toLsb 4 r.d.toNat

def md5 (message : List UInt8) : List UInt8 :=
  output (run transform 64 initialRegisters (pad message))

theorem length_md5 (message : List UInt8) : (md5 message).length = 16 := by
  simp only [md5, output, List.length_append, length_toLsb]

example : md5 [] = [0xd4, 0x1d, 0x8c, 0xd9, 0x8f, 0x00, 0xb2, 0x04, 0xe9, 0x80, 0x09, 0x98, 0xec,
    0xf8, 0x42, 0x7e] := by
  decide +kernel

end Rfc1321
