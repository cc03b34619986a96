import Libisofs.Lib.CyclicRedundancy
import Libisofs.SystemAreaTables

/-!
# The checksum of GPT

iso_crc32_gpt() of system_area.c feeds its register bit by bit and flushes it by 32 zeros. What
GPT demands is the CRC-32 with a reflected register and a table of words for bytes.
-/

namespace GptCrc

open ByteBuffers
open SystemAreaTables (crcTurn mirror isoCrc32Gpt)
open CyclicRedundancy (turn turnReflected bit)

/-- A result of int arithmetic, which rolls over at 32 bit. -/
def toCInt (n : Int) : Int := Int.bmod n (2 ^ 32)

/-- One turn of the loop over the bits of the data and the flushing zeros. -/
def crcLoopTurn (data : Buffer) (count : Int) (acc : UInt32) (i : Nat) : UInt32 :=
  let top := acc &&& 0x80000000
  let acc := acc <<< 1
  let acc := if (i : Int) < toCInt (count * 8) then
    acc ||| ((data (i / 8)).toUInt32 >>> UInt32.ofNat (i % 8) &&& 1) else acc
  if top ≠ 0 then acc ^^^ 0x04c11db7 else acc

/-- iso_crc32_gpt() with its counting in int. -/
def isoCrc32GptInt (data : Buffer) (count : Int) : UInt32 :=
  let acc := (List.range (toCInt (toCInt (count * 8) + 32)).toNat).foldl
    (crcLoopTurn data count) 0x46af6449
  mirror acc ^^^ 0xffffffff

/-! ## The standard -/

/-- The reflected polynomial is divided out of the low end, bit by bit. -/
def crcWord (n : UInt32) : UInt32 := if n &&& 1 ≠ 0 then (n >>> 1) ^^^ 0xedb88320 else n >>> 1

/-- The table of words for bytes. -/
def crcTable (n : UInt8) : UInt32 := crcWord^[8] n.toUInt32

def crcByte (crc : UInt32) (b : UInt8) : UInt32 := crcTable (crc.toUInt8 ^^^ b) ^^^ (crc >>> 8)

/-- The CRC-32 of GPT, Ethernet, and others. -/
def crc32 (data : List UInt8) : UInt32 := data.foldl crcByte 0xffffffff ^^^ 0xffffffff

/-! ## Words as bit vectors -/

abbrev poly : BitVec 32 := 0x04c11db7#32

theorem and_one_ne_zero (n : UInt32) : n &&& 1 ≠ 0 ↔ n.toBitVec.getLsbD 0 = true := by
  rw [Ne, ← UInt32.toBitVec_inj, UInt32.toBitVec_and, show (1 : UInt32).toBitVec = 1#32 from rfl,
    BitVec.and_one_eq_setWidth_ofBool_getLsbD]
  cases n.toBitVec.getLsbD 0 <;> decide

theorem and_top_ne_zero (n : UInt32) : n &&& 0x80000000 ≠ 0 ↔ n.toBitVec.msb = true := by
  rw [Ne, ← UInt32.toBitVec_inj, UInt32.toBitVec_and,
    show (0x80000000 : UInt32).toBitVec = BitVec.twoPow 32 31 from rfl, BitVec.and_twoPow,
    BitVec.msb_eq_getLsbD_last]
  cases n.toBitVec.getLsbD 31 <;> decide

theorem toBitVec_crcWord (n : UInt32) :
    (crcWord n).toBitVec = turnReflected poly.reverse n.toBitVec := by
  have hpoly : poly.reverse = (0xedb88320 : UInt32).toBitVec := by decide +kernel
  rw [crcWord, turnReflected, hpoly]
  simp only [and_one_ne_zero]
  split
  · rfl
  · rfl

theorem toBitVec_crcTable (n : UInt8) :
    (crcTable n).toBitVec = CyclicRedundancy.table poly.reverse n.toBitVec := by
  have hiterate := Function.Semiconj.iterate_right (f := UInt32.toBitVec) toBitVec_crcWord 8
  exact hiterate n.toUInt32

/-- What the loop does with one bit. -/
theorem toBitVec_feed (acc : UInt32) (b : Bool) :
    (if acc &&& 0x80000000 ≠ 0 then (acc <<< 1 ||| b.toUInt32) ^^^ 0x04c11db7
      else acc <<< 1 ||| b.toUInt32).toBitVec = turn poly acc.toBitVec ^^^ bit 32 b := by
  have hor : (acc <<< 1 ||| b.toUInt32).toBitVec = acc.toBitVec <<< 1 ^^^ bit 32 b := by
    refine BitVec.eq_of_getLsbD_eq fun i hi => ?_
    cases b <;> by_cases hzero : i = 0 <;> simp [bit, hi, hzero]
  rw [turn]
  simp only [and_top_ne_zero]
  cases acc.toBitVec.msb with
  | true =>
    rw [if_pos rfl, if_pos rfl, UInt32.toBitVec_xor, hor, BitVec.xor_assoc, BitVec.xor_assoc,
      BitVec.xor_comm (bit 32 b)]
    rfl
  | false => exact hor

theorem toBitVec_mirror (acc : UInt32) : (mirror acc).toBitVec = acc.toBitVec.reverse := by
  have hpow : ∀ i : Fin 32, ((1 : UInt32) <<< UInt32.ofNat i).toBitVec = BitVec.twoPow 32 i := by
    decide +kernel
  have hturns (k : Nat) (hk : k ≤ 32) (j : Nat) (hj : j < 32) :
      ((List.range k).foldl (fun result i =>
        if acc &&& (1 <<< UInt32.ofNat i) ≠ 0 then result ||| (1 <<< UInt32.ofNat (31 - i))
        else result) 0).toBitVec.getLsbD j =
          (decide (31 - j < k) && acc.toBitVec.getLsbD (31 - j)) := by
    induction k with
    | zero => simp
    | succ k ih =>
      have hbit : acc &&& (1 <<< UInt32.ofNat k) ≠ 0 ↔ acc.toBitVec.getLsbD k = true := by
        rw [Ne, ← UInt32.toBitVec_inj, UInt32.toBitVec_and, hpow ⟨k, hk⟩, BitVec.and_twoPow]
        cases acc.toBitVec.getLsbD k with
        | true => simpa using fun h => absurd (congrArg (BitVec.getLsbD · k) h) (by simp; omega)
        | false => simp
      rw [List.range_succ, List.foldl_append, List.foldl_cons, List.foldl_nil]
      have hlast := ih (by omega)
      simp only [hbit]
      by_cases hset : acc.toBitVec.getLsbD k = true
      · rw [if_pos hset, UInt32.toBitVec_or, BitVec.getLsbD_or, hlast,
          hpow ⟨31 - k, by omega⟩, BitVec.getLsbD_twoPow]
        by_cases hjk : 31 - j = k
        · simp [hjk, hset, show 31 - k = j by omega, hj]
        · simp [show 31 - k ≠ j by omega, show 31 - j < k + 1 ↔ 31 - j < k by omega]
      · rw [if_neg hset, hlast]
        by_cases hjk : 31 - j = k
        · simp [hjk, hset]
        · simp [show 31 - j < k + 1 ↔ 31 - j < k by omega]
  refine BitVec.eq_of_getLsbD_eq fun j hj => ?_
  rw [mirror, hturns 32 (Nat.le_refl 32) j hj, BitVec.getLsbD_reverse, BitVec.getMsbD]
  simp [hj, show 31 - j < 32 by omega]

/-! ## Runs of the loop -/

theorem toBitVec_crcLoopTurn (data : Buffer) (count : Int) (acc : UInt32) (i : Nat) :
    (crcLoopTurn data count acc i).toBitVec = turn poly acc.toBitVec ^^^ bit 32
      (decide ((i : Int) < toCInt (count * 8)) && (data (i / 8)).toBitVec.getLsbD (i % 8)) := by
  have hdata : (data (i / 8)).toUInt32 >>> UInt32.ofNat (i % 8) &&& 1 =
      ((data (i / 8)).toBitVec.getLsbD (i % 8)).toUInt32 := by
    have hbit : ((data (i / 8)).toUInt32.toBitVec >>>
        ((UInt32.ofNat (i % 8)).toBitVec % 32)).getLsbD 0 =
          (data (i / 8)).toBitVec.getLsbD (i % 8) := by
      have hshift : ((UInt32.ofNat (i % 8)).toBitVec % 32).toNat = i % 8 := by
        rw [BitVec.toNat_umod]
        simp
        omega
      rw [BitVec.ushiftRight_eq', hshift, BitVec.getLsbD_ushiftRight, UInt8.toBitVec_toUInt32,
        BitVec.getLsbD_setWidth]
      simp [show i % 8 < 32 by omega]
    rw [← UInt32.toBitVec_inj, UInt32.toBitVec_and, UInt32.toBitVec_shiftRight,
      show (1 : UInt32).toBitVec = 1#32 from rfl, BitVec.and_one_eq_setWidth_ofBool_getLsbD]
    rw [hbit]
    cases (data (i / 8)).toBitVec.getLsbD (i % 8) <;> rfl
  rw [← toBitVec_feed]
  simp only [crcLoopTurn, hdata]
  by_cases hi : (i : Int) < toCInt (count * 8)
  · simp only [hi, if_true, decide_true, Bool.true_and]
  · have hnone : acc <<< 1 ||| false.toUInt32 = acc <<< 1 := UInt32.or_zero
    simp only [hi, if_false, decide_false, Bool.false_and, hnone]

/-- What mirroring will give behind the flushing zeros. -/
def flushed (acc : UInt32) : UInt32 := ⟨((turn poly)^[32] acc.toBitVec).reverse⟩

theorem hflush (b : Bool) : (turn poly)^[32] (bit 32 b) = turn poly (bit 32 b).reverse := by
  cases b
  · decide +kernel
  · decide +kernel

theorem flushed_start : flushed 0x46af6449 = 0xffffffff := by decide +kernel

section Loop

variable {data : Buffer} {count : Nat} (hcount : count < 2 ^ 28 - 4)

include hcount

theorem bits_eq : toCInt ((count : Int) * 8) = count * 8 :=
  Int.bmod_eq_of_le (by omega) (by omega)

theorem rounds_eq : toCInt (toCInt ((count : Int) * 8) + 32) = count * 8 + 32 := by
  rw [bits_eq hcount]
  exact Int.bmod_eq_of_le (by omega) (by omega)

/-- The eight bits of a byte. -/
theorem flushed_byte {k : Nat} (hk : k < count) (acc : UInt32) :
    flushed (((List.range 8).map (8 * k + ·)).foldl (crcLoopTurn data count) acc) =
      crcByte (flushed acc) (data k) := by
  have hbits (l : List Nat) (hl : ∀ j ∈ l, j < 8) :
      ((l.map (8 * k + ·)).foldl (crcLoopTurn data count) acc).toBitVec =
        l.foldl (fun acc j => turn poly acc ^^^ bit 32 ((data k).toBitVec.getLsbD j))
          acc.toBitVec := by
    induction l generalizing acc with
    | nil => rfl
    | cons j l ih =>
      have hj := hl j List.mem_cons_self
      have hinside : ((8 * k + j : Nat) : Int) < (count : Int) * 8 := by omega
      rw [List.map_cons, List.foldl_cons, List.foldl_cons,
        ih _ fun j' hj' => hl j' (List.mem_cons_of_mem j hj'), toBitVec_crcLoopTurn,
        bits_eq hcount, decide_eq_true hinside, Bool.true_and,
        show (8 * k + j) / 8 = k by omega, show (8 * k + j) % 8 = j by omega]
  rw [← UInt32.toBitVec_inj, flushed, hbits _ fun j hj => List.mem_range.mp hj,
    CyclicRedundancy.reverse_flush_byte hflush (by decide), crcByte, UInt32.toBitVec_xor,
    toBitVec_crcTable]
  rfl

theorem flushed_bytes {k : Nat} (hk : k ≤ count) (acc : UInt32) :
    flushed ((List.range (8 * k)).foldl (crcLoopTurn data count) acc) =
      ((List.range k).map data).foldl crcByte (flushed acc) := by
  induction k with
  | zero => rfl
  | succ k ih =>
    rw [Nat.mul_succ, List.range_add, List.foldl_append, flushed_byte hcount hk, ih (by omega),
      List.range_succ, List.map_append, List.foldl_append]
    rfl

/-- The zeros behind the data. -/
theorem toBitVec_zeros (n : Nat) (acc : UInt32) :
    (((List.range n).map (8 * count + ·)).foldl (crcLoopTurn data count) acc).toBitVec =
      (turn poly)^[n] acc.toBitVec := by
  induction n with
  | zero => rfl
  | succ n ih =>
    have hbehind : ¬ ((8 * count + n : Nat) : Int) < (count : Int) * 8 := by omega
    rw [List.range_succ, List.map_append, List.foldl_append, List.map_singleton, List.foldl_cons,
      List.foldl_nil, toBitVec_crcLoopTurn, ih, bits_eq hcount, decide_eq_false hbehind,
      Bool.false_and, Function.iterate_succ_apply']
    exact BitVec.xor_zero

theorem isoCrc32GptInt_eq_crc32 :
    isoCrc32GptInt data count = crc32 ((List.range count).map data) := by
  have hrounds : (toCInt (toCInt ((count : Int) * 8) + 32)).toNat = 8 * count + 32 := by
    rw [rounds_eq hcount]
    omega
  have hmirror (acc : UInt32) : mirror (((List.range 32).map (8 * count + ·)).foldl
      (crcLoopTurn data count) acc) = flushed acc := by
    rw [← UInt32.toBitVec_inj, toBitVec_mirror, toBitVec_zeros hcount]
    rfl
  rw [isoCrc32GptInt, hrounds, List.range_add, List.foldl_append, crc32]
  simp only [hmirror]
  rw [flushed_bytes hcount (Nat.le_refl count), flushed_start]

/-- As long as no number rolls over it does not matter that the counting is done in int. -/
theorem isoCrc32GptInt_eq : isoCrc32GptInt data count = isoCrc32Gpt data count := by
  have hturn : crcLoopTurn data count = crcTurn data (UInt32.ofNat count) := by
    funext acc i
    have hnat : (UInt32.ofNat count).toNat = count := by
      rw [UInt32.toNat_ofNat', Nat.mod_eq_of_lt (by omega)]
    have hbits : (i : Int) < toCInt ((count : Int) * 8) ↔ i < count * 8 := by
      rw [bits_eq hcount]
      omega
    simp only [crcLoopTurn, crcTurn, hnat, hbits]
  rw [isoCrc32GptInt, isoCrc32Gpt, rounds_eq hcount, hturn, Int.toNat_natCast]

end Loop

/-- The checksum is the CRC-32 if eight times the length plus 32 fits into an int. -/
theorem isoCrc32Gpt_is_crc32 (data : List UInt8) (hlength : data.length < 2 ^ 28 - 4) :
    isoCrc32GptInt (bufferOf data) data.length = crc32 data := by
  have hdata : (List.range data.length).map (bufferOf data) = data := by
    refine List.ext_getElem (by simp) fun i hi hi' => ?_
    simp [bufferOf, hi']
  rw [isoCrc32GptInt_eq_crc32 hlength, hdata]

theorem check_is_crc32 :
    isoCrc32GptInt (bufferOf [0x45, 0x46, 0x49]) (3 : Nat) = crc32 [0x45, 0x46, 0x49] :=
  isoCrc32Gpt_is_crc32 [0x45, 0x46, 0x49] (by decide)

/-! ## Longer data -/

/-- Then the loop does not run at all. -/
theorem isoCrc32GptInt_long (data data' : Buffer) {count : Int} (hmin : 2 ^ 28 - 4 ≤ count)
    (hmax : count < 2 ^ 28) : isoCrc32GptInt data count = isoCrc32GptInt data' count := by
  have hbits : toCInt (count * 8) = count * 8 := Int.bmod_eq_of_le (by omega) (by omega)
  have hrounds : (toCInt (toCInt (count * 8) + 32)).toNat = 0 := by
    rw [hbits, toCInt, Int.bmod_def]
    omega
  rw [isoCrc32GptInt, isoCrc32GptInt, hrounds]
  rfl

/-- A change of the last byte changes the CRC-32. -/
theorem crc32_last_ne (data : List UInt8) : crc32 (data ++ [0]) ≠ crc32 (data ++ [1]) := by
  have hword (n : UInt8) : crcTable (n ^^^ 0) ≠ crcTable (n ^^^ 1) := by
    have hall : ∀ i : Fin 256, crcTable (UInt8.ofNat i ^^^ 0) ≠ crcTable (UInt8.ofNat i ^^^ 1) := by
      decide +kernel
    have hn := hall ⟨n.toNat, n.toNat_lt⟩
    rwa [UInt8.ofNat_toNat] at hn
  rw [crc32, crc32, List.foldl_append, List.foldl_append]
  intro heq
  exact hword _ ((UInt32.xor_left_inj _).mp ((UInt32.xor_left_inj _).mp heq))

theorem long_data_no_crc32 : ¬ ∀ data : List UInt8, data.length < 2 ^ 28 →
    isoCrc32GptInt (bufferOf data) data.length = crc32 data := by
  intro h
  have hlength (b : UInt8) : (List.replicate (2 ^ 28 - 5) 0 ++ [b] : List UInt8).length =
      2 ^ 28 - 4 := by
    rw [List.length_append, List.length_replicate, List.length_singleton]
    rfl
  apply crc32_last_ne (List.replicate (2 ^ 28 - 5) 0)
  rw [← h _ (by rw [hlength]; decide), ← h _ (by rw [hlength]; decide), hlength, hlength]
  exact isoCrc32GptInt_long _ _ (by decide) (by decide)

end GptCrc
