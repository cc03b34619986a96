import Mathlib.Data.List.GetD
import Libisofs.Lib.Bytes

/-!
# Bitmaps in lists of bytes

The bits of a list of bytes are counted with the most significant bit of each byte first.
-/

namespace Bitmaps

def bitAt (bytes : List UInt8) (n : Nat) : Bool :=
  (bytes.getD (n / 8) 0).toNat.testBit (7 - n % 8)

variable {bytes rest : List UInt8} {n q k r : Nat}

theorem bitAt_append_left (h : n < 8 * bytes.length) :
    bitAt (bytes ++ rest) n = bitAt bytes n := by
  rw [bitAt, bitAt, List.getD_append _ _ _ _ (by omega)]

theorem bitAt_append_right (h : 8 * bytes.length ≤ n) :
    bitAt (bytes ++ rest) n = bitAt rest (n - 8 * bytes.length) := by
  have hdiv : n / 8 - bytes.length = (n - 8 * bytes.length) / 8 := by omega
  have hmod : (n - 8 * bytes.length) % 8 = n % 8 := by omega
  rw [bitAt, bitAt, List.getD_append_right _ _ _ _ (by omega), hdiv, hmod]

theorem bitAt_ones (h : n < 8 * q) : bitAt (List.replicate q 0xff) n = true := by
  have hbyte : (List.replicate q (0xff : UInt8)).getD (n / 8) 0 = 0xff := by
    rw [List.getD_eq_getElem?_getD, List.getElem?_replicate, if_pos (by omega), Option.getD_some]
  have hall : ∀ b < 8, ((0xff : UInt8).toNat).testBit (7 - b) = true := by decide
  rw [bitAt, hbyte]
  exact hall _ (Nat.mod_lt _ (by decide))

theorem bitAt_zeros : bitAt (List.replicate k 0) n = false := by
  have hbyte : (List.replicate k (0 : UInt8)).getD (n / 8) 0 = 0 := by
    rw [List.getD_eq_getElem?_getD, List.getElem?_replicate]
    split <;> rfl
  rw [bitAt, hbyte]
  exact Nat.zero_testBit _

/-- The byte with `r` ones at its begin. -/
def headOnes (r : Nat) : UInt8 := UInt8.ofNat (0xff00 >>> r)

theorem bitAt_headOnes (hr : r < 8) (hpos : r ≠ 0) :
    bitAt (headOnes r :: List.replicate k 0) n = decide (n < r) := by
  by_cases hn : n < 8
  · have hall : ∀ r < 8, r ≠ 0 → ∀ n < 8,
        (headOnes r).toNat.testBit (7 - n) = decide (n < r) := by decide
    rw [bitAt, Nat.div_eq_of_lt hn, Nat.mod_eq_of_lt hn, List.getD_cons_zero]
    exact hall r hr hpos n hn
  · rw [← List.singleton_append, bitAt_append_right (by simpa using hn), bitAt_zeros,
      decide_eq_false (by omega)]

/-- A bitmap of `n` ones: whole bytes of ones, one byte with both, zeros. -/
theorem bitAt_bitmap (hr : r < 8) (hpos : r ≠ 0) :
    bitAt (List.replicate q 0xff ++ headOnes r :: List.replicate k 0) n =
      decide (n < 8 * q + r) := by
  by_cases hn : n < 8 * q
  · rw [bitAt_append_left (by rwa [List.length_replicate]), bitAt_ones hn,
      decide_eq_true (by omega)]
  · rw [bitAt_append_right (by rw [List.length_replicate]; omega), bitAt_headOnes hr hpos,
      List.length_replicate]
    exact decide_eq_decide.mpr (by omega)

/-- Without a byte of both there are only the ones of the whole bytes. -/
theorem bitAt_ones_zeros :
    bitAt (List.replicate q 0xff ++ List.replicate k 0) n = decide (n < 8 * q) := by
  by_cases hn : n < 8 * q
  · rw [bitAt_append_left (by rwa [List.length_replicate]), bitAt_ones hn, decide_eq_true hn]
  · rw [bitAt_append_right (by rw [List.length_replicate]; omega), bitAt_zeros,
      decide_eq_false hn]

end Bitmaps
