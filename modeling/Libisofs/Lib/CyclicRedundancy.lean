import Mathlib.Logic.Function.Iterate
import Mathlib.Data.BitVec

/-!
# Cyclic redundancy checks

A register of bits gets divided by a polynomial while data bits enter it. They may enter at its
low end, and then as many zeros as the register has bits have to follow them. Or they may enter
at the high end, with no zeros at all. A reflected register runs the other way round, so that
eight turns for the bits of a byte are one lookup in a table.
-/

namespace CyclicRedundancy

variable {w : Nat} (poly : BitVec w)

/-- One bit leaves at the high end. -/
def turn (acc : BitVec w) : BitVec w := if acc.msb then acc <<< 1 ^^^ poly else acc <<< 1

/-- One bit leaves at the low end. -/
def turnReflected (acc : BitVec w) : BitVec w :=
  if acc.getLsbD 0 then acc >>> 1 ^^^ poly else acc >>> 1

def bit (w : Nat) (b : Bool) : BitVec w := (BitVec.ofBool b).zeroExtend w

/-- The word for the bits which leave together. -/
def table (n : BitVec 8) : BitVec w := (turnReflected poly)^[8] (n.zeroExtend w)

variable {poly}

theorem turn_xor (a b : BitVec w) : turn poly (a ^^^ b) = turn poly a ^^^ turn poly b := by
  rw [turn, turn, turn, BitVec.shiftLeft_xor_distrib, BitVec.msb_xor]
  cases a.msb <;> cases b.msb
  · rfl
  · exact BitVec.xor_assoc _ _ _
  · simp only [Bool.xor_false, if_true, if_false, Bool.false_eq_true]
    ac_rfl
  · calc a <<< 1 ^^^ b <<< 1 = a <<< 1 ^^^ b <<< 1 ^^^ (poly ^^^ poly) := by simp
      _ = a <<< 1 ^^^ poly ^^^ (b <<< 1 ^^^ poly) := by ac_rfl

theorem reverse_shiftLeft_one (a : BitVec w) : (a <<< 1).reverse = a.reverse >>> 1 := by
  refine BitVec.eq_of_getLsbD_eq fun i hi => ?_
  rw [BitVec.getLsbD_reverse, BitVec.getLsbD_ushiftRight, BitVec.getLsbD_reverse,
    BitVec.getMsbD_shiftLeft, Nat.add_comm]

theorem reverse_xor (a b : BitVec w) : (a ^^^ b).reverse = a.reverse ^^^ b.reverse := by
  refine BitVec.eq_of_getLsbD_eq fun i hi => ?_
  simp only [BitVec.getLsbD_reverse, BitVec.getLsbD_xor, BitVec.getMsbD_xor]

theorem reverse_turn (a : BitVec w) :
    (turn poly a).reverse = turnReflected poly.reverse a.reverse := by
  have hlow : a.reverse.getLsbD 0 = a.msb := by
    rw [BitVec.getLsbD_reverse, BitVec.msb]
  rw [turn, turnReflected, hlow]
  cases a.msb with
  | true => rw [if_pos rfl, if_pos rfl, reverse_xor, reverse_shiftLeft_one]
  | false => exact reverse_shiftLeft_one a

theorem turnReflected_xor (a b : BitVec w) :
    turnReflected poly (a ^^^ b) = turnReflected poly a ^^^ turnReflected poly b := by
  have h := congrArg BitVec.reverse (@turn_xor w poly.reverse a.reverse b.reverse)
  rw [reverse_xor, reverse_turn, reverse_turn, reverse_turn, reverse_xor] at h
  simpa only [BitVec.reverse_reverse_eq] using h

/-! ## Many turns -/

theorem turns_xor (n : Nat) (a b : BitVec w) :
    (turn poly)^[n] (a ^^^ b) = (turn poly)^[n] a ^^^ (turn poly)^[n] b :=
  Function.Semiconj₂.iterate turn_xor n a b

theorem turnsReflected_xor (n : Nat) (a b : BitVec w) :
    (turnReflected poly)^[n] (a ^^^ b) =
      (turnReflected poly)^[n] a ^^^ (turnReflected poly)^[n] b :=
  Function.Semiconj₂.iterate turnReflected_xor n a b

theorem turnReflected_shiftLeft {a : BitVec w} (h : ∀ i, w ≤ i + 1 → a.getLsbD i = false) :
    turnReflected poly (a <<< 1) = a := by
  have hlow : (a <<< 1).getLsbD 0 = false := by simp
  rw [turnReflected, hlow, if_neg Bool.false_ne_true]
  refine BitVec.eq_of_getLsbD_eq fun i hi => ?_
  rw [BitVec.getLsbD_ushiftRight, BitVec.getLsbD_shiftLeft, Nat.add_sub_cancel_left]
  by_cases hlast : 1 + i < w
  · simp [hlast]
  · simp [h i (by omega)]

/-- Bits which have been shifted up do not leave before they have come down again. -/
theorem turnsReflected_shiftLeft (n : Nat) {a : BitVec w}
    (h : ∀ i, w ≤ i + n → a.getLsbD i = false) : (turnReflected poly)^[n] (a <<< n) = a := by
  induction n with
  | zero => exact BitVec.shiftLeft_zero a
  | succ n ih =>
    have hstep : turnReflected poly (a <<< (n + 1)) = a <<< n := by
      rw [BitVec.shiftLeft_add]
      refine turnReflected_shiftLeft fun i hi => ?_
      rw [BitVec.getLsbD_shiftLeft]
      by_cases hlow : i < n
      · simp [hlow]
      · simp [h (i - n) (by omega)]
    rw [Function.iterate_succ_apply, hstep]
    exact ih fun i hi => h i (by omega)

theorem getLsbD_bit (b : Bool) {i : Nat} (hi : i < w) :
    (bit w b).getLsbD i = (decide (i = 0) && b) := by
  cases b <;> simp [bit, hi]

/-- Eight turns are one lookup for the low byte. -/
theorem turnsReflected_eight (a : BitVec w) :
    (turnReflected poly)^[8] a = table poly (a.truncate 8) ^^^ a >>> 8 := by
  have hsplit : a = (a.truncate 8).zeroExtend w ^^^ (a >>> 8) <<< 8 := by
    refine BitVec.eq_of_getLsbD_eq fun i hi => ?_
    simp only [BitVec.getLsbD_xor, BitVec.getLsbD_setWidth, BitVec.getLsbD_shiftLeft,
      BitVec.getLsbD_ushiftRight]
    by_cases hlow : i < 8
    · simp [hlow, hi]
    · simp [hlow, hi, Nat.add_sub_cancel' (Nat.not_lt.mp hlow)]
  have hhigh : (turnReflected poly)^[8] ((a >>> 8) <<< 8) = a >>> 8 := by
    refine turnsReflected_shiftLeft 8 fun i hi => ?_
    rw [BitVec.getLsbD_ushiftRight]
    exact BitVec.getLsbD_of_ge _ _ (by omega)
  calc (turnReflected poly)^[8] a
      = (turnReflected poly)^[8] ((a.truncate 8).zeroExtend w ^^^ (a >>> 8) <<< 8) :=
        congrArg _ hsplit
    _ = table poly (a.truncate 8) ^^^ a >>> 8 := by rw [turnsReflected_xor, table, hhigh]

/-- The bits of a byte may enter all at once. -/
theorem turnsReflected_bits (h : 8 ≤ w) (a : BitVec w) (b : BitVec 8) {n : Nat} (hn : n ≤ 8) :
    (List.range n).foldl (fun acc i => turnReflected poly (acc ^^^ bit w (b.getLsbD i))) a =
      (turnReflected poly)^[n] (a ^^^ (b.truncate n).zeroExtend w) := by
  induction n with
  | zero =>
    have hnone : (b.truncate 0).zeroExtend w = 0#w := by
      refine BitVec.eq_of_getLsbD_eq fun i hi => ?_
      simp
    rw [hnone, BitVec.xor_zero]
    rfl
  | succ n ih =>
    have hlast : (turnReflected poly)^[n] (bit w (b.getLsbD n) <<< n) = bit w (b.getLsbD n) := by
      refine turnsReflected_shiftLeft n fun i hi => ?_
      by_cases hiw : i < w
      · rw [getLsbD_bit _ hiw, decide_eq_false (by omega), Bool.false_and]
      · exact BitVec.getLsbD_of_ge _ _ (Nat.le_of_not_lt hiw)
    have hmore : (b.truncate (n + 1)).zeroExtend w =
        (b.truncate n).zeroExtend w ^^^ bit w (b.getLsbD n) <<< n := by
      refine BitVec.eq_of_getLsbD_eq fun i hi => ?_
      simp only [BitVec.getLsbD_xor, BitVec.getLsbD_setWidth, BitVec.getLsbD_shiftLeft,
        getLsbD_bit _ (show i - n < w by omega)]
      rcases Nat.lt_trichotomy i n with hlt | rfl | hgt
      · simp [hi, hlt, Nat.lt_succ_of_lt hlt]
      · simp [hi]
      · simp [hi, show ¬ i < n by omega, show ¬ i < n + 1 by omega, show i - n ≠ 0 by omega]
    rw [List.range_succ, List.foldl_append, ih (by omega), List.foldl_cons, List.foldl_nil,
      Function.iterate_succ_apply', hmore, ← BitVec.xor_assoc,
      turnsReflected_xor n _ (bit w (b.getLsbD n) <<< n), hlast]

/-! ## The register which needs zeros behind the data -/

section Flush

variable (hflush : ∀ b, (turn poly)^[w] (bit w b) = turn poly (bit w b).reverse)

include hflush

theorem reverse_flush_turn (a : BitVec w) (b : Bool) :
    ((turn poly)^[w] (turn poly a ^^^ bit w b)).reverse =
      turnReflected poly.reverse (((turn poly)^[w] a).reverse ^^^ bit w b) := by
  have hswap : (turn poly)^[w] (turn poly a) = turn poly ((turn poly)^[w] a) :=
    ((Function.Commute.refl (turn poly)).iterate_left w).eq a
  rw [turns_xor, hswap, hflush, ← turn_xor, reverse_turn, reverse_xor, BitVec.reverse_reverse_eq]

/-- What a byte makes of the register with the zeros behind it. -/
theorem reverse_flush_byte (h : 8 ≤ w) (a : BitVec w) (b : BitVec 8) :
    ((turn poly)^[w] ((List.range 8).foldl
      (fun acc i => turn poly acc ^^^ bit w (b.getLsbD i)) a)).reverse =
      table poly.reverse (((turn poly)^[w] a).reverse.truncate 8 ^^^ b) ^^^
        ((turn poly)^[w] a).reverse >>> 8 := by
  have hbits (l : List Nat) : ((turn poly)^[w] (l.foldl
      (fun acc i => turn poly acc ^^^ bit w (b.getLsbD i)) a)).reverse =
        l.foldl (fun acc i => turnReflected poly.reverse (acc ^^^ bit w (b.getLsbD i)))
          ((turn poly)^[w] a).reverse := by
    induction l generalizing a with
    | nil => rfl
    | cons i l ih => rw [List.foldl_cons, List.foldl_cons, ih, reverse_flush_turn hflush]
  generalize ((turn poly)^[w] a).reverse = r at hbits ⊢
  have hlow : (r ^^^ (b.truncate 8).zeroExtend w).truncate 8 = r.truncate 8 ^^^ b := by
    refine BitVec.eq_of_getLsbD_eq fun i hi => ?_
    simp [hi, show i < w by omega]
  have hhigh : (r ^^^ (b.truncate 8).zeroExtend w) >>> 8 = r >>> 8 := by
    refine BitVec.eq_of_getLsbD_eq fun i hi => ?_
    simp
  rw [hbits, turnsReflected_bits h _ b (Nat.le_refl 8), turnsReflected_eight, hlow, hhigh]

end Flush

end CyclicRedundancy
