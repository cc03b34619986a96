import Libisofs.Lib.Texts
import Mathlib.Data.Int.Log
import Mathlib.Data.Rat.Floor
import Mathlib.Algebra.Order.Ring.Rat

/-!
# Numbers of type double in texts

The scanf() format %lf with the decimal point of the C locale. A number out of range stands for
an infinite one.
-/

namespace Doubles

open Texts

/-! ## Rounding -/

/-- A half goes to the even number. -/
def roundEven (q : ℚ) : Int :=
  if q - ⌊q⌋ < 1 / 2 then ⌊q⌋
  else if 1 / 2 < q - ⌊q⌋ then ⌊q⌋ + 1
  else ⌊q⌋ + ⌊q⌋ % 2

/-- The distance of neighbors among the numbers with 53 bits. -/
def spacing (q : ℚ) : ℚ := 2 ^ max (Int.log 2 q - 52) (-1074)

/-- The neighbor of a number which is not negative. -/
def toDouble (q : ℚ) : ℚ := roundEven (q / spacing q) * spacing q

theorem roundEven_natCast (n : Nat) : roundEven n = n := by
  simp [roundEven]

theorem toDouble_natCast {n : Nat} (h : n < 2 ^ 53) : toDouble n = n := by
  have hlog : Nat.log 2 n < 53 := Nat.log_lt_of_lt_pow' (by decide) h
  obtain ⟨k, hk⟩ : ∃ k : Nat, max (Int.log 2 (n : ℚ) - 52) (-1074) = -(k : Int) :=
    ⟨52 - Nat.log 2 n, by rw [Int.log_natCast]; omega⟩
  have hspacing : spacing n = (2 ^ k)⁻¹ := by rw [spacing, hk, zpow_neg, zpow_natCast]
  have hscaled : (n : ℚ) / (2 ^ k)⁻¹ = (n * 2 ^ k : Nat) := by
    rw [div_inv_eq_mul]
    push_cast
    rfl
  rw [toDouble, hspacing, hscaled, roundEven_natCast]
  push_cast
  exact mul_inv_cancel_right₀ (pow_ne_zero k two_ne_zero) _

/-! ## Reading -/

def isSpace (c : UInt8) : Bool := c == 32 || (9 ≤ c && c ≤ 13)

def lower (c : UInt8) : UInt8 := if 65 ≤ c ∧ c ≤ 90 then c + 32 else c

/-- The digits at the start of a text. -/
def digits (base : Nat) (s : Bytes) : Bytes :=
  s.takeWhile fun c => (hexValue c).any fun d => decide (d < base)

def number (base : Nat) (digits : Bytes) : Nat :=
  digits.foldl (fun sofar c => base * sofar + (hexValue c).getD 0) 0

def withSign {α : Type} [Neg α] (scan : Bytes → Option α) (s : Bytes) : Option α :=
  if s.head? = some (charByte '-') then (scan s.tail).map Neg.neg
  else if s.head? = some (charByte '+') then scan s.tail
  else scan s

def scanExponent (mark : Char) (s : Bytes) : Option Int :=
  if s.head? = some (charByte mark) then
    withSign (fun s => if digits 10 s = [] then none else some (number 10 (digits 10 s))) s.tail
  else some 0

/-- The exponent behind its mark tells a power of `radix`. -/
def scanDigits (base radix : Nat) (mark : Char) (s : Bytes) : Option ℚ :=
  let whole := digits base s
  let s := s.drop whole.length
  let point := s.head? = some (charByte '.')
  let fraction := if point then digits base s.tail else []
  let s := if point then s.tail.drop fraction.length else s
  if whole ++ fraction = [] then none
  else (scanExponent mark s).map fun e =>
    number base (whole ++ fraction) / base ^ fraction.length * radix ^ e

def scanUnsigned (s : Bytes) : Option ℚ :=
  if (text "inf").isPrefixOf s then
    if s[3]? = some (charByte 'i') ∧ ¬ (text "infinity").isPrefixOf s then none
    else some (2 ^ 1024)
  else if (text "0x").isPrefixOf s then (scanDigits 16 2 'p' (s.drop 2)).map toDouble
  else (scanDigits 10 10 'e' s).map toDouble

/-- No result with a text which does not match, and with NaN. -/
def scanDouble (s : Bytes) : Option ℚ :=
  withSign scanUnsigned ((s.dropWhile isSpace).map lower)

section Decimal

variable {s : Bytes} {n : Nat}

theorem ne_of_isDigit {b c : UInt8} (hc : IsDigit c) (hb : ¬ IsDigit b) : b ≠ c :=
  fun heq => hb (heq ▸ hc)

theorem hexValue_of_isDigit {c : UInt8} (h : IsDigit c) : hexValue c = some (c.toNat - 48) :=
  if_pos h

theorem lower_of_isDigit {c : UInt8} (h : IsDigit c) : lower c = c := by
  refine if_neg fun hupper => ?_
  have hle := UInt8.le_trans hupper.1 h.2
  exact absurd hle (by decide)

theorem digits_of_isDigit (h : ∀ c ∈ s, IsDigit c) (rest : Bytes) :
    digits 10 (s ++ 32 :: rest) = s := by
  have hpos : ∀ c ∈ s, ((hexValue c).any fun d => decide (d < 10)) = true := by
    intro c hc
    have hle := UInt8.le_iff_toNat_le.mp (h c hc).2
    change c.toNat ≤ 57 at hle
    rw [hexValue_of_isDigit (h c hc), Option.any_some, decide_eq_true_eq]
    omega
  rw [digits, List.takeWhile_append_of_pos hpos, List.takeWhile_cons_of_neg (by decide),
    List.append_nil]

theorem number_decimal : number 10 (decimal n) = n := by
  have hdigit : ∀ c ∈ decimal n, (hexValue c).getD 0 = c.toNat - 48 := fun c hc => by
    rw [hexValue_of_isDigit (digit_of_mem_decimal hc), Option.getD_some]
  rw [number, List.foldl_ext _ _ 0 fun sofar c hc => by rw [hdigit c hc]]
  exact foldl_decimal n

/-- Behind the number is a blank. -/
theorem scanDigits_of_isDigit (hs : s ≠ []) (h : ∀ c ∈ s, IsDigit c) (rest : Bytes) :
    scanDigits 10 10 'e' (s ++ 32 :: rest) = some (number 10 s : ℚ) := by
  have hpoint : ¬ (32 :: rest).head? = some (charByte '.') := by simp [charByte]
  have hmark : scanExponent 'e' (32 :: rest) = some 0 := if_neg (by simp [charByte])
  simp only [scanDigits, digits_of_isDigit h, List.drop_left, if_neg hpoint, List.append_nil,
    if_neg hs, hmark, Option.map_some, List.length_nil, pow_zero, zpow_zero, div_one, mul_one]

/-- The text is neither an infinite nor a hexadecimal number. -/
theorem scanUnsigned_of_isDigit (hs : s ≠ []) (h : ∀ c ∈ s, IsDigit c) (rest : Bytes) :
    scanUnsigned (s ++ 32 :: rest) = some (toDouble (number 10 s)) := by
  have hinf : ¬ (text "inf").isPrefixOf (s ++ 32 :: rest) := by
    cases s with
    | nil => exact absurd rfl hs
    | cons c cs =>
      have hc : charByte 'i' ≠ c := ne_of_isDigit (h c List.mem_cons_self) (by decide)
      simp [text, List.isPrefixOf, hc]
  have hhex : ¬ (text "0x").isPrefixOf (s ++ 32 :: rest) := by
    match s with
    | [] => exact absurd rfl hs
    | [c] => simp [text, List.isPrefixOf, charByte]
    | c :: x :: cs =>
      have hx : charByte 'x' ≠ x := ne_of_isDigit (h x (by simp)) (by decide)
      simp [text, List.isPrefixOf, hx]
  rw [scanUnsigned, if_neg hinf, if_neg hhex, scanDigits_of_isDigit hs h, Option.map_some]

theorem scanDouble_of_isDigit (hs : s ≠ []) (h : ∀ c ∈ s, IsDigit c) (rest : Bytes) :
    scanDouble (s ++ 32 :: rest) = some (toDouble (number 10 s)) := by
  have hlower : (s ++ 32 :: rest).map lower = s ++ 32 :: rest.map lower := by
    rw [List.map_append, List.map_cons, List.map_congr_left fun c hc => lower_of_isDigit (h c hc),
      List.map_id']
    rfl
  obtain ⟨c, cs, rfl⟩ := List.exists_cons_of_ne_nil hs
  have hc := h c List.mem_cons_self
  have hspace : ¬ isSpace c = true := by
    intro hspace
    simp only [isSpace, Bool.or_eq_true, beq_iff_eq, Bool.and_eq_true, decide_eq_true_eq] at hspace
    rcases hspace with heq | ⟨-, hle⟩
    · exact ne_of_isDigit hc (by decide) heq.symm
    · exact absurd (UInt8.le_trans hc.1 hle) (by decide)
  have hminus : c ≠ charByte '-' := (ne_of_isDigit hc (by decide)).symm
  have hplus : c ≠ charByte '+' := (ne_of_isDigit hc (by decide)).symm
  rw [scanDouble, List.cons_append, List.dropWhile_cons_of_neg hspace, ← List.cons_append, hlower,
    withSign, List.cons_append, List.head?_cons, if_neg (by simpa using hminus),
    if_neg (by simpa using hplus), ← List.cons_append, scanUnsigned_of_isDigit hs h]

theorem scanDouble_decimal (h : n < 2 ^ 53) (rest : Bytes) :
    scanDouble (decimal n ++ 32 :: rest) = some (n : ℚ) := by
  have hne : decimal n ≠ [] := by simp [decimal, Nat.toDigits_ne_nil]
  rw [scanDouble_of_isDigit hne fun c => digit_of_mem_decimal, number_decimal, toDouble_natCast h]

end Decimal

end Doubles
