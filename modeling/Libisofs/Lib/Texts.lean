import Mathlib.Data.List.Basic
import Mathlib.Data.List.Infix

/-!
# Texts in memory

Numbers as decimal text, bytes as hexadecimal text, and the search for a word. A text ends
at its first zero byte. A pointer into the text is the list of bytes from there on.
-/

namespace Texts

abbrev Bytes := List UInt8

def charByte (c : Char) : UInt8 := c.toNat.toUInt8

def text (s : String) : Bytes := s.toList.map charByte

/-- The printf() format %u. -/
def decimal (n : Nat) : Bytes := (Nat.toDigits 10 n).map charByte

def IsDigit (c : UInt8) : Prop := 48 ≤ c ∧ c ≤ 57

instance : DecidablePred IsDigit := fun c => inferInstanceAs (Decidable (48 ≤ c ∧ c ≤ 57))

theorem toNat_of_isDigit {c : Char} (h : c.isDigit) : 48 ≤ c.toNat ∧ c.toNat ≤ 57 := by
  simp only [Char.isDigit, Bool.and_eq_true, decide_eq_true_eq] at h
  exact ⟨UInt32.le_iff_toNat_le.mp h.1, UInt32.le_iff_toNat_le.mp h.2⟩

theorem toNat_charByte {c : Char} (h : c.isDigit) : (charByte c).toNat = c.toNat := by
  have hle := (toNat_of_isDigit h).2
  change c.toNat % 256 = c.toNat
  omega

theorem digit_of_mem_decimal {n : Nat} {c : UInt8} (h : c ∈ decimal n) : IsDigit c := by
  obtain ⟨char, hchar, rfl⟩ := List.mem_map.mp h
  have hdigit := Nat.isDigit_of_mem_toDigits (by decide) (by decide) hchar
  obtain ⟨hge, hle⟩ := toNat_of_isDigit hdigit
  rw [← toNat_charByte hdigit] at hge hle
  exact ⟨UInt8.le_iff_toNat_le.mpr hge, UInt8.le_iff_toNat_le.mpr hle⟩

/-- The number which the digits at the start of a text tell. -/
def leadingNumber (s : Bytes) : Nat :=
  (s.takeWhile fun c => decide (IsDigit c)).foldl (fun sofar c => 10 * sofar + (c.toNat - 48)) 0

theorem foldl_decimal (n : Nat) :
    (decimal n).foldl (fun sofar c => 10 * sofar + (c.toNat - 48)) 0 = n := by
  have hfold : ∀ (digits : List Char) (sofar : Nat), (∀ c ∈ digits, c.isDigit) →
      (digits.map charByte).foldl (fun sofar c => 10 * sofar + (c.toNat - 48)) sofar =
        Nat.ofDigitChars 10 digits sofar := by
    intro digits
    induction digits with
    | nil => exact fun sofar _ => (Nat.ofDigitChars_nil).symm
    | cons char digits ih =>
      intro sofar h
      rw [List.map_cons, List.foldl_cons, Nat.ofDigitChars_cons,
        toNat_charByte (h char List.mem_cons_self)]
      exact ih _ fun c hc => h c (List.mem_cons_of_mem _ hc)
  rw [decimal, hfold _ _ fun c hc => Nat.isDigit_of_mem_toDigits (by decide) (by decide) hc]
  exact Nat.ofDigitChars_ten_toDigits

/-! ## Hexadecimal text -/

def hexDigits : Bytes := text "0123456789abcdef"

/-- The printf() format %2.2x. -/
def hexByte (b : UInt8) : Bytes :=
  [hexDigits.getD (b.toNat / 16) 0, hexDigits.getD (b.toNat % 16) 0]

def hex (bytes : Bytes) : Bytes := bytes.flatMap hexByte

def hexValue (c : UInt8) : Option Nat :=
  if 48 ≤ c ∧ c ≤ 57 then some (c.toNat - 48)
  else if 65 ≤ c ∧ c ≤ 70 then some (c.toNat - 55)
  else if 97 ≤ c ∧ c ≤ 102 then some (c.toNat - 87)
  else none

theorem hexValue_digit :
    ∀ d < 16, hexDigits.getD d 0 ≠ 0 ∧ hexValue (hexDigits.getD d 0) = some d := by
  decide

theorem length_hex (bytes : Bytes) : (hex bytes).length = 2 * bytes.length := by
  induction bytes with
  | nil => rfl
  | cons b rest ih =>
    rw [hex, List.flatMap_cons, List.length_append, ← hex, ih, List.length_cons]
    change 2 + _ = _
    omega

/-! ## Words in a text -/

/-- The place of the first occurrence of a word. -/
def strstr (word : Bytes) : Bytes → Option Bytes
  | [] => none
  | c :: rest =>
    if c = 0 then none
    else if word.isPrefixOf (c :: rest) then some (c :: rest)
    else strstr word rest

/-- No occurrence of the word can begin inside of this text, whatever follows. -/
def skips (word : Bytes) : Bytes → Bool
  | [] => true
  | c :: rest =>
    c != 0 && !(c :: rest).isPrefixOf word && !word.isPrefixOf (c :: rest) && skips word rest

section Words

variable {word pre rest : Bytes}

theorem strstr_here (hne : word ≠ []) (hword : 0 ∉ word) :
    strstr word (word ++ rest) = some (word ++ rest) := by
  cases word with
  | nil => exact absurd rfl hne
  | cons w ws =>
    have hw : w ≠ 0 := fun h => hword (h ▸ List.mem_cons_self)
    have hprefix : (w :: ws).isPrefixOf (w :: (ws ++ rest)) = true :=
      List.isPrefixOf_iff_prefix.mpr (List.prefix_append (w :: ws) rest)
    simp only [List.cons_append, strstr, if_neg hw, hprefix, if_true]

theorem strstr_skips (h : skips word pre = true) :
    strstr word (pre ++ rest) = strstr word rest := by
  induction pre with
  | nil => rfl
  | cons c pre ih =>
    simp only [skips, Bool.and_eq_true, bne_iff_ne, Bool.not_eq_true', List.isPrefixOf_iff_prefix,
      ← Bool.not_eq_true] at h
    obtain ⟨⟨⟨hc, hshort⟩, hlong⟩, hrest⟩ := h
    have hnot : ¬ word.isPrefixOf (c :: (pre ++ rest)) = true := by
      intro hprefix
      have hword : word <+: (c :: pre) ++ rest := List.isPrefixOf_iff_prefix.mp hprefix
      rcases List.prefix_or_prefix_of_prefix hword (List.prefix_append (c :: pre) rest) with h | h
      · exact hlong h
      · exact hshort h
    rw [List.cons_append, strstr, if_neg hc, if_neg hnot]
    exact ih hrest

/-- The first character of the word does not occur. -/
theorem skips_of_head {w : UInt8} {ws : Bytes} (h : ∀ c ∈ pre, c ≠ 0 ∧ c ≠ w) :
    skips (w :: ws) pre = true := by
  induction pre with
  | nil => rfl
  | cons c pre ih =>
    obtain ⟨hzero, hw⟩ := h c List.mem_cons_self
    have hrest := ih fun d hd => h d (List.mem_cons_of_mem _ hd)
    simp [skips, List.isPrefixOf, hzero, hw, hw.symm, hrest]

/-- A word which does not begin by a digit. -/
theorem skips_decimal (hw : ¬ IsDigit (word.headD 48)) (n : Nat) :
    skips word (decimal n) = true := by
  cases word with
  | nil => exact absurd (by decide) hw
  | cons w ws =>
    refine skips_of_head fun c hc => ?_
    have hdigit := digit_of_mem_decimal hc
    refine ⟨fun h => ?_, fun h => hw (h ▸ hdigit)⟩
    subst h
    exact absurd hdigit.1 (by decide)

end Words

end Texts
