import Mathlib.Data.List.GetD
import Mathlib.Tactic.ByContra

/-!
# Valid UTF-8

Bytes are valid UTF-8 if they are the encoding of some characters. A cut is harmless where no tail
byte follows, and in front of each tail byte there is the first byte of its character.
-/

namespace Utf8

def Valid (bytes : List UInt8) : Prop :=
  ∃ chars : List Char, bytes = chars.flatMap String.utf8EncodeChar

def isTail (b : UInt8) : Bool := b &&& 0xc0 == 0x80

/-- The first byte of an encoding with tail bytes. -/
def isLead (b : UInt8) : Bool := b &&& 0xe0 == 0xc0 || b &&& 0xf0 == 0xe0 || b &&& 0xf8 == 0xf0

variable {bytes xs ys : List UInt8} {pos : Nat}

theorem valid_nil : Valid [] := ⟨[], rfl⟩

theorem Valid.append (hx : Valid xs) (hy : Valid ys) : Valid (xs ++ ys) := by
  obtain ⟨cs, rfl⟩ := hx
  obtain ⟨ds, rfl⟩ := hy
  exact ⟨cs ++ ds, List.flatMap_append.symm⟩

theorem isTail_tail (n : Nat) : isTail (UInt8.ofNat (n % 0x40 + 0x80)) = true := by
  have hall : ∀ k < 0x40, isTail (UInt8.ofNat (k + 0x80)) = true := by decide
  exact hall _ (Nat.mod_lt _ (by decide))

/-- One byte, or a first byte with up to three tail bytes. -/
theorem encodeChar_cases (c : Char) : ∃ b tail, String.utf8EncodeChar c = b :: tail ∧
    isTail b = false ∧ tail.length ≤ 3 ∧ (tail ≠ [] → isLead b = true) ∧
      ∀ t ∈ tail, isTail t = true := by
  have hone : ∀ n < 0x80, isTail (UInt8.ofNat n) = false := by decide
  have htwo : ∀ n < 0x20, isTail (UInt8.ofNat (n + 0xc0)) = false ∧
      isLead (UInt8.ofNat (n + 0xc0)) = true := by decide
  have hthree : ∀ n < 0x10, isTail (UInt8.ofNat (n + 0xe0)) = false ∧
      isLead (UInt8.ofNat (n + 0xe0)) = true := by decide
  have hfour : ∀ n < 0x08, isTail (UInt8.ofNat (n + 0xf0)) = false ∧
      isLead (UInt8.ofNat (n + 0xf0)) = true := by decide
  have hnil : ∀ t ∈ ([] : List UInt8), isTail t = true := fun _ ht => absurd ht List.not_mem_nil
  have hcons (n : Nat) {tail : List UInt8} (h : ∀ t ∈ tail, isTail t = true) :
      ∀ t ∈ UInt8.ofNat (n % 0x40 + 0x80) :: tail, isTail t = true :=
    List.forall_mem_cons.mpr ⟨isTail_tail n, h⟩
  rw [String.utf8EncodeChar]
  split
  case isTrue h =>
    exact ⟨_, [], rfl, hone _ (by omega), by decide, fun hne => absurd rfl hne, hnil⟩
  case isFalse =>
    split
    case isTrue =>
      obtain ⟨htail, hlead⟩ := htwo (c.val.toNat / 64 % 0x20) (Nat.mod_lt _ (by decide))
      exact ⟨_, [_], rfl, htail, show 1 ≤ 3 by decide, fun _ => hlead, hcons _ hnil⟩
    case isFalse =>
      split
      case isTrue =>
        obtain ⟨htail, hlead⟩ := hthree (c.val.toNat / 4096 % 0x10) (Nat.mod_lt _ (by decide))
        exact ⟨_, [_, _], rfl, htail, show 2 ≤ 3 by decide, fun _ => hlead,
          hcons _ (hcons _ hnil)⟩
      case isFalse =>
        obtain ⟨htail, hlead⟩ := hfour (c.val.toNat / 262144 % 0x08) (Nat.mod_lt _ (by decide))
        exact ⟨_, [_, _, _], rfl, htail, Nat.le_refl 3, fun _ => hlead,
          hcons _ (hcons _ (hcons _ hnil))⟩

/-- Characters of one byte. -/
theorem valid_ascii (h : ∀ b ∈ bytes, b.toNat < 0x80) : Valid bytes := by
  induction bytes with
  | nil => exact valid_nil
  | cons b rest ih =>
    obtain ⟨chars, hrest⟩ := ih fun b' hb' => h b' (List.mem_cons_of_mem _ hb')
    have hb := h b List.mem_cons_self
    have hvalid : b.toNat.isValidChar := Or.inl (by omega)
    refine ⟨Char.ofNatAux b.toNat hvalid :: chars, ?_⟩
    have hval : (Char.ofNatAux b.toNat hvalid).val.toNat = b.toNat := rfl
    rw [List.flatMap_cons, ← hrest, String.utf8EncodeChar]
    rw [hval, if_pos (by omega), UInt8.ofNat_toNat]
    rfl

/-- A byte of an encoding with some more bytes behind it. -/
theorem getD_tail {b : UInt8} {tail rest : List UInt8} (htail : ∀ t ∈ tail, isTail t = true)
    {k : Nat} (hpos : 0 < k) (hk : k ≤ tail.length) :
    isTail ((b :: tail ++ rest).getD k 0) = true := by
  obtain ⟨k, rfl⟩ := Nat.exists_eq_succ_of_ne_zero (Nat.ne_of_gt hpos)
  have hlt : k < tail.length := hk
  rw [List.cons_append, List.getD_cons_succ, List.getD_append _ _ _ _ hlt,
    List.getD_eq_getElem _ _ hlt]
  exact htail _ (List.getElem_mem hlt)

/-- A cut before a byte which is no tail byte. -/
theorem Valid.take (h : Valid bytes) (hcut : isTail (bytes.getD pos 0) = false) :
    Valid (bytes.take pos) := by
  obtain ⟨chars, rfl⟩ := h
  induction chars generalizing pos with
  | nil => exact ⟨[], List.take_nil⟩
  | cons c chars ih =>
    obtain ⟨b, tail, hchar, -, -, -, htail⟩ := encodeChar_cases c
    rw [List.flatMap_cons, hchar] at hcut ⊢
    rcases Nat.eq_zero_or_pos pos with rfl | hpos
    · exact valid_nil
    · have hlong : tail.length < pos := by
        by_contra hle
        rw [getD_tail htail hpos (by omega)] at hcut
        exact nomatch hcut
      obtain ⟨k, rfl⟩ : ∃ k, pos = (b :: tail).length + k :=
        ⟨pos - (tail.length + 1), by rw [List.length_cons]; omega⟩
      rw [List.getD_append_right _ _ _ _ (Nat.le_add_right _ _), Nat.add_sub_cancel_left] at hcut
      rw [List.take_length_add_append]
      exact Valid.append ⟨[c], by rw [List.flatMap_singleton, hchar]⟩ (ih hcut)

/-- The first byte of the character to which a tail byte belongs. -/
theorem Valid.lead_before (h : Valid bytes) (hin : pos < bytes.length)
    (htailByte : isTail (bytes.getD pos 0) = true) :
    ∃ r < pos, pos - r ≤ 3 ∧ isLead (bytes.getD r 0) = true ∧
      ∀ k, r < k → k ≤ pos → isTail (bytes.getD k 0) = true := by
  obtain ⟨chars, rfl⟩ := h
  induction chars generalizing pos with
  | nil => exact absurd hin (Nat.not_lt_zero _)
  | cons c chars ih =>
    obtain ⟨b, tail, hchar, hfirst, hlen, hlead, htail⟩ := encodeChar_cases c
    rw [List.flatMap_cons, hchar] at hin htailByte ⊢
    rcases Nat.lt_or_ge tail.length pos with hlong | hshort
    · obtain ⟨k, rfl⟩ : ∃ k, pos = (b :: tail).length + k :=
        ⟨pos - (tail.length + 1), by rw [List.length_cons]; omega⟩
      rw [List.getD_append_right _ _ _ _ (Nat.le_add_right _ _), Nat.add_sub_cancel_left]
        at htailByte
      rw [List.length_append] at hin
      obtain ⟨r, hr, hnear, hleadByte, hbetween⟩ := ih (by omega) htailByte
      refine ⟨(b :: tail).length + r, by omega, by omega, ?_, fun j hj hjk => ?_⟩
      · rwa [List.getD_append_right _ _ _ _ (Nat.le_add_right _ _), Nat.add_sub_cancel_left]
      · obtain ⟨i, rfl⟩ : ∃ i, j = (b :: tail).length + i :=
          ⟨j - (b :: tail).length, by omega⟩
        rw [List.getD_append_right _ _ _ _ (Nat.le_add_right _ _), Nat.add_sub_cancel_left]
        exact hbetween i (by omega) (by omega)
    · have hpos : 0 < pos := by
        by_contra hzero
        obtain rfl : pos = 0 := by omega
        rw [List.cons_append, List.getD_cons_zero, hfirst] at htailByte
        exact nomatch htailByte
      have hne : tail ≠ [] := by
        rintro rfl
        rw [List.length_nil] at hshort
        omega
      exact ⟨0, hpos, by omega, hlead hne, fun k hk hkpos => getD_tail htail hk (by omega)⟩

end Utf8
