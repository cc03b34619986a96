import Libisofs.ChecksumTags

/-!
# Tags are read as they were written

The words of the text of a tag do not occur in front of their places. So the search of
iso_util_decode_md5_tag() finds the parameters which iso_md5_write_tag() wrote.
-/

namespace ChecksumTags

open Texts

variable {c : Clib} {tag : Md5Tag} {rest : Bytes}

theorem length_md5 (message : Bytes) : (md5 message).length = 16 := Rfc1321.length_md5 message

theorem dec_decimal (n : UInt32) :
    isoUtilDecToUint32 c (decimal n.toNat ++ (text " " ++ rest)) = some n := by
  have hlt := n.toNat_lt
  have hscan : Doubles.scanDouble (decimal n.toNat ++ (text " " ++ rest)) = some (n.toNat : ℚ) :=
    Doubles.scanDouble_decimal (by omega) rest
  have hneg : ¬ ((n.toNat : ℚ) < 0 ∨ 4294967295 < (n.toNat : ℚ)) := by
    rintro (h | h)
    · exact absurd h (not_lt.mpr Rat.natCast_nonneg)
    · have : 4294967295 < n.toNat := by exact_mod_cast h
      omega
  have hfloor : ((n.toNat : ℚ)).floor.toNat = n.toNat := by
    rw [← Rat.intCast_natCast, Rat.floor_intCast, Int.toNat_natCast]
  simp only [isoUtilDecToUint32, hscan, Option.getD_some, if_neg hneg, hfloor, UInt32.ofNat_toNat]

/-! ## Hexadecimal text -/

theorem hexByte_read (b : UInt8) : isAllowed (hexDigits.getD (b.toNat / 16) 0) = true ∧
    isAllowed (hexDigits.getD (b.toNat % 16) 0) = true ∧
      ∀ u, scanHex u (hexDigits.getD (b.toNat / 16) 0) (hexDigits.getD (b.toNat % 16) 0) =
        b.toNat := by
  have hlt := b.toNat_lt
  obtain ⟨-, hhi⟩ := hexValue_digit (b.toNat / 16) (by omega)
  obtain ⟨-, hlo⟩ := hexValue_digit (b.toNat % 16) (by omega)
  refine ⟨by rw [isAllowed, hhi, Option.isSome_some, Bool.or_true],
    by rw [isAllowed, hlo, Option.isSome_some, Bool.or_true], fun u => ?_⟩
  simp only [scanHex, hhi, hlo]
  omega

theorem hexToBin_hex (bytes : Bytes) (u : Nat) :
    isoUtilHexToBin bytes.length u (hex bytes ++ rest) = bytes := by
  induction bytes generalizing u with
  | nil => rfl
  | cons b bytes ih =>
    obtain ⟨hhi, hlo, hscan⟩ := hexByte_read b
    have htext : hex (b :: bytes) ++ rest = hexDigits.getD (b.toNat / 16) 0 ::
        hexDigits.getD (b.toNat % 16) 0 :: (hex bytes ++ rest) := by
      rw [hex, List.flatMap_cons, List.append_assoc]
      rfl
    have h₀ : (hexDigits.getD (b.toNat / 16) 0 :: hexDigits.getD (b.toNat % 16) 0 ::
        (hex bytes ++ rest)).getD 0 0 = hexDigits.getD (b.toNat / 16) 0 := rfl
    have h₁ : (hexDigits.getD (b.toNat / 16) 0 :: hexDigits.getD (b.toNat % 16) 0 ::
        (hex bytes ++ rest)).getD 1 0 = hexDigits.getD (b.toNat % 16) 0 := rfl
    rw [htext, List.length_cons, isoUtilHexToBin]
    simp only [h₀, h₁, hhi, hlo, hscan, Bool.and_self, if_true, UInt8.ofNat_toNat]
    exact congrArg _ (ih b.toNat)

theorem hexToBin_md5 {bytes : Bytes} (h : bytes.length = 16) (u : Nat) :
    isoUtilHexToBin 16 u (hex bytes ++ rest) = bytes := by
  rw [← h]
  exact hexToBin_hex bytes u

/-! ## Parameters -/

/-- The texts from the words on. -/
def atMd5 (tag : Md5Tag) (rest : Bytes) : Bytes := text "md5=" ++ (hex tag.md5 ++ rest)

def atNext (tag : Md5Tag) (rest : Bytes) : Bytes :=
  match nextWord tag.tagType with
  | none => atMd5 tag rest
  | some word => word ++ (decimal tag.nextTag.toNat ++ (text " " ++ atMd5 tag rest))

def atSize (tag : Md5Tag) (rest : Bytes) : Bytes :=
  text "range_size=" ++ (decimal tag.rangeSize.toNat ++ (text " " ++ atNext tag rest))

def atStart (tag : Md5Tag) (rest : Bytes) : Bytes :=
  text "range_start=" ++ (decimal tag.rangeStart.toNat ++ (text " " ++ atSize tag rest))

theorem parameterText_eq (tag : Md5Tag) (rest : Bytes) : parameterText tag ++ rest =
    isoUtilTagMagic tag.tagType ++ (text " pos=" ++
      (decimal tag.pos.toNat ++ (text " " ++ atStart tag rest))) := by
  have hnext : nextText tag ++ (text " md5=" ++ (hex tag.md5 ++ rest)) =
      text " " ++ atNext tag rest := by
    unfold nextText atNext
    cases nextWord tag.tagType with
    | none => rfl
    | some word =>
      simp only [List.append_assoc]
      rfl
  simp only [parameterText, List.append_assoc, hnext]
  rfl

theorem strstr_start (pos : UInt32) : strstr (text "range_start=")
    (decimal pos.toNat ++ (text " " ++ atStart tag rest)) = some (atStart tag rest) := by
  rw [strstr_skips (skips_decimal (by decide) _), strstr_skips (by decide)]
  exact strstr_here (by decide) (by decide)

theorem strstr_size : strstr (text "range_size=") (atStart tag rest) =
    some (atSize tag rest) := by
  rw [atStart, strstr_skips (by decide), strstr_skips (skips_decimal (by decide) _),
    strstr_skips (by decide)]
  exact strstr_here (by decide) (by decide)

theorem nextWord_cases (tagType : Nat) : nextWord tagType = none ∨
    nextWord tagType = some (text "next=") ∨ nextWord tagType = some (text "session_start=") := by
  unfold nextWord
  split_ifs <;> simp

theorem parseNext_eq (hnext : nextWord tag.tagType = none → tag.nextTag = 0) :
    ∃ cpt, parseNext c tag.tagType (atSize tag rest) = some (tag.nextTag, cpt) ∧
      strstr (text "md5=") cpt = some (atMd5 tag rest) := by
  have hmd5 : strstr (text "md5=") (atMd5 tag rest) = some (atMd5 tag rest) :=
    strstr_here (by decide) (by decide)
  -- the word is found behind the range size, and the MD5 behind the number
  have hword : ∀ word, nextWord tag.tagType = some word → word ≠ [] → 0 ∉ word →
      skips word (text "range_size=") = true → skips word (text " ") = true →
      (∀ n, skips word (decimal n) = true) → skips (text "md5=") word = true →
      ∃ cpt, parseNext c tag.tagType (atSize tag rest) = some (tag.nextTag, cpt) ∧
        strstr (text "md5=") cpt = some (atMd5 tag rest) := by
    intro word hword hne hzero hsize hblank hdecimal hmd5word
    refine ⟨word ++ (decimal tag.nextTag.toNat ++ (text " " ++ atMd5 tag rest)), ?_, ?_⟩
    · have hfind : strstr word (atSize tag rest) =
          some (word ++ (decimal tag.nextTag.toNat ++ (text " " ++ atMd5 tag rest))) := by
        rw [atSize, strstr_skips hsize, strstr_skips (hdecimal _), strstr_skips hblank, atNext,
          hword]
        exact strstr_here hne hzero
      simp only [parseNext, hword, hfind, Option.bind_eq_bind, Option.bind_some,
        List.drop_left, dec_decimal]
      rfl
    · rw [strstr_skips hmd5word, strstr_skips (skips_decimal (by decide) _),
        strstr_skips (by decide)]
      exact hmd5
  rcases nextWord_cases tag.tagType with h | h | h
  · refine ⟨atSize tag rest, ?_, ?_⟩
    · simp only [parseNext, h, hnext h]
    · rw [atSize, strstr_skips (by decide), strstr_skips (skips_decimal (by decide) _),
        strstr_skips (by decide), atNext, h]
      exact hmd5
  · exact hword _ h (by decide) (by decide) (by decide) (by decide)
      (fun n => skips_decimal (by decide) n) (by decide)
  · exact hword _ h (by decide) (by decide) (by decide) (by decide)
      (fun n => skips_decimal (by decide) n) (by decide)

theorem parseTag_eq (hmd5 : tag.md5.length = 16)
    (hnext : nextWord tag.tagType = none → tag.nextTag = 0) :
    parseTag c tag.tagType (parameterText tag ++ rest) = some (tag, rest) := by
  obtain ⟨cpt, hparse, hfind⟩ := @parseNext_eq c tag rest hnext
  have hdrop : (parameterText tag ++ rest).drop ((isoUtilTagMagic tag.tagType).length + 1) =
      text "pos=" ++ (decimal tag.pos.toNat ++ (text " " ++ atStart tag rest)) := by
    rw [parameterText_eq, List.drop_append, List.drop_of_length_le (by omega), List.nil_append,
      Nat.add_sub_cancel_left]
    rfl
  have hpos : (text "pos=").isPrefixOf
      (text "pos=" ++ (decimal tag.pos.toNat ++ (text " " ++ atStart tag rest))) = true :=
    List.isPrefixOf_iff_prefix.mpr (List.prefix_append _ _)
  have hfour : (text "pos=" ++ (decimal tag.pos.toNat ++ (text " " ++ atStart tag rest))).drop 4 =
      decimal tag.pos.toNat ++ (text " " ++ atStart tag rest) := rfl
  have hstart : (atStart tag rest).drop 12 =
      decimal tag.rangeStart.toNat ++ (text " " ++ atSize tag rest) := rfl
  have hsize : (atSize tag rest).drop 11 =
      decimal tag.rangeSize.toNat ++ (text " " ++ atNext tag rest) := rfl
  have hhex : (atMd5 tag rest).drop 4 = hex tag.md5 ++ rest := rfl
  have hend : (atMd5 tag rest).drop (4 + 32) = rest := by
    rw [← List.drop_drop, hhex]
    have hlen : (hex tag.md5).length = 32 := by rw [length_hex, hmd5]
    rw [← hlen, List.drop_left]
  simp only [parseTag, hdrop, hpos, guard_true, hfour, dec_decimal, strstr_start, hstart,
    strstr_size, hsize, hparse, hfind, hhex, hexToBin_md5 hmd5, hmd5, hend, Option.bind_eq_bind,
    Option.bind_some, Option.pure_def]

theorem tagText_eq (tag : Md5Tag) (rest : Bytes) : tagText tag ++ rest = parameterText tag ++
    (text " self=" ++ hex (md5 (parameterText tag)) ++ text "\n" ++ rest) := by
  simp only [tagText, List.append_assoc]

theorem checkSelf_eq : checkSelf c (tagText tag ++ rest)
    (text " self=" ++ hex (md5 (parameterText tag)) ++ text "\n" ++ rest) = 1 := by
  have hself : strstr (text "self=")
      (text " self=" ++ hex (md5 (parameterText tag)) ++ text "\n" ++ rest) =
        some (text "self=" ++ (hex (md5 (parameterText tag)) ++ (text "\n" ++ rest))) := by
    have hsplit : text " self=" ++ hex (md5 (parameterText tag)) ++ text "\n" ++ rest =
        text " " ++ (text "self=" ++ (hex (md5 (parameterText tag)) ++ (text "\n" ++ rest))) := by
      simp only [List.append_assoc]
      rfl
    rw [hsplit, strstr_skips (by decide)]
    exact strstr_here (by decide) (by decide)
  have hchecked : (tagText tag ++ rest).take ((tagText tag ++ rest).length -
      (text " self=" ++ hex (md5 (parameterText tag)) ++ text "\n" ++ rest).length) =
        parameterText tag := by
    rw [tagText_eq, List.length_append, Nat.add_sub_cancel, List.take_left]
  have hlen : (hex (md5 (parameterText tag))).length = 32 := by rw [length_hex, length_md5]
  have hdrop : (text "self=" ++ (hex (md5 (parameterText tag)) ++ (text "\n" ++ rest))).drop 5 =
      hex (md5 (parameterText tag)) ++ (text "\n" ++ rest) := rfl
  have hlast : (text "self=" ++ (hex (md5 (parameterText tag)) ++ (text "\n" ++ rest))).getD
      (5 + 32) 0 = charByte '\n' := by
    rw [List.getD_eq_getElem?_getD, ← List.getElem?_drop, hdrop,
      List.getElem?_append_right (by rw [hlen]), hlen]
    rfl
  simp only [checkSelf, hself, hdrop, hexToBin_md5 (length_md5 _), length_md5, hchecked, hlast,
    ne_eq, not_true_eq_false, if_false]

/-! ## Whole tags -/

theorem find_magic (htype : tag.tagType ∈ [1, 2, 3, 4]) :
    [1, 2, 3, 4].find? (fun i => (isoUtilTagMagic i).isPrefixOf (tagText tag ++ rest)) =
      some tag.tagType := by
  rw [tagText_eq, parameterText_eq]
  generalize tag.tagType = tagType at htype
  simp only [List.mem_cons, List.not_mem_nil, or_false] at htype
  rcases htype with rfl | rfl | rfl | rfl <;> rfl

/-- Each tag text is decoded to what it was made from, whatever follows. -/
theorem decode_tagText (htype : tag.tagType ∈ [1, 2, 3, 4]) (hmd5 : tag.md5.length = 16)
    (hnext : nextWord tag.tagType = none → tag.nextTag = 0) :
    isoUtilDecodeMd5Tag c (tagText tag ++ rest) 0 = (1, some tag) := by
  have hparse : parseTag c tag.tagType (tagText tag ++ rest) = some (tag,
      text " self=" ++ hex (md5 (parameterText tag)) ++ text "\n" ++ rest) := by
    rw [tagText_eq]
    exact parseTag_eq hmd5 hnext
  simp only [isoUtilDecodeMd5Tag, Nat.not_lt_zero, if_false, if_true, find_magic htype, hparse,
    checkSelf_eq]

end ChecksumTags
