import Libisofs.ChecksumRelocation
import Libisofs.Lib.Logged

/-!
# The bytes which get read from a tag

iso_util_decode_md5_tag() hands pointers to functions for strings. These may read up to the
next zero byte. The digits of an MD5 get read without regard to the end of the string.
-/

namespace ChecksumTagReads

open Texts ChecksumTags LoggedComputations

/-- `size` bytes get read from `offset` on. -/
structure Read where
  offset : Nat
  size : Nat

def Inside (r : Read) : Prop := r.offset + r.size ≤ 2048

/-- To return 0 is failure. -/
abbrev Parse := LoggedComputations.Logged Read Unit

section Reading

variable (c : Clib) (data : Bytes)

def orZero {α : Type} : Option α → Parse α
  | none => Logged.fail ()
  | some a => pure a

/-- The place of a pointer. -/
def offset (cpt : Bytes) : Nat := data.length - cpt.length

def inString (b : UInt8) : Bool := b != 0

/-- The bytes up to the next zero byte. -/
def stringSize (cpt : Bytes) : Nat := (cpt.takeWhile inString).length + 1

def readString (cpt : Bytes) : Parse Unit :=
  Logged.record [⟨offset data cpt, stringSize cpt⟩]

/-- `strstr()` -/
def findWord (word cpt : Bytes) : Parse Bytes := do
  readString data cpt
  orZero (strstr word cpt)

def readNumber (cpt : Bytes) : Parse UInt32 := do
  readString data cpt
  orZero (isoUtilDecToUint32 c cpt)

/-- The last pair may be not allowed. -/
def digitsSize (cpt : Bytes) : Nat := 2 * min 16 ((isoUtilHexToBin 16 0 cpt).length + 1)

def readDigits (cpt : Bytes) : Parse Bytes := do
  Logged.record [⟨offset data cpt, digitsSize cpt⟩]
  pure (isoUtilHexToBin 16 c.stale cpt)

def readNext (tagType : Nat) (cpt : Bytes) : Parse (UInt32 × Bytes) :=
  match nextWord tagType with
  | none => pure (0, cpt)
  | some word => do
    let cpt ← findWord data word cpt
    let nextTag ← readNumber c data (cpt.drop word.length)
    pure (nextTag, cpt)

/-- The position is behind the magic text. -/
def posPlace (tagType : Nat) : Bytes := (data.drop ((isoUtilTagMagic tagType).length + 1)).drop 4

/-- The numbers, and the place of the MD5. -/
def readNumbers (tagType : Nat) : Parse ((Bytes → Md5Tag) × Bytes) := do
  let cpt := posPlace data tagType
  let pos ← readNumber c data cpt
  let cpt ← findWord data (text "range_start=") cpt
  let rangeStart ← readNumber c data (cpt.drop 12)
  let cpt ← findWord data (text "range_size=") cpt
  let rangeSize ← readNumber c data (cpt.drop 11)
  let (nextTag, cpt) ← readNext c data tagType cpt
  let cpt ← findWord data (text "md5=") cpt
  pure (fun md5 => ⟨tagType, pos, rangeStart, rangeSize, nextTag, md5⟩, cpt)

def startsTag (tagType : Nat) : Bool :=
  (text "pos=").isPrefixOf (data.drop ((isoUtilTagMagic tagType).length + 1))

def readTag (tagType : Nat) : Parse (Md5Tag × Bytes) := do
  Logged.record [⟨(isoUtilTagMagic tagType).length + 1, 4⟩]
  orZero (guard (startsTag data tagType))
  let (tag, cpt) ← readNumbers c data tagType
  let md5 ← readDigits c data (cpt.drop 4)
  orZero (guard (md5.length = 16))
  pure (tag md5, cpt.drop (4 + 32))

/-- The text up to `cpt` has a checksum, and behind this is the end of the line. -/
def readSelf (cpt : Bytes) : Parse Int := do
  Logged.record [⟨0, offset data cpt⟩]
  readString data cpt
  match strstr (text "self=") cpt with
  | none => pure 0
  | some self => do
    let selfMd5 ← readDigits c data (self.drop 5)
    if selfMd5.length ≠ 16 then pure 0
    else if selfMd5 ≠ md5 (data.take (data.length - cpt.length)) then pure isoMd5AreaCorrupted
    else do
      Logged.record [⟨offset data self + (5 + 32), 1⟩]
      pure (if self.getD (5 + 32) 0 ≠ charByte '\n' then 0 else 1)

def tagTypes (mode : Nat) : List Nat := if mode = 0 then [1, 2, 3, 4] else [mode]

def findType (mode : Nat) : Option Nat :=
  (tagTypes mode).find? fun i => (isoUtilTagMagic i).isPrefixOf data

/-- `iso_util_decode_md5_tag()` with the bytes which it reads. -/
def decodeReads (mode : Nat) : Parse (Int × Option Md5Tag) :=
  if 4 < mode then pure (isoWrongArgValue, none)
  else do
    Logged.record ((tagTypes mode).map fun i => ⟨0, (isoUtilTagMagic i).length⟩)
    let tagType ← orZero (findType data mode)
    let (tag, cpt) ← readTag c data tagType
    let ret ← readSelf c data cpt
    pure (ret, some tag)

end Reading

section Values

variable {c : Clib} {data : Bytes}

theorem value_orZero {α : Type} (x : Option α) : (orZero x).result.toOption = x := by
  cases x with
  | none => rfl
  | some a => rfl

theorem value_findWord {word cpt : Bytes} :
    (findWord data word cpt).result.toOption = strstr word cpt := by
  rw [findWord, Logged.value_bind, value_orZero]
  rfl

theorem value_readNumber {cpt : Bytes} :
    (readNumber c data cpt).result.toOption = isoUtilDecToUint32 c cpt := by
  rw [readNumber, Logged.value_bind, value_orZero]
  rfl

theorem value_readNext {tagType : Nat} {cpt : Bytes} :
    (readNext c data tagType cpt).result.toOption = parseNext c tagType cpt := by
  rw [readNext, parseNext]
  cases nextWord tagType with
  | none => rfl
  | some word =>
    simp only [Logged.value_bind, value_findWord, value_readNumber]
    rfl

theorem value_readDigits {cpt : Bytes} :
    (readDigits c data cpt).result.toOption = some (isoUtilHexToBin 16 c.stale cpt) := rfl

theorem value_readTag {tagType : Nat} :
    (readTag c data tagType).result.toOption = parseTag c tagType data := by
  rw [readTag, parseTag, readNumbers]
  simp only [Logged.value_bind, value_orZero, value_findWord, value_readNumber, value_readNext,
    Logged.value_record, Logged.value_pure, value_readDigits, Option.bind_some, Option.bind_assoc,
    Option.bind_eq_bind]
  rfl

end Values

section Strings

variable {c : Clib} {data cpt place word : Bytes}

/-- The place is in the string, or at its end. -/
def WithinString (cpt place : Bytes) : Prop :=
  ∃ k, k ≤ (cpt.takeWhile inString).length ∧ place = cpt.drop k

theorem WithinString.refl (cpt : Bytes) : WithinString cpt cpt := ⟨0, Nat.zero_le _, rfl⟩

theorem length_takeWhile_drop {k : Nat} (h : k ≤ (cpt.takeWhile inString).length) :
    ((cpt.drop k).takeWhile inString).length + k = (cpt.takeWhile inString).length := by
  induction cpt generalizing k with
  | nil =>
    obtain rfl := Nat.le_zero.mp h
    rfl
  | cons b rest ih =>
    cases k with
    | zero => rfl
    | succ k =>
      by_cases hb : inString b = true
      · rw [List.takeWhile_cons_of_pos hb] at h ⊢
        rw [List.drop_succ_cons, List.length_cons, ← ih (Nat.le_of_succ_le_succ h)]
        rfl
      · rw [List.takeWhile_cons_of_neg hb] at h
        cases h

theorem WithinString.trans {later : Bytes} (h : WithinString cpt place)
    (h' : WithinString place later) : WithinString cpt later := by
  obtain ⟨k, hk, rfl⟩ := h
  obtain ⟨j, hj, rfl⟩ := h'
  have hsum := length_takeWhile_drop hk
  refine ⟨k + j, by omega, ?_⟩
  rw [List.drop_drop]

/-- Where a string ends does not depend on the place in it. -/
def stringEnd (data cpt : Bytes) : Nat := offset data cpt + stringSize cpt

theorem WithinString.stringEnd_eq (h : WithinString cpt place) (hle : cpt.length ≤ data.length) :
    stringEnd data place = stringEnd data cpt := by
  obtain ⟨k, hk, rfl⟩ := h
  have hsum := length_takeWhile_drop hk
  have hlength : (cpt.takeWhile inString).length ≤ cpt.length :=
    (List.takeWhile_prefix _).length_le
  rw [stringEnd, stringEnd, offset, offset, stringSize, stringSize, List.length_drop]
  omega

/-- A word which gets found belongs to the string. -/
theorem strstr_within (hword : 0 ∉ word) (h : strstr word cpt = some place) :
    ∀ j ≤ word.length, WithinString cpt (place.drop j) := by
  induction cpt with
  | nil => cases h
  | cons b rest ih =>
    rw [strstr] at h
    split at h
    next => cases h
    next hb =>
      have hne : inString b = true := bne_iff_ne.mpr hb
      split at h
      next hprefix =>
        obtain rfl := Option.some.inj h
        intro j hj
        obtain ⟨tail, htail⟩ := List.isPrefixOf_iff_prefix.mp hprefix
        refine ⟨j, ?_, rfl⟩
        have hall : ∀ a ∈ word, inString a = true := fun a ha =>
          bne_iff_ne.mpr fun hzero => hword (hzero ▸ ha)
        rw [← htail, List.takeWhile_append_of_pos hall, List.length_append]
        omega
      next =>
        intro j hj
        obtain ⟨k, hk, hdrop⟩ := ih h j hj
        refine ⟨k + 1, ?_, hdrop⟩
        rw [List.takeWhile_cons_of_pos hne]
        exact Nat.succ_le_succ hk

end Strings

section Bounds

variable {c : Clib} {data cpt place word : Bytes} {tagType mode : Nat}

theorem emits_readString : Emits Inside (readString data cpt) ↔ stringEnd data cpt ≤ 2048 := by
  simp only [readString, emits_record, List.mem_singleton, forall_eq]
  rfl

theorem emits_orZero {α : Type} (x : Option α) : Emits Inside (orZero x) := by
  cases x with
  | none => exact emits_fail _
  | some a => exact emits_pure _

theorem emits_findWord : Emits Inside (findWord data word cpt) ↔ stringEnd data cpt ≤ 2048 := by
  rw [findWord, emits_bind_iff, emits_readString]
  exact and_iff_left fun _ _ => emits_orZero _

theorem emits_readNumber : Emits Inside (readNumber c data cpt) ↔ stringEnd data cpt ≤ 2048 := by
  rw [readNumber, emits_bind_iff, emits_readString]
  exact and_iff_left fun _ _ => emits_orZero _

theorem findWord_ok : (findWord data word cpt).result = .ok place ↔
    strstr word cpt = some place := by
  rw [Logged.result_eq_ok, value_findWord]

/-- The words for which the decoder looks. -/
theorem nextWord_plain (h : nextWord tagType = some word) : 0 ∉ word := by
  rw [nextWord] at h
  split at h
  · obtain rfl := Option.some.inj h
    decide
  · split at h
    · obtain rfl := Option.some.inj h
      decide
    · cases h

/-- All reads are in the string of the place, and so is the result. -/
structure Stays {α : Type} (data cpt : Bytes) (x : Parse α) (result : α → Bytes) : Prop where
  emits : stringEnd data cpt ≤ 2048 → Emits Inside x
  within : ∀ a, x.result = .ok a → WithinString cpt (result a)

theorem stays_findWord (hword : 0 ∉ word) (hle : cpt.length ≤ data.length)
    (h : WithinString cpt place) : Stays data cpt (findWord data word place) id where
  emits hend := emits_findWord.mpr ((h.stringEnd_eq hle).le.trans hend)
  within later hok := by
    have hfound := strstr_within hword (findWord_ok.mp hok) 0 (Nat.zero_le _)
    exact h.trans hfound

theorem emits_numberBehind (hword : 0 ∉ word) (hle : cpt.length ≤ data.length)
    (h : WithinString cpt place) {later : Bytes}
    (hok : (findWord data word place).result = .ok later) (hend : stringEnd data cpt ≤ 2048) :
    Emits Inside (readNumber c data (later.drop word.length)) := by
  have hfound := h.trans (strstr_within hword (findWord_ok.mp hok) word.length le_rfl)
  exact emits_readNumber.mpr ((hfound.stringEnd_eq hle).le.trans hend)

theorem stays_readNext (hle : cpt.length ≤ data.length) (h : WithinString cpt place) :
    Stays data cpt (readNext c data tagType place) Prod.snd := by
  rw [readNext]
  split
  next =>
    constructor
    case emits => exact fun _ => emits_pure _
    case within =>
      intro a hok
      obtain rfl := Except.ok.inj hok
      exact h
  next word hsome =>
    have hword := nextWord_plain hsome
    have hfind := @stays_findWord data cpt place word hword hle h
    constructor
    case emits =>
      intro hend
      refine Emits.bind (hfind.emits hend) fun later hok => ?_
      refine Emits.bind (emits_numberBehind hword hle h hok hend) fun _ _ => emits_pure _
    case within =>
      intro a hok
      obtain ⟨later, hlater, hrest⟩ := Logged.result_bind_eq_ok.mp hok
      obtain ⟨number, -, heq⟩ := Logged.result_bind_eq_ok.mp hrest
      obtain rfl := Except.ok.inj heq
      exact hfind.within later hlater

theorem length_posPlace : (posPlace data tagType).length ≤ data.length := by
  rw [posPlace, List.length_drop, List.length_drop]
  omega

/-- If the string of the position ends in the block, then so do the other numbers. -/
theorem emits_readNumbers : Emits Inside (readNumbers c data tagType) ↔
    stringEnd data (posPlace data tagType) ≤ 2048 := by
  have hle := @length_posPlace data tagType
  rw [readNumbers]
  constructor
  · intro h
    exact emits_readNumber.mp (emits_bind_iff.mp h).1
  · intro hend
    have hstart : (0 : UInt8) ∉ text "range_start=" := by decide
    have hsize : (0 : UInt8) ∉ text "range_size=" := by decide
    have hmd5 : (0 : UInt8) ∉ text "md5=" := by decide
    have hfirst := WithinString.refl (posPlace data tagType)
    refine Emits.bind (emits_readNumber.mpr hend) fun pos _ => ?_
    have hfind1 := stays_findWord hstart hle hfirst
    refine Emits.bind (hfind1.emits hend) fun place1 hok1 => ?_
    refine Emits.bind (emits_numberBehind hstart hle hfirst hok1 hend) fun rangeStart _ => ?_
    have hwithin := hfind1.within place1 hok1
    have hfind2 := stays_findWord hsize hle hwithin
    refine Emits.bind (hfind2.emits hend) fun place2 hok2 => ?_
    refine Emits.bind (emits_numberBehind hsize hle hwithin hok2 hend) fun rangeSize _ => ?_
    have hnext := @stays_readNext c data _ _ tagType hle (hfind2.within place2 hok2)
    refine Emits.bind (hnext.emits hend) fun next hok3 => ?_
    have hfind3 := stays_findWord hmd5 hle (hnext.within next hok3)
    exact Emits.bind (hfind3.emits hend) fun _ _ => emits_pure _

/-- Where the digits end which get read. -/
def digitsEnd (data cpt : Bytes) : Nat := offset data cpt + digitsSize cpt

theorem emits_readDigits : Emits Inside (readDigits c data cpt) ↔ digitsEnd data cpt ≤ 2048 := by
  rw [readDigits, emits_bind_iff, emits_record]
  simp only [List.mem_singleton, forall_eq, emits_pure, implies_true, and_true]
  rfl

theorem guard_ok {p : Prop} [Decidable p] {a : Unit} :
    (orZero (guard p)).result = .ok a ↔ p := by
  rw [Logged.result_eq_ok, value_orZero]
  by_cases h : p
  · simp [h, guard]
  · simp [h, guard]

/-- The MD5 of the text and the byte behind it are in the block. -/
structure SelfInside (c : Clib) (data cpt : Bytes) : Prop where
  closed : stringEnd data cpt ≤ 2048
  digits : ∀ self, strstr (text "self=") cpt = some self → digitsEnd data (self.drop 5) ≤ 2048
  lineEnd : ∀ self, strstr (text "self=") cpt = some self →
    (isoUtilHexToBin 16 c.stale (self.drop 5)).length = 16 →
      isoUtilHexToBin 16 c.stale (self.drop 5) = md5 (data.take (data.length - cpt.length)) →
        offset data self + (5 + 32) + 1 ≤ 2048

theorem emits_readSelf : Emits Inside (readSelf c data cpt) ↔ SelfInside c data cpt := by
  have hstart : Emits Inside (Logged.record [⟨0, offset data cpt⟩] : Parse Unit) ↔
      offset data cpt ≤ 2048 := by
    simp only [emits_record, List.mem_singleton, forall_eq, Inside, Nat.zero_add]
  have hle : stringEnd data cpt ≤ 2048 → offset data cpt ≤ 2048 := (Nat.le_add_right _ _).trans
  rw [readSelf]
  simp only [emits_bind_iff, hstart, emits_readString, Logged.result_record]
  constructor
  · rintro ⟨-, hrest⟩
    obtain ⟨hclosed, hself⟩ := hrest () trivial
    have hself := hself () rfl
    constructor
    case closed => exact hclosed
    case digits =>
      intro self hfound
      rw [hfound] at hself
      exact emits_readDigits.mp (emits_bind_iff.mp hself).1
    case lineEnd =>
      intro self hfound hlength hsame
      rw [hfound] at hself
      have hline := (emits_bind_iff.mp hself).2 _ rfl
      rw [if_neg (not_not.mpr hlength), if_neg (not_not.mpr hsame)] at hline
      exact (emits_bind_iff.mp hline).1 _ List.mem_cons_self
  · intro h
    refine ⟨hle h.closed, fun _ _ => ⟨h.closed, fun _ _ => ?_⟩⟩
    split
    next => exact emits_pure _
    next self hfound =>
      refine Emits.bind (emits_readDigits.mpr (h.digits self hfound)) fun selfMd5 hok => ?_
      obtain rfl := Except.ok.inj hok
      split
      next => exact emits_pure _
      next hlength =>
        split
        next => exact emits_pure _
        next hsame =>
          refine Emits.bind (emits_record.mpr ?_) fun _ _ => emits_pure _
          intro w hw
          rw [List.mem_singleton.mp hw]
          exact h.lineEnd self hfound (not_not.mp hlength) (not_not.mp hsame)

/-- The strings and digits of a block which begins like a tag end inside of the block. -/
structure TagInside (c : Clib) (data : Bytes) (mode : Nat) : Prop where
  closed : ∀ tagType, findType data mode = some tagType → startsTag data tagType = true →
    stringEnd data (posPlace data tagType) ≤ 2048
  digits : ∀ tagType tag place, findType data mode = some tagType →
    startsTag data tagType = true → (readNumbers c data tagType).result = .ok (tag, place) →
      digitsEnd data (place.drop 4) ≤ 2048
  self : ∀ tagType tag cpt, findType data mode = some tagType →
    parseTag c tagType data = some (tag, cpt) → SelfInside c data cpt

theorem magic_short (tagType : Nat) : (isoUtilTagMagic tagType).length ≤ 31 := by
  unfold isoUtilTagMagic
  split
  all_goals decide

theorem readTag_ok {tag : Md5Tag} : (readTag c data tagType).result = .ok (tag, cpt) ↔
    parseTag c tagType data = some (tag, cpt) := by
  rw [Logged.result_eq_ok, value_readTag]

theorem emits_readTag : Emits Inside (readTag c data tagType) ↔
    (startsTag data tagType = true → stringEnd data (posPlace data tagType) ≤ 2048) ∧
      ∀ tag place, startsTag data tagType = true →
        (readNumbers c data tagType).result = .ok (tag, place) →
          digitsEnd data (place.drop 4) ≤ 2048 := by
  have hmagic := magic_short tagType
  have hpos : Emits Inside (Logged.record
      [⟨(isoUtilTagMagic tagType).length + 1, 4⟩] : Parse Unit) := by
    intro w hw
    rw [List.mem_singleton.mp hw]
    exact show (isoUtilTagMagic tagType).length + 1 + 4 ≤ 2048 by omega
  rw [readTag]
  simp only [emits_bind_iff, hpos, true_and, Logged.result_record, emits_orZero, guard_ok,
    emits_readNumbers, emits_readDigits]
  constructor
  · intro h
    constructor
    · exact fun hstarts => (h () trivial () hstarts).1
    · exact fun tag place hstarts hok => ((h () trivial () hstarts).2 (tag, place) hok).1
  · rintro ⟨hclosed, hdigits⟩ _ _ _ hstarts
    refine ⟨hclosed hstarts, fun found hok => ⟨hdigits found.1 found.2 hstarts hok, ?_⟩⟩
    exact fun md5 _ _ _ => emits_pure _

/-- The decoder stays in its block under this condition, and otherwise it does not. -/
theorem emits_decodeReads (hmode : mode ≤ 4) :
    Emits Inside (decodeReads c data mode) ↔ TagInside c data mode := by
  have hmagic : Emits Inside (Logged.record
      ((tagTypes mode).map fun i => ⟨0, (isoUtilTagMagic i).length⟩) : Parse Unit) := by
    intro w hw
    obtain ⟨i, -, rfl⟩ := List.mem_map.mp hw
    have hshort := magic_short i
    exact show 0 + (isoUtilTagMagic i).length ≤ 2048 by omega
  have htype (tagType : Nat) : (orZero (findType data mode)).result = .ok tagType ↔
      findType data mode = some tagType := by rw [Logged.result_eq_ok, value_orZero]
  rw [decodeReads, if_neg (Nat.not_lt.mpr hmode)]
  simp only [emits_bind_iff, hmagic, true_and, Logged.result_record, emits_orZero, htype,
    emits_readTag, emits_readSelf]
  constructor
  · intro h
    constructor
    case closed => exact fun tagType hfound => (h () trivial tagType hfound).1.1
    case digits =>
      intro tagType tag place hfound
      exact (h () trivial tagType hfound).1.2 tag place
    case self =>
      intro tagType tag cpt hfound hparse
      exact ((h () trivial tagType hfound).2 (tag, cpt) (readTag_ok.mpr hparse)).1
  · intro h _ _ tagType hfound
    refine ⟨⟨h.closed tagType hfound, fun tag place => h.digits tagType tag place hfound⟩, ?_⟩
    rintro ⟨tag, cpt⟩ hok
    exact ⟨h.self tagType tag cpt hfound (readTag_ok.mp hok), fun _ _ => emits_pure _⟩

end Bounds

end ChecksumTagReads
