import Libisofs.Lib.Texts
import Libisofs.Lib.Utf8
import Libisofs.Md5Digest

/-!
# Truncation of names

iso_truncate_rr_name() overwrites the end of a long name by a colon and the MD5 of the name. A
character which gets cut by this becomes a row of underscores. The length of the name is taken as
int, which is wrong from 2 GiB on.
-/

namespace NameTruncation

open ByteBuffers Texts Utf8 Md5

/-- `strlen()` as int. -/
def intLength (name : Bytes) : Int :=
  let l : Nat := name.length % 2 ^ 32
  if l < 2 ^ 31 then l else l - 2 ^ 32

/-- The first byte of a character, up to the deprecated 6-byte codes. -/
def isStart (uch : UInt8) : Bool :=
  uch &&& 0xe0 == 0xc0 || uch &&& 0xf0 == 0xe0 || uch &&& 0xf8 == 0xf0 || uch &&& 0xfc == 0xf8 ||
    uch &&& 0xfe == 0xfc

def startLoop (uname : Buffer) (idx : Nat) : (turns i : Nat) → Nat
  | 0, _ => idx
  | turns + 1, i =>
    if idx < i + 1 then idx
    else
      let uch := uname (idx - 1 - i)
      if isStart uch then idx - 1 - i
      else if !isTail uch then idx
      else startLoop uname idx turns (i + 1)

def findUtf8Start (uname : Buffer) (idx : Nat) : Nat :=
  if !isTail (uname idx) then idx else startLoop uname idx 5 0

def hashSize : Nat := 32

/-- The loop over the bytes of the hash. sprintf() puts a zero after the two digits. -/
def writeHash (hashval : Bytes) (truncateLength : Nat) : (turns i goal : Nat) → Buffer → Buffer
  | 0, _, _, name => name
  | turns + 1, i, goal, name =>
    if goal < truncateLength - 1 then
      writeHash hashval truncateLength turns (i + 1) (goal + 2)
        (patch name goal (hexByte (hashval.getD i 0) ++ [0]))
    else name

/-- The string in the memory of a string of length `n`. -/
def cString (name : Buffer) (n : Nat) : Bytes := (slice name 0 n).takeWhile (· != 0)

def isoSuccess : Int := 1

def isoRrNameTooLong : Int := 0xE830FE87 - 2 ^ 32

/-- The return value and the string which is then in `name`. There is no result if the loops of
the MD5 code leave their ranges. -/
def isoTruncateRrName (mem : Memory) (truncateMode : Int) (truncateLength : Nat) (name : Bytes) :
    Option (Int × Bytes) :=
  let l := intLength name
  if l ≤ truncateLength then some (isoSuccess, name)
  else if truncateMode = 0 then some (isoRrNameTooLong, name)
  else
    (checksum mem [.compute (name.take (if 4095 < l then 4095 else l.toNat))]).map fun (hashval, _) =>
      let goal := truncateLength - hashSize - 1
      let neck := findUtf8Start (bufferOf name) goal
      let text := copyInto (bufferOf name) neck (goal - neck) fun _ => charByte '_'
      let text := Function.update text goal (charByte ':')
      let text := writeHash hashval truncateLength (hashSize / 2) 0 (goal + 1) text
      let text := Function.update text truncateLength 0
      (isoSuccess, cString text name.length)

/-- A character begins at `neck` and has a byte at `goal`, too. -/
def CutAt (name : Buffer) (neck goal : Nat) : Prop :=
  neck < goal ∧ goal - neck ≤ 5 ∧ isStart (name neck) = true ∧
    ∀ k, neck < k → k ≤ goal → isTail (name k) = true

structure Truncated (limit : Nat) (name result : Bytes) : Prop where
  length : result.length = limit
  parts : ∃ neck ≤ limit - 33,
    result = name.take neck ++ List.replicate (limit - 33 - neck) (charByte '_') ++
      charByte ':' :: hex (Rfc1321.md5 (name.take 4095)) ∧
    (neck < limit - 33 → CutAt (bufferOf name) neck (limit - 33))
  utf8 : Valid name → Valid result

structure TruncationRight (mem : Memory) (limit : Nat) (name : Bytes) : Prop where
  truncated : limit < name.length → ∃ result,
    isoTruncateRrName mem 1 limit name = some (isoSuccess, result) ∧
      Truncated limit name result ∧
      isoTruncateRrName mem 1 limit result = some (isoSuccess, result)
  untouched : name.length ≤ limit → isoTruncateRrName mem 1 limit name = some (isoSuccess, name)

section Cut

variable {name : Buffer} {idx turns i : Nat}

theorem startLoop_spec (htail : ∀ k, idx - i ≤ k → k ≤ idx → isTail (name k) = true)
    (hturns : i + turns = 5) :
    CutAt name (startLoop name idx turns i) idx ∨
      startLoop name idx turns i = idx ∧ ∀ neck, neck + i < idx → ¬ CutAt name neck idx := by
  induction turns generalizing i with
  | zero => exact Or.inr ⟨rfl, fun neck hless hcut => by have := hcut.2.1; omega⟩
  | succ turns ih =>
    rw [startLoop]
    split
    case isTrue hend => exact Or.inr ⟨rfl, fun neck hless _ => by omega⟩
    case isFalse hend =>
      dsimp only
      split
      case isTrue hstart =>
        exact Or.inl ⟨by omega, by omega, hstart, fun k hk hle => htail k (by omega) hle⟩
      case isFalse hstart =>
        have hnotHere : ¬ CutAt name (idx - 1 - i) idx := fun hcut => hstart hcut.2.2.1
        split
        case isTrue hother =>
          refine Or.inr ⟨rfl, fun neck hless hcut => ?_⟩
          rcases Nat.lt_or_eq_of_le (show neck ≤ idx - 1 - i by omega) with hlt | rfl
          · rw [hcut.2.2.2 _ hlt (by omega)] at hother
            exact nomatch hother
          · exact hnotHere hcut
        case isFalse hmore =>
          have hbyte : isTail (name (idx - 1 - i)) = true := by simpa using hmore
          have hnext : ∀ k, idx - (i + 1) ≤ k → k ≤ idx → isTail (name k) = true := by
            intro k hk hle
            rcases Nat.lt_or_eq_of_le (show idx - 1 - i ≤ k by omega) with hlt | rfl
            · exact htail k (by omega) hle
            · exact hbyte
          rcases ih hnext (by omega) with hcut | ⟨hidx, hnone⟩
          · exact Or.inl hcut
          · refine Or.inr ⟨hidx, fun neck hless hcut => ?_⟩
            rcases Nat.lt_or_eq_of_le (show neck ≤ idx - 1 - i by omega) with hlt | rfl
            · exact hnone neck (by omega) hcut
            · exact hnotHere hcut

/-- The search finds the start of the cut character, if there is one. -/
theorem findUtf8Start_spec (name : Buffer) (idx : Nat) :
    CutAt name (findUtf8Start name idx) idx ∨
      findUtf8Start name idx = idx ∧ ∀ neck, ¬ CutAt name neck idx := by
  rw [findUtf8Start]
  split
  case isTrue hother =>
    refine Or.inr ⟨rfl, fun neck hcut => ?_⟩
    rw [hcut.2.2.2 idx hcut.1 (Nat.le_refl _)] at hother
    exact nomatch hother
  case isFalse htail =>
    have hbyte : isTail (name idx) = true := by simpa using htail
    have hidx : ∀ k, idx - 0 ≤ k → k ≤ idx → isTail (name k) = true := by
      intro k hk hle
      obtain rfl : k = idx := by omega
      exact hbyte
    rcases startLoop_spec hidx (Nat.zero_add 5) with hcut | ⟨hsame, hnone⟩
    · exact Or.inl hcut
    · exact Or.inr ⟨hsame, fun neck hcut => hnone neck hcut.1 hcut⟩

theorem findUtf8Start_le (name : Buffer) (idx : Nat) : findUtf8Start name idx ≤ idx := by
  rcases findUtf8Start_spec name idx with hcut | ⟨hsame, -⟩
  · exact Nat.le_of_lt hcut.1
  · exact Nat.le_of_eq hsame

end Cut

section Text

variable {name : Buffer} {hashval : Bytes} {limit : Nat}

theorem hexByte_ne_zero (b : UInt8) : ∀ c ∈ hexByte b, c ≠ 0 ∧ c.toNat < 0x80 := by
  have hdigit : ∀ d < 16, hexDigits.getD d 0 ≠ 0 ∧ (hexDigits.getD d 0).toNat < 0x80 := by decide
  have hlt := b.toNat_lt
  intro c hc
  rw [hexByte, List.mem_cons, List.mem_singleton] at hc
  rcases hc with rfl | rfl
  · exact hdigit _ (by omega)
  · exact hdigit _ (Nat.mod_lt _ (by decide))

theorem hex_ne_zero (bytes : Bytes) : ∀ c ∈ hex bytes, c ≠ 0 ∧ c.toNat < 0x80 := by
  intro c hc
  obtain ⟨b, -, hb⟩ := List.mem_flatMap.mp hc
  exact hexByte_ne_zero b c hb

theorem hex_inj {xs ys : Bytes} (h : hex xs = hex ys) : xs = ys := by
  induction xs generalizing ys with
  | nil =>
    cases ys with
    | nil => rfl
    | cons y ys => exact nomatch h
  | cons x xs ih =>
    cases ys with
    | nil => exact nomatch h
    | cons y ys =>
      rw [hex, hex, List.flatMap_cons, List.flatMap_cons, hexByte, hexByte] at h
      simp only [List.cons_append, List.nil_append, List.cons.injEq] at h
      obtain ⟨hhigh, hlow, hrest⟩ := h
      have hdigit {d e : Nat} (hd : d < 16) (he : e < 16)
          (heq : hexDigits.getD d 0 = hexDigits.getD e 0) : d = e :=
        Option.some.inj ((hexValue_digit d hd).2.symm.trans
          ((congrArg hexValue heq).trans (hexValue_digit e he).2))
      have hx := x.toNat_lt
      have hy := y.toNat_lt
      have hdiv := hdigit (by omega) (by omega) hhigh
      have hmod := hdigit (Nat.mod_lt _ (by decide)) (Nat.mod_lt _ (by decide)) hlow
      rw [ih hrest, UInt8.toNat_inj.mp (show x.toNat = y.toNat by omega)]

/-- The digits get written one after the other up to the limit. -/
theorem writeHash_spec {turns i goal : Nat} (hlen : hashval.length = i + turns)
    (hgoal : goal + 2 * turns = limit) :
    Holds (writeHash hashval limit turns i goal name) goal (hex (hashval.drop i)) ∧
      ∀ k < goal, writeHash hashval limit turns i goal name k = name k := by
  induction turns generalizing i goal name with
  | zero =>
    rw [List.drop_of_length_le (by omega)]
    exact ⟨holds_nil, fun _ _ => rfl⟩
  | succ turns ih =>
    have hlt : i < hashval.length := by omega
    rw [writeHash, if_pos (by omega), List.drop_eq_getElem_cons hlt, hex, List.flatMap_cons, ← hex]
    obtain ⟨hrest, hbefore⟩ := @ih (patch name goal (hexByte (hashval.getD i 0) ++ [0])) (i + 1)
      (goal + 2) (by omega) (by omega)
    constructor
    · refine holds_append.mpr ⟨?_, hrest⟩
      have hpatch : Holds (patch name goal (hexByte (hashval.getD i 0) ++ [0])) goal
          (hexByte (hashval.getD i 0)) := (holds_append.mp holds_patch).1
      rw [List.getD_eq_getElem _ _ hlt] at hpatch
      refine (holds_congr fun k hk => ?_).mpr hpatch
      rw [hbefore _ (by change k < 2 at hk; omega), List.getD_eq_getElem _ _ hlt]
    · intro k hk
      rw [hbefore k (by omega), patch]
      exact copyInto_outside (Or.inl hk)

/-- The string ends at the first zero. -/
theorem cString_of_holds {bytes : Bytes} {n : Nat} (h : Holds name 0 (bytes ++ [0]))
    (hlen : bytes.length < n) (hne : ∀ c ∈ bytes, c ≠ 0) : cString name n = bytes := by
  obtain ⟨k, rfl⟩ : ∃ k, n = (bytes ++ [0]).length + k :=
    ⟨n - (bytes.length + 1), by rw [List.length_append, List.length_singleton]; omega⟩
  rw [cString, ← slice_append, h.slice_eq, List.append_assoc, List.singleton_append,
    List.takeWhile_append_of_pos fun c hc => by simpa using hne c hc]
  exact List.append_nil bytes

end Text

section Result

variable {mem : Memory} {limit : Nat} {name : Bytes}

/-- The name cut at `neck`, with underscores up to the colon and the hash. -/
def truncatedText (limit neck : Nat) (name hashval : Bytes) : Bytes :=
  name.take neck ++ List.replicate (limit - 33 - neck) (charByte '_') ++
    charByte ':' :: hex hashval

theorem length_truncatedText {neck : Nat} {hashval : Bytes} (hlimit : 33 ≤ limit)
    (hneck : neck ≤ limit - 33) (hlong : limit < name.length) (hhash : hashval.length = 16) :
    (truncatedText limit neck name hashval).length = limit := by
  simp only [truncatedText, List.length_append, List.length_cons, List.length_replicate,
    List.length_take, length_hex, hhash]
  omega

theorem checksum_compute (mem : Memory) {data : Bytes} (hshort : data.length ≤ 4095) :
    ∃ s, checksum mem [.compute data] = some (Rfc1321.md5 data, s) := by
  have hcalls : Md5Digest.Short [.compute data] := by
    intro data' hmem
    obtain rfl : data' = data := by simpa using hmem
    omega
  have hfits : Md5Digest.Fits 0 [.compute data] := by
    refine ⟨?_, trivial⟩
    rw [Md5Digest.FitsInt]
    omega
  have hsubmitted : Md5Digest.submitted [.compute data] = data := List.append_nil data
  obtain ⟨s, hsome, -⟩ := (@Md5Digest.digestsMatch_of_fits mem _ hcalls
    (by rw [hsubmitted]; omega) hfits).1
  rw [hsubmitted] at hsome
  exact ⟨s, hsome⟩

/-- What the writing leaves in the memory of the name. -/
theorem holds_text {neck : Nat} {hashval : Bytes} (hlimit : 33 ≤ limit)
    (hneck : neck ≤ limit - 33) (hlong : limit < name.length) (hhash : hashval.length = 16) :
    Holds (Function.update (writeHash hashval limit 16 0 (limit - 33 + 1)
      (Function.update (copyInto (bufferOf name) neck (limit - 33 - neck) fun _ => charByte '_')
        (limit - 33) (charByte ':'))) limit 0) 0
      (truncatedText limit neck name hashval ++ [0]) := by
  obtain ⟨hhex, hbefore⟩ := @writeHash_spec (Function.update (copyInto (bufferOf name) neck
    (limit - 33 - neck) fun _ => charByte '_') (limit - 33) (charByte ':')) hashval limit 16 0
      (limit - 33 + 1) (by omega) (by omega)
  have hhexlen : (hex hashval).length = 32 := by rw [length_hex, hhash]
  rw [List.drop_zero] at hhex
  have htake : (name.take neck).length = neck := by
    rw [List.length_take]
    omega
  rw [truncatedText]
  refine holds_append.mpr ⟨holds_append.mpr ⟨holds_append.mpr ⟨?_, ?_⟩, ?_⟩, ?_⟩
  · intro k b hb
    have hk := (List.getElem?_eq_some_iff.mp hb).1
    rw [htake] at hk
    rw [Nat.zero_add, Function.update_of_ne (by omega), hbefore k (by omega),
      Function.update_of_ne (by omega), copyInto_outside (Or.inl hk), bufferOf,
      List.getD_eq_getElem?_getD]
    rw [List.getElem?_take_of_lt hk] at hb
    rw [hb, Option.getD_some]
  · intro k b hb
    have hk := (List.getElem?_eq_some_iff.mp hb).1
    rw [List.length_replicate] at hk
    rw [List.getElem?_replicate, if_pos hk] at hb
    rw [htake, Nat.zero_add, Function.update_of_ne (by omega), hbefore _ (by omega),
      Function.update_of_ne (by omega), copyInto_inside hk]
    exact Option.some.inj hb
  · rw [List.length_append, htake, List.length_replicate, Nat.zero_add,
      show neck + (limit - 33 - neck) = limit - 33 by omega, holds_cons]
    constructor
    · rw [Function.update_of_ne (by omega), hbefore _ (by omega), Function.update_self]
    · refine (holds_congr fun k hk => ?_).mpr hhex
      rw [Function.update_of_ne (by omega)]
  · have hlen := length_truncatedText hlimit hneck hlong hhash
    rw [truncatedText] at hlen
    rw [hlen, Nat.zero_add, holds_cons]
    exact ⟨Function.update_self .., holds_nil⟩

theorem truncatedText_ne_zero {neck : Nat} {hashval : Bytes} (hname : ∀ b ∈ name, b ≠ 0) :
    ∀ b ∈ truncatedText limit neck name hashval, b ≠ 0 := by
  intro b hb
  rw [truncatedText, List.mem_append, List.mem_append, List.mem_cons] at hb
  rcases hb with (hb | hb) | rfl | hb
  · exact hname b (List.mem_of_mem_take hb)
  · rw [List.eq_of_mem_replicate hb]
    decide
  · decide
  · exact (hex_ne_zero _ b hb).1

/-- The number of bytes which get hashed. -/
def hashedLength (name : Bytes) : Nat :=
  if 4095 < intLength name then 4095 else (intLength name).toNat

theorem intLength_le (name : Bytes) : intLength name ≤ name.length := by
  rw [intLength]
  split <;> omega

theorem intLength_small (h : name.length < 2 ^ 31) : intLength name = name.length := by
  rw [intLength]
  split <;> omega

theorem isoTruncateRrName_short (h : intLength name ≤ limit) :
    isoTruncateRrName mem 1 limit name = some (isoSuccess, name) := by
  rw [isoTruncateRrName, if_pos h]

theorem isoTruncateRrName_long (hlimit : 64 ≤ limit) (hname : ∀ b ∈ name, b ≠ 0)
    (h : limit < intLength name) :
    isoTruncateRrName mem 1 limit name = some (isoSuccess, truncatedText limit
      (findUtf8Start (bufferOf name) (limit - 33)) name
        (Rfc1321.md5 (name.take (hashedLength name)))) := by
  have hlong : limit < name.length := by
    have := intLength_le name
    omega
  have hshort : (name.take (hashedLength name)).length ≤ 4095 := by
    rw [List.length_take, hashedLength]
    split <;> omega
  obtain ⟨s, hsum⟩ := checksum_compute mem hshort
  rw [hashedLength] at hsum ⊢
  rw [isoTruncateRrName, if_neg (by omega), if_neg (by decide), hsum, Option.map_some]
  have hgoal : limit - hashSize - 1 = limit - 33 := by
    rw [hashSize]
    omega
  have hhash := Rfc1321.length_md5 (name.take (hashedLength name))
  have hneck := findUtf8Start_le (bufferOf name) (limit - 33)
  have hholds := holds_text (by omega) hneck hlong hhash
  have hlen := length_truncatedText (show 33 ≤ limit by omega) hneck hlong hhash
  have hstring := @cString_of_holds _ _ name.length hholds (by omega)
    (truncatedText_ne_zero hname)
  rw [hgoal]
  exact congrArg (fun text => some (isoSuccess, text)) hstring

/-- A valid name stays valid. -/
theorem valid_truncatedText {hashval : Bytes} (hlimit : 64 ≤ limit) (hlong : limit < name.length)
    (hvalid : Valid name) :
    Valid (truncatedText limit (findUtf8Start (bufferOf name) (limit - 33)) name hashval) := by
  have hascii : Valid (List.replicate
      (limit - 33 - findUtf8Start (bufferOf name) (limit - 33)) (charByte '_') ++
        charByte ':' :: hex hashval) := by
    refine valid_ascii fun b hb => ?_
    rw [List.mem_append, List.mem_cons] at hb
    rcases hb with hb | rfl | hb
    · rw [List.eq_of_mem_replicate hb]
      decide
    · decide
    · exact (hex_ne_zero _ b hb).2
  have hlead : ∀ b, isLead b = true → isStart b = true := by
    intro b hb
    rw [isLead] at hb
    rw [isStart, hb, Bool.true_or, Bool.true_or]
  have hstart : ∀ n < 256, isStart (UInt8.ofNat n) = true → isTail (UInt8.ofNat n) = false := by
    decide +kernel
  rw [truncatedText, List.append_assoc]
  refine Valid.append (hvalid.take ?_) hascii
  rcases findUtf8Start_spec (bufferOf name) (limit - 33) with hcut | ⟨hsame, hnone⟩
  · have hbyte := hstart _ (UInt8.toNat_lt _) (by rw [UInt8.ofNat_toNat]; exact hcut.2.2.1)
    rwa [UInt8.ofNat_toNat] at hbyte
  · rw [hsame]
    by_contra htail
    obtain ⟨r, hr, hnear, hbyte, hbetween⟩ :=
      hvalid.lead_before (by omega) (Bool.eq_true_of_not_eq_false htail)
    exact hnone r ⟨hr, by omega, hlead _ hbyte, hbetween⟩

/-- The length as int tells that the name is long, and the right bytes get hashed. -/
def Countable (limit : Nat) (name : Bytes) : Prop :=
  limit < intLength name ∧
    Rfc1321.md5 (name.take (hashedLength name)) = Rfc1321.md5 (name.take 4095)

theorem TruncationRight.countable (hlimit : 64 ≤ limit) (hname : ∀ b ∈ name, b ≠ 0)
    (h : TruncationRight mem limit name) : name.length ≤ limit ∨ Countable limit name := by
  rcases Nat.lt_or_ge limit name.length with hlong | hshort
  · obtain ⟨result, hresult, htruncated, -⟩ := h.truncated hlong
    rcases Int.lt_or_le limit (intLength name) with hcounted | hwrapped
    · refine Or.inr ⟨hcounted, ?_⟩
      rw [isoTruncateRrName_long hlimit hname hcounted] at hresult
      obtain ⟨neck, hneck, hparts, -⟩ := htruncated.parts
      have htext := (Prod.mk.inj (Option.some.inj hresult)).2.trans hparts
      rw [truncatedText] at htext
      have hlens : (charByte ':' :: hex (Rfc1321.md5 (name.take (hashedLength name)))).length =
          (charByte ':' :: hex (Rfc1321.md5 (name.take 4095))).length := by
        simp only [List.length_cons, length_hex, Rfc1321.length_md5]
      exact hex_inj (List.cons.inj (List.append_inj_right' htext hlens)).2
    · rw [isoTruncateRrName_short hwrapped] at hresult
      have hsame := (Prod.mk.inj (Option.some.inj hresult)).2
      have hlen := htruncated.length
      rw [← hsame] at hlen
      omega
  · exact Or.inl hshort

theorem truncationRight_of_countable (hlimit : 64 ≤ limit ∧ limit ≤ 255)
    (hname : ∀ b ∈ name, b ≠ 0) (h : name.length ≤ limit ∨ Countable limit name) :
    TruncationRight mem limit name := by
  constructor
  case untouched =>
    intro hshort
    exact isoTruncateRrName_short (by rw [intLength_small (by omega)]; omega)
  case truncated =>
    intro hlong
    obtain ⟨hcounted, hdigest⟩ : Countable limit name := h.resolve_left (by omega)
    have hresult := @isoTruncateRrName_long mem _ _ hlimit.1 hname hcounted
    have hneck := findUtf8Start_le (bufferOf name) (limit - 33)
    have hlen := length_truncatedText (by omega) hneck hlong
      (Rfc1321.length_md5 (name.take (hashedLength name)))
    refine ⟨_, hresult, ⟨hlen, ?_, valid_truncatedText hlimit.1 hlong⟩, ?_⟩
    · refine ⟨_, hneck, by rw [truncatedText, hdigest], fun hless => ?_⟩
      rcases findUtf8Start_spec (bufferOf name) (limit - 33) with hcut | ⟨hsame, -⟩
      · exact hcut
      · omega
    · refine isoTruncateRrName_short ?_
      rw [intLength_small (by omega)]
      omega

/-- The truncation is right if and only if the length as int does not mislead it. -/
theorem truncationRight_iff (mem : Memory) (limit : Nat) (name : Bytes)
    (hlimit : 64 ≤ limit ∧ limit ≤ 255) (hname : ∀ b ∈ name, b ≠ 0) :
    TruncationRight mem limit name ↔ name.length ≤ limit ∨ Countable limit name :=
  ⟨fun h => h.countable hlimit.1 hname, fun h => truncationRight_of_countable hlimit hname h⟩

/-- 72 bytes, of which those with index 30 and 31 make a character. -/
def cutName : Bytes :=
  List.replicate 30 (charByte 'a') ++ [195, 169] ++ List.replicate 40 (charByte 'a')

/-- Cut down to 64 bytes, of which 31 are kept, the name loses half of the character. -/
theorem cut_name_right : 64 < cutName.length ∧ TruncationRight ⟨fun _ => none, 0⟩ 64 cutName := by
  refine ⟨by decide, (truncationRight_iff _ 64 cutName (by decide) (by decide +kernel)).mpr
    (Or.inr ⟨by decide, ?_⟩)⟩
  have hlen : hashedLength cutName = 72 := by decide
  have hlength : cutName.length = 72 := by decide
  have hwhole : ∀ n, 72 ≤ n → cutName.take n = cutName := fun n hn =>
    List.take_of_length_le (hlength.le.trans hn)
  rw [hlen, hwhole 72 (Nat.le_refl 72), hwhole 4095 (by decide)]

/-- A name of 2 GiB has a negative length. -/
theorem long_name_untouched :
    ¬ ∀ mem limit name, 64 ≤ limit ∧ limit ≤ 255 → (∀ b ∈ name, b ≠ 0) →
      TruncationRight mem limit name := by
  intro h
  have hne : ∀ b ∈ List.replicate (2 ^ 31) (charByte 'a'), b ≠ 0 := by
    intro b hb
    rw [List.eq_of_mem_replicate hb]
    decide
  have hlen : (List.replicate (2 ^ 31) (charByte 'a')).length = 2 ^ 31 := List.length_replicate
  have hint : intLength (List.replicate (2 ^ 31) (charByte 'a')) = -2 ^ 31 := by
    rw [intLength, hlen]
    rfl
  rcases (h ⟨fun _ => none, 0⟩ 64 _ (by decide) hne).countable (Nat.le_refl 64) hne with
    hshort | ⟨hcounted, -⟩
  · omega
  · rw [hint] at hcounted
    exact absurd hcounted (by decide)

end Result

end NameTruncation
