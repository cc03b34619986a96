import Libisofs.Identifiers

/-!
# Identifiers in their buffers

The makers of identifiers with the numbers of type int in which they count, and with the buffers
into which they put the characters. None is for an access outside of a text or of a buffer, and for
an overflow of an int. With source texts of less than 2 GiB, and with a length of at least 3 for
iso_r_fileid(), there is no such event, and the identifiers obey their grammar.
-/

namespace IdentifierBuffers

open Identifiers

section Buffers

/-- The conversion of a size_t to int keeps the lower 32 bits. -/
def toInt (n : Int) : Int := n.bmod 4294967296

/-- The result of an operation with numbers of type int. -/
def checkInt (n : Int) : Option Int := if -2147483648 ≤ n ∧ n < 2147483648 then some n else none

/-- src[i] of a 0-terminated text. -/
def charAt (src : Bytes) (i : Int) : Option UInt8 := if i < 0 then none else (src ++ [0])[i.toNat]?

/-- dest[pos++] = c -/
def putChar (size : Nat) (dest : Bytes) (c : UInt8) : Option Bytes :=
  if dest.length < size then some (dest ++ [c]) else none

/-- The separator dot, if it is wanted. -/
def putDot (wanted : Prop) [Decidable wanted] (size : Nat) (dest : Bytes) : Option Bytes :=
  if wanted then putChar size dest dot else some dest

/-- The loop which converts the characters of the source from `start` on. -/
def putChars (size : Nat) (map : UInt8 → UInt8) (src : Bytes) :
    (count : Nat) → (start : Int) → (dest : Bytes) → Option Bytes
  | 0, _, dest => some dest
  | count + 1, start, dest => do
    let c ← charAt src start
    let dest ← putChar size dest (map c)
    putChars size map src count (start + 1) dest

/-- dest[pos] = 0 and strdup(). -/
def closeName (size : Nat) (dest : Bytes) : Option Bytes := do
  let _ ← putChar size dest 0
  return dest

end Buffers

section Makers

/-- What the three makers of file names do with the lengths: `lnname` characters of the name, the
dot, and `lnext` characters from behind the dot of the source. -/
def makeFileid (size : Nat) (nameMap extMap : UInt8 → UInt8) (src : Bytes)
    (lname lnname lnext : Int) (wanted : Prop) [Decidable wanted] : Option Bytes := do
  let dest ← putChars size nameMap src lnname.toNat 0 []
  let dest ← putDot wanted size dest
  let dest ← putChars size extMap src lnext.toNat (lname + 1) dest
  closeName size dest

def iso1Fileid (src : Bytes) (relaxed : Nat) (forceDots : Bool) : Option (Option Bytes) :=
  let dotPos := iso1Dot src
  let lext : Int := match dotPos with
    | none => 0
    | some i => toInt (src.length - (i + 1))
  let lname := toInt (src.length - lext - if dotPos.isSome then 1 else 0)
  let nameChar := fun c =>
    if dotPos = none ∧ c = dot then underscore else mapFileidChar c relaxed
  if lname = 0 ∧ lext = 0 then some none
  else
    (makeFileid 13 nameChar (mapFileidChar · relaxed) src lname (min lname 8) (min lext 3)
      (forceDots ∨ lext > 0)).map some

/-- The length of the source name, and the new lengths of name and extension. -/
structure NameLengths where
  lname : Int
  lnname : Int
  lnext : Int

/-- The calculation which iso_2_fileid() and iso_r_fileid() have in common. -/
def newLengths (src : Bytes) (len : Int) (limit : Nat) : Option NameLengths :=
  match strrchr dot src with
  | some i =>
    if i + 1 = src.length then some (allName src len)
    else do
      let lext := toInt (src.length - (i + 1))
      let lname := toInt (src.length - lext - 1)
      let lnext ←
        if src.length > limit ∧ lext > 3 then
          if lname < len - 3 then checkInt (len - lname) else some 3
        else some lext
      let lnname ← if src.length > limit then checkInt (len - lnext) else some lname
      return ⟨lname, lnname, lnext⟩
  | none => some (allName src len)
where
  allName (src : Bytes) (len : Int) : NameLengths :=
    let lname := toInt src.length
    ⟨lname, if lname > len then len else lname, 0⟩

def iso2Fileid (src : Bytes) : Option (Option Bytes) := do
  let n ← newLengths src 30 31
  let strict := fun c => if validDChar (toupper c) then toupper c else underscore
  if n.lnname = 0 ∧ n.lnext = 0 then some none
  else (makeFileid 32 strict strict src n.lname n.lnname n.lnext True).map some

def isoRFileid (src : Bytes) (len relaxed : Nat) (forcedot : Bool) : Option (Option Bytes) := do
  let n ← newLengths src (toInt len) (len + 1)
  if n.lnname = 0 ∧ n.lnext = 0 then some none
  else
    (makeFileid (len + 1 + 1) (mapFileidChar · relaxed) (mapFileidChar · relaxed) src n.lname
      n.lnname n.lnext (n.lnext > 0 ∨ forcedot)).map some

/-- The number of characters which get into a directory name of at most `size` characters. -/
def dirLength (src : Bytes) (size : Nat) : Nat :=
  if toInt src.length > size then size else src.length

def isoDirid (src : Bytes) (size relaxed : Nat) : Option Bytes := do
  let name ← putChars 32 (mapFileidChar · relaxed) src (dirLength src size) 0 []
  closeName 32 name

def iso1Dirid (src : Bytes) (relaxed : Nat) : Option Bytes := isoDirid src 8 relaxed

def isoRDirid (src : Bytes) (size relaxed : Nat) : Option Bytes := do
  let len := dirLength src size
  let dest ← putChars (len + 1) (mapFileidChar · relaxed) src len 0 []
  closeName (len + 1) dest

end Makers

section Fits

variable {src dest : Bytes} {size count : Nat} {map : UInt8 → UInt8}

theorem toInt_of_lt {n : Int} (hpos : 0 ≤ n) (hlt : n < 2147483648) : toInt n = n :=
  Int.bmod_eq_of_le (by omega) (by omega)

theorem checkInt_of_lt {n : Int} (hpos : 0 ≤ n) (hlt : n < 2147483648) : checkInt n = some n :=
  if_pos ⟨by omega, hlt⟩

theorem putChar_of_lt {c : UInt8} (h : dest.length < size) :
    putChar size dest c = some (dest ++ [c]) := if_pos h

theorem closeName_of_lt (h : dest.length < size) : closeName size dest = some dest := by
  rw [closeName, putChar_of_lt h]
  rfl

theorem putChars_of_le {start : Nat} (hsrc : start + count ≤ src.length)
    (hdest : dest.length + count ≤ size) :
    putChars size map src count start dest
      = some (dest ++ ((src.drop start).take count).map map) := by
  induction count generalizing start dest with
  | zero => simp [putChars]
  | succ count ih =>
    have hlt : start < src.length := by omega
    have hchar : charAt src start = some src[start] := by
      have hpos : ¬ (start : Int) < 0 := by omega
      rw [charAt, if_neg hpos, Int.toNat_natCast, List.getElem?_append_left hlt,
        List.getElem?_eq_getElem hlt]
    have hput : putChar size dest (map src[start]) = some (dest ++ [map src[start]]) :=
      putChar_of_lt (by omega)
    have hsrc' : start + 1 + count ≤ src.length := by omega
    have hroom : (dest ++ [map src[start]]).length + count ≤ size := by
      rw [List.length_append, List.length_singleton]
      omega
    have hrest : putChars size map src count ((start : Int) + 1) (dest ++ [map src[start]])
        = some (dest ++ [map src[start]] ++ ((src.drop (start + 1)).take count).map map) :=
      ih hsrc' hroom
    rw [putChars, hchar]
    simp only [Option.bind_eq_bind, Option.bind_some, hput, hrest]
    rw [List.drop_eq_getElem_cons hlt, List.take_succ_cons, List.map_cons, List.append_assoc,
      List.singleton_append]

/-- A buffer which is too small for the characters. -/
theorem putChars_overrun {start : Int} (h : size < dest.length + count)
    (hdest : dest.length ≤ size) : putChars size map src count start dest = none := by
  induction count generalizing start dest with
  | zero => omega
  | succ count ih =>
    rw [putChars]
    cases charAt src start with
    | none => rfl
    | some c =>
      by_cases hroom : dest.length < size
      · simp only [Option.bind_eq_bind, Option.bind_some, putChar_of_lt hroom]
        apply ih
        · rw [List.length_append, List.length_singleton]
          omega
        · rw [List.length_append, List.length_singleton]
          omega
      · simp only [Option.bind_eq_bind, Option.bind_some]
        rw [putChar, if_neg hroom]
        rfl

end Fits

section Refinement

variable {src : Bytes} {relaxed : Nat}

theorem dirLength_of_lt (hsrc : src.length < 2147483648) (size : Nat) :
    dirLength src size = min size src.length := by
  rw [dirLength, toInt_of_lt (by omega) (by omega)]
  split
  · omega
  · omega

/-- All characters of a name from its start on. -/
theorem putChars_start {map : UInt8 → UInt8} {size count : Nat} (hsrc : count ≤ src.length)
    (hsize : count ≤ size) :
    putChars size map src count 0 [] = some ((src.take count).map map) := by
  have hstart : 0 + count ≤ src.length := by omega
  have hroom : ([] : Bytes).length + count ≤ size := by
    rw [List.length_nil]
    omega
  exact putChars_of_le hstart hroom

theorem isoRDirid_eq (hsrc : src.length < 2147483648) (size : Nat) :
    isoRDirid src size relaxed = some (Identifiers.isoRDirid src size relaxed) := by
  have hput := @putChars_start src (mapFileidChar · relaxed) (min size src.length + 1)
    (min size src.length) (Nat.min_le_right _ _) (Nat.le_succ _)
  have hclose := @closeName_of_lt ((src.take (min size src.length)).map (mapFileidChar · relaxed))
    (min size src.length + 1) (by rw [List.length_map, List.length_take]; omega)
  simp only [isoRDirid, dirLength_of_lt hsrc size, Option.bind_eq_bind, hput, Option.bind_some,
    hclose]
  rw [← List.take_eq_take_min]
  rfl

theorem isoDirid_eq (hsrc : src.length < 2147483648) {size : Nat} (hsize : size < 32) :
    isoDirid src size relaxed = some (Identifiers.isoDirid src size relaxed) := by
  have hput := @putChars_start src (mapFileidChar · relaxed) 32 (min size src.length)
    (Nat.min_le_right _ _) (by omega)
  have hclose := @closeName_of_lt ((src.take (min size src.length)).map (mapFileidChar · relaxed))
    32 (by rw [List.length_map, List.length_take]; omega)
  simp only [isoDirid, dirLength_of_lt hsrc size, Option.bind_eq_bind, hput, Option.bind_some,
    hclose]
  rw [← List.take_eq_take_min]
  rfl

/-- The text in front of the last dot, if something follows it, or else the whole text. -/
theorem newLengths_whole (hsrc : src.length < 2147483648) (len limit : Nat)
    (hext : (splitAtDot src (strrchr dot src)).ext = []) :
    newLengths src len limit = some ⟨src.length, (min len src.length : Nat), 0⟩ := by
  have hall : newLengths.allName src len = ⟨src.length, (min len src.length : Nat), 0⟩ := by
    rw [newLengths.allName, toInt_of_lt (by omega) (by omega)]
    split
    · rw [Nat.min_eq_left (by omega)]
    · rw [Nat.min_eq_right (by omega)]
  rw [newLengths]
  cases hdot : strrchr dot src with
  | none => exact congrArg some hall
  | some i =>
    rw [hdot] at hext
    have hlt := strrchr_lt hdot
    have hend : i + 1 = src.length := by
      have hnil : src.drop (i + 1) = [] := hext
      have hle := List.drop_eq_nil_iff.mp hnil
      omega
    simp only [hend, if_true]
    exact congrArg some hall

theorem newLengths_parts (hsrc : src.length < 2147483648) {len i : Nat} (hlen : 3 ≤ len)
    (hmax : len < 2147483648) (hdot : strrchr dot src = some i) (hext : i + 1 < src.length) :
    newLengths src len (len + 1) = some ⟨i,
      ((keptLengths src.length i (src.length - (i + 1)) len).1 : Nat),
      ((keptLengths src.length i (src.length - (i + 1)) len).2 : Nat)⟩ := by
  have hnot : ¬ i + 1 = src.length := by omega
  have hlext : toInt (src.length - (i + 1)) = ((src.length - (i + 1) : Nat) : Int) := by
    rw [toInt_of_lt (by omega) (by omega)]
    omega
  have hlname : toInt (src.length - ((src.length - (i + 1) : Nat) : Int) - 1) = (i : Int) := by
    have hsub : (src.length : Int) - ((src.length - (i + 1) : Nat) : Int) - 1 = i := by omega
    rw [hsub, toInt_of_lt (by omega) (by omega)]
  simp only [newLengths, hdot, if_neg hnot, hlext, hlname]
  generalize hl : src.length - (i + 1) = lext
  have htotal : src.length = i + 1 + lext := by omega
  by_cases hlong : src.length > len + 1
  · by_cases hcut : lext > 3
    · have hcut' : (lext : Int) > 3 := by omega
      by_cases hname : i < len - 3
      · have hname' : (i : Int) < len - 3 := by omega
        have hrest : checkInt ((len : Int) - i) = some ((len - i : Nat) : Int) := by
          rw [checkInt_of_lt (by omega) (by omega)]
          congr 1
          omega
        have hkept : checkInt ((len : Int) - ((len - i : Nat) : Int))
            = some ((len - (len - i) : Nat) : Int) := by
          rw [checkInt_of_lt (by omega) (by omega)]
          congr 1
          omega
        simp only [hlong, hcut, hcut', hname, hname', hrest, hkept, keptLengths, and_self, if_true,
          Option.bind_eq_bind, Option.bind_some]
        rfl
      · have hname' : ¬ (i : Int) < len - 3 := by omega
        have hkept : checkInt ((len : Int) - 3) = some ((len - 3 : Nat) : Int) := by
          rw [checkInt_of_lt (by omega) (by omega)]
          congr 1
          omega
        simp only [hlong, hcut, hcut', hname, hname', hkept, keptLengths, and_self, if_true,
          if_false, Option.bind_eq_bind, Option.bind_some]
        rfl
    · have hcut' : ¬ (lext : Int) > 3 := by omega
      have hkept : checkInt ((len : Int) - lext) = some ((len - lext : Nat) : Int) := by
        rw [checkInt_of_lt (by omega) (by omega)]
        congr 1
        omega
      simp only [hlong, hcut, hcut', hkept, keptLengths, and_false, if_true, if_false,
        Option.bind_eq_bind, Option.bind_some]
      rfl
  · simp only [hlong, keptLengths, false_and, if_false, Option.bind_eq_bind, Option.bind_some]
    rfl

/-- A name with its separator and its extension. -/
theorem makeFileid_eq {nameMap extMap : UInt8 → UInt8} {size m k lname : Nat} {wanted : Prop}
    [Decidable wanted] (hm : m ≤ src.length) (hk : k = 0 ∨ lname + 1 + k ≤ src.length)
    (hsize : m + 1 + k < size) :
    makeFileid size nameMap extMap src lname m k wanted =
      some ((src.take m).map nameMap ++ (if wanted then [dot] else []) ++
        ((src.drop (lname + 1)).take k).map extMap) := by
  have hname : ((src.take m).map nameMap).length = m := by
    rw [List.length_map, List.length_take]
    omega
  have hdot : putDot wanted size ((src.take m).map nameMap)
      = some ((src.take m).map nameMap ++ if wanted then [dot] else []) := by
    rw [putDot]
    split
    · exact putChar_of_lt (by omega)
    · rw [List.append_nil]
  have hshort := optionalDot_length wanted
  have hext : ((src.take m).map nameMap ++ if wanted then [dot] else []).length + k ≤ size := by
    rw [List.length_append, hname]
    omega
  have hclose : ((src.take m).map nameMap ++ (if wanted then [dot] else []) ++
      ((src.drop (lname + 1)).take k).map extMap).length < size := by
    rw [List.length_append, List.length_append, hname, List.length_map, List.length_take]
    omega
  have hput : putChars size extMap src k ((lname : Int) + 1)
        ((src.take m).map nameMap ++ if wanted then [dot] else []) =
      some ((src.take m).map nameMap ++ (if wanted then [dot] else []) ++
        ((src.drop (lname + 1)).take k).map extMap) := by
    rcases hk with rfl | hk
    · simp [putChars]
    · exact putChars_of_le hk hext
  have hfirst : putChars size nameMap src m 0 [] = some ((src.take m).map nameMap) :=
    putChars_start hm (by omega)
  simp only [makeFileid, Int.toNat_natCast, hfirst, hdot, hput, closeName_of_lt hclose,
    Option.bind_eq_bind, Option.bind_some]

theorem iso1Dot_lt {i : Nat} (h : iso1Dot src = some i) : i < src.length := by
  rw [iso1Dot] at h
  split at h
  · cases h
  · exact strrchr_lt h

theorem iso1Fileid_eq (hsrc : src.length < 2147483648) (forceDots : Bool) :
    iso1Fileid src relaxed forceDots = some (Identifiers.iso1Fileid src relaxed forceDots) := by
  cases hdot : iso1Dot src with
  | none =>
    have hlname : toInt (src.length - 0 - 0) = (src.length : Int) := by
      rw [Int.sub_zero, Int.sub_zero, toInt_of_lt (by omega) (by omega)]
    have hmade := @makeFileid_eq src (fun c => if c = dot then underscore else
      mapFileidChar c relaxed) (mapFileidChar · relaxed) 13 (min src.length 8) 0 src.length
      (forceDots = true) _ (by omega) (.inl rfl) (by omega)
    have hfirst : src.take (min src.length 8) = src.take 8 := by
      rw [Nat.min_comm, ← List.take_eq_take_min]
    rw [hfirst] at hmade
    by_cases hnil : src = []
    · subst hnil
      simp only [iso1Fileid, Identifiers.iso1Fileid, hdot]
      rfl
    · have hpos : ¬ ((src.length : Int) = 0) := by
        rw [Int.natCast_eq_zero, List.length_eq_zero_iff]
        exact hnil
      have hcast : min (src.length : Int) 8 = (min src.length 8 : Nat) := by omega
      have hzero : min (0 : Int) 3 = 0 := rfl
      simp only [iso1Fileid, Identifiers.iso1Fileid, hdot, Option.isSome_none, Bool.false_eq_true,
        if_false, hlname, hpos, false_and, hcast, hzero, splitAtDot, hnil]
      simpa using hmade
  | some i =>
    have hlt := iso1Dot_lt hdot
    have hlext : toInt (src.length - (i + 1)) = ((src.length - (i + 1) : Nat) : Int) := by
      rw [toInt_of_lt (by omega) (by omega)]
      omega
    have hlname : toInt (src.length - ((src.length - (i + 1) : Nat) : Int) - 1) = (i : Int) := by
      have hsub : (src.length : Int) - ((src.length - (i + 1) : Nat) : Int) - 1 = i := by omega
      rw [hsub, toInt_of_lt (by omega) (by omega)]
    have hmade := @makeFileid_eq src (mapFileidChar · relaxed) (mapFileidChar · relaxed) 13
      (min i 8) (min (src.length - (i + 1)) 3) i
      (forceDots = true ∨ src.drop (i + 1) ≠ []) _ (by omega) (by omega) (by omega)
    have hcast : min (i : Int) 8 = (min i 8 : Nat) := by omega
    have hcast' : min ((src.length - (i + 1) : Nat) : Int) 3
        = (min (src.length - (i + 1)) 3 : Nat) := by omega
    have hname : src.take (min i 8) = (src.take i).take 8 := by
      rw [List.take_take, Nat.min_comm]
    have hext : (src.drop (i + 1)).take (min (src.length - (i + 1)) 3)
        = (src.drop (i + 1)).take 3 := by
      rw [← List.length_drop, Nat.min_comm, ← List.take_eq_take_min]
    have hnil : src.take i = [] ↔ (i : Int) = 0 := by
      rw [List.take_eq_nil_iff, Int.natCast_eq_zero]
      refine or_iff_left fun h => ?_
      rw [h] at hlt
      exact Nat.not_lt_zero _ hlt
    have hnil' : src.drop (i + 1) = [] ↔ ((src.length - (i + 1) : Nat) : Int) = 0 := by
      rw [List.drop_eq_nil_iff, Int.natCast_eq_zero]
      omega
    have hwanted : ((src.length - (i + 1) : Nat) : Int) > 0 ↔ src.drop (i + 1) ≠ [] := by
      rw [ne_eq, hnil']
      omega
    rw [hname, hext] at hmade
    simp only [iso1Fileid, Identifiers.iso1Fileid, hdot, Option.isSome_some, if_true, hlext, hlname,
      hcast, hcast', splitAtDot, hnil, hnil', hwanted, reduceCtorEq, false_and, if_false]
    split
    · rfl
    · exact congrArg (Option.map some) hmade

/-- What iso_2_fileid() and iso_r_fileid() have in common, without buffers. -/
theorem madeFileid_eq (hsrc : src.length < 2147483648) {len : Nat} (hlen : 3 ≤ len)
    (hmax : len < 2147483648) (map : UInt8 → UInt8) (wanted : Int → Prop) [DecidablePred wanted] :
    let parts := splitAtDot src (strrchr dot src)
    let kept := keptLengths src.length parts.name.length parts.ext.length len
    ((newLengths src len (len + 1)).bind fun n =>
      if n.lnname = 0 ∧ n.lnext = 0 then some none
      else
        (makeFileid (len + 1 + 1) map map src n.lname n.lnname n.lnext (wanted n.lnext)).map some) =
      some (if parts.ext = [] then
        if src.take len = [] then none
        else some ((src.take len).map map ++ if wanted 0 then [dot] else [])
      else if kept.1 = 0 ∧ kept.2 = 0 then none
      else
        some ((parts.name.take kept.1).map map ++ (if wanted kept.2 then [dot] else []) ++
          (parts.ext.take kept.2).map map)) := by
  intro parts kept
  by_cases hext : parts.ext = []
  · have hmin : src.take (min len src.length) = src.take len := List.take_eq_take_min.symm
    have hmade := @makeFileid_eq src map map (len + 1 + 1) (min len src.length) 0 src.length
      (wanted 0) _ (by omega) (.inl rfl) (by omega)
    have hnil : ((min len src.length : Nat) : Int) = 0 ↔ src.take len = [] := by
      rw [List.take_eq_nil_iff, Int.natCast_eq_zero, ← List.length_eq_zero_iff]
      omega
    rw [newLengths_whole hsrc len (len + 1) hext]
    simp only [Option.bind_some, hnil, and_true, hext, if_true]
    split
    · rfl
    · simp only [hmin, List.take_zero, List.map_nil, List.append_nil] at hmade
      exact congrArg (Option.map some) hmade
  · cases hdot : strrchr dot src with
    | none =>
      have hnone : parts.ext = [] := by
        simp only [parts, hdot, splitAtDot]
      exact absurd hnone hext
    | some i =>
      have hlt := strrchr_lt hdot
      have hparts : parts = ⟨src.take i, src.drop (i + 1)⟩ := by
        simp only [parts, hdot, splitAtDot]
      have hi : i + 1 < src.length := by
        rw [hparts] at hext
        have hnot := mt List.drop_eq_nil_iff.mpr hext
        omega
      have hname : parts.name.length = i := by
        rw [hparts, List.length_take]
        omega
      have hextlen : parts.ext.length = src.length - (i + 1) := by
        rw [hparts, List.length_drop]
      have htotal : src.length = parts.name.length + 1 + parts.ext.length := by omega
      obtain ⟨hsum, hm, hk, -⟩ := keptLengths_spec htotal hlen
      change kept.1 + kept.2 ≤ len at hsum
      have hm' : kept.1 ≤ i := hname ▸ hm
      have hk' : kept.2 ≤ src.length - (i + 1) := hextlen ▸ hk
      have hkept : keptLengths src.length i (src.length - (i + 1)) len = kept := by
        simp only [kept, hname, hextlen]
      have hmade := @makeFileid_eq src map map (len + 1 + 1) kept.1 kept.2 i (wanted kept.2) _
        (by omega) (by omega) (by omega)
      rw [newLengths_parts hsrc hlen hmax hdot hi, hkept]
      simp only [Option.bind_some, Int.natCast_eq_zero, if_neg hext]
      split
      · rfl
      · have htake : src.take kept.1 = parts.name.take kept.1 := by
          rw [hparts, List.take_take, Nat.min_eq_left hm']
        have hdrop : src.drop (i + 1) = parts.ext := by rw [hparts]
        rw [htake, hdrop] at hmade
        exact congrArg (Option.map some) hmade

theorem iso2Fileid_eq (hsrc : src.length < 2147483648) :
    iso2Fileid src = some (Identifiers.iso2Fileid src) := by
  have hmade := madeFileid_eq hsrc (show 3 ≤ 30 by decide) (by decide)
    (fun c => if validDChar (toupper c) then toupper c else underscore) fun _ => True
  simp only [if_true] at hmade
  exact hmade

theorem isoRFileid_eq (hsrc : src.length < 2147483648) {len : Nat} (hlen : 3 ≤ len)
    (hmax : len < 2147483648) (forcedot : Bool) :
    isoRFileid src len relaxed forcedot =
      some (Identifiers.isoRFileid src len relaxed forcedot) := by
  have hmade := madeFileid_eq hsrc hlen hmax (mapFileidChar · relaxed)
    fun n => n > 0 ∨ forcedot = true
  rw [isoRFileid, toInt_of_lt (by omega) (by omega)]
  simp only [gt_iff_lt, Int.lt_irrefl, false_or, Int.natCast_pos] at hmade
  exact hmade

end Refinement

section Grammar

/-- Lowercase letters. -/
def isLower (c : UInt8) : Bool := 0x61 ≤ c ∧ c ≤ 0x7a

/-- The characters which a relaxation mode allows: d-characters, lowercase letters, all but
lowercase letters of the 7-bit characters, or all characters. A slash is never allowed. -/
def Allowed (relaxed : Nat) (c : UInt8) : Prop :=
  c ≠ slash ∧ (relaxed &&& 3 = 2 ∨ validDChar c = true ∨ (relaxed &&& 3 ≠ 0 ∧ isLower c = true) ∨
    (relaxed &&& 4 ≠ 0 ∧ c &&& 0x7f = c ∧ isLower c = false))

theorem validDChar_ne {c : UInt8} (h : validDChar c = true) : c ≠ slash ∧ c ≠ dot := by
  constructor
  · rintro rfl
    exact absurd h (by decide)
  · rintro rfl
    exact absurd h (by decide)

/-- Only letters are changed to d-characters by toupper(). -/
theorem isLower_of_toupper {c : UInt8} (hnot : validDChar c = false)
    (hupper : validDChar (toupper c) = true) : isLower c = true := by
  by_cases hlower : 0x61 ≤ c ∧ c ≤ 0x7a
  · exact decide_eq_true hlower
  · rw [toupper, if_neg hlower, hnot] at hupper
    exact absurd hupper Bool.false_ne_true

theorem allowed_mapFileidChar (c : UInt8) (relaxed : Nat) :
    Allowed relaxed (mapFileidChar c relaxed) := by
  have hplain {d : UInt8} (h : validDChar d = true) : Allowed relaxed d :=
    ⟨(validDChar_ne h).1, .inr (.inl h)⟩
  have hunderscore : Allowed relaxed underscore := hplain (by decide)
  by_cases hslash : c = slash
  · rw [mapFileidChar, if_pos hslash]
    exact hunderscore
  rw [mapFileidChar, if_neg hslash]
  split
  next hall => exact ⟨hslash, .inl hall⟩
  split
  next hvalid => exact hplain hvalid
  next hvalid =>
  have hnot : validDChar c = false := by simpa using hvalid
  split
  next hseven =>
    obtain ⟨hbit, hascii, hcase⟩ := hseven
    refine ⟨hslash, .inr (.inr (.inr ⟨hbit, hascii, decide_eq_false ?_⟩))⟩
    rintro ⟨hlow, hhigh⟩
    rcases hcase with h | h
    · exact absurd hlow (UInt8.not_le.mpr h)
    · exact absurd hhigh (UInt8.not_le.mpr h)
  dsimp only
  split
  next hupper =>
    split
    next hletters =>
      have hlower := isLower_of_toupper hnot hupper
      exact ⟨hslash, .inr (.inr (.inl ⟨hletters, hlower⟩))⟩
    next => exact hplain hupper
  next => exact hunderscore

theorem allowed_map {relaxed : Nat} {src : Bytes} {map : UInt8 → UInt8}
    (hmap : ∀ c, Allowed relaxed (map c)) : ∀ c ∈ src.map map, Allowed relaxed c := by
  intro c hc
  obtain ⟨d, -, rfl⟩ := List.mem_map.mp hc
  exact hmap d

variable {src name : Bytes} {relaxed len : Nat} {forceDots : Bool}

/-- The separator is there if dots are forced or an extension follows. -/
def Separator (forceDots : Bool) (sep ext : Bytes) : Prop :=
  sep = [dot] ∨ (sep = [] ∧ ext = [] ∧ forceDots = false)

theorem separator_if {wanted : Prop} [Decidable wanted] {ext : Bytes}
    (hforced : forceDots = true → wanted) (hext : ext ≠ [] → wanted) :
    Separator forceDots (if wanted then [dot] else []) ext := by
  by_cases h : wanted
  · rw [if_pos h]
    exact .inl rfl
  · rw [if_neg h]
    refine .inr ⟨rfl, ?_, ?_⟩
    · by_contra hne
      exact h (hext hne)
    · exact Bool.eq_false_iff.mpr fun hforce => h (hforced hforce)

/-- The names of iso_1_fileid(). -/
def FileName1 (relaxed : Nat) (forceDots : Bool) (name : Bytes) : Prop :=
  ∃ base sep ext, name = base ++ sep ++ ext ∧ base.length ≤ 8 ∧ ext.length ≤ 3 ∧
    Separator forceDots sep ext ∧ ∀ c ∈ base ++ ext, Allowed relaxed c

theorem iso1Fileid_grammar (made : Identifiers.iso1Fileid src relaxed forceDots = some name) :
    FileName1 relaxed forceDots name := by
  rw [Identifiers.iso1Fileid] at made
  split at made
  · cases made
  · obtain rfl := Option.some.inj made
    refine ⟨_, _, _, rfl, ?_, ?_, separator_if .inl fun hext => .inr ?_, ?_⟩
    · rw [List.length_map, List.length_take]
      omega
    · rw [List.length_map, List.length_take]
      omega
    · rintro hnil
      rw [hnil] at hext
      exact hext rfl
    · refine List.forall_mem_append.mpr ⟨allowed_map fun c => ?_, allowed_map fun c => ?_⟩
      · split
        · exact ⟨by decide, .inr (.inl (by decide))⟩
        · exact allowed_mapFileidChar c relaxed
      · exact allowed_mapFileidChar c relaxed

/-- The names of iso_2_fileid(). -/
def FileName2 (name : Bytes) : Prop :=
  ∃ base ext, name = base ++ [dot] ++ ext ∧ base.length + ext.length ≤ 30 ∧
    ∀ c ∈ base ++ ext, validDChar c = true ∧ c ≠ dot

theorem validDChar_strict (c : UInt8) :
    validDChar (if validDChar (toupper c) then toupper c else underscore) = true := by
  split
  next h => exact h
  next => decide

theorem iso2Fileid_grammar (made : Identifiers.iso2Fileid src = some name) : FileName2 name := by
  have hstrict (s : Bytes) : ∀ c ∈ s.map (fun c => if validDChar (toupper c) then toupper c
      else underscore), validDChar c = true ∧ c ≠ dot := by
    intro c hc
    obtain ⟨d, -, rfl⟩ := List.mem_map.mp hc
    exact ⟨validDChar_strict d, (validDChar_ne (validDChar_strict d)).2⟩
  simp only [Identifiers.iso2Fileid] at made
  by_cases hext : (splitAtDot src (strrchr dot src)).ext = []
  · rw [if_pos hext] at made
    split at made
    · cases made
    · obtain rfl := Option.some.inj made
      refine ⟨(src.take 30).map _, [], (List.append_nil _).symm, ?_, ?_⟩
      · rw [List.length_map, List.length_take, List.length_nil]
        omega
      · rw [List.append_nil]
        exact hstrict _
  · rw [if_neg hext] at made
    split at made
    · cases made
    · obtain rfl := Option.some.inj made
      have hsum := (keptLengths_spec (splitAtDot_length hext) (show 3 ≤ 30 by decide)).1
      refine ⟨_, _, rfl, ?_, List.forall_mem_append.mpr ⟨hstrict _, hstrict _⟩⟩
      simp only [List.length_map, List.length_take]
      omega

/-- The parts for which iso_r_fileid() divides the length. -/
def fileParts (src : Bytes) : NameParts :=
  let parts := splitAtDot src (strrchr dot src)
  if parts.ext = [] then ⟨src, []⟩ else parts

/-- The names of iso_r_fileid(). The extension gets shortened to not less than 3 characters, and
the name gets cut only if the extension has no more than these. -/
def FileNameR (src : Bytes) (len relaxed : Nat) (forceDots : Bool) (name : Bytes) : Prop :=
  name.length ≤ len + 1 ∧
  ∃ m k base sep ext, name = base ++ sep ++ ext ∧ Separator forceDots sep ext ∧
    base = ((fileParts src).name.take m).map (mapFileidChar · relaxed) ∧
    ext = ((fileParts src).ext.take k).map (mapFileidChar · relaxed) ∧
    m ≤ (fileParts src).name.length ∧ k ≤ (fileParts src).ext.length ∧ m + k ≤ len ∧
    (k < (fileParts src).ext.length → 3 ≤ k) ∧ (m < (fileParts src).name.length → k ≤ 3) ∧
    ∀ c ∈ base ++ ext, Allowed relaxed c

theorem isoRFileid_grammar (hlen : 3 ≤ len)
    (made : Identifiers.isoRFileid src len relaxed forceDots = some name) :
    FileNameR src len relaxed forceDots name := by
  have hallowed (s s' : Bytes) : ∀ c ∈ s.map (mapFileidChar · relaxed) ++
      s'.map (mapFileidChar · relaxed), Allowed relaxed c :=
    List.forall_mem_append.mpr ⟨allowed_map (allowed_mapFileidChar · relaxed),
      allowed_map (allowed_mapFileidChar · relaxed)⟩
  refine ⟨isoRFileid_length hlen made, ?_⟩
  simp only [Identifiers.isoRFileid] at made
  by_cases hext : (splitAtDot src (strrchr dot src)).ext = []
  · have hparts : fileParts src = ⟨src, []⟩ := if_pos hext
    rw [if_pos hext] at made
    split at made
    · cases made
    · obtain rfl := Option.some.inj made
      rw [hparts]
      refine ⟨min len src.length, 0, _, _, [], (List.append_nil _).symm,
        separator_if id fun h => absurd rfl h, ?_, rfl, Nat.min_le_right _ _, Nat.le_refl _, ?_,
        ?_, ?_, hallowed _ []⟩
      · rw [← List.take_eq_take_min]
      · omega
      · exact fun h => absurd h (Nat.lt_irrefl _)
      · exact fun _ => Nat.zero_le _
  · have hparts : fileParts src = splitAtDot src (strrchr dot src) := if_neg hext
    rw [if_neg hext] at made
    split at made
    · cases made
    · obtain rfl := Option.some.inj made
      have htotal := splitAtDot_length hext
      obtain ⟨hsum, hm, hk, hkeeps, hlast⟩ := keptLengths_spec htotal hlen
      rw [hparts]
      refine ⟨_, _, _, _, _, rfl, separator_if .inr fun h => .inl ?_, rfl, rfl, hm, hk,
        hsum, hkeeps, hlast, hallowed _ _⟩
      by_contra hzero
      rw [Nat.eq_zero_of_not_pos hzero] at h
      exact h rfl

/-- The identifier makers stay in their buffers, and their results obey the grammar. -/
theorem identifiers_in_grammar (src : Bytes) (hsrc : src.length < 2147483648)
    (len : Nat) (hlen : 3 ≤ len) (hmax : len < 2147483648) (size relaxed : Nat)
    (forceDots : Bool) :
    (∃ r, iso1Fileid src relaxed forceDots = some r ∧
      ∀ name, r = some name → FileName1 relaxed forceDots name) ∧
    (∃ r, iso2Fileid src = some r ∧ ∀ name, r = some name → FileName2 name) ∧
    (∃ r, isoRFileid src len relaxed forceDots = some r ∧
      ∀ name, r = some name → FileNameR src len relaxed forceDots name) ∧
    (∃ name, isoRDirid src size relaxed = some name ∧ name.length ≤ size ∧
      ∀ c ∈ name, Allowed relaxed c) ∧
    (∃ name, iso1Dirid src relaxed = some name ∧ name.length ≤ 8 ∧
      ∀ c ∈ name, Allowed relaxed c) := by
  refine ⟨⟨_, iso1Fileid_eq hsrc forceDots, fun _ => iso1Fileid_grammar⟩,
    ⟨_, iso2Fileid_eq hsrc, fun _ => iso2Fileid_grammar⟩,
    ⟨_, isoRFileid_eq hsrc hlen hmax forceDots, fun _ => isoRFileid_grammar hlen⟩,
    ⟨_, isoRDirid_eq hsrc size, ?_, allowed_map (allowed_mapFileidChar · relaxed)⟩,
    ⟨_, isoDirid_eq hsrc (by decide), ?_, allowed_map (allowed_mapFileidChar · relaxed)⟩⟩
  · rw [Identifiers.isoRDirid, List.length_map, List.length_take]
    omega
  · rw [Identifiers.isoDirid, List.length_map, List.length_take]
    omega

/-- "readme.text" in mode 5. -/
theorem readme_in_grammar :
    let src : Bytes := [0x72, 0x65, 0x61, 0x64, 0x6d, 0x65, 0x2e, 0x74, 0x65, 0x78, 0x74]
    (∃ r, iso1Fileid src 5 true = some r ∧ ∀ name, r = some name → FileName1 5 true name) ∧
    (∃ r, iso2Fileid src = some r ∧ ∀ name, r = some name → FileName2 name) ∧
    (∃ r, isoRFileid src 36 5 true = some r ∧
      ∀ name, r = some name → FileNameR src 36 5 true name) ∧
    (∃ name, isoRDirid src 31 5 = some name ∧ name.length ≤ 31 ∧ ∀ c ∈ name, Allowed 5 c) ∧
    (∃ name, iso1Dirid src 5 = some name ∧ name.length ≤ 8 ∧ ∀ c ∈ name, Allowed 5 c) :=
  identifiers_in_grammar _ (by decide) 36 (by decide) (by decide) 31 5 true

/-- A directory name of 2 GiB has a negative length. -/
theorem iso1Dirid_huge (src : Bytes) (hsrc : src.length = 2147483648) (relaxed : Nat) :
    iso1Dirid src relaxed = none := by
  have hneg : toInt src.length = -2147483648 := by
    rw [hsrc, toInt]
    decide
  have hall : dirLength src 8 = src.length := by
    rw [dirLength, hneg]
    rfl
  have hover : putChars 32 (mapFileidChar · relaxed) src src.length 0 [] = none :=
    putChars_overrun (by rw [List.length_nil, hsrc]; decide) (Nat.zero_le _)
  simp only [iso1Dirid, isoDirid, hall, hover, Option.bind_eq_bind, Option.bind_none]

/-- "ab.cdef" does not fit into the buffer for 2 characters, and 2 GiB overrun the buffer for
directory names. -/
theorem short_and_huge_overrun :
    isoRFileid [0x61, 0x62, 0x2e, 0x63, 0x64, 0x65, 0x66] 2 0 false = none ∧
      ∃ src : Bytes, (∀ c ∈ src, c ≠ 0) ∧ iso1Dirid src 0 = none := by
  refine ⟨by decide +kernel, List.replicate 2147483648 0x41, ?_, ?_⟩
  · intro c hc
    rw [List.eq_of_mem_replicate hc]
    decide
  · exact iso1Dirid_huge _ List.length_replicate 0

end Grammar

end IdentifierBuffers
