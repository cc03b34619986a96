import Libisofs.Lib.Results
import Mathlib.Data.List.Basic

/-!
# Directory and file identifiers

The makers of ECMA-119 identifiers in util.c, and iso_get_ecma119_name() of
ecma119_tree.c which chooses among them. A name is a C string and thus holds no
0-bytes. Allocation succeeds, toupper() works as in the C locale.
-/

namespace Identifiers

open Results

abbrev Bytes := List UInt8

def dot : UInt8 := 0x2e
def slash : UInt8 := 0x2f
def underscore : UInt8 := 0x5f

def toupper (c : UInt8) : UInt8 :=
  if 0x61 ≤ c ∧ c ≤ 0x7a then c - 0x20 else c

def validDChar (c : UInt8) : Bool :=
  (0x30 ≤ c ∧ c ≤ 0x39) ∨ (0x41 ≤ c ∧ c ≤ 0x5a) ∨ c = underscore

/-- `relaxed` bit0+1: strict, lowercase allowed, or all characters allowed. Bit2 allows
all 7-bit characters except lowercase. -/
def mapFileidChar (c : UInt8) (relaxed : Nat) : UInt8 :=
  if c = slash then underscore
  else if relaxed &&& 3 = 2 then c
  else if validDChar c then c
  else if relaxed &&& 4 ≠ 0 ∧ c &&& 0x7f = c ∧ (c < 0x61 ∨ c > 0x7a) then c
  else
    let upper := toupper c
    if validDChar upper then (if relaxed &&& 3 ≠ 0 then c else upper) else underscore

/-- strrchr() as the position of the last `c`. -/
def strrchr (c : UInt8) : Bytes → Option Nat
  | [] => none
  | a :: s =>
    match strrchr c s with
    | some i => some (i + 1)
    | none => if a = c then some 0 else none

theorem strrchr_lt {c : UInt8} {s : Bytes} {i : Nat} (h : strrchr c s = some i) :
    i < s.length := by
  induction s generalizing i with
  | nil => cases h
  | cons a s ih =>
    rw [strrchr] at h
    split at h
    next j hj =>
      obtain rfl := Option.some.inj h
      exact Nat.succ_lt_succ (ih hj)
    next =>
      split at h
      · obtain rfl := Option.some.inj h
        exact Nat.succ_pos _
      · cases h

def isoDirid (src : Bytes) (size relaxed : Nat) : Bytes :=
  (src.take size).map (mapFileidChar · relaxed)

def iso1Dirid (src : Bytes) (relaxed : Nat) : Bytes := isoDirid src 8 relaxed

def iso2Dirid (src : Bytes) : Bytes := isoDirid src 31 0

/-- Text before and behind the last dot. -/
structure NameParts where
  name : Bytes
  ext : Bytes

def splitAtDot (src : Bytes) : Option Nat → NameParts
  | none => ⟨src, []⟩
  | some i => ⟨src.take i, src.drop (i + 1)⟩

/-- A long extension is used instead of an empty name. -/
def iso1Dot (src : Bytes) : Option Nat :=
  if strrchr dot src = some 0 ∧ src.length > 4 then none else strrchr dot src

def iso1Fileid (src : Bytes) (relaxed : Nat) (forceDots : Bool) : Option Bytes :=
  let dotPos := iso1Dot src
  let parts := splitAtDot src dotPos
  let nameChar := fun c =>
    if dotPos = none ∧ c = dot then underscore else mapFileidChar c relaxed
  if parts.name = [] ∧ parts.ext = [] then none
  else
    some ((parts.name.take 8).map nameChar ++
      (if forceDots ∨ parts.ext ≠ [] then [dot] else []) ++
      (parts.ext.take 3).map (mapFileidChar · relaxed))

/-- The lengths of name and extension which iso_2_fileid() and iso_r_fileid() keep of a
source text of length `total`, with `len` characters to divide among them. -/
def keptLengths (total lname lext len : Nat) : Nat × Nat :=
  let lnext :=
    if total > len + 1 ∧ lext > 3 then (if lname < len - 3 then len - lname else 3) else lext
  (if total > len + 1 then len - lnext else lname, lnext)

def iso2Fileid (src : Bytes) : Option Bytes :=
  let strict := fun c => if validDChar (toupper c) then toupper c else underscore
  let dotPos := strrchr dot src
  let parts := splitAtDot src dotPos
  if parts.ext = [] then
    -- no dot, or nothing behind it: the dot counts as part of the name
    if src.take 30 = [] then none else some ((src.take 30).map strict ++ [dot])
  else
    let (lnname, lnext) := keptLengths src.length parts.name.length parts.ext.length 30
    if lnname = 0 ∧ lnext = 0 then none
    else some ((parts.name.take lnname).map strict ++ [dot] ++ (parts.ext.take lnext).map strict)

def isoRDirid (src : Bytes) (size relaxed : Nat) : Bytes :=
  (src.take size).map (mapFileidChar · relaxed)

def isoRFileid (src : Bytes) (len relaxed : Nat) (forcedot : Bool) : Option Bytes :=
  let dotPos := strrchr dot src
  let parts := splitAtDot src dotPos
  if parts.ext = [] then
    if src.take len = [] then none
    else some ((src.take len).map (mapFileidChar · relaxed) ++ (if forcedot then [dot] else []))
  else
    let (lnname, lnext) := keptLengths src.length parts.name.length parts.ext.length len
    if lnname = 0 ∧ lnext = 0 then none
    else
      some ((parts.name.take lnname).map (mapFileidChar · relaxed) ++
        (if lnext > 0 ∨ forcedot then [dot] else []) ++
        (parts.ext.take lnext).map (mapFileidChar · relaxed))

inductive IsoError where
  | outOfMem
  | charsetConv
  | nameNeedsTransl
  | fileTooBig
  | canceled
  | error
  | mangleTooMuchFiles
  | wrongArgValue

inductive IsoNodeType where
  | dir
  | file
  | symlink
  | special
  | boot
  deriving DecidableEq

/-- The write options which ecma119_tree.c looks at. The setter of the name length refuses
numbers above ISO_UNTRANSLATED_NAMES_MAX. -/
structure IsoWriteOpts where
  isoLevel : Nat
  rockridge : Bool
  allowDirIdExt : Bool
  allowDeepPaths : Bool
  allowLongerPaths : Bool
  max37CharFilenames : Bool
  noForceDots : Nat
  allowLowercase : Bool
  allowFullAscii : Bool
  allow7bitAscii : Bool
  untranslatedNameLen : Nat
  untranslatedNameLen_le : untranslatedNameLen ≤ 96
  rrRelocDir : Option Bytes
  rrRelocFlags : Nat

def relaxedBits (opts : IsoWriteOpts) : Nat :=
  let relaxed := if opts.allowFullAscii then 2 else if opts.allowLowercase then 1 else 0
  if opts.allow7bitAscii then relaxed ||| 4 else relaxed

def orOutOfMem : Option Bytes → Except IsoError Bytes
  | some name => .ok name
  | none => .error .outOfMem

/-- The part of iso_get_ecma119_name() behind the character set conversion. -/
def ecma119Identifier (opts : IsoWriteOpts) (asciiName : Bytes) (nodeType : IsoNodeType) :
    Except IsoError Bytes :=
  let relaxed := relaxedBits opts
  if nodeType = .dir ∧ !opts.allowDirIdExt then
    if opts.untranslatedNameLen > 0 then
      if asciiName.length > opts.untranslatedNameLen then .error .nameNeedsTransl
      else .ok asciiName
    else if opts.max37CharFilenames then .ok (isoRDirid asciiName 37 relaxed)
    else if opts.isoLevel = 1 then .ok (iso1Dirid asciiName relaxed)
    else if relaxed ≠ 0 then .ok (isoRDirid asciiName 31 relaxed)
    else .ok (iso2Dirid asciiName)
  else
    let forceDots : Bool := ¬ (opts.noForceDots &&& 1 ≠ 0 ∨ nodeType = .dir)
    if opts.untranslatedNameLen > 0 then
      if asciiName.length > opts.untranslatedNameLen then .error .nameNeedsTransl
      else .ok asciiName
    else if opts.max37CharFilenames then orOutOfMem (isoRFileid asciiName 36 relaxed forceDots)
    else if opts.isoLevel = 1 then orOutOfMem (iso1Fileid asciiName relaxed forceDots)
    else if relaxed ≠ 0 ∨ !forceDots then
      orOutOfMem (isoRFileid asciiName 30 relaxed forceDots)
    else orOutOfMem (iso2Fileid asciiName)

/-- `str2ascii` is the conversion of a name to the character set ASCII. The root has no
name, and gets none. -/
def isoGetEcma119Name (opts : IsoWriteOpts) (str2ascii : Bytes → Except IsoError Bytes)
    (nodeName : Option Bytes) (nodeType : IsoNodeType) : Except IsoError (Option Bytes) :=
  match nodeName with
  | none => .ok none
  | some nodeName => do
    let asciiName ←
      (if opts.untranslatedNameLen > 0 then Except.ok nodeName else str2ascii nodeName)
    let isoname ← ecma119Identifier opts asciiName nodeType
    pure (some isoname)

/-- The longest file and directory identifiers which mangle_tree() admits. -/
def mangleLimits (opts : IsoWriteOpts) : Nat × Nat :=
  if opts.untranslatedNameLen > 0 then (opts.untranslatedNameLen, opts.untranslatedNameLen)
  else if opts.max37CharFilenames then (37, 37)
  else if opts.isoLevel = 1 then (12, 8)
  else (31, 31)

theorem optionalDot_length (c : Prop) [Decidable c] :
    (if c then [dot] else []).length ≤ 1 := by
  split
  · exact Nat.le_refl 1
  · exact Nat.zero_le 1

/-- The name gets cut only if the extension has at most 3 characters left. -/
theorem keptLengths_spec {total lname lext len : Nat} (htotal : total = lname + 1 + lext)
    (hlen : 3 ≤ len) :
    (keptLengths total lname lext len).1 + (keptLengths total lname lext len).2 ≤ len ∧
      (keptLengths total lname lext len).1 ≤ lname ∧ (keptLengths total lname lext len).2 ≤ lext ∧
      ((keptLengths total lname lext len).2 < lext → 3 ≤ (keptLengths total lname lext len).2) ∧
      ((keptLengths total lname lext len).1 < lname →
        (keptLengths total lname lext len).2 ≤ 3) := by
  simp only [keptLengths]
  by_cases hlong : total > len + 1
  · by_cases hext : lext > 3
    · by_cases hname : lname < len - 3
      · simp only [hlong, hext, hname, and_self, if_true]
        omega
      · simp only [hlong, hext, hname, and_self, if_true, if_false]
        omega
    · simp only [hlong, hext, and_false, if_true, if_false]
      omega
  · simp only [hlong, false_and, if_false]
    omega

theorem splitAtDot_length {src : Bytes} {i : Option Nat} (hext : (splitAtDot src i).ext ≠ []) :
    src.length = (splitAtDot src i).name.length + 1 + (splitAtDot src i).ext.length := by
  cases i with
  | none => exact absurd rfl hext
  | some i =>
    have : 0 < (src.drop (i + 1)).length := List.length_pos_of_ne_nil hext
    simp only [splitAtDot, List.length_take, List.length_drop] at this ⊢
    omega

theorem isoRFileid_length {src : Bytes} {len relaxed : Nat} {forcedot : Bool} {name : Bytes}
    (hlen : 3 ≤ len) (made : isoRFileid src len relaxed forcedot = some name) :
    name.length ≤ len + 1 := by
  simp only [isoRFileid] at made
  by_cases hext : (splitAtDot src (strrchr dot src)).ext = []
  · rw [if_pos hext] at made
    split at made
    · cases made
    · obtain rfl := Option.some.inj made
      have := optionalDot_length (forcedot = true)
      simp only [List.length_append, List.length_map, List.length_take]
      omega
  · rw [if_neg hext] at made
    split at made
    · cases made
    · obtain rfl := Option.some.inj made
      have hsum := (keptLengths_spec (splitAtDot_length hext) hlen).1
      have := optionalDot_length ((keptLengths src.length
        (splitAtDot src (strrchr dot src)).name.length
        (splitAtDot src (strrchr dot src)).ext.length len).2 > 0 ∨ forcedot = true)
      simp only [List.length_append, List.length_map, List.length_take]
      omega

end Identifiers
