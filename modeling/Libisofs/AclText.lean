import Libisofs.Lib.Bytes
import Libisofs.Lib.Texts

/-!
# Access Control Lists as text and as AAIP value

aaip_encode_acl_text(), aaip_encode_acl(), aaip_encode_both_acl() and aaip_decode_acl() of
aaip_0_2.c. The encoder is run twice: it first counts, and then it produces. The databases of
users and groups belong to the system.
-/

namespace AclText

open ByteBuffers (toMsb ofMsb)
open Texts (text decimal IsDigit)

abbrev Bytes := List UInt8

section Constants

def aclUserObj : Nat := 1
def aclUser : Nat := 2
def aclGroupObj : Nat := 3
def aclGroup : Nat := 4
def aclMask : Nat := 5
def aclOther : Nat := 6
def switchMark : Nat := 8
def aclUserN : Nat := 10
def aclGroupN : Nat := 12
def futureVersion : Nat := 15

/-- The size of the buffer for names. -/
def nameSize : Nat := 1024

def newline : UInt8 := 0x0a
def colon : UInt8 := 0x3a

/-- Read, write and execute. -/
structure Perms where
  r : Bool
  w : Bool
  x : Bool
  deriving DecidableEq

/-- aaip_make_aaip_perms(), with the bits Aaip_READ, Aaip_WRITE and Aaip_EXEC. -/
def aaipMakeAaipPerms (perms : Perms) : Nat :=
  (if perms.r then 4 else 0) + (if perms.w then 2 else 0) + (if perms.x then 1 else 0)

/-- -2: The produced size differs from the counted one. -3: No id is known for a name. -/
inductive AclError where
  | sizeMismatch
  | unknownName
  | multObj
  deriving DecidableEq

/-- getpwnam() and getpwuid(), or getgrnam() and getgrgid(). `convert` is the cast of a number in
floating point format to an id, which is left open if the number is too large. -/
structure Database where
  byName : Bytes → Option Nat
  byId : Nat → Option Bytes
  convert : Nat → Nat
  byName_lt : ∀ name id, byName name = some id → id < 2 ^ 32
  convert_lt : ∀ num, convert num < 2 ^ 32
  convert_of_lt : ∀ num, num < 2 ^ 32 → convert num = num

structure Accounts where
  users : Database
  groups : Database

end Constants

section Lines

/-- npt - rpt -/
def lineLength (rpt : Bytes) : Nat :=
  match rpt.findIdx? (· = newline) with
  | none => rpt.length
  | some i => i + 1

/-- strchr(rpt + start, ':') - rpt -/
def colonAt (rpt : Bytes) (start : Nat) : Option Nat :=
  ((rpt.drop start).findIdx? (· = colon)).map (start + ·)

/-- cpt - rpt. The colons are not necessarily in the same line. -/
def secondColon (rpt : Bytes) : Option Nat :=
  match colonAt rpt 0 with
  | none => none
  | some cpt => colonAt rpt (cpt + 1)

/-- Which entries have been seen. -/
structure AclScan where
  hasU : Bool
  hasG : Bool
  hasO : Bool
  hasM : Bool
  isTrivial : Bool
  deriving DecidableEq

def AclScan.start : AclScan := ⟨false, false, false, false, true⟩

/-- aaip_numeric_id() -/
def aaipNumericId (name : Bytes) : Option Nat :=
  if name.all fun c => decide (IsDigit c) then
    some (name.foldl (fun num c => 10 * num + (c.toNat - 48)) 0)
  else none

/-- The number of bytes of an id of 32 bits. -/
def idLength : (turns : Nat) → (id : Nat) → Nat
  | 0, _ => 0
  | turns + 1, id => if id = 0 then 0 else idLength turns (id / 256) + 1

/-- The id as Qualifier Record. -/
def idQualifier (id : Nat) : Bytes := toMsb (max 1 (idLength 4 id)) id

def idOfName (db : Database) (name : Bytes) : Option Nat :=
  match db.byName name with
  | some id => some id
  | none =>
    match aaipNumericId name with
    | none => none
    | some num => if num = 0 then none else some (db.convert num)

/-- What a line tells: the tag type and the qualifier, if there is one. -/
abbrev Tag := Nat × Option Bytes

/-- The entries "user:" and "group:". Entries with an oversized name are skipped. -/
def qualifiedTag (numeric : Bool) (db : Database) (tagLen objType nameType idType : Nat)
    (seen : Bool) (marked scan : AclScan) (rpt : Bytes) (cpt : Nat) :
    Except AclError (Option Tag × AclScan) :=
  if cpt = tagLen then
    if seen then .error .multObj else .ok (some (objType, none), marked)
  else if cpt - tagLen ≥ nameSize then .ok (none, scan)
  else
    let name := (rpt.drop tagLen).take (cpt - tagLen)
    if numeric then
      match idOfName db name with
      | none => .error .unknownName
      | some id => .ok (some (idType, some (idQualifier id)), { scan with isTrivial := false })
    else .ok (some (nameType, some name), { scan with isTrivial := false })

def userTag (accounts : Accounts) (numeric : Bool) (scan : AclScan) (rpt : Bytes) (cpt : Nat) :
    Except AclError (Option Tag × AclScan) :=
  qualifiedTag numeric accounts.users 5 aclUserObj aclUser aclUserN scan.hasU
    { scan with hasU := true } scan rpt cpt

def groupTag (accounts : Accounts) (numeric : Bool) (scan : AclScan) (rpt : Bytes) (cpt : Nat) :
    Except AclError (Option Tag × AclScan) :=
  qualifiedTag numeric accounts.groups 6 aclGroupObj aclGroup aclGroupN scan.hasG
    { scan with hasG := true } scan rpt cpt

def lineTag (accounts : Accounts) (numeric : Bool) (scan : AclScan) (rpt : Bytes) (cpt : Nat) :
    Except AclError (Option Tag × AclScan) :=
  if (text "user:").isPrefixOf rpt then userTag accounts numeric scan rpt cpt
  else if (text "group:").isPrefixOf rpt then groupTag accounts numeric scan rpt cpt
  else if (text "other:").isPrefixOf rpt then
    if scan.hasO then .error .multObj
    else .ok (some (aclOther, none), { scan with hasO := true })
  else if (text "mask:").isPrefixOf rpt then
    .ok (some (aclMask, none), { scan with hasM := true })
  else .ok (none, scan)

structure AclRecord where
  tag : Tag
  perms : Nat
  deriving DecidableEq

/-- Lines which tell nothing leave no record. -/
def lineRecord (accounts : Accounts) (numeric : Bool) (rpt : Bytes) (scan : AclScan) :
    Except AclError (Option AclRecord × AclScan) :=
  if rpt.head? = some 0x23 then .ok (none, scan)
  else
    match secondColon rpt with
    | none => .ok (none, scan)
    | some cpt =>
      match lineTag accounts numeric scan rpt cpt with
      | .error e => .error e
      | .ok (none, scan) => .ok (none, scan)
      | .ok (some tag, scan) =>
        if lineLength rpt < cpt + 4 then .ok (none, scan)
        else
          let perms : Perms := ⟨rpt.getD (cpt + 1) 0 = 0x72, rpt.getD (cpt + 2) 0 = 0x77,
            rpt.getD (cpt + 3) 0 = 0x78⟩
          .ok (some ⟨tag, aaipMakeAaipPerms perms⟩, scan)

end Lines

section Encoding

/-- `count` and the bytes in `result`. -/
structure Output where
  count : Nat
  result : Bytes

/-- The bytes of a record, with the check against the end of the result. -/
def put (size : Nat) (out : Output) (chunk : Bytes) : Option Output :=
  if out.count + chunk.length ≤ size then
    some ⟨out.count + chunk.length, out.result ++ chunk⟩
  else none

def tagByte (record : AclRecord) : UInt8 :=
  UInt8.ofNat (record.perms + (if record.tag.2.isSome then 8 else 0) + 16 * record.tag.1)

def numRecs (qualifierLen : Nat) : Nat :=
  qualifierLen / 127 + if qualifierLen % 127 = 0 then 0 else 1

/-- The qualifier in pieces of up to 127 bytes. All but the last one have the continue bit. -/
def qualifierRecs (qualifier : Bytes) : List Bytes :=
  (List.range (numRecs qualifier.length)).map fun i =>
    let last := if qualifier.length % 127 = 0 then 127 else qualifier.length % 127
    if i < numRecs qualifier.length - 1 then 255 :: (qualifier.drop (i * 127)).take 127
    else UInt8.ofNat last :: (qualifier.drop (i * 127)).take last

/-- Without `size` the bytes are only counted. -/
def putRecord (size : Option Nat) (out : Output) (record : AclRecord) : Option Output :=
  match size with
  | none =>
    match record.tag.2 with
    | none => some { out with count := out.count + 1 }
    | some qualifier =>
      some { out with count := out.count + 1 + (qualifier.length + numRecs qualifier.length) }
  | some size =>
    let chunks := [tagByte record] :: (record.tag.2.elim [] qualifierRecs)
    chunks.foldlM (put size) out

/-- The loop over the lines. -/
def aclLoop (accounts : Accounts) (numeric : Bool) (size : Option Nat) : (turns : Nat) →
    (rpt : Bytes) → AclScan → Output → Except AclError (AclScan × Output)
  | 0, _, scan, out => .ok (scan, out)
  | turns + 1, rpt, scan, out =>
    if rpt = [] then .ok (scan, out)
    else
      match lineRecord accounts numeric rpt scan with
      | .error e => .error e
      | .ok (none, scan) => aclLoop accounts numeric size turns (rpt.drop (lineLength rpt)) scan out
      | .ok (some record, scan) =>
        match putRecord size out record with
        | none => .error .sizeMismatch
        | some out => aclLoop accounts numeric size turns (rpt.drop (lineLength rpt)) scan out

/-- The permissions of the class at the bits from `shift` on. The third one is computed by a
multiplication of 32 bit numbers. -/
def modePerms (stMode shift : Nat) : Perms where
  r := stMode &&& (4 <<< shift) ≠ 0
  w := stMode &&& (2 <<< shift) ≠ 0
  x := stMode * (1 <<< shift) % 2 ^ 32 ≠ 0

/-- The mandatory entries which are missing. -/
def missingRecords (stMode : Nat) (scan : AclScan) : List AclRecord :=
  (if scan.hasU then [] else [⟨(aclUserObj, none), aaipMakeAaipPerms (modePerms stMode 6)⟩]) ++
  (if scan.hasG then [] else [⟨(aclGroupObj, none), aaipMakeAaipPerms (modePerms stMode 3)⟩]) ++
  (if scan.hasO then [] else [⟨(aclOther, none), aaipMakeAaipPerms (modePerms stMode 0)⟩]) ++
  (if scan.isTrivial || scan.hasM then []
    else [⟨(aclMask, none), aaipMakeAaipPerms (modePerms stMode 3)⟩])

/-- What the flag bits of the encoder tell: bit1, bit2 and bit3. -/
structure AclFlag where
  numeric : Bool
  isDefault : Bool
  complete : Bool

variable (accounts : Accounts)

/-- aaip_encode_acl_text(). The missing records are stored after one check for all of them. -/
def aaipEncodeAclText (acl : Bytes) (stMode : Nat) (size : Option Nat) (flag : AclFlag) :
    Except AclError Output :=
  let started := if flag.isDefault then
      match size with
      | none => some ⟨1, []⟩
      | some size => put size ⟨0, []⟩ [UInt8.ofNat (16 * switchMark + 1)]
    else some ⟨0, []⟩
  match started with
  | none => .error .sizeMismatch
  | some out =>
    match aclLoop accounts flag.numeric size acl.length acl .start out with
    | .error e => .error e
    | .ok (scan, out) =>
      if flag.complete then
        let missing := missingRecords stMode scan
        match size with
        | none => .ok { out with count := out.count + missing.length }
        | some size =>
          match put size out (missing.map tagByte) with
          | none => .error .sizeMismatch
          | some out => .ok out
      else .ok out

def aaipEncodeAcl (acl : Bytes) (stMode : Nat) (flag : AclFlag) : Except AclError Bytes :=
  match aaipEncodeAclText accounts acl stMode none flag with
  | .error e => .error e
  | .ok counted =>
    match aaipEncodeAclText accounts acl stMode (some counted.count) flag with
    | .error e => .error e
    | .ok out => if out.count = counted.count then .ok out.result else .error .sizeMismatch

/-- None is for the attribute to be deleted. -/
def aaipEncodeBothAcl (aAcl dAcl : Option Bytes) (stMode : Nat) (numeric complete : Bool) :
    Except AclError (Option Bytes) :=
  let encoded (acl : Option Bytes) (stMode : Nat) (flag : AclFlag) :
      Except AclError (Option Bytes) :=
    match acl with
    | none => .ok none
    | some acl => (aaipEncodeAcl accounts acl stMode flag).map some
  match encoded aAcl stMode ⟨numeric, false, complete⟩ with
  | .error e => .error e
  | .ok aAcl =>
    match encoded dAcl 0 ⟨numeric, true, false⟩ with
    | .error e => .error e
    | .ok dAcl =>
      if aAcl.getD [] = [] then .ok dAcl
      else if dAcl.getD [] = [] then .ok aAcl
      else .ok (some (aAcl.getD [] ++ dAcl.getD []))

end Encoding

section Decoding

/-- A text which is only counted, or produced within a number of bytes. -/
inductive Writer where
  | counted (size : Nat)
  | produced (written : Bytes) (room : Nat)

/-- aaip_write_acl_line() -/
def aaipWriteAclLine (writer : Writer) (tagType qualifier permissions : Bytes) : Option Writer :=
  let line := tagType ++ colon :: qualifier ++ colon :: permissions ++ [newline]
  match writer with
  | .counted size => some (.counted (size + line.length))
  | .produced written room =>
    if line.length + 1 > room then none
    else some (.produced (written ++ line) (room - line.length))

/-- aaip_read_qualifier() from the byte at `rpt` on. Behind a record with continue bit the
pointer is moved by its length twice. Reading behind the end of the data counts as failure. -/
def aaipReadQualifier (data : Bytes) : (turns : Nat) → (rpt : Nat) → (name : Bytes) → Option Bytes
  | 0, _, _ => none
  | turns + 1, rpt, name =>
    match data[rpt]? with
    | none => none
    | some head =>
      let recLen := head.toNat % 128
      if name.length + recLen ≥ nameSize ∨ rpt + 1 + recLen > data.length then none
      else
        let name := name ++ (data.drop (rpt + 1)).take recLen
        if head.toNat < 128 then some name
        else aaipReadQualifier data turns (rpt + 1 + recLen + recLen) name

/-- The bytes up to the first 0. -/
def cString (s : Bytes) : Bytes := s.takeWhile (· ≠ 0)

def permText (perm : Nat) : Bytes :=
  [if perm.testBit 2 then 0x72 else 0x2d, if perm.testBit 1 then 0x77 else 0x2d,
    if perm.testBit 0 then 0x78 else 0x2d]

/-- The name of an id, or the id as number. -/
def nameOfId (db : Database) (id : Nat) : Bytes :=
  match db.byId id with
  | none => decimal id
  | some name => if name.length ≥ nameSize then decimal id else name

/-- Errors: reading of a qualifier, writing of a line, version mismatch, unknown tag type. -/
inductive DecodeError where
  | qualifier
  | write
  | version
  | tagType

/-- Why the decoder ends: the data are at their end, or the other kind of ACL begins. -/
inductive DecodeEnd where
  | complete
  | switched

variable (accounts : Accounts)

/-- The line for a tag type. None is for an unknown type. -/
def lineOfType (type : Nat) (name : Bytes) : Option (Bytes × Bytes) :=
  if type = aclUserObj then some (text "user", [])
  else if type = aclUser then some (text "user", cString name)
  else if type = aclGroupObj then some (text "group", [])
  else if type = aclGroup then some (text "group", cString name)
  else if type = aclMask then some (text "mask", [])
  else if type = aclOther then some (text "other", [])
  else if type = aclUserN then
    some (text "user", nameOfId accounts.users (ofMsb name % 2 ^ 32))
  else if type = aclGroupN then
    some (text "group", nameOfId accounts.groups (ofMsb name % 2 ^ 32))
  else none

/-- The loop of aaip_decode_acl(). The outcome tells the number of consumed bytes, too.
`expectDefault` is flag bit1. Without qualifier the name counts as empty. -/
def decodeLoop (expectDefault : Bool) : (turns : Nat) → (data : Bytes) → (consumed : Nat) →
    Writer → Except DecodeError (DecodeEnd × Nat × Writer)
  | 0, _, consumed, writer => .ok (.complete, consumed, writer)
  | _, [], consumed, writer => .ok (.complete, consumed, writer)
  | turns + 1, perm :: data, consumed, writer =>
    let type := perm.toNat / 16
    if type = futureVersion then .error .version
    else
      match if perm.toNat.testBit 3 then (aaipReadQualifier data data.length 0 []).map some
        else some none with
      | none => .error .qualifier
      | some qualifier =>
        let name := qualifier.getD []
        let skip := if qualifier.isSome then name.length + 1 else 0
        let consumed := consumed + 1 + skip
        let rest := data.drop skip
        if type = 0 then decodeLoop expectDefault turns rest consumed writer
        else if type = switchMark then
          if perm.toNat.testBit 0 ≠ expectDefault then .ok (.switched, consumed, writer)
          else decodeLoop expectDefault turns rest consumed writer
        else
          match lineOfType accounts type name with
          | none => .error .tagType
          | some (tagType, qualifier) =>
            match aaipWriteAclLine writer tagType qualifier (permText perm.toNat) with
            | none => .error .write
            | some writer => decodeLoop expectDefault turns rest consumed writer

def aaipDecodeAcl (data : Bytes) (writer : Writer) (expectDefault : Bool) :
    Except DecodeError (DecodeEnd × Nat × Writer) :=
  decodeLoop accounts expectDefault data.length data 0 writer

end Decoding

end AclText
