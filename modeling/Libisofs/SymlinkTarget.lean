import Mathlib.Data.List.DropRight

/-!
# Symbolic link targets in SL entries

The packing of a link destination into SL entries by rrip_get_susp_fields() and
rrip_add_SL() of rockridge.c, and the reading of these entries by read_rr_SL() of
rockridge_read.c. Allocation succeeds. The destination is the text after character
set conversion, and as a C string it holds no 0-bytes.
-/

namespace SymlinkTarget

abbrev Bytes := List UInt8

def slash : UInt8 := 0x2f
def dot : UInt8 := 0x2e

/-- LIBISOFS_NODE_NAME_MAX and LIBISOFS_NODE_PATH_MAX. -/
def nodeNameMax : Nat := 255
def nodePathMax : Nat := 1024

inductive IsoError where
  | rrNameReserved
  | rrNameTooLong
  | rrPathTooLong
  | assertFailure
  deriving DecidableEq

def isoNodeIsValidName (name : Bytes) : Except IsoError Unit :=
  if name = [] then .error .rrNameReserved
  else if name.length > nodeNameMax then .error .rrNameTooLong
  else if name = [dot] ∨ name = [dot, dot] then .error .rrNameReserved
  else if slash ∈ name then .error .rrNameReserved
  else .ok ()

/-- What strtok_r() with "/" delivers, empty parts included, `part` being the part
which is scanned. -/
def splitAtSlash (part : Bytes) : Bytes → List Bytes
  | [] => [part]
  | c :: rest => if c = slash then part :: splitAtSlash [] rest else splitAtSlash (part ++ [c]) rest

def checkComponents : List Bytes → Except IsoError Unit
  | [] => .ok ()
  | component :: rest =>
    if component = [dot] ∨ component = [dot, dot] then checkComponents rest
    else
      match isoNodeIsValidName component with
      | .error e => .error e
      | .ok () => checkComponents rest

def isoNodeIsValidLinkDest (dest : Bytes) : Except IsoError Unit :=
  if dest = [] then .error .rrNameReserved
  else if dest.length > nodePathMax then .error .rrPathTooLong
  else if dest = [slash] then .ok ()
  else checkComponents ((splitAtSlash [] dest).filter (· ≠ []))

/-- A component record: its flags and what comp[1] says that belongs to it. -/
structure SlComp where
  flags : UInt8
  text : Bytes

def SlComp.bytes (comp : SlComp) : Bytes :=
  comp.flags :: UInt8.ofNat comp.text.length :: comp.text

/-- comp[1] holds the size modulo 256, and nobody looks at more bytes than it tells. -/
def rripSLAppendComp (comps : List SlComp) (s : Bytes) (size : Nat) (fl : UInt8) :
    List SlComp :=
  comps ++ [⟨fl, s.take (size % 256)⟩]

/-- One turn of the loop over the destination: the characters from `prev` to `cur`, and
the text which begins at `cur`. -/
structure Turn where
  comp : Bytes
  rest : Bytes

/-- The turns of the loop; it ends with the text or before a slash at its end. -/
def turns (comp : Bytes) : Bytes → List Turn
  | [] => [⟨comp, []⟩]
  | c :: rest =>
    if c = slash then ⟨comp, c :: rest⟩ :: (if rest = [] then [] else turns [] rest)
    else turns (comp ++ [c]) rest

/-- The component flag (RRIP, 4.1.3.1): root, current or parent directory. -/
def cflag (comp : Bytes) : UInt8 :=
  if comp = [] then 8 else if comp = [dot] then 2 else if comp = [dot, dot] then 4 else 0

/-- Length of the record of an undivided component. -/
def compLen (comp : Bytes) : Nat :=
  (if comp = [dot] ∨ comp = [dot, dot] then 0 else comp.length) + 2

structure SlState where
  comps : List SlComp
  cew : Bool
  slLen : Nat
  ceLen : Nat

/-- A turn while writing to the Continuation Area. -/
def slTurnCe (t : Turn) (st : SlState) : SlState :=
  let prev := t.comp ++ t.rest
  let clen := compLen t.comp
  let whole := rripSLAppendComp st.comps prev (clen - 2) (cflag t.comp)
  if st.slLen + clen > 255 then
    if clen > 250 then
      let fit : Int := 255 - st.slLen - 2
      if (clen - 250 : Nat) ≤ fit then
        -- divided between this SL entry and the next one
        { st with
          comps := rripSLAppendComp (rripSLAppendComp st.comps prev fit.toNat 1)
            (prev.drop fit.toNat) (clen - fit.toNat - 2) 0
          ceLen := st.ceLen + 255
          slLen := 5 + (clen - fit.toNat) }
      else
        -- nothing goes into this SL entry; what strlen(prev + 248) counts may be more
        -- than the rest of the component
        { st with
          comps := rripSLAppendComp (rripSLAppendComp st.comps prev 248 1)
            (prev.drop 248) (prev.drop 248).length 0
          ceLen := st.ceLen + st.slLen + 255
          slLen := 5 + (clen - 250) + 2 }
    else
      { st with comps := whole, ceLen := st.ceLen + st.slLen, slLen := 5 + clen }
  else
    { st with comps := whole, slLen := st.slLen + clen }

def slTurn (suaFree : Nat) (st : SlState) (t : Turn) : SlState :=
  if st.cew then slTurnCe t st
  else if st.slLen + compLen t.comp > suaFree then slTurnCe t { st with cew := true }
  else
    { st with
      comps := rripSLAppendComp st.comps (t.comp ++ t.rest) (compLen t.comp - 2) (cflag t.comp)
      slLen := st.slLen + compLen t.comp }

/-- `nmInCe` is the length of that part of the name which went to the CA, if any. -/
def slStart (nmInCe : Option Nat) : SlState where
  comps := []
  cew := nmInCe.isSome
  slLen := 5
  ceLen := (nmInCe.map (5 + ·)).getD 0

/-- The loop over the destination in rrip_get_susp_fields(). -/
def slLoop (suaFree : Nat) (nmInCe : Option Nat) (dest : Bytes) : SlState :=
  let st := (turns [] dest).foldl (slTurn suaFree) (slStart nmInCe)
  if st.cew then { st with ceLen := st.ceLen + st.slLen } else st

def slEntry (cont : UInt8) (totalCompLen : Nat) (comps : List SlComp) : Bytes :=
  0x53 :: 0x4c :: UInt8.ofNat (totalCompLen + 5) :: 1 :: cont :: comps.flatMap SlComp.bytes

/-- The loop of rrip_add_SL(); `pending` are the components since `written`. -/
def addSlLoop (totalCompLen : Nat) (pending : List SlComp) : List SlComp → List Bytes
  | [] => [slEntry 0 totalCompLen pending]
  | comp :: rest =>
    if totalCompLen + (comp.text.length + 2) > 250 then
      slEntry 1 totalCompLen pending :: addSlLoop (comp.text.length + 2) [comp] rest
    else addSlLoop (totalCompLen + (comp.text.length + 2)) (pending ++ [comp]) rest

/-- "In this case we are sure we're writing to CE": more than one entry. -/
def rripAddSl (comps : List SlComp) (ce : Bool) : Except IsoError (List Bytes) :=
  let entries := addSlLoop 0 [] comps
  if ce = false ∧ entries.length > 1 then .error .assertFailure else .ok entries

/-- The SL entries of a symbolic link. -/
def rripSlFields (suaFree : Nat) (nmInCe : Option Nat) (dest : Bytes) :
    Except IsoError (List Bytes) :=
  let st := slLoop suaFree nmInCe dest
  rripAddSl st.comps (st.ceLen > 0)

/-- The variables linkdest and linkdestcont of the reader. -/
structure ReadState where
  dest : Option Bytes
  cont : Nat

/-- strncat() and iso_util_strcopy() end with a 0-byte. -/
def cString (s : Bytes) : Bytes := s.takeWhile (· ≠ 0)

/-- "it is a new component, add the '/'" -/
def joinSlash (dest comp : Bytes) : Bytes :=
  if dest.getLast? = some slash then dest ++ comp else dest ++ slash :: comp

/-- The text of a component by its flags; none for an unsupported flag. -/
def flaggedText (flags : UInt8) (text : Bytes) : Option Bytes :=
  if flags &&& 2 ≠ 0 then some [dot]
  else if flags &&& 4 ≠ 0 then some [dot, dot]
  else if flags &&& 8 ≠ 0 then some [slash]
  else if flags &&& ~~~1 ≠ 0 then none
  else some text

/-- One turn of the loop in read_rr_SL(). -/
def readComp (flags : UInt8) (text : Bytes) (st : ReadState) : Option ReadState :=
  match flaggedText flags text with
  | none => none
  | some comp =>
    let dest := st.dest.getD []
    some
      { dest := some
          (if st.cont = 1 then joinSlash dest (cString comp)
          else if st.cont = 2 then dest ++ cString comp
          else cString comp)
        cont := if flags &&& 1 ≠ 0 then 2 else 1 }

/-- The loop of read_rr_SL() with `left` bytes of the entry still to be read. -/
def readComps (left : Nat) (area : Bytes) (st : ReadState) : Option ReadState :=
  if left = 0 then some st
  else
    let len := (area.getD 1 0).toNat
    match readComp (area.getD 0 0) ((area.drop 2).take len) st with
    | none => none
    | some st' => readComps (left - (2 + len)) (area.drop (2 + len)) st'
termination_by left

def readRrSl (entry : Bytes) (st : ReadState) : Option ReadState :=
  if entry.getD 0 0 ≠ 0x53 ∨ entry.getD 1 0 ≠ 0x4c then none
  else
    match readComps ((entry.getD 2 0).toNat - 5) (entry.drop 5) st with
    | none => none
    | some st' =>
      if st'.cont = 2 then some st'
      else some { st' with cont := if entry.getD 4 0 &&& 1 ≠ 0 then 1 else 0 }

/-- Successive calls. The reader of directory records ignores an entry after one which
does not announce a continuation. -/
def readEntries : List Bytes → ReadState → Option ReadState
  | [], st => some st
  | entry :: rest, st =>
    if st.dest.isSome ∧ st.cont = 0 then readEntries rest st
    else
      match readRrSl entry st with
      | none => none
      | some st' => readEntries rest st'

/-- A destination without the slashes at its end. -/
def untail (dest : Bytes) : Bytes := dest.rdropWhile (· = slash)

/-- All entries have proper length and they tell the destination, up to trailing
slashes. -/
def RoundTrip (suaFree : Nat) (nmInCe : Option Nat) (dest : Bytes) : Prop :=
  ∃ entries, rripSlFields suaFree nmInCe dest = .ok entries ∧
    (∀ entry ∈ entries, entry.length ≤ 255) ∧
    ∃ got, readEntries entries ⟨none, 0⟩ = some ⟨some got, 0⟩ ∧ untail got = untail dest

end SymlinkTarget
