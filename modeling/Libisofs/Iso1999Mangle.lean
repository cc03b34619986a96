import Libisofs.NameManglingSpec

/-!
# Mangling of ISO 9660:1999 names

Names have up to 207 bytes. mangle_single_dir() of iso1999.c cuts them by the number of digits and
puts a number at the end of the name or in front of the extension.
-/

namespace Iso1999

open Identifiers CLibrary ThreeWay ChainedTables NameMangling
open Ecma119Tree (Stem padded)

def isoStrHash (key : Bytes) : UInt32 :=
  key.foldl (fun h c => (h * 16777619) ^^^ c.toInt8.toInt32.toUInt32) 2166136261

/-- The name without `digits` of its characters, and the extension, which is reduced if nothing
would be left of the name. -/
def nameStem (digits : Nat) (isDir : Bool) (fullName : Bytes) : Except IsoError Stem :=
  match strrchr dot fullName, !isDir with
  | some dotPos, true =>
    let name := fullName.take dotPos
    let ext := fullName.drop (dotPos + 1)
    let extlen : Int := ext.length
    let max : Int := 207 - extlen - 1 - digits
    if max ≤ 0 then
      -- this can happen if extension is too long
      if extlen + max > 3 then
        let extlen := extlen + max - 1
        let max := 207 - extlen - 1 - digits
        .ok ⟨name.take max.toNat, ext.take extlen.toNat, true⟩
      else .error .error
    else .ok ⟨name.take max.toNat, ext, true⟩
  | _, _ => .ok ⟨fullName.take (207 - digits), [], false⟩

def scheme : Scheme Bytes Stem where
  hash key := (isoStrHash key).toNat
  cmp := strcmp
  stem := nameStem
  candidate := Stem.candidate
  allocates := false

def mangleSingleDir (m : Memory) (qsort : Qsort) (dir : Dir Bytes) :
    Except IsoError (List (Child Bytes)) := NameMangling.mangleSingleDir scheme m qsort dir

/-- The names fit into their buffers. -/
def NameFits (key : Bytes) : Prop := key.length ≤ 207

section Unstored

variable {m : Memory}

/-- The table has no other keys than these. -/
def KeysIn (t : Table Bytes) (bytes : List Bytes) : Prop := ∀ key, t.get key = true → key ∈ bytes

theorem KeysIn.free {t : Table Bytes} {bytes : List Bytes} (h : KeysIn t bytes) {key : Bytes}
    (hkey : key ∉ bytes) : t.get key = false :=
  Bool.eq_false_iff.mpr fun hget => hkey (h key hget)

theorem KeysIn.retable {t : Table Bytes} {bytes : List Bytes} {old new : KeyPtr Bytes}
    {stored : Bool} (h : KeysIn t bytes) :
    KeysIn (retable t old new stored) (if stored then new.key :: bytes else bytes) := by
  intro key hget
  cases stored with
  | true =>
    rcases get_of_get_add hget with rfl | hold
    · exact List.mem_cons_self
    · exact List.mem_cons_of_mem _ (h key (get_of_get_removePtr hold))
  | false => exact h key (get_of_get_removePtr hget)

end Unstored

end Iso1999
