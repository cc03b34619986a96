import Libisofs.Identifiers

/-!
# Names made unique

make_really_unique_name() of tree.c resolves a name collision. It pads the name by
underscores and then increments a part of it like a number, until no node of the directory
has the name.
-/

namespace UniqueNames

open Identifiers (strrchr strrchr_lt)

abbrev Bytes := List UInt8

/-- The incrementable part of the name shall have so many characters. -/
def minIncr : Nat := 7

/-- At most two suffixes of such a length get preserved. -/
def maxSuffix : Nat := 12

/-- The next one among the digits and letters. Nothing comes after z. -/
def nextChar (c : UInt8) (beforeSuffix : Bool) : Option UInt8 :=
  if 0x30 ≤ c ∧ c < 0x39 then some (c + 1)
  else if c = 0x39 then some 0x41
  else if 0x41 ≤ c ∧ c < 0x5a then some (c + 1)
  else if c = 0x5a then some 0x5f
  else if c = 0x5f then some 0x61
  else if 0x61 ≤ c ∧ c < 0x7a then some (c + 1)
  else if c = 0x7a then none
  else if beforeSuffix then some 0x5f
  else some 0x30

/-- Each z which rolls over becomes 0. So the loop visits no position a third time. -/
def asciiIncrement : (steps : Nat) → (name : Bytes) → (pos : Int) → (rolloverCarry : Bool) → Bytes
  | 0, name, _, _ => name
  | steps + 1, name, pos, rolloverCarry =>
    let i := if pos < 0 ∨ (name.length : Int) ≤ pos then name.length - 1 else pos.toNat
    match nextChar (name.getD i 0) (i + 1 = name.length ∨ name.getD (i + 1) 0 = 0x2e) with
    | some c => name.set i c
    | none =>
      if 0 < i ∨ rolloverCarry then
        asciiIncrement steps (name.set i 0x30) ((i : Int) - 1) rolloverCarry
      else name.set i 0x30

def insertUnderscores (name : Bytes) (atPos count : Nat) : Bytes :=
  name.take atPos ++ List.replicate count 0x5f ++ name.drop atPos

/-- The position `first` where the suffixes to be preserved begin. -/
def suffixStart (name : Bytes) : Nat :=
  let dpt := match name.findIdx? (· = 0x2e) with
    | some dpt => if dpt < minIncr then strrchr 0x2e name else some dpt
    | none => none
  match dpt with
  | none => name.length
  | some dpt =>
    if 0 < dpt ∧ name.length - dpt < maxSuffix then
      match strrchr 0x2e (name.take dpt) with
      | some npt => if name.length - npt ≤ maxSuffix then npt else dpt
      | none => dpt
    else dpt

/-- What make_incrementable_name() returns. -/
structure Incrementable where
  uniqueName : Bytes
  lowPos : Int
  rolloverCarry : Bool
  preCheck : Bool

def makeIncrementableName (name : Bytes) : Incrementable :=
  let first := suffixStart name
  if first < minIncr ∧ name.length - first ≤ maxSuffix then
    ⟨insertUnderscores name first (minIncr - first), (minIncr : Int) - 1, false, true⟩
  else if name.length < 64 then ⟨insertUnderscores name first 1, first, false, true⟩
  else ⟨name, (first : Int) - 1, first < minIncr, false⟩

def Incrementable.next (inc : Incrementable) (name : Bytes) : Bytes :=
  asciiIncrement (name.length + 1) name inc.lowPos inc.rolloverCarry

/-- The loop over the candidates. None is for more tries than the given number. -/
def firstFree (taken : Bytes → Bool) (inc : Incrementable) : (tries : Nat) → Bytes → Option Bytes
  | 0, _ => none
  | tries + 1, name =>
    if taken name then firstFree taken inc tries (inc.next name) else some name

def makeReallyUniqueName (taken : Bytes → Bool) (tries : Nat) (name : Bytes) : Option Bytes :=
  let inc := makeIncrementableName name
  firstFree taken inc tries (if inc.preCheck then inc.uniqueName else inc.next inc.uniqueName)

theorem length_asciiIncrement (steps : Nat) (name : Bytes) (pos : Int) (rolloverCarry : Bool) :
    (asciiIncrement steps name pos rolloverCarry).length = name.length := by
  induction steps generalizing name pos with
  | zero => rfl
  | succ steps ih =>
    rw [asciiIncrement]
    generalize (if pos < 0 ∨ (name.length : Int) ≤ pos then name.length - 1 else pos.toNat) = i
    cases nextChar (name.getD i 0) (i + 1 = name.length ∨ name.getD (i + 1) 0 = 0x2e) with
    | some c => exact List.length_set ..
    | none =>
      show (if 0 < i ∨ rolloverCarry then
        asciiIncrement steps (name.set i 0x30) ((i : Int) - 1) rolloverCarry
          else name.set i 0x30).length = name.length
      split
      · rw [ih, List.length_set]
      · exact List.length_set ..

theorem suffixStart_le (name : Bytes) : suffixStart name ≤ name.length := by
  have hlast : ∀ dpt, (match name.findIdx? (· = 0x2e) with
      | some dpt => if dpt < minIncr then strrchr 0x2e name else some dpt
      | none => none) = some dpt → dpt < name.length := by
    intro dpt hdpt
    split at hdpt
    next first hfirst =>
      split at hdpt
      · exact strrchr_lt hdpt
      · obtain rfl := Option.some.inj hdpt
        exact (List.findIdx?_eq_some_iff_getElem.mp hfirst).1
    next => cases hdpt
  simp only [suffixStart]
  split
  next => exact Nat.le_refl _
  next dpt hdpt =>
    have hlt := hlast dpt hdpt
    split
    · split
      next npt hnpt =>
        have hnpt' := strrchr_lt hnpt
        rw [List.length_take] at hnpt'
        split
        · omega
        · omega
      next => omega
    · omega

theorem length_makeIncrementableName (name : Bytes) :
    (makeIncrementableName name).uniqueName.length ≤ max 64 name.length := by
  have hfirst := suffixStart_le name
  simp only [makeIncrementableName]
  split
  next h =>
    simp only [insertUnderscores, List.length_append, List.length_take, List.length_replicate,
      List.length_drop]
    simp only [minIncr, maxSuffix] at h ⊢
    omega
  next =>
    split
    · simp only [insertUnderscores, List.length_append, List.length_take, List.length_replicate,
        List.length_drop]
      omega
    · exact Nat.le_max_right ..

theorem firstFree_spec {taken : Bytes → Bool} {inc : Incrementable} {tries : Nat}
    {name free : Bytes} (h : firstFree taken inc tries name = some free) :
    taken free = false ∧ free.length = name.length := by
  induction tries generalizing name with
  | zero => cases h
  | succ tries ih =>
    rw [firstFree] at h
    split at h
    next =>
      obtain ⟨hfree, hlength⟩ := ih h
      exact ⟨hfree, hlength.trans (length_asciiIncrement _ _ _ _)⟩
    next htaken =>
      obtain rfl := Option.some.inj h
      exact ⟨Bool.eq_false_iff.mpr htaken, rfl⟩

/-- The resulting name is not taken, and not longer than 64 characters or the given name. -/
theorem makeReallyUniqueName_spec {taken : Bytes → Bool} {tries : Nat} {name free : Bytes}
    (h : makeReallyUniqueName taken tries name = some free) :
    taken free = false ∧ free.length ≤ max 64 name.length := by
  obtain ⟨hfree, hlength⟩ := firstFree_spec h
  refine ⟨hfree, ?_⟩
  have hle := length_makeIncrementableName name
  rw [hlength]
  split
  · exact hle
  · rw [Incrementable.next, length_asciiIncrement]
    exact hle

/-- The name with all of its letters is preserved for the first try. -/
example : makeReallyUniqueName (· = [0x61]) 1 [0x61] = some [0x61, 95, 95, 95, 95, 95, 95] := by
  decide

end UniqueNames
