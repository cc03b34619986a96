import Libisofs.RecordTimes

/-!
# Month tables and round trips of time stamps

ts_timegm() adds up the entries of its month tables without a check of the month, and tells 0 for
all years before 1970. So iso_datetime_read_7() undoes iso_datetime_7() only from 1970 on and an
image can make it read behind the end of a table.
-/

namespace StampReading

open Calendar RecordTimes

/-- The loop over the months. An index behind the end of the table yields nothing. -/
def monthsLoop (table : List Int) : Nat → Option Int
  | 0 => some 0
  | i + 1 => do
    let ret ← monthsLoop table i
    let length ← table[i]?
    some (ret + length * 86400)

/-- As tsTimegm, with the accesses to the tables. -/
def tsTimegmChecked (tm : Tm) : Option Int :=
  let years := tm.year - 70
  if years < 0 then some 0
  else do
    let months ← monthsLoop (monthLength (tsIsLeapyear tm.year)) tm.mon.toNat
    some (yearsLoop years.toNat + months + (tm.mday - 1) * 86400 + tm.hour * 3600 + tm.min * 60 +
      tm.sec)

/-- The substitute of `timegm()`. -/
def timegmChecked (tm : Tm) : Option Int := do
  let rawT ← tsTimegmChecked tm
  some (if rawT = 0 then rawT else if gmtime rawT = tm then rawT else Calendar.timegm tm)

def isoDatetimeRead7Checked (buf : List UInt8) : Option Int := do
  let field (i : Nat) : Int := (buf.getD i 0).toNat
  let t ← timegmChecked ⟨field 0, field 1 - 1, field 2, field 3, field 4, field 5⟩
  some (t - (buf.getD 6 0).toInt8.toInt * 60 * 15)

section Tables

variable {table : List Int} {n : Nat} {tm : Tm}

theorem monthsLoop_inside (h : n ≤ table.length) :
    monthsLoop table n = some ((table.take n).map fun l => l * 86400).sum := by
  induction n with
  | zero => rfl
  | succ n ih =>
    have hlt : n < table.length := h
    rw [monthsLoop, ih (Nat.le_of_lt hlt), List.getElem?_eq_getElem hlt, List.take_add_one,
      List.getElem?_eq_getElem hlt, Option.toList_some, List.map_append, List.sum_append]
    simp only [Option.bind_eq_bind, Option.bind_some, List.map_cons, List.map_nil, List.sum_cons,
      List.sum_nil, Int.add_zero]

theorem monthsLoop_outside (h : table.length < n) : monthsLoop table n = none := by
  induction n with
  | zero => exact absurd h (Nat.not_lt_zero _)
  | succ n ih =>
    rw [monthsLoop]
    rcases Nat.lt_or_eq_of_le (Nat.le_of_lt_succ h) with hlt | rfl
    · rw [ih hlt]
      rfl
    · rw [List.getElem?_eq_none (Nat.le_refl _)]
      cases monthsLoop table table.length <;> rfl

theorem length_monthLength (leap : Bool) : (monthLength leap).length = 12 := by
  cases leap <;> rfl

/-- The result is the one of the unchecked function, as long as there is one. -/
theorem tsTimegmChecked_eq (tm : Tm) :
    tsTimegmChecked tm = if 70 ≤ tm.year ∧ 12 < tm.mon then none else some (tsTimegm tm) := by
  rw [tsTimegmChecked, tsTimegm]
  by_cases hyears : tm.year - 70 < 0
  · rw [if_pos hyears, if_pos hyears, if_neg (by omega)]
  · rw [if_neg hyears, if_neg hyears]
    by_cases hmon : 12 < tm.mon
    · rw [monthsLoop_outside (by rw [length_monthLength]; omega), if_pos (by omega)]
      rfl
    · rw [monthsLoop_inside (by rw [length_monthLength]; omega), if_neg (by omega)]
      rfl

end Tables

section Stamps

variable {p : Platform}

theorem timegmChecked_eq (hp : p.haveTimegm = false) (tm : Tm) :
    timegmChecked tm = if 70 ≤ tm.year ∧ 12 < tm.mon then none else some (p.timegm tm) := by
  rw [timegmChecked, tsTimegmChecked_eq, Platform.timegm, hp]
  split <;> rfl

/-- The reader with its table accesses is the one without them or reads behind a table. -/
theorem isoDatetimeRead7Checked_eq (hp : p.haveTimegm = false) (buf : List UInt8) :
    isoDatetimeRead7Checked buf =
      if 70 ≤ (buf.getD 0 0).toNat ∧ 14 ≤ (buf.getD 1 0).toNat then none
      else some (isoDatetimeRead7 p buf) := by
  have hbytes : (70 ≤ ((buf.getD 0 0).toNat : Int) ∧ 12 < ((buf.getD 1 0).toNat : Int) - 1) ↔
      70 ≤ (buf.getD 0 0).toNat ∧ 14 ≤ (buf.getD 1 0).toNat := by omega
  rw [isoDatetimeRead7Checked]
  dsimp only
  rw [timegmChecked_eq hp]
  by_cases h : 70 ≤ (buf.getD 0 0).toNat ∧ 14 ≤ (buf.getD 1 0).toNat
  · rw [if_pos h, if_pos (hbytes.mpr h)]
    rfl
  · rw [if_neg h, if_neg (mt hbytes.mp h)]
    rfl

theorem reads_inside_iff (hp : p.haveTimegm = false) (buf : List UInt8) :
    isoDatetimeRead7Checked buf = some (isoDatetimeRead7 p buf) ↔
      (buf.getD 0 0).toNat < 70 ∨ (buf.getD 1 0).toNat < 14 := by
  rw [isoDatetimeRead7Checked_eq hp]
  split
  case isTrue h => exact ⟨fun hsome => (nomatch hsome), fun hless => by omega⟩
  case isFalse h => exact ⟨fun _ => by omega, fun _ => rfl⟩

/-- A representable time comes back if and only if it is not before 1970. -/
theorem read_written_iff (hp : p.haveTimegm = false) {t : Int} (ht : Representable t) :
    isoDatetimeRead7 p (isoDatetime7 p t true) = t ↔ 0 ≤ t := by
  rw [read7_written, clampTime_eq ht, hp]
  exact show max t 0 = t ↔ 0 ≤ t from max_eq_left_iff

/-- The seconds since 1970 are right from that year on, written times come back if they are not
before that year, and the month tables are only left with a late year and an invalid month. -/
theorem timeStamps_iff (p : Platform) (hp : p.haveTimegm = false) :
    (∀ tm : Tm, 70 ≤ tm.year → 0 ≤ tm.mon ∧ tm.mon ≤ 11 → tsTimegm tm = Calendar.timegm tm) ∧
      (∀ t, Representable t →
        (isoDatetimeRead7 p (isoDatetime7 p t true) = t ↔ 0 ≤ t)) ∧
      ∀ buf : List UInt8, buf.length = 7 →
        (isoDatetimeRead7Checked buf = some (isoDatetimeRead7 p buf) ↔
          (buf.getD 0 0).toNat < 70 ∨ (buf.getD 1 0).toNat < 14) :=
  ⟨fun _ hyear hmon => tsTimegm_eq hyear hmon, fun _ ht => read_written_iff hp ht,
    fun buf _ => reads_inside_iff hp buf⟩

/-- A system in GMT without timegm(). -/
def oldSystem : Platform := ⟨false, fun t => (gmtime t, 0), 0⟩

theorem oldSystem_stamps :
    (∀ tm : Tm, 70 ≤ tm.year → 0 ≤ tm.mon ∧ tm.mon ≤ 11 → tsTimegm tm = Calendar.timegm tm) ∧
      (∀ t, Representable t →
        (isoDatetimeRead7 oldSystem (isoDatetime7 oldSystem t true) = t ↔ 0 ≤ t)) ∧
      ∀ buf : List UInt8, buf.length = 7 →
        (isoDatetimeRead7Checked buf = some (isoDatetimeRead7 oldSystem buf) ↔
          (buf.getD 0 0).toNat < 70 ∨ (buf.getD 1 0).toNat < 14) :=
  timeStamps_iff oldSystem rfl

/-- The last second of 1969 does not come back, and month 14 of 1970 leaves the table. -/
theorem second_before_epoch_and_month_14 :
    ¬ (∀ t, Representable t → isoDatetimeRead7 oldSystem (isoDatetime7 oldSystem t true) = t) ∧
      ¬ ∀ buf : List UInt8, buf.length = 7 →
        isoDatetimeRead7Checked buf = some (isoDatetimeRead7 oldSystem buf) := by
  constructor
  · intro hround
    have hrepresentable : Representable (-1) := by
      rw [Representable]
      decide
    have hnonneg := (read_written_iff rfl hrepresentable).mp (hround (-1) hrepresentable)
    omega
  · intro hinside
    have hread := (reads_inside_iff rfl _).mp (hinside [70, 14, 1, 0, 0, 0, 0] rfl)
    exact absurd hread (by decide)

end Stamps

end StampReading
