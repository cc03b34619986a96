import Libisofs.Lib.Calendar

/-!
# Times in records

iso_datetime_7() stores a time in 7 bytes: the fields of the broken-down time and the offset of
the time zone in units of 15 minutes. Without timegm() in the C library, ts_timegm() is used for
reading, which only knows the years from 1970 on.
-/

namespace RecordTimes

open Calendar

/-- What the configuration tells about the C library, what localtime_r() returns with
`tm_gmtoff`, and what is in a variable which was not set. -/
structure Platform where
  haveTimegm : Bool
  localtime : Int → Tm × Int
  stale : Int

/-! ## Writing -/

/-- The first or the last second of the representable years. -/
def clampYear (tm : Tm) : Tm :=
  if tm.year < 0 then ⟨0, 0, 1, 0, 0, 0⟩
  else if 255 < tm.year then ⟨255, 11, 31, 23, 59, 59⟩
  else tm

def isoDatetime7 (p : Platform) (t : Int) (alwaysGmt : Bool) : List UInt8 :=
  let (tm, gmtoff) := p.localtime t
  let tzoffset := (gmtoff.tdiv 60).tdiv 15
  let (tm, tzoffset) :=
    -- absurd timezone offset, represent time in GMT
    if 52 < tzoffset ∨ tzoffset < -48 ∨ alwaysGmt = true then (gmtime t, 0) else (tm, tzoffset)
  let tm := clampYear tm
  [UInt8.ofInt tm.year, UInt8.ofInt (tm.mon + 1), UInt8.ofInt tm.mday, UInt8.ofInt tm.hour,
    UInt8.ofInt tm.min, UInt8.ofInt tm.sec, UInt8.ofInt tzoffset]

/-! ## Reading -/

def tsIsLeapyear (tmYear : Int) : Bool :=
  decide (tmYear.tmod 4 = 0 ∧ (tmYear.tmod 100 ≠ 0 ∨ tmYear.tmod 400 = 100))

/-- The seconds of so many years from 1970 on. -/
def yearsLoop : Nat → Int
  | 0 => 0
  | i + 1 => yearsLoop i + 365 * 86400 + if tsIsLeapyear (70 + i) then 86400 else 0

def monthLength (leap : Bool) : List Int :=
  if leap then [31, 29, 31, 30, 31, 30, 31, 31, 30, 31, 30, 31]
  else [31, 28, 31, 30, 31, 30, 31, 31, 30, 31, 30, 31]

/-- A month behind the array of month lengths is taken for empty. -/
def tsTimegm (tm : Tm) : Int :=
  let years := tm.year - 70
  if years < 0 then 0
  else
    yearsLoop years.toNat +
      (((monthLength (tsIsLeapyear tm.year)).take tm.mon.toNat).map fun l => l * 86400).sum +
      (tm.mday - 1) * 86400 + tm.hour * 3600 + tm.min * 60 + tm.sec

/-- `timegm()` of the C library or its substitute, which resorts to mktime() in GMT. -/
def Platform.timegm (p : Platform) (tm : Tm) : Int :=
  if p.haveTimegm then Calendar.timegm tm
  else
    let rawT := tsTimegm tm
    if rawT = 0 then rawT
    else if gmtime rawT = tm then rawT
    else Calendar.timegm tm

def isoDatetimeRead7 (p : Platform) (buf : List UInt8) : Int :=
  let field (i : Nat) : Int := (buf.getD i 0).toNat
  p.timegm ⟨field 0, field 1 - 1, field 2, field 3, field 4, field 5⟩ -
    (buf.getD 6 0).toInt8.toInt * 60 * 15

/-- sscanf() with a decimal number of limited width. Without digits the variable stays as is. -/
def Platform.scanDecimal (p : Platform) (width : Nat) (buf : List UInt8) : Int :=
  let isDigit (b : UInt8) := 48 ≤ b && b ≤ 57
  let number (digits : List UInt8) : Int :=
    digits.foldl (fun n b => 10 * n + ((b.toNat : Int) - 48)) 0
  match (buf.dropWhile fun b => b == 32 || (9 ≤ b && b ≤ 13)).take width with
  | [] => p.stale
  | b :: rest =>
    let digits := if b = 43 ∨ b = 45 then rest.takeWhile isDigit else (b :: rest).takeWhile isDigit
    if digits = [] then p.stale else if b = 45 then -number digits else number digits

def isoDatetimeRead17 (p : Platform) (buf : List UInt8) : Int :=
  let field (i width : Nat) : Int := p.scanDecimal width (buf.drop i)
  p.timegm ⟨field 0 4 - 1900, field 4 2 - 1, field 6 2, field 8 2, field 10 2, field 12 2⟩ -
    (buf.getD 16 0).toInt8.toInt * 60 * 15

section Substitute

theorem tsIsLeapyear_eq {year : Int} (h : 0 ≤ year) : tsIsLeapyear year = isLeap year := by
  rw [tsIsLeapyear, isLeap, decide_eq_decide, Int.tmod_eq_emod_of_nonneg h,
    Int.tmod_eq_emod_of_nonneg h, Int.tmod_eq_emod_of_nonneg h]
  omega

theorem monthLength_eq (leap : Bool) : monthLength leap = monthLengths leap := by
  cases leap <;> rfl

theorem yearsLoop_eq (n : Nat) : yearsLoop n = 86400 * daysBeforeYear (70 + n) := by
  induction n with
  | zero => rfl
  | succ n ih =>
    have hcast : (70 : Int) + (n + 1 : Nat) = 70 + n + 1 := by omega
    rw [yearsLoop, ih, tsIsLeapyear_eq (by omega), hcast, daysBeforeYear_succ]
    split
    next => ring
    next => ring

theorem sum_map_seconds (lengths : List Int) :
    (lengths.map fun l => l * 86400).sum = 86400 * lengths.sum := by
  induction lengths with
  | nil => rfl
  | cons length rest ih =>
    rw [List.map_cons, List.sum_cons, List.sum_cons, ih]
    ring

/-- From 1970 on, the loops count like the calendar. -/
theorem tsTimegm_eq {tm : Tm} (hyear : 70 ≤ tm.year) (hmon : 0 ≤ tm.mon ∧ tm.mon ≤ 11) :
    tsTimegm tm = Calendar.timegm tm := by
  have hquot : tm.mon / 12 = 0 := by omega
  have hrem : tm.mon % 12 = tm.mon := by omega
  have hsum : (70 : Int) + (tm.year - 70).toNat = tm.year := by omega
  have hyears : ¬ tm.year - 70 < 0 := by omega
  rw [tsTimegm, Calendar.timegm, if_neg hyears, yearsLoop_eq, hsum, sum_map_seconds,
    monthLength_eq, tsIsLeapyear_eq (by omega), hquot, hrem, Int.add_zero, daysBeforeMonth]
  ring

/-- The substitute turns the times before 1970 to 0. -/
theorem timegm_gmtime (p : Platform) (t : Int) :
    p.timegm (gmtime t) = if p.haveTimegm then t else max t 0 := by
  rw [Platform.timegm]
  split
  next => exact Calendar.timegm_gmtime t
  next =>
    by_cases hneg : t < 0
    · have hyears : (gmtime t).year - 70 < 0 := by
        have := (year_gmtime t).mpr hneg
        omega
      have hraw : tsTimegm (gmtime t) = 0 := by rw [tsTimegm, if_pos hyears]
      simp only [hraw, if_true]
      omega
    · have hge : 70 ≤ (gmtime t).year := Int.not_lt.mp fun h => hneg ((year_gmtime t).mp h)
      have hraw : tsTimegm (gmtime t) = t :=
        (tsTimegm_eq hge (valid_gmtime t).mon).trans (Calendar.timegm_gmtime t)
      simp only [hraw, if_true, ite_self]
      omega

end Substitute

section RoundTrip

variable {p : Platform} {t : Int}

theorem toNat_ofInt {x : Int} (h : 0 ≤ x ∧ x ≤ 255) : ((UInt8.ofInt x).toNat : Int) = x := by
  rw [UInt8.ofInt, UInt8.toNat_ofNat']
  omega

/-- Fields which fit into bytes get read as they were. -/
theorem read7_fields (tm : Tm) (hvalid : tm.Valid) (hyear : 0 ≤ tm.year ∧ tm.year ≤ 255) :
    isoDatetimeRead7 p [UInt8.ofInt tm.year, UInt8.ofInt (tm.mon + 1), UInt8.ofInt tm.mday,
      UInt8.ofInt tm.hour, UInt8.ofInt tm.min, UInt8.ofInt tm.sec, UInt8.ofInt 0] =
        p.timegm tm := by
  obtain ⟨hmon, hmday, hhour, hmin, hsec⟩ := hvalid
  have hzero : (UInt8.ofInt 0).toInt8.toInt * 60 * 15 = 0 := by decide
  rw [isoDatetimeRead7]
  simp only [List.getD_cons_zero, List.getD_cons_succ]
  rw [hzero, Int.sub_zero, toNat_ofInt hyear, toNat_ofInt (by omega), toNat_ofInt (by omega),
    toNat_ofInt (by omega), toNat_ofInt (by omega), toNat_ofInt (by omega), Int.add_sub_cancel]

/-- The time which gets written. -/
def clampTime (t : Int) : Int :=
  if (gmtime t).year < 0 then -2208988800
  else if 255 < (gmtime t).year then 5869583999
  else t

theorem clampYear_gmtime (t : Int) : clampYear (gmtime t) = gmtime (clampTime t) := by
  have hfirst : gmtime (-2208988800) = ⟨0, 0, 1, 0, 0, 0⟩ := by decide
  have hlast : gmtime 5869583999 = ⟨255, 11, 31, 23, 59, 59⟩ := by decide
  rw [clampYear, clampTime]
  split
  next => exact hfirst.symm
  next =>
    split
    next => exact hlast.symm
    next => rfl

theorem clampYear_bounds (tm : Tm) : 0 ≤ (clampYear tm).year ∧ (clampYear tm).year ≤ 255 := by
  rw [clampYear]
  split
  next => decide
  next =>
    split
    next => decide
    next => omega

theorem read7_written (p : Platform) (t : Int) : isoDatetimeRead7 p (isoDatetime7 p t true) =
    if p.haveTimegm then clampTime t else max (clampTime t) 0 := by
  have hvalid : (clampYear (gmtime t)).Valid := by
    rw [clampYear_gmtime]
    exact valid_gmtime _
  have hread := @read7_fields p _ hvalid (clampYear_bounds _)
  simp only [isoDatetime7, or_true, if_true]
  rw [hread, clampYear_gmtime, timegm_gmtime]

/-- A time in the years 1900 to 2155. -/
def Representable (t : Int) : Prop := 0 ≤ (gmtime t).year ∧ (gmtime t).year ≤ 255

theorem clampTime_eq (h : Representable t) : clampTime t = t := by
  obtain ⟨hlow, hhigh⟩ := h
  rw [clampTime, if_neg (by omega), if_neg (by omega)]

/-- Times do not get 0 by the limits of the years. -/
theorem clampTime_sign (t : Int) : (clampTime t = 0 ↔ t = 0) ∧ (clampTime t ≤ 0 ↔ t ≤ 0) := by
  have hbefore := year_gmtime t
  have hzero : t = 0 → (gmtime t).year = 70 := by
    rintro rfl
    decide
  rw [clampTime]
  split
  next => omega
  next =>
    split
    next => omega
    next => exact ⟨Iff.rfl, Iff.rfl⟩

end RoundTrip

end RecordTimes
