import Mathlib.Data.List.Basic
import Mathlib.Tactic.Ring

/-!
# Broken-down times

A number of seconds stands for a date and a time of day in the Gregorian calendar, without leap
seconds. Years are counted from 1900 on, months from 0 on, and days of a month from 1 on.
-/

namespace Calendar

structure Tm where
  year : Int
  mon : Int
  mday : Int
  hour : Int
  min : Int
  sec : Int
  deriving DecidableEq

/-- Years are counted from 1900 on. -/
def isLeap (year : Int) : Bool :=
  decide ((year + 1900) % 4 = 0 ∧ ((year + 1900) % 100 ≠ 0 ∨ (year + 1900) % 400 = 0))

def monthLengths (leap : Bool) : List Int :=
  [31, if leap then 29 else 28, 31, 30, 31, 30, 31, 31, 30, 31, 30, 31]

/-- From the first day of 1970 to the first one of the year. -/
def daysBeforeYear (year : Int) : Int :=
  365 * (year + 1899) + (year + 1899) / 4 - (year + 1899) / 100 + (year + 1899) / 400 - 719162

def daysBeforeMonth (leap : Bool) (mon : Nat) : Int := ((monthLengths leap).take mon).sum

/-- `timegm()`. Months outside of 0 to 11 belong to other years. -/
def timegm (tm : Tm) : Int :=
  let year := tm.year + tm.mon / 12
  let days :=
    daysBeforeYear year + daysBeforeMonth (isLeap year) (tm.mon % 12).toNat + (tm.mday - 1)
  86400 * days + 3600 * tm.hour + 60 * tm.min + tm.sec

/-- The month in which a day is, and the days before in the same month. -/
def splitDays : List Int → Int → Nat × Int
  | [], day => (0, day)
  | length :: rest, day =>
    if day < length then (0, day)
    else ((splitDays rest (day - length)).1 + 1, (splitDays rest (day - length)).2)

/-- The parts of a day number: 400 years, 100 years, 4 years, one year, and the day of the year. -/
structure YearParts where
  era : Int
  century : Int
  quad : Int
  single : Int
  day : Int

def yearParts (days : Int) : YearParts :=
  let era := days / 146097
  let dayOfEra := days % 146097
  let century := min (dayOfEra / 36524) 3
  let dayOfCentury := dayOfEra - 36524 * century
  let quad := dayOfCentury / 1461
  let dayOfQuad := dayOfCentury - 1461 * quad
  let single := min (dayOfQuad / 365) 3
  ⟨era, century, quad, single, dayOfQuad - 365 * single⟩

/-- The year which has these parts behind the first day of year 1. -/
def YearParts.year (p : YearParts) : Int :=
  400 * p.era + 100 * p.century + 4 * p.quad + p.single - 1899

/-- `gmtime()` -/
def gmtime (t : Int) : Tm :=
  let parts := yearParts (t / 86400 + 719162)
  let month := splitDays (monthLengths (isLeap parts.year)) parts.day
  let sec := t % 86400
  ⟨parts.year, month.1, month.2 + 1, sec / 3600, sec % 3600 / 60, sec % 60⟩

section Days

variable {leap : Bool} {lengths : List Int} {day days : Int}

theorem splitDays_sum (lengths : List Int) (day : Int) :
    (lengths.take (splitDays lengths day).1).sum + (splitDays lengths day).2 = day := by
  induction lengths generalizing day with
  | nil => simp [splitDays]
  | cons length rest ih =>
    rw [splitDays]
    split
    next => simp
    next =>
      have hrest := ih (day - length)
      rw [List.take_succ_cons, List.sum_cons]
      omega

theorem splitDays_bounds (h0 : 0 ≤ day) (hlt : day < lengths.sum) :
    (splitDays lengths day).1 < lengths.length ∧ 0 ≤ (splitDays lengths day).2 ∧
      ∃ length ∈ lengths, (splitDays lengths day).2 < length := by
  induction lengths generalizing day with
  | nil =>
    rw [List.sum_nil] at hlt
    omega
  | cons length rest ih =>
    rw [splitDays]
    split
    next hfirst =>
      exact ⟨Nat.succ_pos _, h0, length, List.mem_cons_self, hfirst⟩
    next hfirst =>
      rw [List.sum_cons] at hlt
      obtain ⟨hmonth, hday, other, hother, hbound⟩ := @ih (day - length) (by omega) (by omega)
      exact ⟨Nat.succ_lt_succ hmonth, hday, other, List.mem_cons_of_mem _ hother, hbound⟩

theorem monthLengths_le {length : Int} (h : length ∈ monthLengths leap) : length ≤ 31 := by
  cases leap <;> simp [monthLengths] at h <;> omega

theorem monthLengths_sum : (monthLengths leap).sum = 365 + if leap then 1 else 0 := by
  cases leap <;> rfl

theorem yearParts_bounds (days : Int) :
    0 ≤ (yearParts days).century ∧ (yearParts days).century ≤ 3 ∧ 0 ≤ (yearParts days).quad ∧
      (yearParts days).quad ≤ 24 ∧ 0 ≤ (yearParts days).single ∧ (yearParts days).single ≤ 3 := by
  simp only [yearParts]
  omega

/-- The parts add up to the number of days. -/
theorem yearParts_sum (days : Int) : 146097 * (yearParts days).era +
    36524 * (yearParts days).century + 1461 * (yearParts days).quad +
      365 * (yearParts days).single + (yearParts days).day = days := by
  simp only [yearParts]
  omega

theorem daysBeforeYear_parts (days : Int) :
    daysBeforeYear (yearParts days).year + (yearParts days).day = days - 719162 := by
  have hbounds := yearParts_bounds days
  have hsum := yearParts_sum days
  simp only [daysBeforeYear, YearParts.year]
  generalize yearParts days = parts at *
  have hfour : (400 * parts.era + 100 * parts.century + 4 * parts.quad + parts.single) / 4 =
      100 * parts.era + 25 * parts.century + parts.quad := by omega
  have hhundred : (400 * parts.era + 100 * parts.century + 4 * parts.quad + parts.single) / 100 =
      4 * parts.era + parts.century := by omega
  have hera : (400 * parts.era + 100 * parts.century + 4 * parts.quad + parts.single) / 400 =
      parts.era := by omega
  rw [Int.sub_add_cancel, hfour, hhundred, hera]
  omega

theorem isLeap_parts (days : Int) : isLeap (yearParts days).year = true ↔
    (yearParts days).single = 3 ∧ ((yearParts days).quad ≠ 24 ∨ (yearParts days).century = 3) := by
  have hbounds := yearParts_bounds days
  rw [isLeap, decide_eq_true_iff, YearParts.year]
  generalize yearParts days = parts at *
  omega

/-- The day is in its year. -/
theorem yearParts_day (days : Int) : 0 ≤ (yearParts days).day ∧
    (yearParts days).day < (monthLengths (isLeap (yearParts days).year)).sum := by
  have hday : 0 ≤ (yearParts days).day ∧ (yearParts days).day ≤ 365 ∧
      ((yearParts days).day = 365 → (yearParts days).single = 3 ∧
        ((yearParts days).quad ≠ 24 ∨ (yearParts days).century = 3)) := by
    simp only [yearParts]
    omega
  have hleap := isLeap_parts days
  rw [monthLengths_sum]
  split
  next => omega
  next hnot =>
    have hne : (yearParts days).day ≠ 365 := fun heq => hnot (hleap.mpr (hday.2.2 heq))
    omega

end Days

section Times

/-- What the fields of a time can be. -/
structure Tm.Valid (tm : Tm) : Prop where
  mon : 0 ≤ tm.mon ∧ tm.mon ≤ 11
  mday : 1 ≤ tm.mday ∧ tm.mday ≤ 31
  hour : 0 ≤ tm.hour ∧ tm.hour ≤ 23
  min : 0 ≤ tm.min ∧ tm.min ≤ 59
  sec : 0 ≤ tm.sec ∧ tm.sec ≤ 59

theorem valid_gmtime (t : Int) : (gmtime t).Valid := by
  obtain ⟨h0, hlt⟩ := yearParts_day (t / 86400 + 719162)
  obtain ⟨hmonth, hday, length, hmem, hbound⟩ := splitDays_bounds h0 hlt
  have hlength := monthLengths_le hmem
  have htwelve (leap : Bool) : (monthLengths leap).length = 12 := rfl
  rw [htwelve] at hmonth
  constructor
  case mon =>
    simp only [gmtime]
    omega
  case mday =>
    simp only [gmtime]
    omega
  case hour =>
    simp only [gmtime]
    omega
  case min =>
    simp only [gmtime]
    omega
  case sec =>
    simp only [gmtime]
    omega

theorem timegm_gmtime (t : Int) : timegm (gmtime t) = t := by
  have hmon := (valid_gmtime t).mon
  have hyear := daysBeforeYear_parts (t / 86400 + 719162)
  have hdays := splitDays_sum (monthLengths (isLeap (yearParts (t / 86400 + 719162)).year))
    (yearParts (t / 86400 + 719162)).day
  have hquot : (gmtime t).mon / 12 = 0 := by omega
  have hrem : (gmtime t).mon % 12 = (gmtime t).mon := by omega
  rw [timegm, hquot, hrem, Int.add_zero]
  simp only [gmtime, Int.toNat_natCast, daysBeforeMonth]
  omega

theorem daysBeforeYear_succ (year : Int) : daysBeforeYear (year + 1) =
    daysBeforeYear year + 365 + if isLeap year then 1 else 0 := by
  have hleap : isLeap year = true ↔ (year + 1900) % 4 = 0 ∧
      ((year + 1900) % 100 ≠ 0 ∨ (year + 1900) % 400 = 0) := by rw [isLeap, decide_eq_true_iff]
  have hnext : year + 1 + 1899 = year + 1900 := by ring
  have hthis : year + 1899 = year + 1900 - 1 := by ring
  rw [daysBeforeYear, daysBeforeYear, hnext, hthis]
  split
  next h =>
    rw [hleap] at h
    omega
  next h =>
    rw [hleap] at h
    omega

/-- The years before 1970 belong to the negative times. -/
theorem year_gmtime (t : Int) : (gmtime t).year < 70 ↔ t < 0 := by
  have hyear := daysBeforeYear_parts (t / 86400 + 719162)
  have hday := yearParts_day (t / 86400 + 719162)
  have hsucc := daysBeforeYear_succ (yearParts (t / 86400 + 719162)).year
  rw [monthLengths_sum] at hday
  change (yearParts (t / 86400 + 719162)).year < 70 ↔ t < 0
  generalize yearParts (t / 86400 + 719162) = parts at *
  constructor
  · intro hlt
    have hnext : daysBeforeYear (parts.year + 1) ≤ 0 := by
      rw [daysBeforeYear]
      omega
    omega
  · intro hneg
    by_contra hge
    have hthis : 0 ≤ daysBeforeYear parts.year := by
      rw [daysBeforeYear]
      omega
    omega

end Times

end Calendar
