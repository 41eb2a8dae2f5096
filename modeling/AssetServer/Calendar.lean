/-!
# The calendar

Days of the Gregorian calendar, also before it was introduced.

`Calendar.ofDays` and `Calendar.toDays` convert between a count of days and a date. Both count in
eras of 400 years that begin in March, so that a leap day ends its year.
-/

namespace AssetServer.Calendar

/-- A day of the calendar. Months count from 1, days of a month from 1. -/
structure Date where
  year : Int
  month : Nat
  day : Nat
  deriving DecidableEq, Repr

/-- The years that dates can have. -/
def minYear : Int := -262143
def maxYear : Int := 262142

/-- Days in an era of 400 years. -/
def daysPerEra : Int := 146097

/-- Days from the first of March of year 0 to the start of 1970. -/
def daysToEpoch : Int := 719468

/-- The date of a day, counted from the start of 1970. -/
def ofDays (days : Int) : Date :=
  let z := days + daysToEpoch
  let era := Int.fdiv z daysPerEra
  let doe := Int.toNat (z - era * daysPerEra)
  let yoe := (doe - doe / 1460 + doe / 36524 - doe / 146096) / 365
  let doy := doe - (365 * yoe + yoe / 4 - yoe / 100)
  let mp := (5 * doy + 2) / 153
  let month := if mp < 10 then mp + 3 else mp - 9
  { year := (yoe : Int) + era * 400 + (if month ≤ 2 then 1 else 0)
    month := month
    day := doy - (153 * mp + 2) / 5 + 1 }

/-- The day of a date, counted from the start of 1970. -/
def toDays (date : Date) : Int :=
  let y := if date.month ≤ 2 then date.year - 1 else date.year
  let era := Int.fdiv y 400
  let yoe := Int.toNat (y - era * 400)
  let mp := if 2 < date.month then date.month - 3 else date.month + 9
  let doy := (153 * mp + 2) / 5 + date.day - 1
  let doe := yoe * 365 + yoe / 4 - yoe / 100 + doy
  era * daysPerEra + doe - daysToEpoch

/-- Whether a year has a leap day. -/
def isLeap (year : Int) : Bool :=
  year % 4 == 0 && (year % 100 != 0 || year % 400 == 0)

/-- The number of days in a month. -/
def daysInMonth (year : Int) (month : Nat) : Nat :=
  if month = 2 then (if isLeap year then 29 else 28)
  else if month = 4 ∨ month = 6 ∨ month = 9 ∨ month = 11 then 30
  else 31

/-- Whether a date exists. -/
def Date.valid (date : Date) : Bool :=
  minYear ≤ date.year && date.year ≤ maxYear && 1 ≤ date.month && date.month ≤ 12 &&
  1 ≤ date.day && date.day ≤ daysInMonth date.year date.month

/-- The day of the week of a day counted from the start of 1970, from 0 for Monday. -/
def weekday (days : Int) : Nat :=
  Int.toNat (Int.fmod (days + 3) 7)

end AssetServer.Calendar
