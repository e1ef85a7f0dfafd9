/-! The proleptic Gregorian calendar: dates and day numbers, day 0 being 1970-01-01.
A counted year begins in March, so that a leap day is the last day of its year. -/
namespace TableQuery

structure Date where
  year : Int
  month : Nat
  day : Nat
deriving DecidableEq

namespace Date

def isLeapYear (year : Int) : Bool :=
  year % 4 == 0 && (year % 100 != 0 || year % 400 == 0)

def daysInMonth (year : Int) (month : Nat) : Nat :=
  if month = 2 then if isLeapYear year then 29 else 28
  else if month = 4 ∨ month = 6 ∨ month = 9 ∨ month = 11 then 30
  else 31

def isValid (d : Date) : Bool :=
  1 ≤ d.month && d.month ≤ 12 && 1 ≤ d.day && d.day ≤ daysInMonth d.year d.month

def epochOffset : Int := 719468

def dayNumber (d : Date) : Int :=
  let year := if d.month ≤ 2 then d.year - 1 else d.year
  let month : Int := if d.month ≤ 2 then d.month + 9 else d.month - 3
  365 * year + year / 4 - year / 100 + year / 400 + (153 * month + 2) / 5 + d.day - 1 - epochOffset

/-- Peels off the four centuries, the century, the four years and the year that a day is in.
The last century of four, and the last year of four, has one day more. -/
def ofDayNumber (n : Int) : Date :=
  let days := n + epochOffset
  let inEra := days % 146097
  let century := min (inEra / 36524) 3
  let inCentury := inEra - 36524 * century
  let inFourYears := inCentury % 1461
  let yearOfFour := min (inFourYears / 365) 3
  let inYear := inFourYears - 365 * yearOfFour
  let month := (5 * inYear + 2) / 153
  let year := 400 * (days / 146097) + 100 * century + 4 * (inCentury / 1461) + yearOfFour
  { year := if month < 10 then year else year + 1
    month := (if month < 10 then month + 3 else month - 9).toNat
    day := (inYear - (153 * month + 2) / 5 + 1).toNat }

end Date
end TableQuery
