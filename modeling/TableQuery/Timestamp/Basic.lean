import TableQuery.Timestamp.Calendar

/-! Points in time: a second of the Unix epoch, taken as UTC, and nanoseconds in it.
A leap second counts its nanoseconds on from the second before it. -/
namespace TableQuery

structure Timestamp where
  seconds : Int
  nanos : Nat
  -- from the start of the year -262143 to the end of the year 262142
  first_le : -8334601228800 ≤ seconds
  le_last : seconds ≤ 8210266876799
  nanos_lt : nanos < 2000000000
  leap_second : 1000000000 ≤ nanos → seconds % 60 = 59
deriving DecidableEq

namespace Timestamp

def ofEpoch? (seconds : Int) (nanos : Nat) : Option Timestamp :=
  if h : -8334601228800 ≤ seconds ∧ seconds ≤ 8210266876799 ∧ nanos < 2000000000 ∧
      (1000000000 ≤ nanos → seconds % 60 = 59) then
    some ⟨seconds, nanos, h.1, h.2.1, h.2.2.1, h.2.2.2⟩
  else none

def compare (a b : Timestamp) : Ordering :=
  (Ord.compare a.seconds b.seconds).then (Ord.compare a.nanos b.nanos)

def date (t : Timestamp) : Date := Date.ofDayNumber (t.seconds / 86400)

def secondOfDay (t : Timestamp) : Nat := (t.seconds % 86400).toNat

def hour (t : Timestamp) : Nat := t.secondOfDay / 3600

def minute (t : Timestamp) : Nat := t.secondOfDay / 60 % 60

def second (t : Timestamp) : Nat :=
  -- 60 in a leap second
  t.secondOfDay % 60 + t.nanos / 1000000000

def fraction (t : Timestamp) : Nat := t.nanos % 1000000000

structure Clock where
  date : Date
  hour : Nat
  minute : Nat
  second : Nat
  fraction : Nat

/-- The time at which a clock `offset` seconds ahead of UTC shows a reading. The second 60
is the leap second after 59. -/
def ofClock? (c : Clock) (offset : Int) : Option Timestamp :=
  if c.date.isValid && -262143 ≤ c.date.year && c.date.year ≤ 262142 &&
      c.hour < 24 && c.minute < 60 && c.second ≤ 60 && c.fraction < 1000000000 then
    let second := if c.second = 60 then 59 else c.second
    let nanos := if c.second = 60 then 1000000000 + c.fraction else c.fraction
    ofEpoch? (86400 * c.date.dayNumber + 3600 * c.hour + 60 * c.minute + second - offset) nanos
  else none

end Timestamp
end TableQuery
