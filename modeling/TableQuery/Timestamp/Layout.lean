import TableQuery.Timestamp.Basic
import TableQuery.Text.Digits

/-! The two written forms of a timestamp: date, time and offset apart, or as in RFC 3339. -/
namespace TableQuery.Timestamp
open TableQuery.Text

def yearText (year : Int) : List Char :=
  if 0 ≤ year ∧ year ≤ 9999 then paddedDigits 4 year.natAbs
  else (if year < 0 then '-' else '+') :: paddedDigits 4 year.natAbs

def dateText (d : Date) : List Char :=
  yearText d.year ++ '-' :: (paddedDigits 2 d.month ++ '-' :: paddedDigits 2 d.day)

def fractionText (nanos : Nat) : List Char :=
  if nanos = 0 then []
  else if nanos % 1000000 = 0 then '.' :: paddedDigits 3 (nanos / 1000000)
  else if nanos % 1000 = 0 then '.' :: paddedDigits 6 (nanos / 1000)
  else '.' :: paddedDigits 9 nanos

def timeText (t : Timestamp) : List Char :=
  paddedDigits 2 t.hour ++ ':' :: (paddedDigits 2 t.minute ++ ':' :: paddedDigits 2 t.second) ++
    fractionText t.fraction

def plainText (t : Timestamp) : List Char :=
  dateText t.date ++ ' ' :: t.timeText ++ " +0000".toList

def rfc3339Text (t : Timestamp) : List Char :=
  dateText t.date ++ 'T' :: t.timeText ++ ['Z']

end TableQuery.Timestamp
