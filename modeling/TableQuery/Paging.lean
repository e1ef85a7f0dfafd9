import TableQuery.Row.Basic
import TableQuery.Text.Blank
import TableQuery.Text.Digits

/-! Counts of rows to skip and to keep, read from texts without ever failing. -/
namespace TableQuery.Paging
open TableQuery.Text

def maxCount : Nat := 0xFFFFFFFFFFFFFFFF

/-- The number that the text begins with, behind blanks and at most one plus sign. A text
that begins otherwise counts as zero, and none counts as more than the greatest count. -/
def count (s : List Char) : Nat :=
  let digits := match trim s with
    | '+' :: s => s
    | s => s
  min (ofDigits (digits.takeWhile Char.isDigit)) maxCount

def offset (n : Nat) (rows : List Row) : List Row := rows.drop n

def limit (n : Nat) (rows : List Row) : List Row := rows.take n

end TableQuery.Paging
