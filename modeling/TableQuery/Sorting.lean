import TableQuery.Row.Basic
import TableQuery.Text.Cut

/-! Sorting rows by terms, each a column and a direction. Rows that no term tells apart keep
their order. -/
namespace TableQuery
open TableQuery.Text

inductive Direction where
  | ascending
  | descending
deriving DecidableEq

namespace Direction

def name : Direction → String
  | ascending => "asc"
  | descending => "desc"

def ofWord (word : List Char) : Direction :=
  if word.map Char.toLower = "desc".toList then descending else ascending

def apply : Direction → Ordering → Ordering
  | ascending, o => o
  | descending, o => o.swap

end Direction

structure SortTerm where
  column : String
  direction : Direction
deriving DecidableEq

namespace SortTerm

def display (t : SortTerm) : String := t.column ++ " " ++ t.direction.name

def nullsLast (a b : Value) : Ordering :=
  match a.isNull, b.isNull with
  | true, true => .eq
  | true, false => .gt
  | false, true => .lt
  | false, false => a.sortCompare b

def compare (t : SortTerm) (a b : Row) : Ordering :=
  t.direction.apply (nullsLast (a.value t.column) (b.value t.column))

def compareAll : List SortTerm → Row → Row → Ordering
  | [], _, _ => .eq
  | t :: ts, a, b => (t.compare a b).then (compareAll ts a b)

def sort (ts : List SortTerm) (rows : List Row) : List Row :=
  rows.mergeSort fun a b => (compareAll ts a b).isLE

def ofClause (clause : String) : List SortTerm :=
  (terms clause.toList).filterMap fun term =>
    match words term with
    | [] => none
    | [column] => some ⟨String.ofList column, .ascending⟩
    | column :: direction :: _ => some ⟨String.ofList column, Direction.ofWord direction⟩

end SortTerm
end TableQuery
