import TableQuery.Condition.Reading
import TableQuery.Engine.Settings
import TableQuery.Grouping
import TableQuery.Journal.Span
import TableQuery.Paging
import TableQuery.Query.Basic
import TableQuery.Row.Json
import TableQuery.Sorting

/-! Running a query: condition, groups, order, offset, limit and selection, one after the
other. What happens is told as events, whatever of them is written in the end. -/
namespace TableQuery

structure Progress where
  rows : List Row
  steps : List Span.Action

namespace Progress

def next (p : Progress) (stage : String) (details : List (String × String)) (rows : List Row) :
    Progress :=
  ⟨rows, p.steps ++ [.step stage (details ++ [("rows", Text.decimal rows.length)])]⟩

def restrict (p : Progress) (clause : Option String) : Except QueryError Progress :=
  match clause with
  | none => .ok p
  | some text =>
    (Condition.ofText text).map fun
      | none => p
      | some c =>
        let (rows, c) := c.select p.rows
        p.next "WHERE" [("filter", c.display)] rows

def group (p : Progress) (columns : List Column) (clause : Option String) : Progress :=
  match Grouping.keysOf (clause.getD "") with
  | [] => p
  | keys => p.next "GROUP_BY" [] (Grouping.group columns keys p.rows)

def sort (p : Progress) (clause : Option String) : Progress :=
  match clause with
  | none => p
  | some text =>
    let terms := SortTerm.ofClause text
    p.next "ORDER_BY" [("orders", ", ".intercalate (terms.map SortTerm.display))]
      (SortTerm.sort terms p.rows)

def skip (p : Progress) (clause : Option String) : Progress :=
  match clause with
  | none => p
  | some text => p.next "OFFSET" [] (Paging.offset (Paging.count text.toList) p.rows)

def keep (p : Progress) (clause : Option String) : Progress :=
  match clause with
  | none => p
  | some text => p.next "LIMIT" [] (Paging.limit (Paging.count text.toList) p.rows)

end Progress

namespace Query

def stages (q : Query) (selection : Selection) (rows : List Row) : Except QueryError Progress :=
  (Progress.restrict ⟨rows, []⟩ (q.clause? .condition)).map fun p =>
    (((p.group selection.columns (q.clause? .groupBy)).sort (q.clause? .orderBy)).skip
      (q.clause? .offset)).keep (q.clause? .limit)

/-- The resulting rows, and what happened on the way. Only the condition can fail, and over
no rows nothing is read or told. -/
def run (q : Query) (elapsed : Nat) (rows : List Row) :
    Except QueryError (List Row) × List Event :=
  if rows.isEmpty then (.ok [], [])
  else
    let span := Span.opened "QUERY_EXECUTE"
    let begun := span.beginEvent [("rows_in", Text.decimal rows.length)]
    let selection := Selection.ofClause (q.clause? .select)
    match q.stages selection rows with
    | .error e => (.error e, begun :: span.run [.fail e])
    | .ok p =>
      let result := p.rows.map selection.project
      let done := Span.Action.complete [("rows_out", Text.decimal result.length)] elapsed
      (.ok result, begun :: span.run (p.steps ++ [done]))

def execute (q : Query) (rows : List Row) : Except QueryError (List Row) := (q.run 0 rows).1

def runJson (q : Query) (elapsed : Nat) (document : Json) :
    Except QueryError (List Row) × List Event :=
  match Row.listOfJson document with
  | .error e => (.error e, [])
  | .ok rows => q.run elapsed rows

end Query

structure Outcome where
  result : Except QueryError (List Row)
  output : List (List Char)
  errors : List (List Char)

structure Engine where
  settings : Settings
deriving DecidableEq

namespace Engine

def write (e : Engine) (ran : Except QueryError (List Row) × List Event) : Outcome :=
  ⟨ran.1, e.settings.logging.written .output ran.2, e.settings.logging.written .errors ran.2⟩

def run (e : Engine) (q : Query) (elapsed : Nat) (rows : List Row) : Outcome :=
  e.write (q.run elapsed rows)

def runJson (e : Engine) (q : Query) (elapsed : Nat) (document : Json) : Outcome :=
  e.write (q.runJson elapsed document)

end Engine
end TableQuery
